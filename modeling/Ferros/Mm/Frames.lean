/-
**The allocator of physical frames.**

Freed frames are reused last in, first out; only when none is left does a cursor move on over the usable
frames of the memory map. The list of free frames is threaded through the frames themselves in the source;
here it is a list, since nobody writes to a free frame.

* `FrameAllocator.available` — the frames it will hand out: an allocation takes the first of them, a frame
  given back is put before them.
-/

import Mathlib.Data.List.Nodup
import Mathlib.Data.List.Perm.Basic
import Mathlib.Data.Nat.Notation

namespace Ferros.Mm

open List Option

/-- A physical frame, by number. -/
abbrev Frame := ℕ

/-- The usable frames of the memory map. Frame 0 is none of them: as a link it ends the list of free
frames. -/
structure MemoryMap where
  usable : List Frame
  distinct : usable.Nodup
  zero : 0 ∉ usable

structure FrameAllocator where
  memoryMap : MemoryMap
  next : ℕ
  free : List Frame

def allocateFrame (a : FrameAllocator) : Option Frame × FrameAllocator :=
  match a.free with
  | head :: rest => (some head, { a with free := rest })
  | [] => (a.memoryMap.usable[a.next]?, { a with next := a.next + 1 })

def deallocateFrame (frame : Frame) (a : FrameAllocator) : FrameAllocator :=
  { a with free := frame :: a.free }

theorem allocateFrame_cases (a : FrameAllocator) :
    (∃ head rest, a.free = head :: rest ∧ allocateFrame a = (some head, { a with free := rest })) ∨
      (a.free = [] ∧ allocateFrame a = (a.memoryMap.usable[a.next]?, { a with next := a.next + 1 })) := by
  unfold allocateFrame
  cases list : a.free with
  | nil => exact .inr ⟨rfl, rfl⟩
  | cons head rest => exact .inl ⟨head, rest, rfl, rfl⟩

/-- `n` frames, in the order they are handed out; `none` if they run out. -/
def takeFrames : ℕ → FrameAllocator → Option (List Frame × FrameAllocator)
  | 0, a => some ([], a)
  | n + 1, a =>
    match allocateFrame a with
    | (some frame, a) => (takeFrames n a).map fun (frames, a) => (frame :: frames, a)
    | (none, _) => none

/-- Gives frames back, in order. -/
def giveFrames (frames : List Frame) (a : FrameAllocator) : FrameAllocator :=
  frames.foldl (fun a frame => deallocateFrame frame a) a

/-! ### The frames that are available -/

/-- The frames that the allocator will hand out, in this order: the free list, then what lies ahead of the
cursor. -/
def FrameAllocator.available (a : FrameAllocator) : List Frame :=
  a.free ++ a.memoryMap.usable.drop a.next

variable {a a' : FrameAllocator}

theorem allocateFrame_available {frame : Frame} (alloc : allocateFrame a = (some frame, a')) :
    a.available = frame :: a'.available := by
  rcases allocateFrame_cases a with ⟨head, rest, free, cut⟩ | ⟨free, cut⟩
  · obtain ⟨isHead, rfl⟩ := Prod.mk.inj (cut.symm.trans alloc)
    cases isHead
    rw [FrameAllocator.available, free]
    rfl
  · obtain ⟨there, rfl⟩ := Prod.mk.inj (cut.symm.trans alloc)
    obtain ⟨inside, here⟩ := List.getElem?_eq_some_iff.mp there
    rw [FrameAllocator.available, FrameAllocator.available, free, nil_append, nil_append,
      drop_eq_getElem_cons inside, here]

theorem allocateFrame_memoryMap (a : FrameAllocator) : (allocateFrame a).2.memoryMap = a.memoryMap := by
  rcases allocateFrame_cases a with ⟨_, _, _, cut⟩ | ⟨_, cut⟩ <;> rw [cut]

theorem allocateFrame_none (refused : (allocateFrame a).1 = none) :
    a.available = [] ∧ (allocateFrame a).2.available = [] := by
  rcases allocateFrame_cases a with ⟨_, _, _, cut⟩ | ⟨free, cut⟩
  · rw [cut] at refused
    cases refused
  · rw [cut] at refused ⊢
    have past := getElem?_eq_none_iff.mp refused
    rw [FrameAllocator.available, FrameAllocator.available, free, nil_append, nil_append,
      drop_eq_nil_iff, drop_eq_nil_iff]
    exact ⟨past, Nat.le_succ_of_le past⟩

theorem takeFrames_available {n : ℕ} {frames : List Frame} (took : takeFrames n a = some (frames, a')) :
    a.available = frames ++ a'.available := by
  induction n generalizing a frames with
  | zero =>
    cases took
    rfl
  | succ n ih =>
    unfold takeFrames at took
    split at took
    · rename_i frame a₁ alloc
      obtain ⟨⟨rest, a₂⟩, later, same⟩ := map_eq_some_iff.mp took
      cases same
      rw [allocateFrame_available alloc, ih later, cons_append]
    · exact nomatch took

theorem deallocateFrame_available (frame : Frame) (a : FrameAllocator) :
    (deallocateFrame frame a).available = frame :: a.available :=
  rfl

theorem giveFrames_available (frames : List Frame) (a : FrameAllocator) :
    (giveFrames frames a).available = frames.reverse ++ a.available := by
  induction frames generalizing a with
  | nil => rfl
  | cons frame rest ih =>
    show (giveFrames rest (deallocateFrame frame a)).available = _
    rw [ih, deallocateFrame_available, reverse_cons, append_assoc]
    rfl

end Ferros.Mm
