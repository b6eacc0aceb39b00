/-
**The frame allocator of the kernel.**

`BootInfoFrameAllocator` cuts frames off the usable regions with a cursor, and reuses freed frames first. The
list of free frames is threaded through the frames themselves: the first word of a free frame is the address
of the next one. The kernel reaches all of memory through one mapping and reads and writes it by 64-bit words:
the entries of page tables, and the links of this list.

* `Ram` — memory and allocator, with a record of the frames that were handed out and came back.
-/

import Ferros.Lib.Bytes
import Ferros.Lib.Chain
import Ferros.Lib.System
import Ferros.Mm.Frames
import Mathlib.Algebra.Ring.Nat

namespace Ferros.Mm

open Lib List Option Function

/-! ### Words of a page -/

abbrev Page := Block 4096

abbrev Memory := Frame → Page

/-- The 64-bit word at index `i` of a page. -/
def wordAt (page : Page) (i : Fin 512) : ℕ :=
  leVal 8 (slice page (8 * i) 8 (by omega))

def setWord (page : Page) (i : Fin 512) (word : ℕ) : Page :=
  splice page (8 * i) (leBytes 8 word)

def zeroPage : Page := fun _ => 0

variable {i j : Fin 512} {word count : ℕ} {frame other : Frame} {memory memory' : Memory} {free : List Frame}
  {head : Option ℕ}

section Words

variable {page : Page}

theorem wordAt_setWord_same (fits : word < 2 ^ 64) : wordAt (setWord page i word) i = word := by
  rw [wordAt, setWord, slice_splice_same, leVal_leBytes]
  exact Nat.mod_eq_of_lt fits

theorem wordAt_setWord_other (away : j ≠ i) : wordAt (setWord page i word) j = wordAt page j := by
  have apart : (j : ℕ) ≠ i := fun same => away (Fin.ext same)
  rw [wordAt, setWord, slice_splice_other _ _ _ _ _ (by omega)]
  rfl

theorem wordAt_zeroPage (i : Fin 512) : wordAt zeroPage i = 0 := by
  simp only [wordAt, slice, zeroPage, leVal]
  rfl

end Words

/-! ### The allocator -/

inductive MemoryRegionType
  | usable
  | other
  deriving DecidableEq, Repr

/-- A region of the memory map, by the numbers of its first frame and of the first one after it. Physical
addresses have 52 bits. -/
structure MemoryRegion where
  startFrame : ℕ
  endFrame : ℕ
  regionType : MemoryRegionType
  physical : endFrame ≤ 2 ^ 40
  deriving DecidableEq, Repr

def MemoryRegion.frames (r : MemoryRegion) : List Frame :=
  range' r.startFrame (r.endFrame - r.startFrame)

def usableRegions (memoryMap : List MemoryRegion) : List MemoryRegion :=
  memoryMap.filter fun r => r.regionType = .usable

def usableFrames (memoryMap : List MemoryRegion) : List Frame :=
  (usableRegions memoryMap).flatMap MemoryRegion.frames

structure BootInfoFrameAllocator where
  memoryMap : List MemoryRegion
  next : ℕ
  /-- The address of the first free frame. -/
  freeList : Option ℕ

def freeListEnd : ℕ := 0

def address (f : Frame) : ℕ := 4096 * f

def containing (addr : ℕ) : Frame := addr / 4096

/-- The free frame after the one at `addr`. -/
def nextFree (memory : Memory) (addr : ℕ) : Option ℕ :=
  let next := wordAt (memory (containing addr)) 0
  if next ≠ freeListEnd then some next else none

/-- One step along the list. -/
def successor (memory : Memory) (node : Option ℕ) : Option ℕ := node.bind (nextFree memory)

theorem successor_some (memory : Memory) (addr : ℕ) : successor memory (some addr) = nextFree memory addr :=
  bind_some ..

namespace BootInfoFrameAllocator

/-- What `free_list_len` counts, in at most `fuel` steps. -/
def freeListLen (fuel : ℕ) (memory : Memory) (a : BootInfoFrameAllocator) : ℕ :=
  (follow (successor memory) Option.isSome fuel a.freeList).length

/-- A run of consecutive frames during the search: where it starts, its offset from the cursor and its length,
and the frame before. -/
structure Run where
  start : Option Frame
  offset : ℕ
  len : ℕ
  prev : Option Frame

/-- The run after the next frame. -/
def Run.extend (frame : Frame) (offset : ℕ) (run : Run) : Run :=
  if run.prev.any fun p => address frame = address p + 4096 then
    { run with len := run.len + 1, prev := some frame }
  else ⟨some frame, offset, 1, some frame⟩

/-- The search for `count` consecutive frames: the first of them, and how far the cursor moves. -/
def findRun (count : ℕ) : List Frame → ℕ → Run → Option (Option Frame × ℕ)
  | [], _, _ => none
  | frame :: rest, offset, run =>
    let run := run.extend frame offset
    if run.len = count then some (run.start, run.offset + count)
    else findRun count rest (offset + 1) run

def allocateContiguous (count : ℕ) (a : BootInfoFrameAllocator) :
    Option Frame × BootInfoFrameAllocator :=
  if count = 0 then (none, a)
  else
    match findRun count ((usableFrames a.memoryMap).drop a.next) 0 ⟨none, 0, 0, none⟩ with
    | some (start, used) => (start, { a with next := a.next + used })
    | none => (none, a)

def allocateFrame (memory : Memory) (a : BootInfoFrameAllocator) :
    Option Frame × BootInfoFrameAllocator :=
  match a.freeList with
  | some head => (some (containing head), { a with freeList := nextFree memory head })
  | none => ((usableFrames a.memoryMap)[a.next]?, { a with next := a.next + 1 })

def deallocateFrame (frame : Frame) (memory : Memory) (a : BootInfoFrameAllocator) :
    Memory × BootInfoFrameAllocator :=
  let prevHead := a.freeList.getD freeListEnd
  (update memory frame (setWord (memory frame) 0 prevHead),
    { a with freeList := some (address frame) })

end BootInfoFrameAllocator

/-! ### Memory and its frames in use -/

/-- What passes between the allocator and the owners of frames. -/
inductive Passage
  | out (frame : Frame)
  | run (start : Frame) (count : ℕ)
  | back (frame : Frame)
  deriving DecidableEq, Repr

/-- The frames handed out singly and not given back; the record is read from its end. -/
def held : List Passage → List Frame
  | [] => []
  | .out frame :: earlier => frame :: held earlier
  | .run _ _ :: earlier => held earlier
  | .back frame :: earlier => (held earlier).erase frame

/-- The frames of contiguous runs, which never come back. -/
def runFrames : List Passage → List Frame
  | [] => []
  | .run start count :: earlier => range' start count ++ runFrames earlier
  | .out _ :: earlier => runFrames earlier
  | .back _ :: earlier => runFrames earlier

/-- The frames given back and not handed out again, the last one first. -/
def freed : List Passage → List Frame
  | [] => []
  | .out frame :: earlier => (freed earlier).erase frame
  | .run _ _ :: earlier => freed earlier
  | .back frame :: earlier => frame :: freed earlier

def handedOut : List Passage → List Frame
  | [] => []
  | .out frame :: earlier => frame :: handedOut earlier
  | .run start count :: earlier => range' start count ++ handedOut earlier
  | .back _ :: earlier => handedOut earlier

structure Ram where
  memory : Memory
  allocator : BootInfoFrameAllocator
  /-- What was handed out and came back so far, the last first. -/
  trace : List Passage

namespace Ram

def init (memory : Memory) (memoryMap : List MemoryRegion) : Ram :=
  ⟨memory, ⟨memoryMap, 0, none⟩, []⟩

def allocateFrame (ram : Ram) : Option Frame × Ram :=
  let alloc := ram.allocator.allocateFrame ram.memory
  (alloc.1, { ram with
    allocator := alloc.2
    trace := (alloc.1.map Passage.out).toList ++ ram.trace })

def allocateContiguous (count : ℕ) (ram : Ram) : Option Frame × Ram :=
  let alloc := ram.allocator.allocateContiguous count
  (alloc.1, { ram with
    allocator := alloc.2
    trace := (alloc.1.map fun start => Passage.run start count).toList ++ ram.trace })

def deallocateFrame (frame : Frame) (ram : Ram) : Ram :=
  let deallocated := ram.allocator.deallocateFrame frame ram.memory
  ⟨deallocated.1, deallocated.2, .back frame :: ram.trace⟩

def write (frame : Frame) (page : Page) (ram : Ram) : Ram :=
  { ram with memory := update ram.memory frame page }

section Writes

variable (ram : Ram) (page : Page)

theorem write_same : (ram.write frame page).memory frame = page :=
  update_self ..

theorem write_other (away : other ≠ frame) : (ram.write frame page).memory other = ram.memory other :=
  update_of_ne away ..

theorem deallocateFrame_other (away : other ≠ frame) :
    (ram.deallocateFrame frame).memory other = ram.memory other :=
  update_of_ne away ..

end Writes

theorem allocateFrame_free {ram : Ram} {head : ℕ} (list : ram.allocator.freeList = some head) :
    ram.allocateFrame = (some (containing head), { ram with
      allocator := { ram.allocator with freeList := nextFree ram.memory head }
      trace := .out (containing head) :: ram.trace }) := by
  simp only [allocateFrame, BootInfoFrameAllocator.allocateFrame, list]
  rfl

theorem allocateFrame_cursor {ram : Ram} (list : ram.allocator.freeList = none) : ram.allocateFrame =
      ((usableFrames ram.allocator.memoryMap)[ram.allocator.next]?, { ram with
        allocator := ⟨ram.allocator.memoryMap, ram.allocator.next + 1, none⟩
        trace := ((usableFrames ram.allocator.memoryMap)[ram.allocator.next]?.map
          Passage.out).toList ++ ram.trace }) := by
  simp only [allocateFrame, BootInfoFrameAllocator.allocateFrame, list]

end Ram

/-! ### The list that the links spell out -/

def FreeLinks (memory : Memory) (head : Option ℕ) (free : List Frame) : Prop :=
  IsChain (successor memory) Option.isSome (· = none) head
    (free.map fun f => some (address f))

theorem containing_address (f : Frame) : containing (address f) = f := by
  rw [containing, address, Nat.mul_div_cancel_left f (Nat.zero_lt_succ _)]

theorem address_fits {f : ℕ} (nonzero : 0 < f) (small : f < 2 ^ 40) :
    address f ≠ freeListEnd ∧ address f < 2 ^ 64 := by
  have word : address f = 4096 * f := rfl
  rw [word, freeListEnd]
  omega

theorem eq_succ_of_address {f g : ℕ} (follows : address g = address f + 4096) : g = f + 1 := by
  have word (f : ℕ) : address f = 4096 * f := rfl
  rw [word, word] at follows
  omega

theorem FreeLinks.nil_of_none (links : FreeLinks memory none free) : free = [] := by
  cases free with
  | nil => rfl
  | cons f rest => exact absurd links.2.1 (by decide)

theorem FreeLinks.cons_of_some {head : ℕ} (links : FreeLinks memory (some head) free) :
    ∃ f rest, free = f :: rest ∧ head = address f ∧ FreeLinks memory (nextFree memory head) rest := by
  cases free with
  | nil => cases links
  | cons f rest =>
    obtain ⟨isHead, _, tail⟩ := links
    rw [successor_some] at tail
    exact ⟨f, rest, rfl, (some.inj isHead).symm, tail⟩

section

variable (links : FreeLinks memory head free)
include links

theorem FreeLinks.congr (same : ∀ f ∈ free, memory' f = memory f) : FreeLinks memory' head free := by
  refine IsChain.congr links fun x mem => ?_
  obtain ⟨f, isFree, rfl⟩ := mem_map.mp mem
  rw [successor_some, successor_some, nextFree, nextFree, containing_address, same f isFree]

/-- The free list has no cycle. -/
theorem FreeLinks.nodup : free.Nodup :=
  (IsChain.nodup (fun _ stops => stops ▸ rfl) links).of_map _

/-- **A freed frame becomes the head**: its first word links it to the list so far. -/
theorem FreeLinks.push {f : Frame} (word : ∀ addr ∈ head, addr ≠ freeListEnd ∧ addr < 2 ^ 64)
    (linked : memory' f = setWord (memory f) 0 (head.getD freeListEnd))
    (same : ∀ g ∈ free, memory' g = memory g) : FreeLinks memory' (some (address f)) (f :: free) := by
  refine ⟨rfl, rfl, ?_⟩
  have next : nextFree memory' (address f) = head := by
    rw [nextFree, containing_address, linked]
    cases head with
    | none => rw [wordAt_setWord_same (by decide)]; rfl
    | some addr =>
      obtain ⟨nonzero, fits⟩ := word addr rfl
      rw [getD_some, wordAt_setWord_same fits]
      exact if_pos nonzero
  rw [successor_some, next]
  exact links.congr same

end

/-! ### The allocator on lists -/

theorem lt_of_mem_usableFrames {memoryMap : List MemoryRegion} {f : ℕ} (usable : f ∈ usableFrames memoryMap) :
    f < 2 ^ 40 := by
  obtain ⟨r, _, inside⟩ := mem_flatMap.mp usable
  obtain ⟨i, short, rfl⟩ := mem_range'.mp inside
  have := r.physical
  omega

/-- The allocator works like the one on lists: same frames, same cursor, and its links spell out the free
list. -/
structure Refines (ram : Ram) (a : FrameAllocator) : Prop where
  usable : usableFrames ram.allocator.memoryMap = a.memoryMap.usable
  next : ram.allocator.next = a.next
  links : FreeLinks ram.memory ram.allocator.freeList a.free
  free : ∀ f ∈ a.free, f ∈ a.memoryMap.usable

section Refines

variable {ram : Ram} {a : FrameAllocator}

section

variable (refines : Refines ram a)
include refines

/-- **The list in memory gives the frame that the abstract list gives.** -/
theorem Refines.allocateFrame :
    ram.allocateFrame.1 = (Mm.allocateFrame a).1 ∧ Refines ram.allocateFrame.2 (Mm.allocateFrame a).2 := by
  obtain ⟨usable, next, links, free⟩ := refines
  cases list : ram.allocator.freeList with
  | none =>
    rw [list] at links
    have empty := links.nil_of_none
    have alloc : Mm.allocateFrame a =
        (a.memoryMap.usable[a.next]?, ⟨a.memoryMap, a.next + 1, []⟩) := by
      simp only [Mm.allocateFrame, empty]
    rw [Ram.allocateFrame_cursor list, alloc]
    exact ⟨by rw [usable, next], usable, congrArg (· + 1) next, empty ▸ links, empty ▸ free⟩
  | some head =>
    rw [list] at links
    obtain ⟨f, rest, isFree, rfl, tail⟩ := links.cons_of_some
    have alloc : Mm.allocateFrame a = (some f, { a with free := rest }) := by
      simp only [Mm.allocateFrame, isFree]
    rw [Ram.allocateFrame_free list, alloc, containing_address]
    refine ⟨rfl, usable, next, ?_, fun g mem => free g (isFree ▸ mem_cons_of_mem f mem)⟩
    dsimp only
    exact tail

/-- **A freed frame becomes the head of the list.** -/
theorem Refines.deallocateFrame {f : Frame} (usable : f ∈ a.memoryMap.usable)
    (fresh : f ∉ a.free) : Refines (ram.deallocateFrame f) (Mm.deallocateFrame f a) := by
  refine ⟨refines.usable, refines.next, ?_, ?_⟩
  · refine refines.links.push (fun addr isHead => ?_) (update_self ..) fun g mem => ?_
    · have links := refines.links
      rw [mem_def.mp isHead] at links
      obtain ⟨g, rest, isFree, rfl, _⟩ := links.cons_of_some
      have there := refines.free g (isFree ▸ mem_cons_self)
      have nonzero : 0 < g := Nat.pos_of_ne_zero fun zero => a.memoryMap.zero (zero ▸ there)
      exact address_fits nonzero (lt_of_mem_usableFrames (refines.usable ▸ there))
    · exact update_of_ne (fun same : g = f => fresh (same ▸ mem)) ..
  · intro g mem
    rcases mem_cons.mp mem with rfl | mem
    · exact usable
    · exact refines.free g mem

/-- Writing outside the free frames does not touch the list. -/
theorem Refines.write {memory : Memory} (same : ∀ f ∈ a.free, memory f = ram.memory f)
    : Refines { ram with memory := memory } a :=
  ⟨refines.usable, refines.next, refines.links.congr same, refines.free⟩

end

end Refines

/-! ### Consecutive frames -/

namespace BootInfoFrameAllocator

/-- The run is the end of the frames passed so far. -/
inductive Run.Trails : Run → List Frame → Prop
  | start : Run.Trails ⟨none, 0, 0, none⟩ []
  | run (skipped : List Frame) (f n : ℕ) :
      Run.Trails ⟨some f, skipped.length, n + 1, some (f + n)⟩ (skipped ++ range' f (n + 1))

theorem Run.Trails.extend {run : Run} {passed : List Frame} (trails : run.Trails passed) (frame : Frame) :
    (run.extend frame passed.length).Trails (passed ++ [frame]) := by
  cases trails with
  | start => exact .run [] frame 0
  | run skipped f n =>
    by_cases follows : address frame = address (f + n) + 4096
    · obtain rfl : frame = f + (n + 1) := eq_succ_of_address follows
      have longer := Run.Trails.run skipped f (n + 1)
      rw [range'_1_concat, ← append_assoc] at longer
      simpa only [Run.extend, any_some, follows, decide_true, if_true] using longer
    · have anew := Run.Trails.run (skipped ++ range' f (n + 1)) frame 0
      rw [Run.extend, if_neg (by simpa only [any_some, decide_eq_true_eq] using follows)]
      exact anew

variable {a a' : BootInfoFrameAllocator}

/-- **What the search finds** is a block of consecutive frames, and the cursor moves right behind it. -/
theorem findRun_spec {used : ℕ} {rest passed : List Frame} {run : Run} {start : Option Frame}
    (positive : 0 < count) (trails : run.Trails passed)
    (found : findRun count rest passed.length run = some (start, used)) :
    ∃ f skipped behind, start = some f ∧ used = skipped.length + count ∧
      passed ++ rest = skipped ++ range' f count ++ behind := by
  induction rest generalizing passed run with
  | nil => exact nomatch found
  | cons frame rest ih =>
    have extended := trails.extend frame
    rw [findRun] at found
    rw [append_cons]
    split at found
    · rename_i long
      cases found
      generalize run.extend frame passed.length = longer at extended long ⊢
      generalize passed ++ [frame] = all at extended ⊢
      cases extended with
      | start => exact absurd long positive.ne
      | run skipped f n =>
        subst long
        exact ⟨f, skipped, rest, rfl, rfl, rfl⟩
    · refine ih extended ?_
      rwa [length_append]

theorem allocateContiguous_some {f : Frame} (alloc : a.allocateContiguous count = (some f, a')) :
    ∃ skipped behind, (usableFrames a.memoryMap).drop a.next = skipped ++ range' f count ++ behind ∧
      a' = { a with next := a.next + (skipped.length + count) } := by
  rw [allocateContiguous] at alloc
  split at alloc
  · exact nomatch alloc
  · rename_i positive
    split at alloc
    · rename_i start used found
      cases alloc
      obtain ⟨f, skipped, behind, isStart, rfl, cut⟩ :=
        @findRun_spec count _ _ [] _ _ (Nat.pos_of_ne_zero positive) .start found
      cases isStart
      exact ⟨skipped, behind, cut, rfl⟩
    · exact nomatch alloc

/-- A refused request leaves the cursor where it was. -/
theorem allocateContiguous_none (refused : a.allocateContiguous count = (none, a')) : a' = a := by
  rw [allocateContiguous] at refused
  split at refused
  · exact (Prod.mk.inj refused).2.symm
  · rename_i positive
    split at refused
    · rename_i start used found
      obtain ⟨f, _, _, isStart, _⟩ := @findRun_spec count _ _ [] _ _ (Nat.pos_of_ne_zero positive) .start found
      exact absurd ((Prod.mk.inj refused).1.symm.trans isStart) (by simp)
    · exact (Prod.mk.inj refused).2.symm

end BootInfoFrameAllocator

end Ferros.Mm
