/-
**Runs of the frame allocator.**

Owners take frames singly or in runs, write to what they hold, and give single frames back, in any order.

* `Kept` — what every call keeps: the allocator does what the one on lists does, whose free list is what the
  record of passages says was freed; frames in use and frames available are apart; all that was handed out
  lies behind the cursor.
* `allocator_uniqueness` — no frame has two owners, and the free list is what was freed, last in, first out.
-/

import Ferros.Mm.FreeList

namespace Ferros.Mm

open Lib List Option Function

variable {ram ram' : Ram} {a a' : FrameAllocator} {f start : Frame} {next count : ℕ}

/-! ### Calls -/

/-- The usable regions do not overlap, and frame 0 is in none of them. -/
structure WellFormed (memoryMap : List MemoryRegion) : Prop where
  apart : (usableRegions memoryMap).Pairwise fun r r' => ∀ f ∈ r.frames, f ∉ r'.frames
  zero : 0 ∉ usableFrames memoryMap

inductive FrameCall
  | allocateFrame
  | allocateContiguous (count : ℕ)
  | deallocateFrame (frame : Frame)
  | write (frame : Frame) (page : Page)

/-- Only single frames are given back, and only by who holds them; only held frames are written to. -/
def FrameCall.perform : FrameCall → Ram → Option Ram
  | .allocateFrame, ram => some ram.allocateFrame.2
  | .allocateContiguous count, ram => some (ram.allocateContiguous count).2
  | .deallocateFrame frame, ram =>
    if frame ∈ held ram.trace then some (ram.deallocateFrame frame) else none
  | .write frame page, ram =>
    if frame ∈ held ram.trace ++ runFrames ram.trace then some (ram.write frame page) else none

def frameCalls : System Ram :=
  System.ofOps (fun ram => ∃ memory memoryMap, WellFormed memoryMap ∧ ram = Ram.init memory memoryMap)
    FrameCall.perform

/-! ### What every call keeps -/

structure Kept (ram : Ram) (a : FrameAllocator) : Prop where
  refines : Refines ram a
  free : a.free = freed ram.trace
  distinct : (held ram.trace ++ runFrames ram.trace ++ a.available).Nodup
  passed : ∀ f ∈ handedOut ram.trace, f ∈ a.memoryMap.usable.take a.next
  out : ∀ f ∈ held ram.trace ++ runFrames ram.trace ++ freed ram.trace, f ∈ handedOut ram.trace

section Kept

theorem kept_init {memoryMap : List MemoryRegion} (wf : WellFormed memoryMap) (memory : Memory) :
    ∃ a, Kept (Ram.init memory memoryMap) a := by
  have nodup : (usableFrames memoryMap).Nodup := nodup_flatMap.mpr ⟨fun r _ => nodup_range', wf.apart⟩
  refine ⟨⟨⟨usableFrames memoryMap, nodup, wf.zero⟩, 0, []⟩, ?_, rfl, nodup, ?_, ?_⟩
  · exact ⟨rfl, rfl, rfl, forall_mem_nil _⟩
  · exact forall_mem_nil _
  · exact forall_mem_nil _

section

variable (kept : Kept ram a)
include kept

theorem Kept.usable (used : f ∈ handedOut ram.trace) : f ∈ a.memoryMap.usable :=
  mem_of_mem_take (kept.passed f used)

theorem Kept.apart (used : f ∈ held ram.trace ++ runFrames ram.trace) : f ∉ a.available :=
  disjoint_of_nodup_append kept.distinct used

theorem Kept.handOut (refines : Refines ram' a') (traced : ram'.trace = .out f :: ram.trace)
    (sameMap : a'.memoryMap = a.memoryMap) (onward : a.next ≤ a'.next) (free : a'.free = a.free.erase f)
    (first : a.available = f :: a'.available) (behind : f ∈ a.memoryMap.usable.take a'.next) :
    Kept ram' a' := by
  refine ⟨refines, ?_, ?_, ?_, ?_⟩ <;> rw [traced]
  · rw [free, kept.free]
    rfl
  · have nodup := kept.distinct
    rw [first] at nodup
    exact (perm_middle.nodup_iff).mp nodup
  · rw [sameMap]
    intro g mem
    rcases mem_cons.mp mem with rfl | mem
    · exact behind
    · exact take_subset_take_left _ onward (kept.passed g mem)
  · intro g mem
    simp only [held, runFrames, freed, cons_append, mem_cons, mem_append] at mem
    rcases mem with rfl | (inUse | mem)
    · exact mem_cons_self
    · exact mem_cons_of_mem _ (kept.out g (mem_append_left _ (mem_append.mpr inUse)))
    · exact mem_cons_of_mem _ (kept.out g (mem_append_right _ (mem_of_mem_erase mem)))

theorem Kept.allocateFrame : Kept ram.allocateFrame.2 (Mm.allocateFrame a).2 := by
  obtain ⟨same, refines⟩ := kept.refines.allocateFrame
  have traced : ram.allocateFrame.2.trace = (ram.allocateFrame.1.map Passage.out).toList ++ ram.trace := rfl
  rcases allocateFrame_cases a with ⟨f, rest, isFree, alloc⟩ | ⟨isEmpty, alloc⟩
  · have first := allocateFrame_available alloc
    rw [alloc] at same refines ⊢
    rw [same] at traced
    have mem : f ∈ freed ram.trace := kept.free ▸ isFree ▸ mem_cons_self
    refine kept.handOut refines traced rfl le_rfl ?_ first ?_
    · rw [isFree, erase_cons_head]
    · exact kept.passed f (kept.out f (mem_append_right _ mem))
  · cases there : a.memoryMap.usable[a.next]? with
    | some f =>
      have first := allocateFrame_available (alloc.trans (by rw [there]))
      rw [alloc] at same refines ⊢
      rw [same, there] at traced
      refine kept.handOut refines traced rfl (Nat.le_succ _) ?_ first ?_
      · rw [isEmpty]
        rfl
      · refine mem_of_getElem? (i := a.next) ?_
        rw [getElem?_take_of_lt (Nat.lt_succ_self _), there]
    | none =>
      rw [alloc] at same refines ⊢
      rw [same, there] at traced
      have past := getElem?_eq_none_iff.mp there
      -- the cursor is past the end: nothing lies ahead of it before and after
      have same : a.available = FrameAllocator.available { a with next := a.next + 1 } := by
        rw [FrameAllocator.available, FrameAllocator.available, drop_eq_nil_of_le past,
          drop_eq_nil_of_le (Nat.le_succ_of_le past)]
      refine ⟨refines, ?_, ?_, ?_, ?_⟩ <;> rw [traced]
      · exact kept.free
      · exact same ▸ kept.distinct
      · exact fun f used => take_subset_take_left _ (Nat.le_succ _) (kept.passed f used)
      · exact kept.out

theorem Kept.deallocateFrame (isHeld : f ∈ held ram.trace) :
    Kept (ram.deallocateFrame f) (Mm.deallocateFrame f a) := by
  have inUse : f ∈ held ram.trace ++ runFrames ram.trace := mem_append_left _ isHeld
  have used := kept.out f (mem_append_left _ inUse)
  refine ⟨?_, ?_, ?_, kept.passed, ?_⟩
  · exact kept.refines.deallocateFrame (kept.usable used)
      fun again => kept.apart inUse (mem_append_left _ again)
  · exact congrArg (f :: ·) kept.free
  · have moved : (held ram.trace ++ runFrames ram.trace ++ a.available).Perm
        ((held ram.trace).erase f ++ runFrames ram.trace ++ f :: a.available) :=
      (((perm_cons_erase isHeld).append_right _).append_right _).trans perm_middle.symm
    exact moved.nodup_iff.mp kept.distinct
  · intro g mem
    show g ∈ handedOut ram.trace
    change g ∈ (held ram.trace).erase f ++ runFrames ram.trace ++ f :: freed ram.trace at mem
    simp only [mem_append, mem_cons] at mem
    rcases mem with (mem | mem) | (rfl | mem)
    · exact kept.out g (mem_append_left _ (mem_append_left _ (mem_of_mem_erase mem)))
    · exact kept.out g (mem_append_left _ (mem_append_right _ mem))
    · exact used
    · exact kept.out g (mem_append_right _ mem)

omit kept in
/-- Moving the cursor over the frames `front`. -/
theorem drop_take_of_cut {frames front behind : List Frame} (cut : frames.drop next = front ++ behind) :
    frames.drop (next + front.length) = behind ∧
      frames.take (next + front.length) = frames.take next ++ front := by
  constructor
  · rw [← drop_drop, cut, drop_left]
  · rw [take_add, cut, take_left]

theorem Kept.allocateContiguous : ∃ a', Kept (ram.allocateContiguous count).2 a' := by
  cases alloc : ram.allocator.allocateContiguous count with
  | mk start allocator =>
    have result : ram.allocateContiguous count = (start, { ram with
        allocator := allocator
        trace := (start.map fun start => Passage.run start count).toList ++ ram.trace }) := by
      rw [Ram.allocateContiguous, alloc]
    rw [result]
    cases start with
    | none =>
      obtain rfl := BootInfoFrameAllocator.allocateContiguous_none alloc
      exact ⟨a, kept⟩
    | some f =>
      obtain ⟨skipped, behind, cut, rfl⟩ := BootInfoFrameAllocator.allocateContiguous_some alloc
      rw [kept.refines.usable, kept.refines.next] at cut
      obtain ⟨ahead, passed⟩ := drop_take_of_cut cut
      rw [length_append, length_range'] at ahead passed
      refine ⟨{ a with next := a.next + (skipped.length + count) }, ?_, kept.free, ?_, ?_, ?_⟩
      · exact ⟨kept.refines.usable, congrArg (· + _) kept.refines.next, kept.refines.links, kept.refines.free⟩
      · have nodup := kept.distinct
        rw [FrameAllocator.available, cut] at nodup
        rw [FrameAllocator.available, ahead]
        have kept : (held ram.trace ++ runFrames ram.trace ++
            (a.free ++ (range' f count ++ behind))).Nodup := by
          refine nodup.sublist ((Sublist.refl _).append ((Sublist.refl _).append ?_))
          rw [append_assoc]
          exact sublist_append_right _ _
        have moved : (held ram.trace ++ (range' f count ++ runFrames ram.trace) ++
            (a.free ++ behind)).Perm
            (held ram.trace ++ runFrames ram.trace ++ (a.free ++ (range' f count ++ behind))) := by
          refine perm_iff_count.mpr fun g => ?_
          simp only [count_append]
          omega
        exact moved.nodup_iff.mpr kept
      · intro g mem
        show g ∈ a.memoryMap.usable.take (a.next + (skipped.length + count))
        rw [passed]
        rcases mem_append.mp mem with mem | mem
        · exact mem_append_right _ (mem_append_right _ mem)
        · exact mem_append_left _ (kept.passed g mem)
      · intro g mem
        simp only [map_some, toList_some, singleton_append, held, runFrames, freed,
          handedOut, mem_append] at mem ⊢
        have out := kept.out g
        simp only [mem_append] at out
        tauto

theorem Kept.write {page : Page} (inUse : f ∈ held ram.trace ++ runFrames ram.trace) :
    Kept (ram.write f page) a := by
  refine ⟨?_, kept.free, kept.distinct, kept.passed, kept.out⟩
  refine kept.refines.write fun g isFree => update_of_ne (fun same : g = f => ?_) ..
  exact kept.apart inUse (mem_append_left _ (same ▸ isFree))

/-- **Every call keeps the books.** -/
theorem kept_of_called {call : FrameCall} (called : call.perform ram = some ram') : ∃ a', Kept ram' a' := by
  cases call with
  | allocateFrame =>
    cases called
    exact ⟨_, kept.allocateFrame⟩
  | allocateContiguous count =>
    cases called
    exact kept.allocateContiguous
  | deallocateFrame f =>
    obtain ⟨isHeld, ran⟩ := ite_none_right_eq_some.mp called
    cases ran
    exact ⟨_, kept.deallocateFrame isHeld⟩
  | write f page =>
    obtain ⟨inUse, ran⟩ := ite_none_right_eq_some.mp called
    cases ran
    exact ⟨_, kept.write inUse⟩

omit kept in
theorem kept_of_reached (reached : frameCalls.Reached ram) : ∃ a, Kept ram a := by
  refine frameCalls.invariant (fun ram => ∃ a, Kept ram a) ?_ ?_ reached
  · rintro _ ⟨memory, memoryMap, wf, rfl⟩
    exact kept_init wf memory
  · rintro _ _ _ ⟨a, kept⟩ ⟨call, called⟩
    exact kept_of_called kept called

/-! ### Fresh runs, and when a frame is refused -/

/-- A run handed out next was never handed out before. -/
theorem Kept.fresh (alloc : ram.allocateContiguous count = (some start, ram')) :
    ∀ f ∈ range' start count, f ∈ a.memoryMap.usable ∧ f ∉ handedOut ram.trace := by
  have first : (ram.allocator.allocateContiguous count).1 = some start := congrArg Prod.fst alloc
  obtain ⟨skipped, behind, cut, _⟩ := BootInfoFrameAllocator.allocateContiguous_some (Prod.ext first rfl)
  rw [kept.refines.usable, kept.refines.next] at cut
  intro f mem
  have ahead : f ∈ a.memoryMap.usable.drop a.next := by
    rw [cut]
    exact mem_append_left _ (mem_append_right _ mem)
  refine ⟨mem_of_mem_drop ahead, fun used => ?_⟩
  exact disjoint_take_drop a.memoryMap.distinct le_rfl (kept.passed f used) ahead

/-- Allocation fails only if nothing is free and nothing lies ahead of the cursor. -/
theorem Kept.exhausted (refused : ram.allocateFrame.1 = none) :
    a.free = [] ∧ a.memoryMap.usable.length ≤ a.next := by
  rw [kept.refines.allocateFrame.1] at refused
  rcases allocateFrame_cases a with ⟨f, rest, _, alloc⟩ | ⟨isEmpty, alloc⟩
  · rw [alloc] at refused
    cases refused
  · rw [alloc] at refused
    exact ⟨isEmpty, getElem?_eq_none_iff.mp refused⟩

end

end Kept

/-- **No frame has two owners.** In every run of calls, the frames in use are distinct, usable and not on the
free list; the free list ends and consists of what was given back and not handed out again, the last one
first, which is also the next to be handed out, and `free_list_len` counts it; a run handed out consists of
consecutive usable frames that were never handed out before; and a frame is refused only if the free list is
empty and the cursor is past the last usable frame. -/
theorem allocator_uniqueness {ram : Ram} (reached : frameCalls.Reached ram) :
    (held ram.trace ++ runFrames ram.trace).Nodup ∧ (∀ f ∈ held ram.trace ++ runFrames ram.trace,
      f ∈ usableFrames ram.allocator.memoryMap ∧ f ∉ freed ram.trace) ∧
    FreeLinks ram.memory ram.allocator.freeList (freed ram.trace) ∧ (freed ram.trace).Nodup ∧
    (∀ fuel, (freed ram.trace).length ≤ fuel →
      ram.allocator.freeListLen fuel ram.memory = (freed ram.trace).length) ∧
    (∀ (count : ℕ) (start : Frame) (ram' : Ram), ram.allocateContiguous count = (some start, ram') →
        ∀ f ∈ range' start count, f ∈ usableFrames ram.allocator.memoryMap ∧ f ∉ handedOut ram.trace) ∧
    (∀ (f : Frame) (rest : List Frame), freed ram.trace = f :: rest → ram.allocateFrame.1 = some f) ∧
    (ram.allocateFrame.1 = none →
      freed ram.trace = [] ∧ (usableFrames ram.allocator.memoryMap).length ≤ ram.allocator.next) := by
  obtain ⟨a, kept⟩ := kept_of_reached reached
  have links := kept.refines.links
  rw [kept.free] at links
  refine ⟨(nodup_append.mp kept.distinct).1, fun f inUse => ⟨?_, ?_⟩, links, links.nodup,
    fun fuel enough => ?_, fun count start ram' alloc f mem => ?_, fun f rest isFreed => ?_,
    fun refused => ?_⟩
  · rw [kept.refines.usable]
    exact kept.usable (kept.out f (mem_append_left _ inUse))
  · intro isFree
    exact kept.apart inUse (mem_append_left _ (kept.free ▸ isFree))
  · rw [BootInfoFrameAllocator.freeListLen, IsChain.follow_eq (fun _ stops => stops ▸ rfl) links, length_map]
    rwa [length_map]
  · rw [kept.refines.usable]
    exact kept.fresh alloc f mem
  · rw [kept.refines.allocateFrame.1, allocateFrame, kept.free, isFreed]
  · rw [kept.refines.usable, kept.refines.next, ← kept.free]
    exact kept.exhausted refused

def twoRegions : List MemoryRegion :=
  [⟨1, 4, .usable, by decide⟩, ⟨4, 6, .other, by decide⟩, ⟨6, 9, .usable, by decide⟩]

/-- The run of three frames skips frame 3, which the first region has left. -/
theorem allocator_uniqueness_twoRegions :
    ∃ ram, frameCalls.Reached ram ∧ held ram.trace = [2] ∧ runFrames ram.trace = [6, 7, 8] ∧
      freed ram.trace = [1] ∧ FreeLinks ram.memory ram.allocator.freeList (freed ram.trace) := by
  have wf : WellFormed twoRegions := ⟨by decide, by decide⟩
  have replayed : replay FrameCall.perform
      [.allocateFrame, .allocateFrame, .deallocateFrame 1, .write 2 zeroPage, .allocateContiguous 3]
      (Ram.init (fun _ => zeroPage) twoRegions) = some _ := rfl
  have reached := (System.Reached.start ⟨_, _, wf, rfl⟩ :
    frameCalls.Reached (Ram.init (fun _ => zeroPage) twoRegions)).replay replayed
  exact ⟨_, reached, rfl, rfl, rfl, (allocator_uniqueness reached).2.2.1⟩

end Ferros.Mm
