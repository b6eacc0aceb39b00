/-
**Teardown of an address space.**

`destroy` goes down the tables of a space and gives back what it meets, while it is in the middle of reading
them: the link of the free list is written into a table right after its last entry was read.

* `giveAll` — frames are given back one after the other.
* `freeSubtree_eq`, `destroy_eq` — what is given back are the frames of the tree as it was before.
-/

import Ferros.Mm.Spaces

namespace Ferros.Mm

open Lib List Option

variable {frames keep roots hand : List Frame} {ram : Ram} {f kernel c r active : Frame} {memory : Memory}
  {a : FrameAllocator}

def giveAll (frames : List Frame) (ram : Ram) : Ram :=
  frames.foldl (fun ram f => ram.deallocateFrame f) ram

theorem giveAll_append (first second : List Frame) (ram : Ram) :
    giveAll (first ++ second) ram = giveAll second (giveAll first ram) :=
  foldl_append

theorem giveAll_other (outside : f ∉ frames) : (giveAll frames ram).memory f = ram.memory f := by
  induction frames generalizing ram with
  | nil => rfl
  | cons g rest ih =>
    rw [mem_cons, not_or] at outside
    rw [giveAll, foldl_cons, ← giveAll, ih outside.2, ram.deallocateFrame_other outside.1]

theorem giveAll_trace (frames : List Frame) (ram : Ram) :
    (giveAll frames ram).trace = (frames.map Passage.back).reverse ++ ram.trace := by
  induction frames generalizing ram with
  | nil => rfl
  | cons g rest ih =>
    rw [giveAll, foldl_cons, ← giveAll, ih, map_cons, reverse_cons, append_assoc]
    rfl

/-- A loop whose parts give frames back, each reading its own frames and those of `keep`, gives them all back:
what it reads is not given back before. -/
theorem foldl_giveAll {α : Type} {body : Ram → α → Ram} {parts : α → List Frame} {l : List α}
    (each : ∀ x ∈ l, ∀ ram : Ram, (∀ f ∈ parts x ++ keep, ram.memory f = memory f) →
      body ram x = giveAll (parts x) ram)
    (nodup : (l.flatMap parts).Nodup) (kept : ∀ f ∈ keep, f ∉ l.flatMap parts)
    (same : ∀ f ∈ l.flatMap parts ++ keep, ram.memory f = memory f) :
    l.foldl body ram = giveAll (l.flatMap parts) ram := by
  induction l generalizing ram with
  | nil => rfl
  | cons x rest ih =>
    rw [flatMap_cons] at nodup kept same ⊢
    obtain ⟨_, later, apart⟩ := nodup_append.mp nodup
    have first : body ram x = giveAll (parts x) ram := by
      refine each x mem_cons_self ram fun f mem => same f ?_
      rcases mem_append.mp mem with here | keeps
      · exact mem_append_left _ (mem_append_left _ here)
      · exact mem_append_right _ keeps
    rw [foldl_cons, first, giveAll_append]
    refine ih (fun y inRest => each y (mem_cons_of_mem x inRest)) later
      (fun f keeps inRest => kept f keeps (mem_append_right _ inRest)) fun f mem => ?_
    have untouched : f ∉ parts x := fun here => by
      rcases mem_append.mp mem with inRest | keeps
      · exact apart f here f inRest rfl
      · exact kept f keeps (mem_append_left _ here)
    rw [giveAll_other untouched]
    refine same f ?_
    rw [append_assoc]
    exact mem_append_right _ mem

/-- **`free_subtree` gives back the nodes of the tree**, as it was in `memory`. -/
theorem freeSubtree_eq {k : ℕ} (nodup : (nodes (nextTable memory) allSlots k f).Nodup)
    (same : ∀ g ∈ nodes (nextTable memory) allSlots k f, ram.memory g = memory g) :
    freeSubtree k f ram = giveAll (nodes (nextTable memory) allSlots k f) ram := by
  induction k generalizing f ram with
  | zero => rfl
  | succ k ih =>
    rw [nodes_succ] at nodup same ⊢
    obtain ⟨children, _, notTable⟩ := nodup_append.mp nodup
    rw [giveAll_append, freeSubtree]
    refine congrArg (Ram.deallocateFrame f) ?_
    refine foldl_giveAll (fun i _ ram reads => ?_) children ?_ same
    · have link : nextTable ram.memory f i = nextTable memory f i := by
        rw [nextTable, nextTable, entry, entry, reads f (mem_append_right _ mem_cons_self)]
      have part := (nodup_flatMap.mp children).1 i (mem_allSlots i)
      rw [link]
      rw [below] at reads part ⊢
      cases next : nextTable memory f i with
      | none => rfl
      | some c =>
        rw [next, elim_some] at reads part
        exact ih part fun g mem => reads g (mem_append_left _ mem)
    · intro g isTable inside
      exact notTable g inside g isTable rfl

section Destroy

section

variable (valid : Valid kernel ram a roots hand) (isRoot : r ∈ roots)
include valid isRoot

/-- The slots of level 4 that are a space's own are told from the kernel's by comparison with the kernel's
table, and with that of any other space as well. -/
theorem Valid.slot_cases (other : active = kernel ∨ active ∈ roots ∧ active ≠ r) (i : Slot) :
    (isPresent (entry ram.memory r i) &&
        !sharedEntry (entry ram.memory active i) (entry ram.memory r i)) = false ∧
      ownTable ram.memory kernel r r i = none ∨ ∃ t, (isPresent (entry ram.memory r i) &&
        !sharedEntry (entry ram.memory active i) (entry ram.memory r i)) ∧
      entryFrame (entry ram.memory r i) = some t ∧ ownTable ram.memory kernel r r i = some t := by
  by_cases empty : entry ram.memory kernel i = 0
  · have own := ownTable_eq (f := r) fun _ : r = r => empty
    rcases valid.entry_cases isRoot space_nil (Nat.zero_lt_succ 3) fun _ => empty with
      ⟨zero, _⟩ | ⟨t, small, named, there⟩
    · refine .inl ⟨by rw [zero]; rfl, ?_⟩
      rw [own, nextTable, zero, entryFrame_zero]
    · refine .inr ⟨t, ?_, ?_, ?_⟩
      · have notShared : sharedEntry (entry ram.memory active i) (frameEntry t) = false := by
          rcases other with rfl | ⟨isRoot', away⟩
          · rw [empty]
            rfl
          · rcases valid.entry_cases isRoot' space_nil (Nat.zero_lt_succ 3) fun _ => empty with
              ⟨zero', _⟩ | ⟨t', small', named', there'⟩
            · rw [zero']
              rfl
            · rw [named', sharedEntry, entryAddr_frameEntry small, entryAddr_frameEntry small',
                Bool.and_eq_false_iff]
              refine .inr (beq_eq_false_iff_ne.mpr ?_)
              rintro rfl
              exact away (valid.owner isRoot' isRoot (mem_ownFrames.mpr ⟨[i], Nat.le_add_left 1 3, there'⟩)
                (mem_ownFrames.mpr ⟨[i], Nat.le_add_left 1 3, there⟩))
        rw [named, isPresent_frameEntry, notShared]
        rfl
      · rw [named, entryFrame_frameEntry small]
      · rw [own, nextTable, named, entryFrame_frameEntry small]
  · have same : SameLink (entry ram.memory active i) (entry ram.memory r i) := by
      refine SameLink.trans ?_ (valid.shares r isRoot i empty).symm
      rcases other with rfl | ⟨isRoot', _⟩
      · exact SameLink.refl _
      · exact valid.shares active isRoot' i empty
    refine .inl ⟨?_, ?_⟩
    · rw [sharedEntry, same.2, same.entryAddr]
      cases isPresent (entry ram.memory r i) <;> simp
    · rw [ownTable, if_pos ⟨rfl, empty⟩]

/-- The trees below the root are those of the tables. -/
theorem Valid.nodes_eq {i : Slot} (link : ownTable ram.memory kernel r r i = some c) :
    nodes (nextTable ram.memory) allSlots 3 c = nodes (ownTable ram.memory kernel r) allSlots 3 c :=
  nodes_congr fun _ _ within there j => (valid.ownTable_below isRoot link within there j).symm

/-- **`destroy` gives back the frames of the space**, whether the kernel's tables are active or those of another
space. -/
theorem destroy_eq (other : active = kernel ∨ active ∈ roots ∧ active ≠ r) :
    destroy active r ram = giveAll (ownFrames ram.memory kernel r) ram := by
  have nodup : (ownFrames ram.memory kernel r).Nodup := (nodup_flatMap.mp valid.nodup_spaces).1 r isRoot
  have notActive : active ∉ ownFrames ram.memory kernel r := fun mem => by
    rcases other with rfl | ⟨isRoot', away⟩
    · exact valid.notKernel active kernel_mem_kernelFrames
        (mem_append_left _ (mem_append_right _ (mem_spaceFrames isRoot mem)))
    · exact away (valid.owner isRoot' isRoot root_mem_ownFrames mem)
  rw [ownFrames, nodes_succ] at nodup notActive ⊢
  obtain ⟨children, _, notRoot⟩ := nodup_append.mp nodup
  rw [mem_append, not_or] at notActive
  rw [giveAll_append, destroy]
  refine congrArg (Ram.deallocateFrame r) ?_
  have kept : ∀ f ∈ [r, active],
      f ∉ allSlots.flatMap (below (ownTable ram.memory kernel r) allSlots 3 r) := by
    intro f keeps inside
    rcases mem_pair.mp keeps with rfl | rfl
    · exact notRoot f inside f mem_cons_self rfl
    · exact notActive.1 inside
  refine foldl_giveAll (fun i _ later reads => ?_) children kept fun _ _ => rfl
  have sameRoot : entry later.memory r i = entry ram.memory r i :=
    congrArg (wordAt · i) (reads r (mem_append_right _ mem_cons_self))
  have sameActive : entry later.memory active i = entry ram.memory active i :=
    congrArg (wordAt · i) (reads active (mem_append_right _ (mem_cons_of_mem _ mem_cons_self)))
  have part := (nodup_flatMap.mp children).1 i (mem_allSlots i)
  rw [below] at reads part ⊢
  rw [sameRoot, sameActive]
  rcases valid.slot_cases isRoot other i with ⟨skips, none⟩ | ⟨t, enters, named, link⟩
  · simp only [skips, Bool.false_eq_true, if_false, none]
    rfl
  · rw [link, elim_some, ← valid.nodes_eq isRoot link] at reads part ⊢
    simp only [enters, named, if_true]
    exact freeSubtree_eq part fun g mem => reads g (mem_append_left _ mem)

end

theorem Valid.giveAll (valid : Valid kernel ram a roots (frames ++ hand)) :
    Valid kernel (giveAll frames ram) (giveFrames frames a) roots hand := by
  induction frames generalizing ram a with
  | nil => exact valid
  | cons f rest ih => exact ih valid.give

/-- **The other spaces stay.** -/
theorem Valid.destroy (valid : Valid kernel ram a (r :: roots) hand) (other : active = kernel ∨ active ∈ roots)
    : Valid kernel (destroy active r ram) (giveFrames (ownFrames ram.memory kernel r) a) roots hand ∧
      (destroy active r ram).trace = ((ownFrames ram.memory kernel r).map Passage.back).reverse ++ ram.trace ∧
      ∀ f, f ∉ ownFrames ram.memory kernel r → (destroy active r ram).memory f = ram.memory f := by
  have notIn : r ∉ roots := (nodup_cons.mp valid.nodup_roots).1
  have away : active = kernel ∨ active ∈ r :: roots ∧ active ≠ r :=
    other.imp_right fun isRoot => ⟨mem_cons_of_mem r isRoot, fun same => notIn (same ▸ isRoot)⟩
  rw [destroy_eq valid mem_cons_self away]
  exact ⟨valid.dropRoot.giveAll, giveAll_trace .., fun f outside => giveAll_other outside⟩

end Destroy

end Ferros.Mm
