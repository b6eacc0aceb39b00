/-
**What holds of the address spaces together.**

Seen from its root, an address space is a tree of tables over the slots the kernel leaves empty. Several of
them live in one memory, next to the kernel's tables and the list of free frames, which is threaded through
the free frames. `Valid` says that they do not meet.

* `Valid` — frames of spaces, frames in the hands of the kernel and frames available are apart, and none of
  them belongs to the kernel's own tables.
* `Valid.link`, `Valid.unlink`, `Valid.addRoot`, `Valid.dropRoot`, `Valid.allocate`, `Valid.give`,
  `Valid.rewrite` — the elementary changes: what each does to the spaces, and that it keeps them apart.
-/

import Ferros.Lib.Update
import Ferros.Mm.Paging
import Ferros.Mm.Allocation

namespace Ferros.Mm

open Lib List Option

variable {memory memory' : Memory} {kernel root f g r' h r t : Frame} {p q : List Slot} {ram ram' : Ram}
  {a a' : FrameAllocator} {roots hand roots' hand' : List Frame} {i j : Slot} {word : ℕ}

/-! ### The tree of a space -/

/-- The links of a space: in its root only the slots that the kernel leaves empty count. -/
def ownTable (memory : Memory) (kernel root f : Frame) (i : Slot) : Option Frame :=
  if f = root ∧ entry memory kernel i ≠ 0 then none else nextTable memory f i

/-- Where a key leads: a table after less than four slots, a page after four. -/
def space (memory : Memory) (kernel root : Frame) (key : List Slot) : Option Frame :=
  walk (ownTable memory kernel root) root key

def ownFrames (memory : Memory) (kernel root : Frame) : List Frame :=
  nodes (ownTable memory kernel root) allSlots 4 root

/-- The tables and pages of the kernel. -/
def kernelFrames (memory : Memory) (kernel : Frame) : List Frame :=
  nodes (nextTable memory) allSlots 4 kernel

theorem mem_allSlots (i : Slot) : i ∈ allSlots := mem_finRange i

theorem nodup_allSlots : allSlots.Nodup := nodup_finRange 512

section Tree

theorem space_nil : space memory kernel root [] = some root := rfl

theorem space_concat (there : space memory kernel root p = some g) (i : Slot) :
    space memory kernel root (p ++ [i]) = ownTable memory kernel root g i := by
  rw [space, walk_concat, ← space, there, bind_some]

theorem mem_ownFrames :
    f ∈ ownFrames memory kernel root ↔ ∃ p, p.length ≤ 4 ∧ space memory kernel root p = some f :=
  mem_nodes mem_allSlots

theorem root_mem_ownFrames : root ∈ ownFrames memory kernel root :=
  mem_ownFrames.mpr ⟨[], Nat.zero_le _, rfl⟩

theorem kernel_mem_kernelFrames : kernel ∈ kernelFrames memory kernel :=
  (mem_nodes mem_allSlots).mpr ⟨[], Nat.zero_le _, rfl⟩

theorem ownTable_congr (sameKernel : memory' kernel = memory kernel) (same : memory' f = memory f) (i : Slot) :
    ownTable memory' kernel root f i = ownTable memory kernel root f i := by
  have slot : entry memory' kernel i = entry memory kernel i := congrArg (wordAt · i) sameKernel
  have here : entry memory' f i = entry memory f i := congrArg (wordAt · i) same
  rw [ownTable, ownTable, nextTable, nextTable, slot, here]

theorem ownTable_eq (empty : f = root → entry memory kernel i = 0) :
    ownTable memory kernel root f i = nextTable memory f i := by
  rw [ownTable, if_neg]
  rintro ⟨same, used⟩
  exact used (empty same)

section

variable (sameKernel : memory' kernel = memory kernel)
  (same : ∀ p g, p.length < 4 → space memory kernel root p = some g → memory' g = memory g)
include sameKernel same

/-- A space depends on its tables, and on which slots the kernel leaves empty. -/
theorem space_congr : ∀ q, q.length ≤ 4 → space memory' kernel root q = space memory kernel root q :=
  walk_congr fun p g short there i => ownTable_congr sameKernel (same p g short there) i

theorem ownFrames_congr : ownFrames memory' kernel root = ownFrames memory kernel root :=
  nodes_congr fun p g short there i => ownTable_congr sameKernel (same p g short there) i

end

theorem kernelFrames_congr (same : ∀ g ∈ kernelFrames memory kernel, memory' g = memory g) :
    kernelFrames memory' kernel = kernelFrames memory kernel := by
  refine nodes_congr fun p g short there i => ?_
  rw [nextTable, nextTable, entry, entry, same g ((mem_nodes mem_allSlots).mpr ⟨p, short.le, there⟩)]

end Tree

/-! ### Spaces in one memory -/

def spaceFrames (memory : Memory) (kernel : Frame) (roots : List Frame) : List Frame :=
  roots.flatMap (ownFrames memory kernel)

/-- The spaces with the given roots, and frames that were allocated but belong to no space yet. -/
structure Valid (kernel : Frame) (ram : Ram) (a : FrameAllocator) (roots hand : List Frame) : Prop where
  refines : Refines ram a
  apart : (hand ++ spaceFrames ram.memory kernel roots ++ a.available).Nodup
  usable : ∀ f ∈ hand ++ spaceFrames ram.memory kernel roots, f ∈ a.memoryMap.usable
  notKernel : ∀ f ∈ kernelFrames ram.memory kernel,
    f ∉ hand ++ spaceFrames ram.memory kernel roots ++ a.available
  /-- What the kernel has at level 4 is the same in every space. -/
  shares : ∀ r ∈ roots, ∀ i, entry ram.memory kernel i ≠ 0 →
    SameLink (entry ram.memory r i) (entry ram.memory kernel i)
  /-- An entry of a space is empty or names a frame. -/
  tidy : ∀ r ∈ roots, ∀ p g, p.length < 4 → space ram.memory kernel r p = some g →
    ∀ i, (g = r → entry ram.memory kernel i = 0) →
      entry ram.memory g i = 0 ∨ ∃ t < 2 ^ 40, entry ram.memory g i = frameEntry t

section Valid

theorem mem_spaceFrames (isRoot : r ∈ roots) (mem : f ∈ ownFrames memory kernel r) :
    f ∈ spaceFrames memory kernel roots :=
  mem_flatMap.mpr ⟨r, isRoot, mem⟩

section

variable (valid : Valid kernel ram a roots hand)
include valid

theorem Valid.nodup_spaces : (spaceFrames ram.memory kernel roots).Nodup :=
  (nodup_append.mp (nodup_append.mp valid.apart).1).2.1

theorem Valid.tree (isRoot : r ∈ roots) : IsTree (ownTable ram.memory kernel r) 4 r :=
  isTree_of_nodup mem_allSlots ((nodup_flatMap.mp valid.nodup_spaces).1 r isRoot)

theorem Valid.nodup_roots : roots.Nodup := by
  refine (nodup_flatMap.mp valid.nodup_spaces).2.imp fun disjoint same => ?_
  exact disjoint (root_mem_ownFrames) (same ▸ root_mem_ownFrames)

/-- A frame belongs to one space. -/
theorem Valid.owner (isRoot : r ∈ roots) (isRoot' : r' ∈ roots) (first : f ∈ ownFrames ram.memory kernel r)
    (second : f ∈ ownFrames ram.memory kernel r') : r = r' :=
  eq_of_nodup_flatMap valid.nodup_spaces isRoot isRoot' first second

theorem Valid.not_hand (mem : f ∈ spaceFrames ram.memory kernel roots) : f ∉ hand := fun inHand =>
  disjoint_of_nodup_append (nodup_append.mp valid.apart).1 inHand mem

theorem Valid.not_available (mem : f ∈ hand ++ spaceFrames ram.memory kernel roots) : f ∉ a.available :=
  disjoint_of_nodup_append valid.apart mem

theorem Valid.lt {f : ℕ} (mem : f ∈ hand ++ spaceFrames ram.memory kernel roots) : f < 2 ^ 40 :=
  lt_of_mem_usableFrames (valid.refines.usable ▸ valid.usable f mem)

end

theorem Valid.mem (isRoot : r ∈ roots) (short : p.length ≤ 4) (there : space memory kernel r p = some g) :
    g ∈ spaceFrames memory kernel roots :=
  mem_spaceFrames isRoot (mem_ownFrames.mpr ⟨p, short, there⟩)

section

variable (valid : Valid kernel ram a roots hand) (isRoot : r ∈ roots)
include valid isRoot

theorem Valid.root_of_key (short : p.length ≤ 4) (there : space ram.memory kernel r p = some r) : p = [] :=
  valid.tree isRoot p [] r short (Nat.zero_le _) there rfl

/-- Below a slot of the root, the links are what the tables say: no table there is the root again. -/
theorem Valid.ownTable_below (link : ownTable ram.memory kernel r r i = some t) (within : p.length < 3)
    (there : walk (ownTable ram.memory kernel r) t p = some g) (j : Slot) :
    ownTable ram.memory kernel r g j = nextTable ram.memory g j := by
  refine ownTable_eq ?_
  rintro rfl
  have again : space ram.memory kernel g (i :: p) = some g := by
    rw [space, walk_cons, link, bind_some, there]
  have longer : (i :: p).length ≤ 4 := Nat.succ_le_succ within.le
  exact absurd (valid.root_of_key isRoot longer again) (cons_ne_nil _ _)

/-- **The entries of a space.** -/
theorem Valid.entry_cases (there : space ram.memory kernel r p = some g) (short : p.length < 4)
    (empty : p = [] → entry ram.memory kernel i = 0) :
    entry ram.memory g i = 0 ∧ space ram.memory kernel r (p ++ [i]) = none ∨
      ∃ t < 2 ^ 40, entry ram.memory g i = frameEntry t ∧ space ram.memory kernel r (p ++ [i]) = some t := by
  have atRoot : g = r → entry ram.memory kernel i = 0 := fun same =>
    empty (valid.root_of_key isRoot short.le (same ▸ there))
  rw [space_concat there, ownTable_eq atRoot, nextTable]
  rcases valid.tidy r isRoot p g short there i atRoot with zero | ⟨t, small, named⟩
  · exact .inl ⟨zero, by rw [zero]; rfl⟩
  · exact .inr ⟨t, small, named, by rw [named, entryFrame_frameEntry small]⟩

end

/-! ### Elementary changes -/

/-- **The kernel's tables change below the slots of level 4**, and take in frames from the kernel's hands. The
spaces keep their own entries, and at level 4 the links they share. -/
theorem Valid.absorb (new : List Frame) (memory' : Memory) (valid : Valid kernel ram a roots (new ++ hand))
    (slots : ∀ i, entry memory' kernel i = entry ram.memory kernel i)
    (own : ∀ r ∈ roots, ∀ p g, p.length < 4 → space ram.memory kernel r p = some g →
      ∀ i, (g = r → entry ram.memory kernel i = 0) → entry memory' g i = entry ram.memory g i)
    (links : ∀ r ∈ roots, ∀ i, entry ram.memory kernel i ≠ 0 →
      SameLink (entry memory' r i) (entry ram.memory r i))
    (reach : ∀ f ∈ kernelFrames memory' kernel, f ∈ kernelFrames ram.memory kernel ∨ f ∈ new)
    (free : ∀ f ∈ a.free, memory' f = ram.memory f) : Valid kernel { ram with memory := memory' } a roots hand ∧
      ∀ r ∈ roots, ∀ q, q.length ≤ 4 → space memory' kernel r q = space ram.memory kernel r q := by
  have tables (r : Frame) (isRoot : r ∈ roots) (p : List Slot) (g : Frame) (short : p.length < 4)
      (there : space ram.memory kernel r p = some g) (i : Slot) :
      ownTable memory' kernel r g i = ownTable ram.memory kernel r g i := by
    rw [ownTable, ownTable, slots]
    split
    · rfl
    · rename_i notShared
      rw [not_and_or, not_not] at notShared
      rw [nextTable, nextTable, own r isRoot p g short there i
        fun same => notShared.resolve_left fun ne => ne same]
  have spaces (r : Frame) (isRoot : r ∈ roots) : ∀ q, q.length ≤ 4 →
      space memory' kernel r q = space ram.memory kernel r q := walk_congr (tables r isRoot)
  have frames : spaceFrames memory' kernel roots = spaceFrames ram.memory kernel roots :=
    flatMap_congr fun r isRoot => nodes_congr (tables r isRoot)
  have apart := valid.apart
  rw [append_assoc, append_assoc, ← append_assoc hand] at apart
  refine ⟨⟨valid.refines.write free, ?_, ?_, ?_, ?_, ?_⟩, spaces⟩ <;> dsimp only
  · rw [frames]
    exact (nodup_append.mp apart).2.1
  · rw [frames]
    intro f mem
    refine valid.usable f ?_
    rw [append_assoc]
    exact mem_append_right _ mem
  · rw [frames]
    intro f isKernel mem
    rcases reach f isKernel with before | isNew
    · refine valid.notKernel f before ?_
      rw [append_assoc, append_assoc, ← append_assoc hand]
      exact mem_append_right _ mem
    · exact disjoint_of_nodup_append apart isNew mem
  · intro r isRoot i used
    rw [slots] at used ⊢
    exact (links r isRoot i used).trans (valid.shares r isRoot i used)
  · intro r isRoot p g short there i atRoot
    rw [spaces r isRoot p short.le] at there
    rw [slots] at atRoot
    rw [own r isRoot p g short there i atRoot]
    exact valid.tidy r isRoot p g short there i atRoot

section

variable (valid : Valid kernel ram a roots hand)
include valid

theorem Valid.rewrite (tables : ∀ r ∈ roots, ∀ p g, p.length < 4 → space ram.memory kernel r p = some g →
      memory' g = ram.memory g) (kernelSame : ∀ f ∈ kernelFrames ram.memory kernel, memory' f = ram.memory f)
    (free : ∀ f ∈ a.free, memory' f = ram.memory f) :
    Valid kernel { ram with memory := memory' } a roots hand := by
  have sameEntry {f : Frame} (same : memory' f = ram.memory f) (i : Slot) :
      entry memory' f i = entry ram.memory f i := congrArg (wordAt · i) same
  refine (Valid.absorb [] memory' valid (fun i => ?_) (fun r isRoot p g short there i _ => ?_)
    (fun r isRoot i _ => ?_) (fun f mem => .inl ?_) free).1
  · exact sameEntry (kernelSame kernel kernel_mem_kernelFrames) i
  · exact sameEntry (tables r isRoot p g short there) i
  · rw [sameEntry (tables r isRoot [] r (by decide) rfl)]
    exact SameLink.refl _
  · rwa [kernelFrames_congr kernelSame] at mem

/-- Frames go from the allocator to the kernel's hands or back. -/
theorem Valid.move (refines : Refines ram' a') (sameMemory : ram'.memory = ram.memory)
    (sameMap : a'.memoryMap = a.memoryMap) (moved : (hand' ++ a'.available).Perm (hand ++ a.available))
    (usable : ∀ f ∈ hand', f ∈ a.memoryMap.usable) : Valid kernel ram' a' roots hand' := by
  have whole : (hand' ++ spaceFrames ram.memory kernel roots ++ a'.available).Perm
      (hand ++ spaceFrames ram.memory kernel roots ++ a.available) := by
    refine perm_iff_count.mpr fun f => ?_
    have same := moved.count_eq f
    simp only [count_append] at same ⊢
    omega
  refine ⟨refines, ?_, ?_, ?_, ?_, ?_⟩ <;> rw [sameMemory]
  · exact whole.nodup_iff.mpr valid.apart
  · rw [sameMap]
    intro f mem
    rcases mem_append.mp mem with inHand | inSpace
    · exact usable f inHand
    · exact valid.usable f (mem_append_right _ inSpace)
  · exact fun f isKernel mem => valid.notKernel f isKernel (whole.mem_iff.mp mem)
  · exact valid.shares
  · exact valid.tidy

omit valid in
theorem Refines.usable_of_available (refines : Refines ram a) (mem : f ∈ a.available) :
    f ∈ a.memoryMap.usable := by
  rcases mem_append.mp mem with free | ahead
  · exact refines.free f free
  · exact mem_of_mem_drop ahead

/-- **A frame is handed out.** -/
theorem Valid.allocate (alloc : ram.allocateFrame = (some t, ram')) :
    ∃ a', a.available = t :: a'.available ∧ ram'.memory = ram.memory ∧
      ram'.trace = .out t :: ram.trace ∧ Valid kernel ram' a' roots (t :: hand) := by
  obtain ⟨same, refines⟩ := valid.refines.allocateFrame
  rw [alloc] at same refines
  have first := allocateFrame_available (Prod.ext same.symm rfl)
  have memory : ram.allocateFrame.2.memory = ram.memory := rfl
  have trace : ram.allocateFrame.2.trace = (ram.allocateFrame.1.map Passage.out).toList ++ ram.trace := rfl
  rw [alloc] at memory trace
  refine ⟨(allocateFrame a).2, first, memory, trace, ?_⟩
  refine valid.move refines memory (allocateFrame_memoryMap a) ?_ fun f mem => ?_
  · rw [first]
    exact perm_middle.symm
  · rcases mem_cons.mp mem with rfl | inHand
    · exact valid.refines.usable_of_available (first ▸ mem_cons_self)
    · exact valid.usable f (mem_append_left _ inHand)

theorem Valid.refuse (refused : ram.allocateFrame = (none, ram')) :
    ∃ a', a.available = [] ∧ a'.available = [] ∧ ram'.memory = ram.memory ∧ ram'.trace = ram.trace ∧
      Valid kernel ram' a' roots hand := by
  obtain ⟨same, refines⟩ := valid.refines.allocateFrame
  rw [refused] at same refines
  obtain ⟨before, after⟩ := allocateFrame_none same.symm
  have memory : ram.allocateFrame.2.memory = ram.memory := rfl
  have trace : ram.allocateFrame.2.trace = (ram.allocateFrame.1.map Passage.out).toList ++ ram.trace := rfl
  rw [refused] at memory trace
  refine ⟨(allocateFrame a).2, before, after, memory, trace, ?_⟩
  refine valid.move refines memory (allocateFrame_memoryMap a) ?_
    fun f mem => valid.usable f (mem_append_left _ mem)
  rw [before, after]

end

section Give

variable (valid : Valid kernel ram a roots (t :: hand))

include valid

theorem Valid.ne_hand (inSpace : f ∈ spaceFrames ram.memory kernel roots) : f ≠ t := fun same =>
  valid.not_hand inSpace (same ▸ mem_cons_self)

theorem Valid.kernel_ne_hand (isKernel : f ∈ kernelFrames ram.memory kernel) : f ≠ t :=
  fun same => valid.notKernel f isKernel (same ▸ mem_cons_self)

theorem Valid.table_give (isRoot : r ∈ roots) (short : p.length ≤ 4)
    (there : space ram.memory kernel r p = some g) : (ram.deallocateFrame t).memory g = ram.memory g :=
  ram.deallocateFrame_other (valid.ne_hand (Valid.mem isRoot short there))

theorem Valid.space_give (isRoot : r ∈ roots) :
    ∀ q, q.length ≤ 4 → space (ram.deallocateFrame t).memory kernel r q = space ram.memory kernel r q :=
  space_congr (ram.deallocateFrame_other (valid.kernel_ne_hand kernel_mem_kernelFrames))
    fun _ _ short there => valid.table_give isRoot short.le there

/-- **A frame is given back.** -/
theorem Valid.give : Valid kernel (ram.deallocateFrame t) (deallocateFrame t a) roots hand := by
  have inUse : t ∈ t :: hand ++ spaceFrames ram.memory kernel roots := mem_cons_self
  have notFree : t ∉ a.free := fun free => valid.not_available inUse (mem_append_left _ free)
  have rewritten : Valid kernel { ram with memory := (ram.deallocateFrame t).memory } a roots (t :: hand) := by
    refine valid.rewrite (fun r isRoot p g short there => ?_) (fun f isKernel => ?_) fun f free => ?_
    · exact valid.table_give isRoot short.le there
    · exact ram.deallocateFrame_other (valid.kernel_ne_hand isKernel)
    · exact ram.deallocateFrame_other fun same => notFree (same ▸ free)
  refine rewritten.move (valid.refines.deallocateFrame (valid.usable t inUse) notFree) rfl rfl ?_
    fun f mem => valid.usable f (mem_append_left _ (mem_cons_of_mem _ mem))
  exact perm_middle

end Give

/-! ### One entry of a space is set -/

/-- Slot `i` of the table `g`, where the key `p` leads in the space of `r`, is set to `word`. Otherwise memory
changes in the kernel's hands only; a table linked there is empty, and the slot was. -/
structure SetLink (kernel : Frame) (ram : Ram) (roots hand : List Frame) (r g : Frame) (p : List Slot)
    (i : Slot) (word : ℕ) (memory' : Memory) : Prop where
  isRoot : r ∈ roots
  there : space ram.memory kernel r p = some g
  short : p.length < 4
  empty : p = [] → entry ram.memory kernel i = 0
  atEntry : memory' g = setWord (ram.memory g) i word
  elsewhere : ∀ f, f ≠ g → f ∉ hand → memory' f = ram.memory f
  named : word = 0 ∨ ∃ t < 2 ^ 40, word = frameEntry t
  bottom : p.length = 3 ∨ entry ram.memory g i = 0 ∧ ∀ c ∈ entryFrame word, memory' c = zeroPage

section SetLink

variable (set : SetLink kernel ram roots hand r g p i word memory')
include set

theorem SetLink.fits : word < 2 ^ 64 := by
  rcases set.named with rfl | ⟨t, small, rfl⟩
  · decide
  · exact frameEntry_lt small

theorem SetLink.key_short : (p ++ [i]).length ≤ 4 := by
  rw [length_append, length_singleton]
  exact set.short

theorem SetLink.mem : g ∈ ownFrames ram.memory kernel r :=
  mem_ownFrames.mpr ⟨p, set.short.le, set.there⟩

theorem SetLink.entry_same : entry memory' g i = word := by
  rw [entry, set.atEntry, wordAt_setWord_same set.fits]

theorem SetLink.entry_other (other : j ≠ i) : entry memory' g j = entry ram.memory g j := by
  rw [entry, set.atEntry, wordAt_setWord_other other, entry]

section

variable (valid : Valid kernel ram a roots hand)
include valid

theorem SetLink.kernelSame : ∀ f ∈ kernelFrames ram.memory kernel, memory' f = ram.memory f := by
  intro f isKernel
  have away := valid.notKernel f isKernel
  rw [mem_append, mem_append, not_or, not_or] at away
  exact set.elsewhere f (fun same => away.1.2 (same ▸ mem_spaceFrames set.isRoot set.mem)) away.1.1

/-- The tables of other spaces stay. -/
theorem SetLink.other (isRoot : r' ∈ roots) (away : r' ≠ r) (mem : f ∈ ownFrames ram.memory kernel r') :
    memory' f = ram.memory f := by
  refine set.elsewhere f (fun same => ?_) (valid.not_hand (mem_spaceFrames isRoot mem))
  exact away (valid.owner isRoot set.isRoot mem (same ▸ set.mem))

theorem SetLink.table (short : q.length ≤ 4) (there : space ram.memory kernel r q = some h) (away : h ≠ g) :
    memory' h = ram.memory h :=
  set.elsewhere h away (valid.not_hand (Valid.mem set.isRoot short there))

theorem SetLink.spaces_other (isRoot : r' ∈ roots) (away : r' ≠ r) :
    ∀ q, q.length ≤ 4 → space memory' kernel r' q = space ram.memory kernel r' q :=
  space_congr (set.kernelSame valid kernel kernel_mem_kernelFrames) fun q _ short there =>
    set.other valid isRoot away (mem_ownFrames.mpr ⟨q, short.le, there⟩)

/-- **The key through the slot leads to the new entry, all others lead where they led.** -/
theorem SetLink.space_set : ∀ q, q.length ≤ 4 → space memory' kernel r q =
      if q = p ++ [i] then entryFrame word else space ram.memory kernel r q := by
  have sameKernel := set.kernelSame valid kernel kernel_mem_kernelFrames
  have sameSlot (j : Slot) : entry memory' kernel j = entry ram.memory kernel j :=
    congrArg (wordAt · j) sameKernel
  have isEmpty : g = r → entry ram.memory kernel i = 0 := fun same =>
    set.empty (valid.root_of_key set.isRoot set.short.le (same ▸ set.there))
  refine walk_set ((valid.tree set.isRoot).mono (Nat.le_succ 3)) set.there
    (Nat.le_of_lt_succ set.short) ?_ ?_ ?_
  · rw [ownTable_eq fun same => (sameSlot i).trans (isEmpty same), nextTable, set.entry_same]
  · intro q h j short there away
    by_cases same : h = g
    · subst same
      have other : j ≠ i := away.resolve_left fun ne => ne rfl
      rw [ownTable, ownTable, nextTable, nextTable, sameSlot, set.entry_other other]
    · exact ownTable_congr sameKernel (set.table valid (Nat.le_succ_of_le short) there same) j
  · refine set.bottom.imp_right fun ⟨unused, zeroed⟩ => ⟨?_, fun c named j => ?_⟩
    · rw [ownTable, nextTable, unused]
      split <;> rfl
    · have zero : entry memory' c j = 0 := by rw [entry, zeroed c named, wordAt_zeroPage]
      rw [ownTable, nextTable, zero]
      split <;> rfl

theorem SetLink.perm_spaces
    (moved : (hand' ++ ownFrames memory' kernel r).Perm (hand ++ ownFrames ram.memory kernel r)) :
    (hand' ++ spaceFrames memory' kernel roots).Perm (hand ++ spaceFrames ram.memory kernel roots) := by
  refine flatMap_exchange valid.nodup_roots set.isRoot (fun r' isRoot away => ?_) moved
  refine ownFrames_congr (set.kernelSame valid kernel kernel_mem_kernelFrames) fun q h short there => ?_
  exact set.other valid isRoot away (mem_ownFrames.mpr ⟨q, short.le, there⟩)

end

/-- **The spaces stay apart** if the frame that leaves or enters the tree is in the kernel's hands after or
before. -/
theorem SetLink.valid (valid : Valid kernel ram a roots hand)
    (moved : (hand' ++ ownFrames memory' kernel r).Perm (hand ++ ownFrames ram.memory kernel r)) :
    Valid kernel { ram with memory := memory' } a roots hand' := by
  have kernelSame := set.kernelSame valid
  have sameSlot (j : Slot) : entry memory' kernel j = entry ram.memory kernel j :=
    congrArg (wordAt · j) (kernelSame kernel kernel_mem_kernelFrames)
  have frames := set.perm_spaces valid moved
  have whole := frames.append_right a.available
  have inSpace := mem_spaceFrames set.isRoot set.mem
  have refines : Refines { ram with memory := memory' } a := valid.refines.write fun f free => by
    have available : f ∈ a.available := mem_append_left _ free
    refine set.elsewhere f (fun same => ?_) fun inHand => ?_
    · exact valid.not_available (mem_append_right _ inSpace) (same ▸ available)
    · exact valid.not_available (mem_append_left _ inHand) available
  refine ⟨refines, ?_, ?_, ?_, ?_, ?_⟩ <;> dsimp only
  · exact whole.nodup_iff.mpr valid.apart
  · exact fun f mem => valid.usable f (frames.mem_iff.mp mem)
  · rw [kernelFrames_congr kernelSame]
    exact fun f isKernel mem => valid.notKernel f isKernel (whole.mem_iff.mp mem)
  · intro r' isRoot j used
    rw [sameSlot] at used ⊢
    have sameEntry : entry memory' r' j = entry ram.memory r' j := by
      by_cases same : r' = g
      · subst same
        refine set.entry_other fun here => used ?_
        subst here
        have sameRoot := valid.owner set.isRoot isRoot set.mem root_mem_ownFrames
        subst sameRoot
        exact set.empty (valid.root_of_key isRoot set.short.le set.there)
      · exact congrArg (wordAt · j) (set.elsewhere r' same
          (valid.not_hand (mem_spaceFrames isRoot root_mem_ownFrames)))
    rw [sameEntry]
    exact valid.shares r' isRoot j used
  · intro r' isRoot q h short there j atRoot
    rw [sameSlot] at atRoot
    by_cases same : r' = r
    · subst same
      rw [set.space_set valid q short.le] at there
      split at there
      · -- the new table is empty
        rename_i isKey
        obtain full | ⟨_, zeroed⟩ := set.bottom
        · rw [isKey, length_append, length_singleton, full] at short
          omega
        · exact .inl (by rw [entry, zeroed h there, wordAt_zeroPage])
      · by_cases here : h = g
        · subst here
          by_cases atSlot : j = i
          · subst atSlot
            rw [set.entry_same]
            exact set.named
          · rw [set.entry_other atSlot]
            exact valid.tidy r' isRoot q h short there j atRoot
        · rw [entry, set.table valid short.le there here]
          exact valid.tidy r' isRoot q h short there j atRoot
    · rw [set.spaces_other valid isRoot same q short.le] at there
      rw [entry, set.other valid isRoot same (mem_ownFrames.mpr ⟨q, short.le, there⟩)]
      exact valid.tidy r' isRoot q h short there j atRoot

end SetLink

/-- **A frame in hand is linked into a space**, as an empty table or as a page. -/
theorem Valid.link (valid : Valid kernel ram a roots (t :: hand))
    (set : SetLink kernel ram roots (t :: hand) r g p i (frameEntry t) memory')
    (absent : space ram.memory kernel r (p ++ [i]) = none) : (∀ q, q.length ≤ 4 → space memory' kernel r q =
      if q = p ++ [i] then some t else space ram.memory kernel r q) ∧
    (ownFrames memory' kernel r).Perm (t :: ownFrames ram.memory kernel r) := by
  have keys := set.space_set valid
  rw [entryFrame_frameEntry (valid.lt mem_cons_self)] at keys
  have fresh : t ∉ ownFrames ram.memory kernel r := fun mem =>
    valid.not_hand (mem_spaceFrames set.isRoot mem) mem_cons_self
  exact ⟨keys, (nodes_add mem_allSlots nodup_allSlots (valid.tree set.isRoot) set.key_short absent
    fresh keys).2⟩

/-- **A page is taken out of a space.** -/
theorem Valid.unlink (valid : Valid kernel ram a roots hand)
    (set : SetLink kernel ram roots hand r g p i 0 memory')
    (present : space ram.memory kernel r (p ++ [i]) = some t) : (∀ q, q.length ≤ 4 → space memory' kernel r q =
      if q = p ++ [i] then none else space ram.memory kernel r q) ∧
    (ownFrames ram.memory kernel r).Perm (t :: ownFrames memory' kernel r) := by
  have keys := set.space_set valid
  rw [entryFrame_zero] at keys
  exact ⟨keys, (nodes_remove mem_allSlots nodup_allSlots (valid.tree set.isRoot) set.key_short present keys).2⟩

/-! ### Spaces come and go -/

/-- A root whose table has nothing of its own. -/
theorem space_of_copy (copy : memory r = memory kernel) :
    (∀ q, space memory kernel r q = if q = [] then some r else none) ∧ ownFrames memory kernel r = [r] := by
  have unlinked (i : Slot) : ownTable memory kernel r r i = none := by
    have same : entry memory r i = entry memory kernel i := congrArg (wordAt · i) copy
    rw [ownTable, nextTable, same]
    split
    · rfl
    · rename_i unused
      rw [not_and_or, not_not] at unused
      rw [unused.resolve_left fun ne => ne rfl]
      rfl
  constructor
  · intro q
    cases q with
    | nil => rfl
    | cons i q => rw [space, walk_cons, unlinked i]; rfl
  · rw [ownFrames, nodes_succ]
    have empty : allSlots.flatMap (below (ownTable memory kernel r) allSlots 3 r) = [] :=
      flatMap_eq_nil_iff.mpr fun i _ => by rw [below, unlinked i]; rfl
    rw [empty]
    rfl

/-- **A new space**, whose root is a copy of the kernel's. -/
theorem Valid.addRoot (valid : Valid kernel ram a roots (t :: hand)) (copy : memory' t = ram.memory kernel)
    (elsewhere : ∀ f, f ≠ t → memory' f = ram.memory f) :
    Valid kernel { ram with memory := memory' } a (t :: roots) hand := by
  have inUse : t ∈ t :: hand ++ spaceFrames ram.memory kernel roots := mem_cons_self
  have written : Valid kernel { ram with memory := memory' } a roots (t :: hand) := by
    refine valid.rewrite (fun r isRoot p g short there => ?_) (fun f isKernel => ?_) fun f free => ?_
    · exact elsewhere g (valid.ne_hand (Valid.mem isRoot short.le there))
    · exact elsewhere f (valid.kernel_ne_hand isKernel)
    · exact elsewhere f fun same => valid.not_available inUse (same ▸ mem_append_left _ free)
  have copied : memory' t = memory' kernel :=
    copy.trans (elsewhere kernel (valid.kernel_ne_hand kernel_mem_kernelFrames)).symm
  obtain ⟨keys, frames⟩ := space_of_copy copied
  have all : spaceFrames memory' kernel (t :: roots) = t :: spaceFrames memory' kernel roots := by
    rw [spaceFrames, flatMap_cons, frames]
    rfl
  have moved : (hand ++ spaceFrames memory' kernel (t :: roots)).Perm
      (t :: hand ++ spaceFrames memory' kernel roots) := by
    rw [all]
    exact perm_middle
  have whole := moved.append_right a.available
  refine ⟨written.refines, ?_, ?_, ?_, ?_, ?_⟩
  · exact whole.nodup_iff.mpr written.apart
  · exact fun f mem => written.usable f (moved.mem_iff.mp mem)
  · exact fun f isKernel mem => written.notKernel f isKernel (whole.mem_iff.mp mem)
  · intro r isRoot i used
    rcases mem_cons.mp isRoot with rfl | isRoot
    · have same : entry memory' r i = entry memory' kernel i := congrArg (wordAt · i) copied
      exact same ▸ SameLink.refl _
    · exact written.shares r isRoot i used
  · intro r isRoot p g short there i atRoot
    rcases mem_cons.mp isRoot with rfl | isRoot
    · rw [keys p] at there
      split at there
      · cases there
        have same : entry memory' r i = entry memory' kernel i := congrArg (wordAt · i) copied
        exact .inl (same.trans (atRoot rfl))
      · cases there
    · exact written.tidy r isRoot p g short there i atRoot

/-- The same frames, counted to other parts. -/
theorem Valid.regroup (valid : Valid kernel ram a roots hand) (fewer : roots' ⊆ roots)
    (moved : (hand' ++ spaceFrames ram.memory kernel roots').Perm
      (hand ++ spaceFrames ram.memory kernel roots)) : Valid kernel ram a roots' hand' := by
  have whole := moved.append_right a.available
  refine ⟨valid.refines, whole.nodup_iff.mpr valid.apart, ?_, ?_, ?_, ?_⟩
  · exact fun f mem => valid.usable f (moved.mem_iff.mp mem)
  · exact fun f isKernel mem => valid.notKernel f isKernel (whole.mem_iff.mp mem)
  · exact fun r isRoot => valid.shares r (fewer isRoot)
  · exact fun r isRoot => valid.tidy r (fewer isRoot)

theorem Valid.perm (valid : Valid kernel ram a roots hand) (sameRoots : roots'.Perm roots)
    (sameHand : hand'.Perm hand) : Valid kernel ram a roots' hand' :=
  valid.regroup sameRoots.subset (sameHand.append (sameRoots.flatMap_right _))

/-- **A space is given up**: its frames are in the kernel's hands. -/
theorem Valid.dropRoot (valid : Valid kernel ram a (r :: roots) hand) :
    Valid kernel ram a roots (ownFrames ram.memory kernel r ++ hand) := by
  refine valid.regroup (subset_cons_self _ _) ?_
  rw [spaceFrames, spaceFrames, flatMap_cons, append_assoc]
  exact perm_append_comm_assoc ..

end Valid

/-! ### At the start -/

/-- Before the first space is made, the kernel's tables are all there is; they lie outside the usable frames. -/
theorem valid_init {memoryMap : List MemoryRegion}
    (wf : WellFormed memoryMap) (apart : ∀ f ∈ kernelFrames memory kernel, f ∉ usableFrames memoryMap) :
    ∃ a, Valid kernel (Ram.init memory memoryMap) a [] [] ∧ a.available = usableFrames memoryMap := by
  have nodup : (usableFrames memoryMap).Nodup := nodup_flatMap.mpr ⟨fun r _ => nodup_range', wf.apart⟩
  refine ⟨⟨⟨usableFrames memoryMap, nodup, wf.zero⟩, 0, []⟩, ⟨?_, nodup, ?_, apart, ?_, ?_⟩, rfl⟩
  · exact ⟨rfl, rfl, rfl, forall_mem_nil _⟩
  · exact forall_mem_nil _
  · exact forall_mem_nil _
  · exact forall_mem_nil _

/-- A kernel without mappings. -/
theorem kernelFrames_zero (kernel : Frame) : kernelFrames (fun _ => zeroPage) kernel = [kernel] := by
  have empty : allSlots.flatMap (below (nextTable fun _ => zeroPage) allSlots 3 kernel) = [] := by
    refine flatMap_eq_nil_iff.mpr fun i _ => ?_
    rw [below, nextTable, entry, wordAt_zeroPage, entryFrame_zero]
    rfl
  rw [kernelFrames, nodes_succ, empty, nil_append]

end Ferros.Mm
