/-
**Cross-link freedom of a volume, and the writes that keep it.**

`Fat32.Consistent` says that a volume is free of cross-links: the chains of the root and of every
entry reachable from it end as they should and share no cluster, no directory holds a name twice,
and nothing follows the end of a directory.

* `Consistent.putSlot` — **the commit.** Replacing one slot of a directory keeps a volume consistent
  if the new entry brings a chain of its own and a name of its own.
-/

import Ferros.Fat.Directory

namespace Ferros.Fat

open Lib List

namespace Fat32

variable (vol : Fat32) {disk disk' : Disk} {p q : Pos} {dir x dir' c : ℕ} {path path' : List Name} {slot : Slot}

/-! ### The tree of an image -/

/-- **The directories reachable from the root**, each with the names that lead to it and its first
cluster. -/
inductive DirAt (disk : Disk) : List Name → ℕ → Prop
  | root : DirAt disk [] vol.rootCluster
  | child {path : List Name} {dir : ℕ} {p : Pos} (parent : DirAt disk path dir)
      (mem : p ∈ vol.children disk dir) (isDir : isDirOf (slotAt disk p) = true) :
      DirAt disk (path ++ [nameOf (slotAt disk p)]) (firstClusterOf (slotAt disk p))

/-- The live entries reachable from the root, dot slots apart. -/
def Reachable (disk : Disk) (p : Pos) : Prop :=
  ∃ path dir, vol.DirAt disk path dir ∧ p ∈ vol.children disk dir

/-- The chain of the entry at a position. -/
def chainAt (disk : Disk) (p : Pos) : List ℕ := vol.chain disk (firstClusterOf (slotAt disk p))

/-- A chain starts at `c` and ends in an end mark. -/
def HasChain (disk : Disk) (c : ℕ) : Prop :=
  vol.validCluster c = true ∧ vol.IsChain disk c (vol.chain disk c)

/-- The clusters of the root and of the reachable entries. -/
def Owned (disk : Disk) (c : ℕ) : Prop :=
  c ∈ vol.chain disk vol.rootCluster ∨ ∃ p, vol.Reachable disk p ∧ c ∈ vol.chainAt disk p

/-- **A volume without cross-links.** -/
structure Consistent (disk : Disk) : Prop where
  sound : vol.Sound
  root : vol.HasChain disk vol.rootCluster
  /-- A file with first cluster 0 owns no cluster; every other entry has a chain. -/
  entries : ∀ p, vol.Reachable disk p →
    (isDirOf (slotAt disk p) = false ∧ firstClusterOf (slotAt disk p) = 0) ∨
      vol.HasChain disk (firstClusterOf (slotAt disk p))
  rootApart : ∀ p, vol.Reachable disk p →
    (vol.chain disk vol.rootCluster).Disjoint (vol.chainAt disk p)
  apart : ∀ p q, vol.Reachable disk p → vol.Reachable disk q → p ≠ q →
    (vol.chainAt disk p).Disjoint (vol.chainAt disk q)
  names : ∀ path dir, vol.DirAt disk path dir → ∀ p ∈ vol.live disk dir, ∀ q ∈ vol.live disk dir,
    nameOf (slotAt disk p) = nameOf (slotAt disk q) → p = q
  tail : ∀ path dir, vol.DirAt disk path dir → TailZero disk (vol.slots disk dir)

variable {vol}

theorem mem_slots_of_mem_children (mem : p ∈ vol.children disk dir) :
    p ∈ vol.slots disk dir :=
  mem_of_mem_liveOn (mem_of_mem_filter mem)

theorem DirAt.reachable (isDir : vol.DirAt disk path dir)
    (mem : p ∈ vol.children disk dir) : vol.Reachable disk p :=
  ⟨path, dir, isDir, mem⟩

theorem not_valid_zero : vol.validCluster 0 = false := by
  rw [Bool.eq_false_iff]
  intro valid
  have low := (validCluster_iff.mp valid).1
  omega

theorem IsChain.hasChain (sound : vol.Sound) {l : List ℕ} (isChain : vol.IsChain disk c l)
    (some : l ≠ []) : vol.HasChain disk c := by
  refine ⟨?_, by rw [isChain.chain_eq sound]; exact isChain⟩
  cases l with
  | nil => exact absurd rfl some
  | cons head rest => exact isChain.2.1

section Facts

variable (inv : vol.Consistent disk)
include inv

theorem Consistent.isChain_chainAt (reachable : vol.Reachable disk p) (mem : x ∈ vol.chainAt disk p) :
    vol.HasChain disk (firstClusterOf (slotAt disk p)) := by
  rcases inv.entries p reachable with ⟨_, zero⟩ | hasChain
  · rw [chainAt, zero, chain_of_invalid not_valid_zero] at mem
    cases mem
  · exact hasChain

theorem Consistent.dirAt_hasChain (isDir : vol.DirAt disk path dir) : vol.HasChain disk dir := by
  cases isDir with
  | root => exact inv.root
  | child parent mem flag =>
    rcases inv.entries _ (parent.reachable mem) with ⟨file, _⟩ | hasChain
    · rw [flag] at file
      cases file
    · exact hasChain

omit inv in
theorem DirAt.owned (isDir : vol.DirAt disk path dir) : ∀ x ∈ vol.chain disk dir, vol.Owned disk x := by
  intro x inChain
  cases isDir with
  | root => exact .inl inChain
  | child parent mem flag => exact .inr ⟨_, parent.reachable mem, inChain⟩

theorem Consistent.owned_valid (owned : vol.Owned disk x) : vol.validCluster x ∧ vol.nextOf disk x ≠ 0 := by
  rcases owned with mem | ⟨p, reachable, mem⟩
  · exact ⟨inv.root.2.valid x mem, inv.root.2.next_ne_zero x mem⟩
  · have hasChain := inv.isChain_chainAt reachable mem
    exact ⟨hasChain.2.valid x mem, hasChain.2.next_ne_zero x mem⟩

variable (isDir : vol.DirAt disk path dir)
include isDir

theorem Consistent.nodup_slots : (vol.slots disk dir).Nodup := by
  have isChain := (inv.dirAt_hasChain isDir).2
  exact nodup_slotsOn (isChain.nodup inv.sound) isChain.valid

section

variable (isDir' : vol.DirAt disk path' dir')
include isDir'

/-- Directories that share a slot share a cluster. -/
theorem Consistent.exists_common (mem : p ∈ vol.slots disk dir)
    (member' : p ∈ vol.slots disk dir') : ∃ x, x ∈ vol.chain disk dir ∧ x ∈ vol.chain disk dir' := by
  obtain ⟨x, inChain, inCluster⟩ := mem_slotsOn.mp mem
  obtain ⟨x', inChain', inCluster'⟩ := mem_slotsOn.mp member'
  have valid := (inv.owned_valid (isDir.owned x inChain)).1
  have valid' := (inv.owned_valid (isDir'.owned x' inChain')).1
  have same := mem_sectorsOf_unique valid valid' inCluster inCluster'
  exact ⟨x, inChain, same ▸ inChain'⟩

/-- **A cluster belongs to one directory only**, and that one has one path. -/
theorem Consistent.dirAt_unique (mem : x ∈ vol.chain disk dir)
    (member' : x ∈ vol.chain disk dir') : path = path' ∧ dir = dir' := by
  induction isDir generalizing path' dir' x with
  | root =>
    cases isDir' with
    | root => exact ⟨rfl, rfl⟩
    | child parent inside flag =>
      exact absurd member' (inv.rootApart _ (parent.reachable inside) mem)
  | @child path dir p parent inside flag ih =>
    cases isDir' with
    | root => exact absurd mem (inv.rootApart _ (parent.reachable inside) member')
    | @child path' dir' p' parent' inside' flag' =>
      have samePos : p = p' := by
        by_contra ne
        exact inv.apart p p' (parent.reachable inside) (parent'.reachable inside') ne mem member'
      subst samePos
      obtain ⟨c, inChain, inChain'⟩ := inv.exists_common parent parent'
        (mem_slots_of_mem_children inside) (mem_slots_of_mem_children inside')
      obtain ⟨rfl, rfl⟩ := ih parent' inChain inChain'
      exact ⟨rfl, rfl⟩

/-- A slot belongs to one directory only. -/
theorem Consistent.dirAt_unique_slot (mem : p ∈ vol.slots disk dir)
    (member' : p ∈ vol.slots disk dir') : path = path' ∧ dir = dir' := by
  obtain ⟨c, inChain, inChain'⟩ := inv.exists_common isDir isDir' mem member'
  exact inv.dirAt_unique isDir isDir' inChain inChain'

end

end Facts

/-! ### Writes outside the owned clusters -/

section

variable (inv : vol.Consistent disk) (agree : vol.AgreeOn (vol.Owned disk) disk disk')
include inv agree

theorem HasChain.frame (hasChain : vol.HasChain disk c) (owned : ∀ x ∈ vol.chain disk c, vol.Owned disk x) :
    vol.chain disk' c = vol.chain disk c ∧ vol.HasChain disk' c := by
  have isChain := hasChain.2.agree agree owned
  have same := isChain.chain_eq inv.sound
  refine ⟨same, hasChain.1, ?_⟩
  rw [same]
  exact isChain

section

variable (isDir : vol.DirAt disk path dir)
include isDir

/-- The slots of a directory and their content are as before. -/
theorem Consistent.slots_frame : vol.slots disk' dir = vol.slots disk dir ∧
      ∀ p ∈ vol.slots disk dir, slotAt disk' p = slotAt disk p := by
  have hasChain := inv.dirAt_hasChain isDir
  constructor
  · unfold slots
    rw [(hasChain.frame inv agree isDir.owned).1]
  · exact fun p mem => agree.slotAt hasChain.2.valid isDir.owned mem

theorem Consistent.live_frame : vol.live disk' dir = vol.live disk dir := by
  obtain ⟨sameSlots, sameContent⟩ := inv.slots_frame agree isDir
  unfold live
  rw [sameSlots, liveOn_congr sameContent]

theorem Consistent.children_frame : vol.children disk' dir = vol.children disk dir := by
  unfold children
  rw [inv.live_frame agree isDir]
  refine filter_congr fun p mem => ?_
  rw [(inv.slots_frame agree isDir).2 p (mem_of_mem_liveOn mem)]

end

theorem Consistent.slotAt_frame (reachable : vol.Reachable disk p) : slotAt disk' p = slotAt disk p := by
  obtain ⟨path, dir, isDir, mem⟩ := reachable
  exact (inv.slots_frame agree isDir).2 p (mem_slots_of_mem_children mem)

theorem Consistent.dirAt_frame : vol.DirAt disk' path dir ↔ vol.DirAt disk path dir := by
  constructor
  · intro isDir'
    induction isDir' with
    | root => exact .root
    | @child path dir p parent mem flag ih =>
      rw [inv.children_frame agree ih] at mem
      have same := inv.slotAt_frame agree (ih.reachable mem)
      rw [same] at flag ⊢
      exact .child ih mem flag
  · intro isDir
    induction isDir with
    | root => exact .root
    | @child path dir p parent mem flag ih =>
      have same := inv.slotAt_frame agree (parent.reachable mem)
      rw [← inv.children_frame agree parent] at mem
      rw [← same] at flag ⊢
      exact .child ih mem flag

theorem Consistent.reachable_frame : vol.Reachable disk' p ↔ vol.Reachable disk p := by
  constructor
  · rintro ⟨path, dir, isDir', mem⟩
    have isDir := (inv.dirAt_frame agree).mp isDir'
    exact ⟨path, dir, isDir, inv.children_frame agree isDir ▸ mem⟩
  · rintro ⟨path, dir, isDir, mem⟩
    refine ⟨path, dir, (inv.dirAt_frame agree).mpr isDir, ?_⟩
    rw [inv.children_frame agree isDir]
    exact mem

theorem Consistent.chainAt_frame (reachable : vol.Reachable disk p) :
    vol.chainAt disk' p = vol.chainAt disk p := by
  unfold chainAt
  rw [inv.slotAt_frame agree reachable]
  rcases inv.entries p reachable with ⟨_, zero⟩ | hasChain
  · rw [zero, chain_of_invalid not_valid_zero, chain_of_invalid not_valid_zero]
  · exact (hasChain.frame inv agree fun x mem => .inr ⟨p, reachable, mem⟩).1

theorem Consistent.owned_frame : vol.Owned disk' x ↔ vol.Owned disk x := by
  unfold Owned
  rw [(inv.root.frame inv agree fun x mem => .inl mem).1]
  refine or_congr_right (exists_congr fun p => ?_)
  rw [inv.reachable_frame agree]
  exact and_congr_right fun reachable => by rw [inv.chainAt_frame agree reachable]

/-- **Writes outside the owned clusters keep a volume consistent.** -/
theorem Consistent.frame : vol.Consistent disk' where
  sound := inv.sound
  root := (inv.root.frame inv agree fun x mem => .inl mem).2
  entries p reachable' := by
    have reachable := (inv.reachable_frame agree).mp reachable'
    rw [inv.slotAt_frame agree reachable]
    refine (inv.entries p reachable).imp_right fun hasChain => ?_
    exact (hasChain.frame inv agree fun x mem => .inr ⟨p, reachable, mem⟩).2
  rootApart p reachable' := by
    have reachable := (inv.reachable_frame agree).mp reachable'
    rw [inv.chainAt_frame agree reachable, (inv.root.frame inv agree fun x mem => .inl mem).1]
    exact inv.rootApart p reachable
  apart p q reachableP' reachableQ' ne := by
    have reachableP := (inv.reachable_frame agree).mp reachableP'
    have reachableQ := (inv.reachable_frame agree).mp reachableQ'
    rw [inv.chainAt_frame agree reachableP, inv.chainAt_frame agree reachableQ]
    exact inv.apart p q reachableP reachableQ ne
  names path dir isDir' p memberP q memberQ same := by
    have isDir := (inv.dirAt_frame agree).mp isDir'
    rw [inv.live_frame agree isDir] at memberP memberQ
    have content := (inv.slots_frame agree isDir).2
    rw [content p (mem_of_mem_liveOn memberP), content q (mem_of_mem_liveOn memberQ)] at same
    exact inv.names path dir isDir p memberP q memberQ same
  tail path dir isDir' := by
    have isDir := (inv.dirAt_frame agree).mp isDir'
    obtain ⟨sameSlots, sameContent⟩ := inv.slots_frame agree isDir
    rw [sameSlots]
    exact (inv.tail path dir isDir).congr sameContent

end

/-! ### The commit -/

variable (vol) in
/-- **A slot write that may be committed.** The slot at `p` of a directory is replaced by `slot`:
the slots before it are in use, a new live entry has a name of its own and brings a chain no entry
owns, and a new directory is empty. -/
structure SlotWrite (disk : Disk) (path : List Name) (dir : ℕ) (p : Pos) (slot : Slot) : Prop where
  isDir : vol.DirAt disk path dir
  place : ∃ front back, vol.slots disk dir = front ++ p :: back ∧
    ∀ q ∈ front, slotAt disk q 0 ≠ 0x00
  first : slot 0 ≠ 0x00
  fresh : liveSlot slot = true → ∀ q ∈ vol.live disk dir, q ≠ p →
    nameOf (slotAt disk q) ≠ nameOf slot
  entry : liveSlot slot = true → (isDirOf slot = false ∧ firstClusterOf slot = 0) ∨
    (vol.HasChain disk (firstClusterOf slot) ∧
      ∀ x ∈ vol.chain disk (firstClusterOf slot), ¬ vol.Owned disk x)
  newDir : liveSlot slot = true → isDirOf slot = true →
    vol.children disk (firstClusterOf slot) = [] ∧
    (∀ q ∈ vol.live disk (firstClusterOf slot), ∀ r ∈ vol.live disk (firstClusterOf slot),
      nameOf (slotAt disk q) = nameOf (slotAt disk r) → q = r) ∧
    TailZero disk (vol.slots disk (firstClusterOf slot))

section Commit

variable (inv : vol.Consistent disk) (write : vol.SlotWrite disk path dir p slot)

include write in
theorem SlotWrite.mem_slots : p ∈ vol.slots disk dir := by
  obtain ⟨front, back, split, _⟩ := write.place
  rw [split]
  exact mem_append_right _ mem_cons_self

include write in
theorem SlotWrite.data : vol.dataStartSector ≤ p.1 := by
  obtain ⟨x, _, inCluster⟩ := mem_slotsOn.mp write.mem_slots
  exact dataStart_le_of_mem inCluster

theorem nextOf_putSlot (sound : vol.Sound) (data : vol.dataStartSector ≤ p.1) (valid : vol.validCluster c) :
    vol.nextOf (putSlot disk p slot) c = vol.nextOf disk c :=
  nextOf_update sound data valid

include inv write

theorem SlotWrite.chain_eq (c : ℕ) : vol.chain (putSlot disk p slot) c = vol.chain disk c :=
  follow_congr (fun _ valid => nextOf_putSlot inv.sound write.data valid) _ c

theorem SlotWrite.slots_eq (c : ℕ) : vol.slots (putSlot disk p slot) c = vol.slots disk c := by
  unfold slots
  rw [write.chain_eq inv]

theorem SlotWrite.hasChain (hasChain : vol.HasChain disk c) : vol.HasChain (putSlot disk p slot) c := by
  refine ⟨hasChain.1, ?_⟩
  rw [write.chain_eq inv]
  exact Lib.IsChain.congr hasChain.2 fun x mem =>
    nextOf_putSlot inv.sound write.data (hasChain.2.valid x mem)

theorem SlotWrite.chainAt_other (ne : q ≠ p) : vol.chainAt (putSlot disk p slot) q = vol.chainAt disk q := by
  unfold chainAt
  rw [slotAt_putSlot_other ne, write.chain_eq inv]

theorem SlotWrite.chainAt_same :
    vol.chainAt (putSlot disk p slot) p = vol.chain disk (firstClusterOf slot) := by
  unfold chainAt
  rw [slotAt_putSlot_same, write.chain_eq inv]

/-- The live entries of the directories after the write. -/
theorem SlotWrite.mem_live (isDir' : vol.DirAt disk path' dir') (q : Pos) :
    q ∈ vol.live (putSlot disk p slot) dir' ↔
      (q = p ∧ dir' = dir ∧ liveSlot slot) ∨ (q ≠ p ∧ q ∈ vol.live disk dir') := by
  unfold live
  rw [write.slots_eq inv]
  by_cases same : dir' = dir
  · subst same
    obtain ⟨front, back, split, before⟩ := write.place
    rw [mem_liveOn_putSlot split (inv.nodup_slots write.isDir) before write.first (inv.tail _ _ write.isDir)]
    simp only [true_and]
  · have outside : p ∉ vol.slots disk dir' := fun inside =>
      same (inv.dirAt_unique_slot isDir' write.isDir inside write.mem_slots).2
    rw [liveOn_congr fun r mem => slotAt_putSlot_other (ne_of_mem_of_not_mem mem outside)]
    constructor
    · intro mem
      exact .inr ⟨ne_of_mem_of_not_mem (mem_of_mem_liveOn mem) outside, mem⟩
    · rintro (⟨_, here, _⟩ | ⟨_, mem⟩)
      · exact absurd here same
      · exact mem

theorem SlotWrite.mem_children (isDir' : vol.DirAt disk path' dir') (q : Pos) :
    q ∈ vol.children (putSlot disk p slot) dir' ↔ (q = p ∧ dir' = dir ∧ liveSlot slot ∧ dotSlot slot = false) ∨
        (q ≠ p ∧ q ∈ vol.children disk dir') := by
  unfold children
  rw [mem_filter, mem_filter, write.mem_live inv isDir']
  by_cases same : q = p
  · subst same
    rw [slotAt_putSlot_same]
    simp [and_assoc]
  · rw [slotAt_putSlot_other same]
    simp [same]

section

variable (isLive : liveSlot slot) (flag : isDirOf slot)
include isLive flag

/-- The cluster of a new directory is none of the directories'. -/
theorem SlotWrite.newDir_slots : ∀ q ∈ vol.slots disk (firstClusterOf slot),
      slotAt (putSlot disk p slot) q = slotAt disk q := by
  intro q mem
  refine slotAt_putSlot_other ?_
  rintro rfl
  rcases write.entry isLive with ⟨file, _⟩ | ⟨hasChain, unowned⟩
  · rw [flag] at file
    cases file
  · obtain ⟨x, inChain, inCluster⟩ := mem_slotsOn.mp mem
    obtain ⟨x', inChain', inCluster'⟩ := mem_slotsOn.mp write.mem_slots
    have owned := write.isDir.owned x' inChain'
    have same := mem_sectorsOf_unique (hasChain.2.valid x inChain) (inv.owned_valid owned).1
      inCluster inCluster'
    exact unowned x inChain (same ▸ owned)

theorem SlotWrite.newDir_live :
    vol.live (putSlot disk p slot) (firstClusterOf slot) = vol.live disk (firstClusterOf slot) := by
  unfold live
  rw [write.slots_eq inv, liveOn_congr (write.newDir_slots inv isLive flag)]

theorem SlotWrite.newDir_children : vol.children (putSlot disk p slot) (firstClusterOf slot) = [] := by
  rw [← (write.newDir isLive flag).1]
  unfold children
  rw [write.newDir_live inv isLive flag]
  refine filter_congr fun q mem => ?_
  rw [write.newDir_slots inv isLive flag q (mem_of_mem_liveOn mem)]

end

/-- **The directories after the write** are those before it and the new one. -/
theorem SlotWrite.dirAt_after (isDir' : vol.DirAt (putSlot disk p slot) path' dir') :
    vol.DirAt disk path' dir' ∨ (liveSlot slot ∧ isDirOf slot ∧ path' = path ++ [nameOf slot] ∧
        dir' = firstClusterOf slot) := by
  induction isDir' with
  | root => exact .inl .root
  | @child path' dir' q parent mem flag ih =>
    rcases ih with wasDir | ⟨isLive, newFlag, rfl, rfl⟩
    · rcases (write.mem_children inv wasDir q).mp mem with
        ⟨rfl, rfl, isLive, _⟩ | ⟨ne, wasChild⟩
      · rw [slotAt_putSlot_same] at flag ⊢
        have samePath : path' = path := (inv.dirAt_unique_slot wasDir write.isDir
          write.mem_slots write.mem_slots).1
        rw [samePath]
        exact .inr ⟨isLive, flag, rfl, rfl⟩
      · rw [slotAt_putSlot_other ne] at flag ⊢
        exact .inl (.child wasDir wasChild flag)
    · rw [write.newDir_children inv isLive newFlag] at mem
      cases mem

section

variable (oldEmpty : p ∈ vol.children disk dir → isDirOf (slotAt disk p) →
  vol.children disk (firstClusterOf (slotAt disk p)) = [])
include oldEmpty

/-- **The directories before the write** stay, except one that the write removes; that one must be
empty. -/
theorem SlotWrite.dirAt_before (isDir' : vol.DirAt disk path' dir') :
    vol.DirAt (putSlot disk p slot) path' dir' ∨ (p ∈ vol.children disk dir ∧ isDirOf (slotAt disk p) ∧
        path' = path ++ [nameOf (slotAt disk p)] ∧ dir' = firstClusterOf (slotAt disk p)) := by
  induction isDir' with
  | root => exact .inl .root
  | @child path' dir' q parent mem flag ih =>
    rcases ih with stays | ⟨wasChild, oldFlag, rfl, rfl⟩
    · by_cases same : q = p
      · subst same
        obtain ⟨rfl, rfl⟩ := inv.dirAt_unique_slot parent write.isDir
          (mem_slots_of_mem_children mem) write.mem_slots
        exact .inr ⟨mem, flag, rfl, rfl⟩
      · have isChild := (write.mem_children inv parent q).mpr (.inr ⟨same, mem⟩)
        have kept : slotAt (Fat.putSlot disk p slot) q = slotAt disk q := slotAt_putSlot_other same
        rw [← kept] at flag ⊢
        exact .inl (.child stays isChild flag)
    · rw [oldEmpty wasChild oldFlag] at mem
      cases mem

/-- The entries before the write stay, except the one it replaces. -/
theorem SlotWrite.reachable_before (ne : q ≠ p) (reachable : vol.Reachable disk q) :
    vol.Reachable (putSlot disk p slot) q := by
  obtain ⟨path', dir', isDir', mem⟩ := reachable
  rcases write.dirAt_before inv oldEmpty isDir' with stays | ⟨wasChild, flag, _, rfl⟩
  · exact stays.reachable ((write.mem_children inv isDir' q).mpr (.inr ⟨ne, mem⟩))
  · rw [oldEmpty wasChild flag] at mem
    cases mem

end

/-- The directories up to the one that is written to stay. -/
theorem SlotWrite.dirAt_short (isDir' : vol.DirAt disk path' dir') (short : path'.length ≤ path.length) :
    vol.DirAt (putSlot disk p slot) path' dir' := by
  induction isDir' with
  | root => exact .root
  | @child path' dir' q parent mem flag ih =>
    rw [length_append, length_singleton] at short
    have ne : q ≠ p := by
      rintro rfl
      obtain ⟨rfl, -⟩ := inv.dirAt_unique_slot parent write.isDir
        (mem_slots_of_mem_children mem) write.mem_slots
      omega
    have isChild := (write.mem_children inv parent q).mpr (.inr ⟨ne, mem⟩)
    have kept : slotAt (Fat.putSlot disk p slot) q = slotAt disk q := slotAt_putSlot_other ne
    rw [← kept] at flag ⊢
    exact .child (ih (by omega)) isChild flag

theorem SlotWrite.dirAt_dir : vol.DirAt (putSlot disk p slot) path dir :=
  write.dirAt_short inv write.isDir le_rfl

/-- The entries after the write are those before it, with `p` decided by its new content. -/
theorem SlotWrite.reachable_after (reachable : vol.Reachable (putSlot disk p slot) q) :
    (q = p ∧ liveSlot slot ∧ dotSlot slot = false) ∨ (q ≠ p ∧ vol.Reachable disk q) := by
  obtain ⟨path', dir', isDir', mem⟩ := reachable
  rcases write.dirAt_after inv isDir' with wasDir | ⟨isLive, flag, _, rfl⟩
  · rcases (write.mem_children inv wasDir q).mp mem with
      ⟨same, _, isLive, notDot⟩ | ⟨ne, wasChild⟩
    · exact .inl ⟨same, isLive, notDot⟩
    · exact .inr ⟨ne, wasDir.reachable wasChild⟩
  · rw [write.newDir_children inv isLive flag] at mem
    cases mem

omit inv in
theorem SlotWrite.new_unowned (isLive : liveSlot slot) :
    ∀ x ∈ vol.chain disk (firstClusterOf slot), ¬ vol.Owned disk x := by
  rcases write.entry isLive with ⟨_, zero⟩ | ⟨_, unowned⟩
  · rw [zero, chain_of_invalid not_valid_zero]
    exact forall_mem_nil _
  · exact unowned

/-- **What a commit replaces is no longer owned.** -/
theorem SlotWrite.old_unowned (reachable : vol.Reachable disk p) :
    ∀ x ∈ vol.chainAt disk p, ¬ vol.Owned (putSlot disk p slot) x := by
  rintro x mem (inRoot | ⟨q, reachable', inChain⟩)
  · rw [write.chain_eq inv] at inRoot
    exact inv.rootApart p reachable inRoot mem
  · rcases write.reachable_after inv reachable' with ⟨rfl, isLive, _⟩ | ⟨ne, was⟩
    · rw [write.chainAt_same inv] at inChain
      exact write.new_unowned isLive x inChain (.inr ⟨_, reachable, mem⟩)
    · rw [write.chainAt_other inv ne] at inChain
      exact inv.apart p q reachable was ne.symm mem inChain

/-- **A commit keeps a volume consistent.** -/
theorem Consistent.putSlot : vol.Consistent (putSlot disk p slot) where
  sound := inv.sound
  root := write.hasChain inv inv.root
  entries q reachable' := by
    rcases write.reachable_after inv reachable' with ⟨rfl, isLive, _⟩ | ⟨ne, was⟩
    · rw [slotAt_putSlot_same]
      exact (write.entry isLive).imp_right fun new => write.hasChain inv new.1
    · rw [slotAt_putSlot_other ne]
      exact (inv.entries q was).imp_right fun old => write.hasChain inv old
  rootApart q reachable' := by
    rw [write.chain_eq inv]
    rcases write.reachable_after inv reachable' with ⟨rfl, isLive, _⟩ | ⟨ne, was⟩
    · rw [write.chainAt_same inv]
      exact fun x inRoot inNew => write.new_unowned isLive x inNew (.inl inRoot)
    · rw [write.chainAt_other inv ne]
      exact inv.rootApart q was
  apart q r reachableQ' reachableR' ne := by
    rcases write.reachable_after inv reachableQ' with ⟨rfl, isLive, _⟩ | ⟨other, was⟩ <;>
      rcases write.reachable_after inv reachableR' with ⟨rfl, isLive', _⟩ | ⟨other', was'⟩
    · exact absurd rfl ne
    · rw [write.chainAt_same inv, write.chainAt_other inv other']
      exact fun x inNew inOld => write.new_unowned isLive x inNew (.inr ⟨r, was', inOld⟩)
    · rw [write.chainAt_same inv, write.chainAt_other inv other]
      exact fun x inOld inNew => write.new_unowned isLive' x inNew (.inr ⟨q, was, inOld⟩)
    · rw [write.chainAt_other inv other, write.chainAt_other inv other']
      exact inv.apart q r was was' ne
  names path' dir' isDir' q memberQ r memberR same := by
    rcases write.dirAt_after inv isDir' with wasDir | ⟨isLive, flag, _, rfl⟩
    · rcases (write.mem_live inv wasDir q).mp memberQ with
        ⟨rfl, rfl, isLive⟩ | ⟨otherQ, wasQ⟩ <;>
      rcases (write.mem_live inv wasDir r).mp memberR with
        ⟨rfl, here, isLive'⟩ | ⟨otherR, wasR⟩
      · rfl
      · rw [slotAt_putSlot_same, slotAt_putSlot_other otherR] at same
        exact absurd same.symm (write.fresh isLive r wasR otherR)
      · rw [slotAt_putSlot_same, slotAt_putSlot_other otherQ] at same
        exact absurd same (write.fresh isLive' q (here ▸ wasQ) otherQ)
      · rw [slotAt_putSlot_other otherQ, slotAt_putSlot_other otherR] at same
        exact inv.names path' dir' wasDir q wasQ r wasR same
    · rw [write.newDir_live inv isLive flag] at memberQ memberR
      have content := write.newDir_slots inv isLive flag
      rw [content q (mem_of_mem_liveOn memberQ), content r (mem_of_mem_liveOn memberR)] at same
      exact (write.newDir isLive flag).2.1 q memberQ r memberR same
  tail path' dir' isDir' := by
    rw [write.slots_eq inv]
    rcases write.dirAt_after inv isDir' with wasDir | ⟨isLive, flag, _, rfl⟩
    · by_cases same : dir' = dir
      · subst same
        obtain ⟨front, back, split, before⟩ := write.place
        exact tailZero_putSlot split (inv.nodup_slots write.isDir) before write.first (inv.tail _ _ write.isDir)
      · refine (inv.tail path' dir' wasDir).congr fun q mem => slotAt_putSlot_other ?_
        rintro rfl
        exact same (inv.dirAt_unique_slot wasDir write.isDir mem write.mem_slots).2
    · exact (write.newDir isLive flag).2.2.congr (write.newDir_slots inv isLive flag)

end Commit

/-! ### A formatted volume -/

section

variable (zero : ∀ p ∈ vol.slots disk vol.rootCluster, slotAt disk p 0 = 0x00)
include zero

theorem live_of_formatted : vol.live disk vol.rootCluster = [] := by
  unfold live liveOn
  rw [usedOn_nil_of_zero zero]
  rfl

theorem children_of_formatted : vol.children disk vol.rootCluster = [] := by
  unfold children
  rw [live_of_formatted zero]
  rfl

theorem dirAt_of_formatted (isDir : vol.DirAt disk path dir) :
    path = [] ∧ dir = vol.rootCluster := by
  induction isDir with
  | root => exact ⟨rfl, rfl⟩
  | child parent mem flag ih =>
    rw [ih.2, children_of_formatted zero] at mem
    cases mem

theorem not_reachable_of_formatted (p : Pos) : ¬ vol.Reachable disk p := by
  rintro ⟨path, dir, isDir, mem⟩
  rw [(dirAt_of_formatted zero isDir).2, children_of_formatted zero] at mem
  exact not_mem_nil mem

/-- **A volume whose root directory is all zeros is consistent.** -/
theorem consistent_of_formatted (sound : vol.Sound) (root : vol.HasChain disk vol.rootCluster) :
    vol.Consistent disk where
  sound := sound
  root := root
  entries p reachable := absurd reachable (not_reachable_of_formatted zero p)
  rootApart p reachable := absurd reachable (not_reachable_of_formatted zero p)
  apart p _ reachable := absurd reachable (not_reachable_of_formatted zero p)
  names path dir isDir p mem := by
    rw [(dirAt_of_formatted zero isDir).2, live_of_formatted zero] at mem
    cases mem
  tail path dir isDir := by
    rw [(dirAt_of_formatted zero isDir).2]
    exact pairwise_of_forall_mem_list fun _ _ q mem _ => zero q mem

end

end Fat32

end Ferros.Fat
