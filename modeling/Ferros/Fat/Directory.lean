/-
**Chains and directories on an image.**

The driver reads an image through two notions. The *chain* of a cluster is what `nextOf` links from
it on; the *live* slots of a directory are the slots of its chain before the first one that begins
with zero, less the deleted ones, the long-name parts and the volume label. Both are functions of
the image here (`Fat32.chain`, `Fat32.live`), with the predicate `Fat32.IsChain` for a chain that
ends as it should.

* `scanList` — what a directory scan computes, as a fold over slot positions.
* `mem_liveOn_putSlot` — **the effect of one slot write on a directory**: the slot itself is decided
  by its new content and every other slot is live as before, whether an entry is overwritten,
  deleted, or created in a deleted slot or at the end.
-/

import Ferros.Lib.Chain
import Ferros.Fat.Layout
import Mathlib.Data.List.Perm.Subperm

namespace Ferros.Fat

open Lib List

variable {disk disk' disk'' : Disk} {p : Pos} {c : ℕ} {l : List ℕ} {front back : List Pos} {slot : Slot}
  {keep keep' : ℕ → Prop}

/-- A FAT entry that ends a chain. -/
def endMark (value : ℕ) : Prop := 0x0FFFFFF8 ≤ value

instance : DecidablePred endMark := fun value => Nat.decLe 0x0FFFFFF8 value

/-! ### Slots -/

/-- An entry the scans do not pass over. -/
def liveSlot (slot : Slot) : Bool := slot 0 != 0x00 && slot 0 != 0xE5 && !skipped (attrOf slot)

/-- The `.` and `..` slots of a directory. -/
def dotSlot (slot : Slot) : Bool := nameOf slot == dotName || nameOf slot == dotdotName

/-- The positions before the end of the directory. -/
def usedOn (disk : Disk) (slots : List Pos) : List Pos :=
  slots.takeWhile fun p => slotAt disk p 0 != 0x00

/-- The positions of the live entries. -/
def liveOn (disk : Disk) (slots : List Pos) : List Pos :=
  (usedOn disk slots).filter fun p => liveSlot (slotAt disk p)

/-- Everything after a slot that begins with zero begins with zero. -/
def TailZero (disk : Disk) (slots : List Pos) : Prop :=
  slots.Pairwise fun p q => slotAt disk p 0 = 0x00 → slotAt disk q 0 = 0x00

theorem usedOn_congr {slots : List Pos} (same : ∀ p ∈ slots, slotAt disk' p = slotAt disk p)
    : usedOn disk' slots = usedOn disk slots := by
  induction slots with
  | nil => rfl
  | cons head rest ih =>
    have later := ih fun p mem => same p (mem_cons_of_mem _ mem)
    unfold usedOn at later ⊢
    rw [takeWhile_cons, takeWhile_cons, same head mem_cons_self, later]

theorem mem_of_mem_usedOn {slots : List Pos} (mem : p ∈ usedOn disk slots) :
    p ∈ slots :=
  (List.takeWhile_prefix _).subset mem

theorem liveOn_congr {slots : List Pos} (same : ∀ p ∈ slots, slotAt disk' p = slotAt disk p)
    : liveOn disk' slots = liveOn disk slots := by
  unfold liveOn
  rw [usedOn_congr same]
  refine filter_congr fun p mem => ?_
  rw [same p (mem_of_mem_usedOn mem)]

theorem TailZero.congr {slots : List Pos} (tail : TailZero disk slots)
    (same : ∀ p ∈ slots, slotAt disk' p = slotAt disk p) : TailZero disk' slots := by
  refine Pairwise.imp_of_mem ?_ tail
  intro p q memberP memberQ zero
  rw [same p memberP, same q memberQ]
  exact zero

theorem mem_of_mem_liveOn {slots : List Pos} (mem : p ∈ liveOn disk slots) :
    p ∈ slots :=
  mem_of_mem_usedOn (mem_of_mem_filter mem)

theorem liveSlot_of_mem_liveOn {slots : List Pos} (mem : p ∈ liveOn disk slots) :
    liveSlot (slotAt disk p) :=
  (mem_filter.mp mem).2

theorem liveSlot_iff :
    liveSlot slot ↔ slot 0 ≠ 0x00 ∧ slot 0 ≠ 0xE5 ∧ skipped (attrOf slot) = false := by
  unfold liveSlot
  simp [and_assoc]

theorem skipped_of_not_liveSlot (used : slot 0 ≠ 0x00) (kept : slot 0 ≠ 0xE5)
    (notLive : ¬ liveSlot slot) : skipped (attrOf slot) := by
  by_contra passed
  exact notLive (liveSlot_iff.mpr ⟨used, kept, Bool.eq_false_iff.mpr passed⟩)

theorem liveOn_cons (disk : Disk) (p : Pos) (rest : List Pos) : liveOn disk (p :: rest) =
      if slotAt disk p 0 = 0x00 then [] else if liveSlot (slotAt disk p) then p :: liveOn disk rest
      else liveOn disk rest := by
  unfold liveOn usedOn
  rw [takeWhile_cons]
  by_cases zero : slotAt disk p 0 = 0x00
  · simp [zero]
  · rw [if_neg zero, if_pos (by simpa using zero), filter_cons]

theorem usedOn_append (before : ∀ q ∈ front, slotAt disk q 0 ≠ 0x00) :
    usedOn disk (front ++ back) = front ++ usedOn disk back :=
  takeWhile_append_of_pos fun q mem => by simpa using before q mem

theorem usedOn_nil_of_zero {slots : List Pos} (zero : ∀ q ∈ slots, slotAt disk q 0 = 0x00) :
    usedOn disk slots = [] := by
  cases slots with
  | nil => rfl
  | cons head rest =>
    unfold usedOn
    rw [takeWhile_cons, zero head mem_cons_self]
    rfl

section SlotWrite

variable {slots : List Pos}

theorem ne_of_mem_sides (nodup : (front ++ p :: back).Nodup) : ∀ q ∈ front ++ back, q ≠ p := by
  rintro q mem rfl
  exact (nodup_cons.mp (nodup_middle.mp nodup)).1 mem

/-- The part of a directory behind a written slot is read as before. -/
theorem usedOn_putSlot (nodup : (front ++ p :: back).Nodup) (before : ∀ q ∈ front, slotAt disk q 0 ≠ 0x00)
    (first : slot 0 ≠ 0x00) :
    usedOn (putSlot disk p slot) (front ++ p :: back) = front ++ p :: usedOn disk back := by
  have apart := ne_of_mem_sides nodup
  rw [usedOn_append]
  · congr 1
    unfold usedOn
    rw [takeWhile_cons, slotAt_putSlot_same, if_pos (by simpa using first)]
    congr 1
    exact usedOn_congr fun q mem =>
      slotAt_putSlot_other (apart q (mem_append_right _ mem))
  · intro q mem
    rw [slotAt_putSlot_other (apart q (mem_append_left _ mem))]
    exact before q mem

/-- **One slot write.** Slots before it are in use, its new first byte is not zero, and if it was
the end of the directory only zeros follow it. -/
theorem mem_liveOn_putSlot (split : slots = front ++ p :: back) (nodup : slots.Nodup)
    (before : ∀ q ∈ front, slotAt disk q 0 ≠ 0x00) (first : slot 0 ≠ 0x00) (tail : TailZero disk slots)
    (q : Pos) : q ∈ liveOn (putSlot disk p slot) slots ↔
      (q = p ∧ liveSlot slot) ∨ (q ≠ p ∧ q ∈ liveOn disk slots) := by
  subst split
  have wasUsed : q ≠ p → (q ∈ usedOn disk (front ++ p :: back) ↔ q ∈ front ++ p :: usedOn disk back) := by
    intro ne
    rw [usedOn_append before, mem_append, mem_append]
    refine or_congr_right ?_
    by_cases zero : slotAt disk p 0 = 0x00
    · have behind : ∀ r ∈ back, slotAt disk r 0 = 0x00 := by
        intro r mem
        have pairs := (pairwise_append.mp tail).2.1
        exact (pairwise_cons.mp pairs).1 r mem zero
      have fromHere : ∀ r ∈ p :: back, slotAt disk r 0 = 0x00 := by
        intro r mem
        rcases mem_cons.mp mem with rfl | mem
        · exact zero
        · exact behind r mem
      rw [usedOn_nil_of_zero behind, usedOn_nil_of_zero fromHere]
      simp [ne]
    · unfold usedOn
      rw [takeWhile_cons, if_pos (by simpa using zero)]
  unfold liveOn
  rw [mem_filter, mem_filter, usedOn_putSlot nodup before first]
  by_cases same : q = p
  · subst same
    rw [slotAt_putSlot_same]
    simp
  · rw [slotAt_putSlot_other same, wasUsed same]
    simp [same]

/-- A slot write keeps the end of the directory an end. -/
theorem tailZero_putSlot (split : slots = front ++ p :: back) (nodup : slots.Nodup)
    (before : ∀ q ∈ front, slotAt disk q 0 ≠ 0x00) (first : slot 0 ≠ 0x00) (tail : TailZero disk slots) :
    TailZero (putSlot disk p slot) slots := by
  subst split
  have apart := ne_of_mem_sides nodup
  have inFront : ∀ q ∈ front, slotAt (putSlot disk p slot) q 0 ≠ 0x00 := by
    intro q mem
    rw [slotAt_putSlot_other (apart q (mem_append_left _ mem))]
    exact before q mem
  have inBack : TailZero (putSlot disk p slot) back := by
    refine TailZero.congr (pairwise_cons.mp (pairwise_append.mp tail).2.1).2 ?_
    exact fun q mem => slotAt_putSlot_other (apart q (mem_append_right _ mem))
  unfold TailZero
  rw [pairwise_append, pairwise_cons]
  refine ⟨?_, ⟨?_, inBack⟩, ?_⟩
  · exact pairwise_of_forall_mem_list fun q mem _ _ zero => absurd zero (inFront q mem)
  · intro q _ zero
    rw [slotAt_putSlot_same] at zero
    exact absurd zero first
  · exact fun q mem _ _ zero => absurd zero (inFront q mem)

end SlotWrite

namespace Fat32

variable (vol : Fat32)

/-! ### Chains and directories of a volume -/

/-- `l` is the chain of `c`: valid clusters, each linked to the next, the last one to an end mark. -/
def IsChain (disk : Disk) (c : ℕ) (l : List ℕ) : Prop :=
  Lib.IsChain (vol.nextOf disk) vol.validCluster endMark c l

/-- The clusters the driver meets from `c` on. -/
def chain (disk : Disk) (c : ℕ) : List ℕ :=
  follow (vol.nextOf disk) vol.validCluster vol.clusterCount c

/-- The slots of a list of clusters, in the order of the scans. -/
def slotsOn (clusters : List ℕ) : List Pos :=
  clusters.flatMap fun c => (vol.sectorsOf c).flatMap fun s => (finRange 16).map fun i => (s, i)

/-- The slots of a directory. -/
def slots (disk : Disk) (dir : ℕ) : List Pos := vol.slotsOn (vol.chain disk dir)

/-- The live entries of a directory. -/
def live (disk : Disk) (dir : ℕ) : List Pos := liveOn disk (vol.slots disk dir)

/-- The live entries of a directory besides its dot slots. -/
def children (disk : Disk) (dir : ℕ) : List Pos :=
  (vol.live disk dir).filter fun p => !dotSlot (slotAt disk p)

/-- Two images agree on the clusters of a set: on their entries in the first FAT copy and on their
sectors. -/
structure AgreeOn (keep : ℕ → Prop) (disk disk' : Disk) : Prop where
  next : ∀ c, vol.validCluster c → keep c → vol.nextOf disk' c = vol.nextOf disk c
  data : ∀ c, vol.validCluster c → keep c → ∀ s ∈ vol.sectorsOf c, disk' s = disk s

variable {vol}

theorem Sound.endMark_invalid (sound : vol.Sound) (c : ℕ) (ends : endMark c) : vol.validCluster c = false := by
  rw [Bool.eq_false_iff]
  intro valid
  have below := (validCluster_iff.mp valid).2
  have clusters := sound.clusters
  unfold endMark at ends
  unfold firstDataCluster at clusters
  omega

/-- A list of different valid clusters is no longer than the volume. -/
theorem length_le_clusterCount (nodup : l.Nodup) (valid : ∀ c ∈ l, vol.validCluster c) :
    l.length ≤ vol.clusterCount := by
  have inside : l ⊆ range' 2 vol.clusterCount := by
    intro c mem
    rw [mem_range'_1]
    exact validCluster_iff.mp (valid c mem)
  calc l.length ≤ (range' 2 vol.clusterCount).length :=
        (nodup.subperm inside).length_le
    _ = vol.clusterCount := length_range'

theorem IsChain.nodup (sound : vol.Sound) (isChain : vol.IsChain disk c l) : l.Nodup :=
  Lib.IsChain.nodup sound.endMark_invalid isChain

theorem IsChain.valid (isChain : vol.IsChain disk c l) : ∀ x ∈ l, vol.validCluster x :=
  Lib.IsChain.valid_of_mem isChain

/-- No cluster of a chain is free. -/
theorem IsChain.next_ne_zero (isChain : vol.IsChain disk c l) : ∀ x ∈ l, vol.nextOf disk x ≠ 0 := by
  intro x mem free
  rcases Lib.IsChain.next_of_mem isChain x mem with valid | ends
  · have low := (validCluster_iff.mp valid).1
    omega
  · unfold endMark at ends
    omega

theorem IsChain.length_le (sound : vol.Sound) (isChain : vol.IsChain disk c l) : l.length ≤ vol.clusterCount :=
  length_le_clusterCount (isChain.nodup sound) isChain.valid

/-- The driver meets exactly the clusters of the chain. -/
theorem IsChain.chain_eq (sound : vol.Sound) (isChain : vol.IsChain disk c l) : vol.chain disk c = l :=
  Lib.IsChain.follow_eq sound.endMark_invalid isChain (isChain.length_le sound)

theorem chain_of_invalid (invalid : vol.validCluster c = false) : vol.chain disk c = [] :=
  follow_invalid invalid

theorem IsChain.agree (isChain : vol.IsChain disk c l) (agree : vol.AgreeOn keep disk disk')
    (kept : ∀ x ∈ l, keep x) : vol.IsChain disk' c l :=
  Lib.IsChain.congr isChain fun x mem => agree.next x (isChain.valid x mem) (kept x mem)

theorem AgreeOn.mono (agree : vol.AgreeOn keep disk disk') (fewer : ∀ c, vol.validCluster c → keep' c → keep c)
    : vol.AgreeOn keep' disk disk' :=
  ⟨fun c valid kept => agree.next c valid (fewer c valid kept),
    fun c valid kept => agree.data c valid (fewer c valid kept)⟩

theorem AgreeOn.refl (keep : ℕ → Prop) (disk : Disk) : vol.AgreeOn keep disk disk :=
  ⟨fun _ _ _ => rfl, fun _ _ _ _ _ => rfl⟩

theorem AgreeOn.trans (first : vol.AgreeOn keep disk disk') (second : vol.AgreeOn keep disk' disk'') :
    vol.AgreeOn keep disk disk'' :=
  ⟨fun c valid kept => (second.next c valid kept).trans (first.next c valid kept),
    fun c valid kept s mem =>
      (second.data c valid kept s mem).trans (first.data c valid kept s mem)⟩

theorem mem_slotsOn : p ∈ vol.slotsOn l ↔ ∃ c ∈ l, p.1 ∈ vol.sectorsOf c := by
  unfold slotsOn
  simp only [mem_flatMap, mem_map, mem_finRange, true_and]
  constructor
  · rintro ⟨c, inList, s, inCluster, i, rfl⟩
    exact ⟨c, inList, inCluster⟩
  · rintro ⟨c, inList, inCluster⟩
    exact ⟨c, inList, p.1, inCluster, p.2, rfl⟩

theorem nodup_slotsOn (nodup : l.Nodup) (valid : ∀ x ∈ l, vol.validCluster x) : (vol.slotsOn l).Nodup := by
  unfold slotsOn
  rw [nodup_flatMap]
  refine ⟨fun x _ => ?_, nodup.imp_of_mem ?_⟩
  · rw [nodup_flatMap]
    refine ⟨fun s _ => ?_, (nodup_sectorsOf x).imp ?_⟩
    · exact (nodup_finRange 16).map fun i j same => (Prod.mk.inj same).2
    · intro s t ne p inFirst inSecond
      obtain ⟨i, _, rfl⟩ := mem_map.mp inFirst
      obtain ⟨j, _, same⟩ := mem_map.mp inSecond
      exact ne (Prod.mk.inj same).1.symm
  · intro x y inX inY ne p inFirst inSecond
    have first : p.1 ∈ vol.sectorsOf x := by
      obtain ⟨s, mem, inside⟩ := mem_flatMap.mp inFirst
      obtain ⟨i, _, rfl⟩ := mem_map.mp inside
      exact mem
    have second : p.1 ∈ vol.sectorsOf y := by
      obtain ⟨s, mem, inside⟩ := mem_flatMap.mp inSecond
      obtain ⟨i, _, rfl⟩ := mem_map.mp inside
      exact mem
    exact ne (mem_sectorsOf_unique (valid x inX) (valid y inY) first second)

theorem AgreeOn.slotAt (agree : vol.AgreeOn keep disk disk')
    (valid : ∀ x ∈ l, vol.validCluster x) (kept : ∀ x ∈ l, keep x) (mem : p ∈ vol.slotsOn l) :
    slotAt disk' p = slotAt disk p := by
  obtain ⟨c, inList, inCluster⟩ := mem_slotsOn.mp mem
  unfold Fat.slotAt
  rw [agree.data c (valid c inList) (kept c inList) p.1 inCluster]

end Fat32

end Ferros.Fat
