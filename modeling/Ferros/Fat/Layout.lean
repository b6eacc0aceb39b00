/-
**Where things are on a FAT32 volume, and what a write leaves alone.**

`Fat32.Sound` is the sound geometry: the entry of every valid cluster lies in its FAT copy, the
FAT copies come before the data area, no cluster number is an end mark and no address overflows.
Under it the volume splits into independent cells: the entry of each cluster in each FAT copy, and
the sectors of each cluster.

* `nextOf_update`, `mem_sectorsOf_unique` — a write to a sector of a cluster changes no entry and
  no other cluster.
-/

import Ferros.Fat.Driver
import Mathlib.Data.List.Nodup
import Mathlib.Data.Nat.Bitwise
import Mathlib.Tactic.Linarith

namespace Ferros.Fat

open Lib List Function

/-! ### One FAT entry in its sector -/

theorem and_mask_eq_mod (value : ℕ) : value &&& fat32EntryMask = value % 2 ^ 28 :=
  Nat.and_two_pow_sub_one_eq_mod value 28

theorem rawEntry_putEntry_same (buf : Sector) (cluster value : ℕ) :
    rawEntry (putEntry buf cluster value) cluster &&& fat32EntryMask = value &&& fat32EntryMask := by
  unfold putEntry
  rw [rawEntry, readU32, slice_splice_same, leVal_leBytes, and_mask_eq_mod, and_mask_eq_mod]
  have reserved : ∀ old : ℕ, (old &&& 0xF0000000) % 2 ^ 28 = 0 := fun old => by
    rw [Nat.and_mod_two_pow]
    simp
  rw [show (256 : ℕ) ^ 4 = 2 ^ 28 * 2 ^ 4 by norm_num, Nat.mod_mul_right_mod,
    Nat.or_mod_two_pow, reserved, Nat.zero_or, Nat.mod_mod]

theorem rawEntry_putEntry_other {buf : Sector} {cluster other value : ℕ}
    (sameSector : cluster * 4 / 512 = other * 4 / 512) (ne : other ≠ cluster) :
    rawEntry (putEntry buf cluster value) other = rawEntry buf other := by
  unfold putEntry
  rw [rawEntry, readU32, slice_splice_other]
  · rfl
  · unfold entryOffset
    omega

namespace Fat32

variable (vol : Fat32) {buf : Sector}

/-! ### Geometry -/

/-- **A sound geometry.** -/
structure Sound : Prop where
  /-- The entry of every valid cluster lies in the FAT copy it is in. -/
  entryFits : ∀ c, vol.validCluster c → c * 4 / 512 < vol.fatSize
  /-- The FAT copies end before the data area begins. -/
  regions : vol.fatStartSector + vol.numFats * vol.fatSize ≤ vol.dataStartSector
  /-- No cluster number is an end mark or the mark of a bad cluster. -/
  clusters : firstDataCluster + vol.clusterCount ≤ 0x0FFFFFF7
  /-- The end of the data area is a 32-bit sector number. -/
  addresses : vol.dataStartSector + vol.clusterCount * vol.sectorsPerCluster < 2 ^ 32

/-- The entry of a cluster in the first FAT copy, without the reserved bits. -/
def nextOf (disk : Disk) (cluster : ℕ) : ℕ :=
  rawEntry (disk (vol.fatSector 0 cluster)) cluster &&& fat32EntryMask

/-- The image after the first `k` copies of the entry of `cluster` were set. -/
def putCopies (disk : Disk) (cluster value : ℕ) : ℕ → Disk
  | 0 => disk
  | k + 1 =>
    update (putCopies disk cluster value k) (vol.fatSector k cluster)
      (putEntry (putCopies disk cluster value k (vol.fatSector k cluster)) cluster value)

variable {vol} {c c' sector fat fat' value k : ℕ} {disk : Disk}

theorem validCluster_iff : vol.validCluster c ↔ 2 ≤ c ∧ c < 2 + vol.clusterCount := by
  unfold validCluster firstDataCluster
  rw [Bool.and_eq_true, decide_eq_true_eq, decide_eq_true_eq]

/-- The FAT lies before the data area. -/
theorem Sound.fatSector_lt (sound : vol.Sound) (copy : fat < vol.numFats) (valid : vol.validCluster c) :
    vol.fatSector fat c < vol.dataStartSector := by
  have inside := sound.entryFits c valid
  have regions := sound.regions
  have rows : (fat + 1) * vol.fatSize ≤ vol.numFats * vol.fatSize := Nat.mul_le_mul_right _ copy
  rw [Nat.add_mul, Nat.one_mul] at rows
  unfold fatSector
  omega

/-- Entries in one sector belong to the same copy and the same row. -/
theorem fatSector_inj (inside : c * 4 / 512 < vol.fatSize) (inside' : c' * 4 / 512 < vol.fatSize)
    (same : vol.fatSector fat c = vol.fatSector fat' c') : fat = fat' ∧ c * 4 / 512 = c' * 4 / 512 := by
  unfold fatSector at same
  have copies : fat = fat' := by
    rcases Nat.lt_trichotomy fat fat' with less | equal | less
    · have rows : (fat + 1) * vol.fatSize ≤ fat' * vol.fatSize := Nat.mul_le_mul_right _ less
      rw [Nat.succ_mul] at rows
      omega
    · exact equal
    · have rows : (fat' + 1) * vol.fatSize ≤ fat * vol.fatSize := Nat.mul_le_mul_right _ less
      rw [Nat.succ_mul] at rows
      omega
  subst copies
  exact ⟨rfl, by omega⟩

/-- Different copies of the FAT share no sector. -/
theorem Sound.fatSector_copy (sound : vol.Sound) (valid : vol.validCluster c) (valid' : vol.validCluster c')
    (same : vol.fatSector fat c = vol.fatSector fat' c') : fat = fat' :=
  (fatSector_inj (sound.entryFits c valid) (sound.entryFits c' valid') same).1

/-- The sector of an entry in the first copy. -/
theorem fatSector_zero (c : ℕ) : vol.fatSector 0 c = vol.fatStartSector + c * 4 / 512 := by
  unfold fatSector
  omega

theorem mem_sectorsOf : sector ∈ vol.sectorsOf c ↔
      ∃ s < vol.sectorsPerCluster, vol.firstSectorOfCluster c + s = sector := by
  unfold sectorsOf
  simp only [mem_map, mem_range]

theorem dataStart_le_of_mem (mem : sector ∈ vol.sectorsOf c) : vol.dataStartSector ≤ sector := by
  obtain ⟨s, _, rfl⟩ := mem_sectorsOf.mp mem
  unfold firstSectorOfCluster
  omega

theorem mem_sectorsOf_unique (valid : vol.validCluster c) (valid' : vol.validCluster c')
    (mem : sector ∈ vol.sectorsOf c) (member' : sector ∈ vol.sectorsOf c') : c = c' := by
  obtain ⟨s, low, rfl⟩ := mem_sectorsOf.mp mem
  obtain ⟨s', low', same⟩ := mem_sectorsOf.mp member'
  have hc := (validCluster_iff.mp valid).1
  have hc' := (validCluster_iff.mp valid').1
  unfold firstSectorOfCluster firstDataCluster at same
  rcases Nat.lt_trichotomy c c' with less | equal | less
  · have rows : (c - 2 + 1) * vol.sectorsPerCluster ≤ (c' - 2) * vol.sectorsPerCluster :=
      Nat.mul_le_mul_right _ (by omega)
    rw [Nat.add_mul, Nat.one_mul] at rows
    omega
  · exact equal
  · have rows : (c' - 2 + 1) * vol.sectorsPerCluster ≤ (c - 2) * vol.sectorsPerCluster :=
      Nat.mul_le_mul_right _ (by omega)
    rw [Nat.add_mul, Nat.one_mul] at rows
    omega

theorem nodup_sectorsOf (c : ℕ) : (vol.sectorsOf c).Nodup := by
  unfold sectorsOf
  exact Nodup.map (fun _ _ same => Nat.add_left_cancel same) nodup_range

/-! ### What a FAT write leaves alone -/

theorem putCopies_data (sound : vol.Sound) (valid : vol.validCluster c) (copies : k ≤ vol.numFats)
    (data : vol.dataStartSector ≤ sector) : vol.putCopies disk c value k sector = disk sector := by
  induction k with
  | zero => rfl
  | succ k ih =>
    have below := sound.fatSector_lt copies valid
    rw [putCopies, update_of_ne (by omega), ih (by omega)]

/-- The first copy decides what the driver reads. -/
theorem nextOf_putCopies (sound : vol.Sound) (valid : vol.validCluster c) (valid' : vol.validCluster c') :
    vol.nextOf (vol.putCopies disk c value k) c' =
      if c' = c ∧ 0 < k then value &&& fat32EntryMask else vol.nextOf disk c' := by
  induction k with
  | zero => rw [if_neg (fun both => Nat.lt_irrefl 0 both.2)]; rfl
  | succ k ih =>
    by_cases first : vol.fatSector k c = vol.fatSector 0 c'
    · have zero : k = 0 := sound.fatSector_copy valid valid' first
      subst zero
      have sameSector : c * 4 / 512 = c' * 4 / 512 := by
        unfold fatSector at first
        omega
      unfold nextOf
      rw [putCopies, putCopies, first, update_self]
      by_cases same : c' = c
      · subst same
        rw [if_pos ⟨rfl, Nat.one_pos⟩, rawEntry_putEntry_same]
      · rw [if_neg (fun both => same both.1), rawEntry_putEntry_other sameSector same]
    · have away : vol.nextOf (vol.putCopies disk c value (k + 1)) c' =
          vol.nextOf (vol.putCopies disk c value k) c' := by
        unfold nextOf
        rw [putCopies, update_of_ne (fun same => first same.symm)]
      have later : c' = c → 0 < k := by
        rintro rfl
        rcases Nat.eq_zero_or_pos k with rfl | pos
        · exact absurd rfl first
        · exact pos
      rw [away, ih]
      by_cases same : c' = c
      · rw [if_pos ⟨same, later same⟩, if_pos ⟨same, Nat.succ_pos k⟩]
      · rw [if_neg (fun both => same both.1), if_neg (fun both => same both.1)]

/-! ### What a write to the data area leaves alone -/

theorem nextOf_update (sound : vol.Sound) (data : vol.dataStartSector ≤ sector)
    (valid : vol.validCluster c) : vol.nextOf (update disk sector buf) c = vol.nextOf disk c := by
  have below := sound.fatSector_lt vol.numFats_pos valid
  unfold nextOf
  rw [update_of_ne (by omega)]

end Fat32

/-! ### Slots -/

/-- The slot at a position. -/
def slotAt (disk : Disk) (pos : Pos) : Slot := slotOf (disk pos.1) pos.2

theorem slotOf_splice_same (buf : Sector) (i : Fin 16) (slot : Slot) :
    slotOf (splice buf (32 * i.1) slot) i = slot :=
  slice_splice_same buf (32 * i.1) slot _

theorem slotOf_splice_other {width : ℕ} {i j : Fin 16} (window : Block width)
    (small : width ≤ 32) (ne : j ≠ i) : slotOf (splice buf (32 * i.1) window) j = slotOf buf j := by
  have apart : j.1 ≠ i.1 := fun same => ne (Fin.ext same)
  exact slice_splice_other _ _ _ _ _ (by omega)

/-- The image with one slot replaced. -/
def putSlot (disk : Disk) (pos : Pos) (slot : Slot) : Disk :=
  update disk pos.1 (splice (disk pos.1) (32 * pos.2.1) slot)

theorem slotAt_putSlot_same (disk : Disk) (pos : Pos) (slot : Slot) :
    slotAt (putSlot disk pos slot) pos = slot := by
  unfold slotAt putSlot
  rw [update_self, slotOf_splice_same]

theorem slotAt_putSlot_other {disk : Disk} {pos other : Pos} {slot : Slot} (ne : other ≠ pos) :
    slotAt (putSlot disk pos slot) other = slotAt disk other := by
  unfold slotAt putSlot
  by_cases same : other.1 = pos.1
  · rw [same, update_self]
    exact slotOf_splice_other slot le_rfl fun sameIndex => ne (Prod.ext same sameIndex)
  · rw [update_of_ne same]

/-- `clear_dir_entry` replaces the slot by the same slot with another first byte. -/
theorem splice_deleted (buf : Sector) (i : Fin 16) : splice buf (32 * i.1) (fun _ => 0xE5 : Block 1) =
      splice buf (32 * i.1) (splice (slotOf buf i) 0 (fun _ => 0xE5 : Block 1)) := by
  funext k
  unfold splice slotOf slice
  by_cases first : k.1 = 32 * i.1
  · rw [dif_pos (by omega), dif_pos (by omega), dif_pos (by simp only; omega)]
  · rw [dif_neg (by omega)]
    split
    · rename_i inside
      rw [dif_neg (by simp only; omega)]
      congr 1
      exact Fin.ext (by simp only; omega)
    · rfl

/-! ### The fields of a filled slot -/

section

variable (entry : Slot) (name : Name) (attr : UInt8) (firstCluster size : ℕ)

theorem nameOf_fillDirEntry : nameOf (fillDirEntry entry name attr firstCluster size) = name := by
  unfold nameOf fillDirEntry
  simp only
  rw [slice_splice_other _ _ _ _ _ (by decide), slice_splice_other _ _ _ _ _ (by decide),
    slice_splice_other _ _ _ _ _ (by decide), slice_splice_other _ _ _ _ _ (by decide),
    slice_splice_other _ _ _ _ _ (by decide), slice_splice_other _ _ _ _ _ (by decide), slice_splice_same]

theorem attrOf_fillDirEntry : attrOf (fillDirEntry entry name attr firstCluster size) = attr := rfl

theorem fillDirEntry_zero : fillDirEntry entry name attr firstCluster size 0 = name 0 := rfl

theorem sizeOf_fillDirEntry : sizeOf (fillDirEntry entry name attr firstCluster size) = size % 2 ^ 32 := by
  unfold sizeOf readU32 fillDirEntry
  simp only
  rw [slice_splice_same, leVal_leBytes]
  norm_num

theorem firstClusterOf_fillDirEntry (small : firstCluster < 2 ^ 32) :
    firstClusterOf (fillDirEntry entry name attr firstCluster size) = firstCluster := by
  unfold firstClusterOf readU16 fillDirEntry
  simp only
  rw [slice_splice_other _ _ _ _ _ (by decide), slice_splice_other _ _ _ _ _ (by decide),
    slice_splice_other _ _ _ _ _ (by decide), slice_splice_same,
    slice_splice_other _ _ _ _ _ (by decide), slice_splice_same, leVal_leBytes, leVal_leBytes]
  have low : firstCluster &&& 0xFFFF = firstCluster % 2 ^ 16 := Nat.and_two_pow_sub_one_eq_mod firstCluster 16
  have high : firstCluster / 2 ^ 16 < 2 ^ 16 := by omega
  rw [low, Nat.shiftRight_eq_div_pow, show (256 : ℕ) ^ 2 = 2 ^ 16 by norm_num, Nat.mod_eq_of_lt high,
    Nat.mod_mod, Nat.shiftLeft_eq, Nat.mul_comm, ← Nat.two_pow_add_eq_or_of_lt (Nat.mod_lt _ (by norm_num))]
  exact Nat.div_add_mod _ _

end

end Ferros.Fat
