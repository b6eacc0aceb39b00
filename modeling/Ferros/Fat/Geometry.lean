/-
**The geometry that `mount` accepts, in 32-bit arithmetic.**

`fs/fat.rs` computes with `u32`. Here its address arithmetic is written with overflow checks, and compared
with the unbounded arithmetic of the driver's model.

* `SoundGeometry` — no computation on a valid cluster overflows, the entries of the FAT lie in their copy and
  the sectors of the clusters in the volume.
* `soundGeometry_iff` — **what the boot sector must say for it**: `mount` itself does not check it.
-/

import Ferros.Fat.Mount

namespace Ferros.Fat

open Lib Option

/-- `TotSec32` -/
def totalSectors (boot : Sector) : ℕ := readU32 boot 32 (Nat.le_add_right 36 476)

namespace Fat32

/-! ### The arithmetic of the driver, checked -/

section

variable (vol : Fat32)

/-- `reserved_sectors + num_fats * fat_size_32`, in `mount` -/
def dataStart32 : Option ℕ := do
  let copies ← fitting 32 (vol.numFats * vol.fatSize)
  fitting 32 (vol.fatStartSector + copies)

def validCluster32 (cluster : ℕ) : Option Bool :=
  if firstDataCluster ≤ cluster then do
    let last ← fitting 32 (firstDataCluster + vol.clusterCount)
    return decide (cluster < last)
  else some false

def firstSectorOfCluster32 (cluster : ℕ) : Option ℕ := do
  let index ← if firstDataCluster ≤ cluster then some (cluster - firstDataCluster) else none
  let sectors ← fitting 32 (index * vol.sectorsPerCluster)
  fitting 32 (vol.dataStartSector + sectors)

/-- `first + s`, in the loops over the sectors of a cluster -/
def sectorOfCluster32 (cluster s : ℕ) : Option ℕ := do
  let first ← vol.firstSectorOfCluster32 cluster
  fitting 32 (first + s)

def nextSector32 (cluster : ℕ) : Option ℕ := do
  let fatOffset ← fitting 32 (cluster * 4)
  fitting 32 (vol.fatStartSector + fatOffset / 512)

/-- The sector that `write_fat_entry` changes in copy `fat`. -/
def fatSector32 (fat cluster : ℕ) : Option ℕ := do
  let fatOffset ← fitting 32 (cluster * 4)
  let before ← fitting 32 (fat * vol.fatSize)
  let copy ← fitting 32 (vol.fatStartSector + before)
  fitting 32 (copy + fatOffset / 512)

/-- **Sound arithmetic on the clusters of a volume.** -/
structure SoundGeometry (boot : Sector) : Prop where
  mount : vol.dataStart32 = some vol.dataStartSector
  valid : ∀ c < 2 ^ 32, vol.validCluster c → vol.validCluster32 c = some true
  sectors : ∀ c < 2 ^ 32, vol.validCluster c → ∀ s < vol.sectorsPerCluster,
    vol.sectorOfCluster32 c s = some (vol.firstSectorOfCluster c + s) ∧
      vol.dataStartSector ≤ vol.firstSectorOfCluster c + s ∧ vol.firstSectorOfCluster c + s < totalSectors boot
  next : ∀ c < 2 ^ 32, vol.validCluster c → vol.nextSector32 c = some (vol.fatSector 0 c)
  copies : ∀ c < 2 ^ 32, vol.validCluster c → ∀ fat < vol.numFats,
    vol.fatSector32 fat c = some (vol.fatSector fat c)
  inside : ∀ c < 2 ^ 32, vol.validCluster c → c * 4 / 512 < vol.fatSize

end

/-! ### What `mount` checks -/

section

variable {boot : Sector} {vol : Fat32}

theorem totalSectors_lt (boot : Sector) : totalSectors boot < 2 ^ 32 := leVal_lt 4 _

/-- What is known of a geometry that `mount` accepts. -/
structure Computed (boot : Sector) (vol : Fat32) : Prop where
  dataStart : vol.dataStartSector = vol.fatStartSector + vol.numFats * vol.fatSize
  count : vol.clusterCount = (totalSectors boot - vol.dataStartSector) / vol.sectorsPerCluster
  reserved : vol.fatStartSector < 2 ^ 16
  fatSize : 0 < vol.fatSize

theorem computed_of_geometry (accepted : geometry boot = .ok vol) : Computed boot vol := by
  unfold geometry at accepted
  simp only at accepted
  split at accepted
  · cases accepted
  · split at accepted
    · cases accepted
    · rename_i checks
      split at accepted
      · cases accepted
        refine ⟨rfl, rfl, leVal_lt 2 _, Nat.pos_of_ne_zero fun zero => checks (.inr (.inr zero))⟩
      · cases accepted

variable (computed : Computed boot vol)
include computed

/-- The clusters lie in the volume. -/
theorem Computed.area_le (clusters : 0 < vol.clusterCount) :
    vol.dataStartSector + vol.clusterCount * vol.sectorsPerCluster ≤ totalSectors boot := by
  have area : vol.clusterCount * vol.sectorsPerCluster ≤ totalSectors boot - vol.dataStartSector := by
    rw [computed.count]
    exact Nat.div_mul_le_self _ _
  have positive := Nat.mul_pos clusters vol.sectorsPerCluster_pos
  omega

theorem Computed.dataStart_pos : 0 < vol.dataStartSector := by
  have copies := Nat.mul_pos vol.numFats_pos computed.fatSize
  rw [computed.dataStart]
  omega

/-- The number of the last cluster is a 32-bit number. -/
theorem Computed.last_lt : vol.clusterCount + 1 < 2 ^ 32 := by
  have total := totalSectors_lt boot
  have start := computed.dataStart_pos
  have count : vol.clusterCount ≤ totalSectors boot - vol.dataStartSector := by
    rw [computed.count]
    exact Nat.div_le_self _ _
  omega

/-- The sectors of a valid cluster, which need no further condition. -/
theorem Computed.sectorOfCluster32 {c s : ℕ} (valid : vol.validCluster c) (inside : s < vol.sectorsPerCluster) :
    vol.sectorOfCluster32 c s = some (vol.firstSectorOfCluster c + s) ∧
      vol.dataStartSector ≤ vol.firstSectorOfCluster c + s ∧
      vol.firstSectorOfCluster c + s < totalSectors boot := by
  obtain ⟨low, high⟩ := validCluster_iff.mp valid
  have area := computed.area_le (by omega)
  have total := totalSectors_lt boot
  -- the cluster ends before the next one begins
  have within : (c - firstDataCluster) * vol.sectorsPerCluster + s <
      vol.clusterCount * vol.sectorsPerCluster := by
    have step : (c - firstDataCluster + 1) * vol.sectorsPerCluster ≤ vol.clusterCount * vol.sectorsPerCluster :=
      Nat.mul_le_mul_right _ (by unfold firstDataCluster; omega)
    rw [Nat.succ_mul] at step
    omega
  have first : vol.firstSectorOfCluster32 c = some (vol.firstSectorOfCluster c) := by
    simp only [firstSectorOfCluster32, if_pos (show firstDataCluster ≤ c from low), bind_eq_bind, bind_some]
    rw [fitting_of_lt (by omega), bind_some, fitting_of_lt (by omega), firstSectorOfCluster]
  have sector : vol.firstSectorOfCluster c + s < totalSectors boot := by
    rw [firstSectorOfCluster]
    omega
  refine ⟨?_, ?_, sector⟩
  · simp only [Fat32.sectorOfCluster32, first, bind_eq_bind, bind_some]
    exact fitting_of_lt (sector.trans total)
  · rw [firstSectorOfCluster, Nat.add_assoc]
    exact Nat.le_add_right _ _

omit computed in
/-- The sector of an entry that lies in its copy of the FAT. -/
theorem fatSector32_of_lt {c fat : ℕ} (small : vol.fatStartSector + vol.numFats * vol.fatSize < 2 ^ 32)
    (short : c < 2 ^ 30) (inside : c * 4 / 512 < vol.fatSize) (isCopy : fat < vol.numFats) :
    vol.fatSector32 fat c = some (vol.fatSector fat c) := by
  have before : fat * vol.fatSize + vol.fatSize ≤ vol.numFats * vol.fatSize := by
    rw [← Nat.succ_mul]
    exact Nat.mul_le_mul_right _ isCopy
  simp only [fatSector32, fitting_of_lt (show c * 4 < 2 ^ 32 by omega), bind_eq_bind, bind_some]
  rw [fitting_of_lt (by omega), bind_some, fitting_of_lt (by omega), bind_some,
    fitting_of_lt (by omega), fatSector]

/-- **The arithmetic under the conditions that `mount` does not check.** -/
theorem Computed.soundGeometry (small : vol.dataStartSector < 2 ^ 32)
    (fits : 0 < vol.clusterCount → vol.clusterCount + 1 < 128 * vol.fatSize ∧ vol.clusterCount + 2 ≤ 2 ^ 30) :
    vol.SoundGeometry boot := by
  have sum : vol.fatStartSector + vol.numFats * vol.fatSize < 2 ^ 32 := computed.dataStart ▸ small
  have bounds : ∀ c, vol.validCluster c →
      firstDataCluster + vol.clusterCount ≤ 2 ^ 30 ∧ c < 2 ^ 30 ∧ c * 4 / 512 < vol.fatSize := by
    intro c valid
    obtain ⟨low, high⟩ := validCluster_iff.mp valid
    have limits := fits (by omega)
    unfold firstDataCluster
    omega
  refine ⟨?_, fun c _ valid => ?_, fun c _ valid s => computed.sectorOfCluster32 valid, fun c _ valid => ?_,
    fun c _ valid fat => ?_, fun c _ valid => (bounds c valid).2.2⟩
  · simp only [dataStart32, fitting_of_lt (show vol.numFats * vol.fatSize < 2 ^ 32 by omega), fitting_of_lt sum,
      computed.dataStart, bind_eq_bind, bind_some]
  · obtain ⟨low, high⟩ := validCluster_iff.mp valid
    have last := (bounds c valid).1.trans_lt (show 2 ^ 30 < 2 ^ 32 by decide)
    rw [validCluster32, if_pos (show firstDataCluster ≤ c from low), fitting_of_lt last]
    exact congrArg some (decide_eq_true high)
  · have short := (bounds c valid).2.1
    have reserved := computed.reserved
    simp only [nextSector32, fitting_of_lt (show c * 4 < 2 ^ 32 by omega), bind_eq_bind, bind_some]
    rw [fitting_of_lt (by omega), fatSector, Nat.zero_mul, Nat.add_zero]
  · exact fatSector32_of_lt sum (bounds c valid).2.1 (bounds c valid).2.2

/-- The last cluster shows whether the arithmetic is sound. -/
theorem Computed.fits_of_soundGeometry (sound : vol.SoundGeometry boot) (clusters : 0 < vol.clusterCount) :
    vol.clusterCount + 1 < 128 * vol.fatSize ∧ vol.clusterCount + 2 ≤ 2 ^ 30 := by
  have valid : vol.validCluster (vol.clusterCount + 1) := by
    rw [validCluster_iff]
    omega
  have inside := sound.inside _ computed.last_lt valid
  obtain ⟨fatOffset, offset, -⟩ := bind_eq_some_iff.mp (sound.next _ computed.last_lt valid)
  have short := (fitting_eq_some.mp offset).1
  omega

end

/-- **When the geometry that `mount` accepts is sound**: the data area starts at a 32-bit sector number, and, if
there are clusters at all, the entry of the last one lies in its copy of the FAT and has a 32-bit byte
offset. -/
theorem soundGeometry_iff {boot : Sector} {vol : Fat32} (accepted : geometry boot = .ok vol) :
    vol.SoundGeometry boot ↔ vol.dataStartSector < 2 ^ 32 ∧
      (0 < vol.clusterCount → vol.clusterCount + 1 < 128 * vol.fatSize ∧ vol.clusterCount + 2 ≤ 2 ^ 30) := by
  have computed := computed_of_geometry accepted
  refine ⟨fun sound => ⟨?_, computed.fits_of_soundGeometry sound⟩, fun ⟨small, fits⟩ =>
    computed.soundGeometry small fits⟩
  obtain ⟨copies, -, sum⟩ := bind_eq_some_iff.mp sound.mount
  obtain ⟨lt, same⟩ := fitting_eq_some.mp sum
  exact same ▸ lt

/-- The small volume with one FAT. -/
theorem soundGeometry_bootVolume : bootVolume.SoundGeometry bootSector :=
  (soundGeometry_iff (show geometry bootSector = .ok bootVolume from rfl)).mpr ⟨by decide, fun _ => by decide⟩

def shortFatBoot : Sector :=
  padSector ([0, 0, 0, 0, 0, 0, 0, 0, 0, 0, 0, 0, 2, 1, 1, 0, 1] ++ List.replicate 15 0 ++
    [130, 0, 0, 0, 1, 0, 0, 0, 0, 0, 0, 0, 2, 0, 0, 0])

def hugeFatBoot : Sector :=
  padSector ([0, 0, 0, 0, 0, 0, 0, 0, 0, 0, 0, 0, 2, 1, 1, 0, 2] ++ List.replicate 15 0 ++
    [130, 0, 0, 0, 0, 0, 0, 0x80, 0, 0, 0, 0, 2, 0, 0, 0])

/-- **`mount` accepts unsound geometries.** With one sector of FAT for 128 clusters the entry of cluster 128 is
in the first sector of the data area; with two FATs of 2^31 sectors the sum in `mount` overflows. -/
theorem mount_accepts_unsound :
    (∃ vol, geometry shortFatBoot = .ok vol ∧ vol.validCluster 128 ∧ vol.fatSector 0 128 = vol.dataStartSector ∧
      ¬ vol.SoundGeometry shortFatBoot) ∧
    ∃ vol, geometry hugeFatBoot = .ok vol ∧ vol.dataStart32 = none ∧ ¬ vol.SoundGeometry hugeFatBoot := by
  refine ⟨⟨_, rfl, by decide, by decide, fun sound => ?_⟩, _, rfl, by decide, fun sound => ?_⟩
  · exact absurd (sound.inside 128 (by decide) (by decide)) (by decide)
  · cases sound.mount

end Fat32

end Ferros.Fat
