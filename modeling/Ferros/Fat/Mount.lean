/-
**Mounting, and the layer above the driver.**

`fs/mod.rs` mounts the volume anew for every call: it reads the geometry off the boot sector and runs one
method of the driver. No method writes a sector before the first FAT, so the boot sector, and with it the
geometry, stays what it is.

* `geometry`, `mount`, and the calls of the layer in the namespace `Fs`.
* `Fat32.spares_perform` — **the reserved sectors are never written.**
-/

import Ferros.Fat.Refinement
import Ferros.Fat.Touched

namespace Ferros.Fat

open Lib

/-! ### The boot sector -/

/-- The geometry in a boot sector, as `mount` checks and computes it. -/
def geometry (boot : Sector) : Except FatError Fat32 :=
  let sectorsPerCluster := (boot ⟨13, by decide⟩).toNat
  let reservedSectors := readU16 boot 14 (by decide)
  let numFats := (boot ⟨16, by decide⟩).toNat
  let rootEntryCount := readU16 boot 17 (by decide)
  let fatSize16 := readU16 boot 22 (by decide)
  let totalSectors := readU32 boot 32 (by decide)
  let fatSize32 := readU32 boot 36 (by decide)
  let rootCluster := readU32 boot 44 (by decide)
  if readU16 boot 11 (by decide) ≠ 512 then .error .unsupportedSectorSize
  else if rootEntryCount ≠ 0 ∨ fatSize16 ≠ 0 ∨ fatSize32 = 0 then .error .notFat32
  else if sound : 0 < sectorsPerCluster ∧ 0 < numFats then
    let dataStartSector := reservedSectors + numFats * fatSize32
    .ok {
      sectorsPerCluster := sectorsPerCluster
      fatStartSector := reservedSectors
      dataStartSector := dataStartSector
      rootCluster := rootCluster
      clusterCount := (totalSectors - dataStartSector) / sectorsPerCluster
      numFats := numFats
      fatSize := fatSize32
      sectorsPerCluster_pos := sound.1
      numFats_pos := sound.2 }
  else .error .notFat32

def mount : FatM Fat32 := do
  let boot ← readSector 0
  match geometry boot with
  | .ok vol => return vol
  | .error e => throw e

end Ferros.Fat

namespace Ferros.Fs

open Fat

/-- `fs::open` -/
def readAll (path : Bytes) : FatM Bytes := do (← mount).readFile path

def lookup (path : Bytes) : FatM Node := do (← mount).lookup path

def writeFile (path data : Bytes) : FatM Unit := do (← mount).writeFile path data

def mkdir (path : Bytes) : FatM Unit := do (← mount).mkdir path

def unlink (path : Bytes) : FatM Unit := do (← mount).unlink path

def rmdir (path : Bytes) : FatM Unit := do (← mount).rmdir path

end Ferros.Fs

namespace Ferros.Fat.Fat32

open Lib

variable {vol : Fat32} {α : Type} {working : Prop} {disk : Disk}

/-! ### The reserved sectors -/

theorem fatStart_le_of_inFat {sector : ℕ} (inFat : vol.InFat sector) : vol.fatStartSector ≤ sector := inFat.1

/-- **The operations leave the sectors before the FAT alone.** -/
theorem spares_perform (sound : vol.Sound) (op : Op) : Spares vol.fatStartSector (vol.perform op) := by
  intro dev lba reserved
  obtain ⟨l, slot, -, place, touches⟩ := confined_perform sound op dev
  have regions : vol.fatStartSector ≤ vol.dataStartSector := (Nat.le_add_right _ _).trans sound.regions
  refine touches.disk_eq ?_
  rintro (inFat | ⟨c, -, inCluster⟩ | ⟨p, here, rfl⟩)
  · exact absurd (fatStart_le_of_inFat inFat) (not_le.mpr reserved)
  · exact absurd (regions.trans (dataStart_le_of_mem inCluster)) (not_le.mpr reserved)
  · obtain ⟨dir, name, -, mem⟩ := place p here
    exact absurd (regions.trans (dataStart_le_slot mem)) (not_le.mpr reserved)

/-! ### Mounted volumes -/

variable (vol) in
/-- **The volume that `mount` finds**; the boot sector is one of the reserved sectors. -/
structure Mounted (disk : Disk) : Prop where
  boot : geometry (disk 0) = .ok vol
  reserved : 0 < vol.fatStartSector

theorem reads_mount (mounted : vol.Mounted disk) : Reads working mount disk (.ok vol) := by
  unfold mount
  refine (reads_readSector 0).seq ?_
  rw [mounted.boot]
  exact Reads.pure

/-- **The layer above the driver** runs the method on the mounted volume. -/
theorem runs_mounted (mounted : vol.Mounted disk) {method : Fat32 → FatM α} {crash : Disk → Prop}
    {post : α → Disk → Prop} {fail : FatError → Disk → Prop}
    (runs : Runs working crash (method vol) disk post fail) (fails : ∀ e, ¬ working → fail e disk) :
    Runs working crash (mount >>= method) disk post fail :=
  (reads_mount mounted).before runs fails

theorem reads_mounted (mounted : vol.Mounted disk) {method : Fat32 → FatM α} {outcome : Except FatError α}
    (reads : Reads working (method vol) disk outcome) : Reads working (mount >>= method) disk outcome :=
  (reads_mount mounted).seq reads

/-- A volume stays mounted under a method that spares the reserved sectors. -/
theorem Mounted.exec {dev : Device Sector BlkError} (mounted : vol.Mounted dev.disk) (method : Fat32 → FatM α)
    (spares : Spares vol.fatStartSector (method vol)) :
    vol.Mounted (Lib.exec (mount >>= method) dev).2.disk := by
  refine ⟨?_, mounted.reserved⟩
  have boot : (Lib.exec (mount >>= method) dev).2.disk 0 = dev.disk 0 := by
    obtain ⟨_, _, result⟩ := reads_mount mounted (fun _ => True) dev rfl False.elim
    rw [exec_bind]
    rcases hrun : Lib.exec mount dev with ⟨answer, dev'⟩
    rw [hrun] at result
    cases answer with
    | error e => exact congrFun result.1 0
    | ok found =>
      cases result.2
      exact (spares dev' 0 mounted.reserved).trans (congrFun result.1 0)
  rw [boot]
  exact mounted.boot

/-! ### A volume to mount -/

/-- The boot sector of a volume of six sectors: the boot sector, one FAT and four clusters. -/
def bootSector : Sector :=
  padSector ([0, 0, 0, 0, 0, 0, 0, 0, 0, 0, 0, 0, 2, 1, 1, 0, 1] ++ List.replicate 15 0 ++
    [6, 0, 0, 0, 1, 0, 0, 0, 0, 0, 0, 0, 2, 0, 0, 0])

def bootVolume : Fat32 where
  sectorsPerCluster := 1
  fatStartSector := 1
  dataStartSector := 2
  rootCluster := 2
  clusterCount := 4
  numFats := 1
  fatSize := 1
  sectorsPerCluster_pos := Nat.one_pos
  numFats_pos := Nat.one_pos

def bootDisk : Disk := bootVolume.formatted (Function.update (fun _ _ => 0) 0 bootSector)

theorem bootVolume_sound : bootVolume.Sound :=
  .of_room (by decide) (by decide) (by decide) (by decide)

theorem bootDisk_wellFormed : bootVolume.WellFormed bootDisk := by
  refine wellFormed_formatted bootVolume_sound (by decide) fun s data => ?_
  have later : 2 ≤ s := data
  exact Function.update_of_ne (by omega) _ _

theorem bootDisk_mounted : bootVolume.Mounted bootDisk := ⟨rfl, by decide⟩

end Ferros.Fat.Fat32
