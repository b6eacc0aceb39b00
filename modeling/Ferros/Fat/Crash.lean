/-
**Cross-link safety at every write.**

However the device fails and wherever the machine stops, `write_file`, `mkdir`, `unlink` and `rmdir`
leave a volume without cross-links: `Fat32.Consistent` holds of every image one of them writes.

* `consistent_at_every_write` — one operation, any fault schedule, every image on the way.
* `consistent_of_reached` — **whole histories**: any number of operations, each with its own faults and
  each possibly cut off after any of its writes.
-/

import Ferros.Fat.Operations

namespace Ferros.Fat

open Lib List

/-- The operations that change a volume. -/
inductive Op
  | writeFile (path data : Bytes)
  | mkdir (path : Bytes)
  | unlink (path : Bytes)
  | rmdir (path : Bytes)
  deriving DecidableEq, Repr

/-- The path an operation is called with. -/
def Op.path : Op → Bytes
  | .writeFile path _ => path
  | .mkdir path => path
  | .unlink path => path
  | .rmdir path => path

namespace Fat32

variable {vol : Fat32} {disk image : Disk} {op : Op}

variable (vol) in
/-- The method of the driver that carries an operation out. -/
def perform : Op → FatM Unit
  | .writeFile path data => vol.writeFile path data
  | .mkdir path => vol.mkdir path
  | .unlink path => vol.unlink path
  | .rmdir path => vol.rmdir path

theorem runs_perform {working : Prop} (inv : vol.Consistent disk) (clean : (0 : UInt8) ∉ op.path) :
    Runs working (vol.Safe disk) (vol.perform op) disk (fun _ => vol.Safe disk) (fun _ => vol.Safe disk) := by
  cases op with
  | writeFile path data =>
    exact (runs_writeFile inv (used_of_clean clean) data).mono (fun _ safe => safe)
      (fun _ _ ⟨write, agree, _⟩ => .inr ⟨write.toChange, agree⟩) fun _ _ fails => .inl fails.1
  | mkdir path =>
    refine (runs_mkdir inv clean).mono (fun _ safe => safe) ?_ fun _ _ fails => .inl fails.1
    rintro _ _ ⟨make, rfl⟩
    exact .inr ⟨make.toChange, AgreeOn.refl _ _⟩
  | unlink path =>
    refine (runs_unlink inv).mono (fun _ safe => safe)
      (fun _ _ ⟨gone, agree, _⟩ => .inr ⟨gone.toChange, agree⟩) ?_
    rintro _ _ (rfl | ⟨_, gone, agree⟩)
    · exact .inl (AgreeOn.refl _ _)
    · exact .inr ⟨gone.toChange, agree⟩
  | rmdir path =>
    refine (runs_rmdir inv).mono (fun _ safe => safe)
      (fun _ _ ⟨gone, _, agree, _⟩ => .inr ⟨gone.toChange, agree⟩) ?_
    rintro _ _ (rfl | ⟨_, gone, agree⟩)
    · exact .inl (AgreeOn.refl _ _)
    · exact .inr ⟨gone.toChange, agree⟩

theorem safe_of_perform (inv : vol.Consistent disk) (clean : (0 : UInt8) ∉ op.path)
    (fault : ℕ → ℕ → Option BlkError) :
    (∀ image ∈ (exec (vol.perform op) (Device.start disk fault)).2.written, vol.Safe disk image) ∧
      vol.Safe disk (exec (vol.perform op) (Device.start disk fault)).2.disk := by
  have runs : Runs False (vol.Safe disk) (vol.perform op) disk (fun _ => vol.Safe disk)
      (fun _ => vol.Safe disk) := runs_perform inv clean
  obtain ⟨_, ⟨new, written, safe⟩, outcome⟩ := runs (Device.start disk fault) rfl False.elim
  constructor
  · intro image mem
    rw [written] at mem
    exact safe image ((mem_append.mp mem).resolve_right not_mem_nil)
  · revert outcome
    cases (exec (vol.perform op) (Device.start disk fault)).1 with
    | ok _ => exact id
    | error _ => exact id

/-- **Cross-link safety of one operation.** Under every fault schedule, every image that a sector
write leaves, and the one the operation ends with, is free of cross-links. -/
theorem consistent_at_every_write (inv : vol.Consistent disk) (op : Op)
    (clean : (0 : UInt8) ∉ op.path) (fault : ℕ → ℕ → Option BlkError) :
    (∀ image ∈ (exec (vol.perform op) (Device.start disk fault)).2.written, vol.Consistent image) ∧
      vol.Consistent (exec (vol.perform op) (Device.start disk fault)).2.disk := by
  obtain ⟨onTheWay, atTheEnd⟩ := safe_of_perform inv clean fault
  exact ⟨fun image mem => (onTheWay image mem).consistent inv, atTheEnd.consistent inv⟩

section Formatted

variable (sound : vol.Sound) (valid : vol.validCluster vol.rootCluster)
  (blank : ∀ s, vol.dataStartSector ≤ s → disk s = fun _ => 0)

variable (vol disk) in
/-- The image after formatting: the root directory has the one cluster that is in use. -/
def formatted : Disk := vol.putCopies disk vol.rootCluster fat32Eoc vol.numFats

include sound valid

theorem isChain_formatted : vol.IsChain (vol.formatted disk) vol.rootCluster [vol.rootCluster] := by
  refine ⟨rfl, valid, ?_⟩
  rw [formatted, nextOf_putCopies_self sound valid (by decide)]
  exact endMark_eoc

include blank

theorem zero_formatted : ∀ p ∈ vol.slots (vol.formatted disk) vol.rootCluster,
    slotAt (vol.formatted disk) p 0 = 0x00 := by
  intro p mem
  obtain ⟨c, _, inCluster⟩ := mem_slotsOn.mp mem
  have data : vol.formatted disk p.1 = fun _ => 0 :=
    (putCopies_data sound valid le_rfl (dataStart_le_of_mem inCluster)).trans
      (blank _ (dataStart_le_of_mem inCluster))
  unfold slotAt
  rw [data]
  rfl

theorem consistent_formatted : vol.Consistent (vol.formatted disk) :=
  consistent_of_formatted (zero_formatted sound valid blank) sound
    ((isChain_formatted sound valid).hasChain sound (cons_ne_nil _ _))

end Formatted

/-- The FAT has room for all clusters. -/
theorem Sound.of_room (room : 2 + vol.clusterCount ≤ 128 * vol.fatSize)
    (regions : vol.fatStartSector + vol.numFats * vol.fatSize ≤ vol.dataStartSector)
    (clusters : firstDataCluster + vol.clusterCount ≤ 0x0FFFFFF7)
    (addresses : vol.dataStartSector + vol.clusterCount * vol.sectorsPerCluster < 2 ^ 32) : vol.Sound := by
  refine ⟨fun c valid => ?_, regions, clusters, addresses⟩
  have high := (validCluster_iff.mp valid).2
  omega

/-- A volume of two clusters, with one FAT sector. -/
def smallVolume : Fat32 where
  sectorsPerCluster := 1
  fatStartSector := 0
  dataStartSector := 1
  rootCluster := 2
  clusterCount := 2
  numFats := 1
  fatSize := 1
  sectorsPerCluster_pos := by decide
  numFats_pos := by decide

/-- Its image after formatting: the root directory has the one cluster that is in use. -/
def smallDisk : Disk := smallVolume.putCopies (fun _ _ => 0) 2 fat32Eoc 1

theorem smallVolume_sound : smallVolume.Sound :=
  .of_room (by decide) (by decide) (by decide) (by decide)

theorem smallDisk_consistent : smallVolume.Consistent smallDisk :=
  consistent_formatted smallVolume_sound (by decide) fun _ _ => rfl

/-- Making the directory `A` on the small volume, with the fifth request failing. -/
def cutShort : Device Sector BlkError :=
  (exec (smallVolume.perform (.mkdir [0x41])) (Device.start smallDisk
    fun n _ => if n = 4 then some (.deviceError 1) else none)).2

theorem consistent_at_every_write_mkdir : cutShort.written.length = 2 ∧
    (∀ image ∈ cutShort.written, smallVolume.Consistent image) ∧ smallVolume.Consistent cutShort.disk :=
  ⟨rfl, consistent_at_every_write smallDisk_consistent (.mkdir [0x41]) (by decide) _⟩

variable (vol) in
/-- The images that operations can lead to, each of them finished or cut off after one of its
writes. -/
inductive Reached (disk : Disk) : Disk → Prop
  | start : Reached disk disk
  | finished {image : Disk} (before : Reached disk image) (op : Op) (clean : (0 : UInt8) ∉ op.path)
      (fault : ℕ → ℕ → Option BlkError) :
      Reached disk (exec (vol.perform op) (Device.start image fault)).2.disk
  | stopped {image image' : Disk} (before : Reached disk image) (op : Op)
      (clean : (0 : UInt8) ∉ op.path) (fault : ℕ → ℕ → Option BlkError)
      (written : image' ∈ (exec (vol.perform op) (Device.start image fault)).2.written) :
      Reached disk image'

/-- **Cross-link safety of whole histories.** -/
theorem consistent_of_reached (reached : vol.Reached disk image) (inv : vol.Consistent disk) :
    vol.Consistent image := by
  induction reached with
  | start => exact inv
  | finished before op clean fault ih =>
    exact (safe_of_perform ih clean fault).2.consistent ih
  | stopped before op clean fault written ih =>
    exact ((safe_of_perform ih clean fault).1 _ written).consistent ih

/-- The small volume after `mkdir`. -/
theorem consistent_of_reached_mkdir : smallVolume.Consistent
    (exec (smallVolume.perform (.mkdir [0x41])) (Device.start smallDisk fun _ _ => none)).2.disk :=
  consistent_of_reached (.finished .start (.mkdir [0x41]) (by decide) _) smallDisk_consistent

end Fat32

end Ferros.Fat
