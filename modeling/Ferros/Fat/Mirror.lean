/-
**The operations on a working device.**

* `Kept.concludes` — every operation keeps what its writes keep, and one that fails either changed nothing or
  gave a chain back.
* `failed_operation_invisible` — **a failing operation leaves the image as it was**, bit for bit.
-/

import Ferros.Fat.Copies
import Ferros.Fat.Crash

namespace Ferros.Fat

open Lib List Option Function

namespace Fat32

variable {vol : Fat32} {disk : Disk} {dir : ℕ} {p pos : Pos} {α β : Type} {P : Disk → Prop} {sectors : List ℕ}
  {m : FatM α} {f : α → FatM β}

/-! ### What the writes keep -/

/-- **On a working device `m` returns, and `P` still holds.** -/
def Keeps {α : Type} (P : Disk → Prop) (m : FatM α) : Prop :=
  ∀ disk, P disk → Runs True (fun _ => True) m disk (fun _ => P) fun _ _ => False

theorem Keeps.pure {value : α} : Keeps P (Pure.pure value : FatM α) :=
  fun _ holds => Runs.pure holds

theorem Keeps.bind (first : Keeps P m) (next : ∀ value, Keeps P (f value)) : Keeps P (m >>= f) :=
  fun disk holds => (first disk holds).bind fun value image => next value image

/-- Reads before a program change nothing. -/
theorem Keeps.before (keeps : ∀ value, Keeps P (f value)) {value : Disk → α}
    (reads : ∀ disk, Reads True m disk (.ok (value disk))) : Keeps P (m >>= f) :=
  fun disk holds => (reads disk).before (keeps _ disk holds) fun _ broken => absurd trivial broken

theorem Keeps.write {sector : ℕ} {buf : Sector} (kept : ∀ disk, P disk → P (update disk sector buf)) :
    Keeps P (writeSector sector buf) :=
  fun disk holds => Runs.writeBlock trivial (kept disk holds) fun _ broken => absurd trivial broken

/-- What catches the errors of `m` sees none. -/
theorem Keeps.attempt {next : Except FatError α → FatM β} {post : β → Disk → Prop} {fail : FatError → Disk → Prop}
    (keeps : Keeps P m) (holds : P disk)
    (returned : ∀ value image, P image → Runs True (fun _ => True) (next (.ok value)) image post fail) :
    Runs True (fun _ => True) (Lib.attempt m >>= next) disk post fail := by
  refine Runs.bind (keeps disk holds).attempt fun outcome image result => ?_
  cases outcome with
  | ok value => exact returned value image result
  | error _ => exact result.elim

section Kept

variable (kept : vol.Kept P)
include kept

theorem Kept.keeps_writeFatEntry {c value : ℕ} (valid : vol.validCluster c) : Keeps P (vol.writeFatEntry c value) :=
  fun disk holds => runs_writeFatEntry (fun _ _ => trivial) (kept.entry disk c value valid holds)
    fun _ _ broken => absurd trivial broken

/-- Freeing a chain keeps what an entry write keeps. -/
theorem Kept.keeps_freeFrom (n c : ℕ) : Keeps P (vol.freeFrom n c) := by
  induction n generalizing c with
  | zero => exact .pure
  | succ n ih =>
    rw [freeFrom]
    split
    · rename_i valid
      exact .before (fun next => (kept.keeps_writeFatEntry valid).bind fun _ => ih next)
        fun _ => reads_nextCluster c
    · exact .pure

theorem Kept.keeps_writeSectors {data : Bytes} (inData : ∀ s ∈ sectors, vol.dataStartSector ≤ s) (written : ℕ) :
    Keeps P (writeSectors data sectors written) := by
  induction sectors generalizing written with
  | nil => exact .pure
  | cons sector rest ih =>
    rw [writeSectors]
    split
    · exact .pure
    · refine (Keeps.write fun _ => kept.data _ _ _ (inData sector mem_cons_self)).bind fun _ => ?_
      exact ih (fun s mem => inData s (mem_cons_of_mem _ mem)) _

theorem Kept.keeps_writeFrom (data : Bytes) (n c written : ℕ) : Keeps P (vol.writeFrom data n c written) := by
  induction n generalizing c written with
  | zero => exact .pure
  | succ n ih =>
    rw [writeFrom]
    split
    · refine (kept.keeps_writeSectors (fun _ mem => dataStart_le_of_mem mem) _).bind fun _ => ?_
      exact .before (fun _ => ih _ _) fun _ => reads_nextCluster c
    · exact .pure

theorem Kept.keeps_zeroSectors (inData : ∀ s ∈ sectors, vol.dataStartSector ≤ s) :
    Keeps P (zeroSectors sectors) := by
  induction sectors with
  | nil => exact .pure
  | cons sector rest ih =>
    refine (Keeps.write fun _ => kept.data _ _ _ (inData sector mem_cons_self)).bind fun _ => ?_
    exact ih fun s mem => inData s (mem_cons_of_mem _ mem)

theorem Kept.keeps_initDirCluster (cluster parent : ℕ) : Keeps P (vol.initDirCluster cluster parent) := by
  have inData : ∀ s ∈ vol.sectorsOf cluster, vol.dataStartSector ≤ s := fun _ => dataStart_le_of_mem
  rw [sectorsOf_eq_cons] at inData
  exact (Keeps.write fun _ => kept.data _ _ _ (inData _ mem_cons_self)).bind fun _ =>
    kept.keeps_zeroSectors fun s mem => inData s (mem_cons_of_mem _ mem)

theorem Kept.keeps_writeDirEntry (inData : vol.dataStartSector ≤ pos.1) (name : Name) (attr : UInt8)
    (first size : ℕ) : Keeps P (writeDirEntry pos name attr first size) := fun _ holds =>
  runs_writeDirEntry trivial (kept.data _ _ _ inData holds) fun _ broken => absurd trivial broken

theorem Kept.keeps_clearDirEntry (inData : vol.dataStartSector ≤ pos.1) : Keeps P (clearDirEntry pos) :=
  fun _ holds => runs_clearDirEntry trivial (kept.data _ _ _ inData holds) fun _ broken => absurd trivial broken

end Kept

variable (vol) in
/-- Nothing was changed, or a chain was built and given back. -/
def Undone (disk image : Disk) : Prop := image = disk ∨ ∃ n, vol.RolledBack disk n image

/-- Directory slots lie in the data area. -/
theorem dataStart_le_slot (mem : p ∈ vol.slots disk dir) : vol.dataStartSector ≤ p.1 := by
  obtain ⟨c, _, inCluster⟩ := mem_slotsOn.mp mem
  exact dataStart_le_of_mem inCluster

theorem mem_slots_of_slotFor {target : Name} {old : Option ℕ}
    (located : slotFor disk (vol.slots disk dir) none target = .ok (p, old)) : p ∈ vol.slots disk dir := by
  rcases slotFor_ok located with ⟨search, -⟩ | ⟨-, free, -⟩
  · exact mem_of_mem_liveOn (findOn_some search).1
  · exact mem_of_find?_eq_some free

variable (vol) in
/-- On a working device the operation keeps `P`, or it fails and is undone. -/
def Concludes (P : Disk → Prop) (disk : Disk) {α : Type} (m : FatM α) : Prop :=
  Runs True (fun _ => True) m disk (fun _ => P) fun _ => vol.Undone disk

section Operations

variable (kept : vol.Kept P) (sound : vol.Sound) (holds : P disk)
include kept holds

theorem Kept.concludes_remove (inData : vol.dataStartSector ≤ p.1) (first : ℕ) :
    vol.Concludes P disk (do clearDirEntry p; vol.freeChain first) := by
  have keeps : Keeps P (do clearDirEntry p; vol.freeChain first) :=
    (kept.keeps_clearDirEntry inData).bind fun _ => kept.keeps_freeFrom _ first
  exact (keeps disk holds).mono (fun _ safe => safe) (fun _ _ later => later) fun _ _ never => never.elim

theorem Kept.concludes_unlink (path : Bytes) : vol.Concludes P disk (vol.unlink path) := by
  unfold unlink
  refine runs_located (fun _ => .inl rfl) (Runs.throw (.inl rfl)) fun dir name p _ located => ?_
  simp only [freeChain_unless_zero]
  split
  · exact Runs.throw (.inl rfl)
  · exact kept.concludes_remove holds (dataStart_le_slot (mem_of_mem_liveOn (findOn_some located).1)) _

theorem Kept.concludes_rmdir (path : Bytes) : vol.Concludes P disk (vol.rmdir path) := by
  unfold rmdir
  refine runs_located (fun _ => .inl rfl) (Runs.throw (.inl rfl)) fun dir name p _ located => ?_
  simp only
  split
  · exact Runs.throw (.inl rfl)
  · refine (reads_dirIsEmpty _).before ?_ fun _ broken => absurd trivial broken
    split
    · exact Runs.throw (.inl rfl)
    · exact kept.concludes_remove holds (dataStart_le_slot (mem_of_mem_liveOn (findOn_some located).1)) _

include sound

theorem Kept.concludes_buildContent (data : Bytes) : vol.Concludes P disk (vol.buildContent data) := by
  unfold buildContent
  split
  · exact Runs.pure holds
  · refine Runs.bind ((runs_allocChain sound _).mono (fun _ _ => trivial) (fun _ _ built => built)
      fun _ _ fails => .inr ⟨_, (fails.2 trivial).2⟩) ?_
    intro first image alloc
    have later : P image := by
      rcases alloc with ⟨-, -, rfl⟩ | ⟨l, -, built, -⟩
      · exact holds
      · exact kept.entry.built sound built holds
    exact (kept.keeps_writeFrom data _ first 0).attempt later fun _ _ later => Runs.pure later

/-- The chain is built, the entry written, the old chain freed: each keeps `P`. -/
theorem Kept.concludes_writeFile (path data : Bytes) : vol.Concludes P disk (vol.writeFile path data) := by
  unfold writeFile
  refine (reads_resolveParent path).andThen ?_ fun _ _ => .inl rfl
  rintro ⟨dir, name⟩ -
  refine (reads_locateOrFreeSlot dir (shortName83 name)).andThen ?_ fun _ _ => .inl rfl
  rintro ⟨p, oldFirst⟩ located
  have inData := dataStart_le_slot (mem_slots_of_slotFor located)
  refine (kept.concludes_buildContent sound holds data).bind fun first mid built => ?_
  refine (kept.keeps_writeDirEntry inData _ _ _ _).attempt built fun _ image committed => ?_
  cases oldFirst with
  | none => exact Runs.pure committed
  | some old =>
    simp only
    split
    · exact (kept.keeps_freeFrom _ old).attempt committed fun _ _ later => Runs.pure later
    · exact Runs.pure committed

theorem Kept.concludes_mkdir (path : Bytes) : vol.Concludes P disk (vol.mkdir path) := by
  unfold mkdir
  refine (reads_resolveParent path).andThen ?_ fun _ _ => .inl rfl
  rintro ⟨dir, name⟩ -
  refine (reads_locateOrFreeSlot dir (shortName83 name)).andThen ?_ fun _ _ => .inl rfl
  rintro ⟨p, existing⟩ located
  have inData := dataStart_le_slot (mem_slots_of_slotFor located)
  simp only
  split
  · exact Runs.throw (.inl rfl)
  · refine Runs.bind ((runs_allocCluster sound).mono (fun _ _ => trivial) (fun _ _ taken => taken)
      fun _ _ fails => .inl (fails.2 trivial).2.1) ?_
    rintro cluster _ ⟨valid, -, -, rfl⟩
    refine (kept.keeps_initDirCluster cluster dir).attempt (kept.entry _ _ _ valid holds) fun _ mid made => ?_
    exact (kept.keeps_writeDirEntry inData _ _ _ _).attempt made fun _ _ later => Runs.pure later

/-- **Every operation keeps what its writes keep**, and one that fails is undone. -/
theorem Kept.concludes (op : Op) : vol.Concludes P disk (vol.perform op) := by
  cases op with
  | writeFile path data => exact kept.concludes_writeFile sound holds path data
  | mkdir path => exact kept.concludes_mkdir sound holds path
  | unlink path => exact kept.concludes_unlink holds path
  | rmdir path => exact kept.concludes_rmdir holds path

end Operations

/-- **A failing operation is invisible.** On a working device, and with identical copies of the FAT, an
operation that returns an error, whichever it is, leaves the image as it was. -/
theorem failed_operation_invisible (sound : vol.Sound) {dev : Device Sector BlkError} (working : dev.Faultless)
    (identical : vol.CopiesAgree id dev.disk) (op : Op) {e : FatError}
    (failed : (exec (vol.perform op) dev).1 = .error e) : (exec (vol.perform op) dev).2.disk = dev.disk := by
  have kept : vol.Kept (fun _ => True) := ⟨fun _ _ _ _ _ => trivial, fun _ _ _ _ _ => trivial⟩
  have undone := (kept.concludes sound trivial op).of_error (fun _ => working) failed
  rcases undone with same | ⟨n, rolledBack⟩
  · exact same
  · exact rolledBack.eq sound identical

/-- A volume of two clusters with two copies of the FAT. -/
def mirroredVolume : Fat32 where
  sectorsPerCluster := 1
  fatStartSector := 0
  dataStartSector := 2
  rootCluster := 2
  clusterCount := 2
  numFats := 2
  fatSize := 1
  sectorsPerCluster_pos := Nat.zero_lt_one
  numFats_pos := Nat.zero_lt_two

/-- Its image after formatting. -/
def mirroredDisk : Disk := mirroredVolume.putCopies (fun _ _ => 0) 2 fat32Eoc 2

theorem mirroredVolume_sound : mirroredVolume.Sound :=
  .of_room (by decide) (by decide) (by decide) (by decide)

theorem mirroredDisk_identical : mirroredVolume.CopiesAgree id mirroredDisk :=
  (kept_identical mirroredVolume_sound).entry _ 2 _ rfl fun _ _ _ _ => rfl

/-- A file of two clusters, of which the volume has one: it is allocated and released again. -/
theorem failed_operation_invisible_full : (exec (mirroredVolume.perform (.writeFile [0x41] (replicate 513 0)))
        (Device.start mirroredDisk fun _ _ => none)).2.disk = mirroredDisk ∧
      (exec (mirroredVolume.perform (.writeFile [0x41] (replicate 513 0)))
        (Device.start mirroredDisk fun _ _ => none)).2.targets.length = 4 := by
  have failed : (exec (mirroredVolume.perform (.writeFile [0x41] (replicate 513 0)))
      (Device.start mirroredDisk fun _ _ => none)).1 = .error .noSpace := by
    decide +kernel
  refine ⟨failed_operation_invisible mirroredVolume_sound (fun _ _ => rfl) mirroredDisk_identical _ failed, ?_⟩
  decide +kernel

end Fat32

end Ferros.Fat
