/-
**One failed request before the commit.**

What `write_file` leaves when one request fails before the entry of the file is written, and no other one does.

* `accounted_buildContent` — data that fails to be written is given back.
* `transient_failure_iff` — **`write_file` returns an error, and it leaks exactly if it was one of these**;
  `link_failure_leaks` — one that does.

The requests are counted off in order: the search for the slot, the rounds of the allocation
(`Ferros.Fat.Rounds`), the data, the commit (`struck_writeFile`, `struck_commit`).
-/

import Ferros.Fat.Exact
import Ferros.Fat.Rounds

namespace Ferros.Fat

open Lib List

namespace Fat32

variable {vol : Fat32} {disk image base : Disk} {j k lead i : ℕ}

/-! ### Data -/

section

variable (sound : vol.Sound)
include sound

theorem sameFat_update {sector : ℕ} (inData : vol.dataStartSector ≤ sector) (same : vol.SameFat base disk)
    (buf : Sector) : vol.SameFat base (Function.update disk sector buf) := by
  intro c valid
  rw [nextOf_update sound inData valid, same c valid]

theorem prompt_writeSectors (data : Bytes) {sectors : List ℕ} (inData : ∀ s ∈ sectors, vol.dataStartSector ≤ s)
    (written : ℕ) (same : vol.SameFat base disk) :
    Prompt True (writeSectors data sectors written) disk (vol.SameFat base) := by
  induction sectors generalizing disk written with
  | nil => exact .pure same
  | cons sector rest ih =>
    rw [writeSectors]
    split
    · exact .pure same
    · have written := sameFat_update sound (inData sector mem_cons_self) same
      refine Prompt.bind (.writeBlock same (written _)) ?_
      intro _ image same'
      exact ih (fun s mem => inData s (mem_cons_of_mem _ mem)) _ same'

theorem prompt_writeFrom (data : Bytes) (n c written : ℕ) (same : vol.SameFat base disk) :
    Prompt True (vol.writeFrom data n c written) disk (vol.SameFat base) := by
  induction n generalizing disk c written with
  | zero => exact .pure same
  | succ n ih =>
    rw [writeFrom]
    split
    · refine Prompt.bind (prompt_writeSectors sound data (fun _ => dataStart_le_of_mem) written same) ?_
      intro written' image same'
      refine Prompt.bind (Prompt.bind (.readBlock same') fun _ _ same'' => .pure same'') ?_
      intro next image' same''
      exact ih next written' same''
    · exact .pure same

end

/-! ### The new content -/

section

variable (sound : vol.Sound)
include sound

theorem accounted_buildContent (data : Bytes) :
    vol.Accounted disk (vol.buildContent data) disk (vol.leaks (vol.clustersFor data) disk 0 0) := by
  unfold buildContent
  split
  · rename_i empty
    rw [isEmpty_iff.mp empty, clustersFor_nil]
    refine ⟨_, _, _, .pure, fun first same => ?_, fun _ _ => rfl⟩
    exact ⟨[], disk, .inl ⟨rfl, rfl⟩, fun _ _ => rfl, (Except.ok.inj same).symm⟩
  · have allocates : vol.Accounted disk (vol.allocChain (vol.clustersFor data)) disk _ :=
      accounted_allocLoop sound (.inl ⟨rfl, rfl⟩) _
    obtain ⟨outcome, after, count, traced, ends, beyond⟩ := allocates
    cases outcome with
    | error e => exact ⟨_, _, _, .stop traced, fun _ wrong => (by cases wrong), beyond⟩
    | ok first =>
      obtain ⟨l, linked, held, same, rfl⟩ := ends first rfl
      obtain ⟨result, image, count', written, same', returns⟩ :=
        prompt_writeFrom sound data vol.clusterCount (l.headD 0) 0 same
      obtain ⟨value, rfl⟩ := returns trivial
      refine ⟨_, _, _, .bind traced (.recover written (fun i _ e image' same'' => ?_) .pure), ?_,
        fun j past => beyond j (by omega)⟩
      · obtain ⟨walk, kept⟩ := held.released sound same''
        refine (traced_giveBack sound walk (held.nodup sound) e).clean.settles (iff_of_true kept ?_)
        exact beyond _ (Nat.le_add_right count i)
      · intro first same
        exact ⟨l, linked, held, same', (Except.ok.inj same).symm⟩

end

/-! ### The commit -/

section

variable (vol) in
/-- The first steps of `write_file`: the name and the slot of the file. -/
def locateSlot (path : Bytes) : FatM (Name × Pos × Option ℕ) := do
  let (dirCluster, name) ← vol.resolveParent path
  let (slot, oldFirst) ← vol.locateOrFreeSlot dirCluster (shortName83 name)
  return (shortName83 name, slot, oldFirst)

variable (vol) in
def writeUntilCommit (path data : Bytes) : FatM Unit := do
  let (target, slot, _) ← vol.locateSlot path
  let newFirst ← vol.buildContent data
  writeDirEntry slot target attrArchive newFirst (data.length % 2 ^ 32)

variable (vol) in
/-- **The failed request leaks clusters**: it is one of `alloc_chain` that must not fail. -/
def Leaky (disk : Disk) (path data : Bytes) (k : ℕ) : Prop :=
  requests (vol.locateSlot path) disk ≤ k ∧
    vol.leaks (vol.clustersFor data) disk 0 0 (k - requests (vol.locateSlot path) disk) = true

theorem traced_writeDirEntry (pos : Pos) (name : Name) (attr : UInt8) (first size : ℕ) :
    Traced (writeDirEntry pos name attr first size) disk (.ok ())
      (putSlot disk pos (fillDirEntry (slotAt disk pos) name attr first size)) (1 + 1) fun _ => (· = disk) :=
  .bind (.readBlock rfl) (.writeBlock rfl)

/-- Before the allocation nothing leaks. -/
theorem freeKept_iff_of_lt (path data : Bytes) (early : k < requests (vol.locateSlot path) disk)
    (same : image = disk) : vol.FreeKept disk image ↔ ¬ vol.Leaky disk path data k := by
  subst same
  exact iff_of_true (fun _ _ free => free) fun leaky => absurd leaky.1 (not_le.mpr early)

theorem clean_untilCommit (sound : vol.Sound) (disk : Disk) (data : Bytes) (slot : Pos) (target : Name) :
    ∃ outcome image count, Clean (do
      let first ← vol.buildContent data
      writeDirEntry slot target attrArchive first (data.length % 2 ^ 32)) disk outcome image count := by
  have builds : vol.Accounted disk (vol.buildContent data) disk _ := accounted_buildContent sound data
  obtain ⟨outcome, after, count, traced, -⟩ := builds
  cases outcome with
  | error e => exact ⟨_, _, _, traced.clean.stop⟩
  | ok first => exact ⟨_, _, _, traced.clean.bind (traced_writeDirEntry _ _ _ _ _).clean⟩

/-- **The new content and the commit**, with `lead` requests before them. -/
theorem struck_commit (sound : vol.Sound) {path data : Bytes}
    (leads : requests (vol.locateSlot path) disk = lead) (slot : Pos) (target : Name)
    {handle : ℕ → Except FatError Unit → FatM Unit}
    (handles : ∀ first e, handle first (.error e) = if first ≠ 0 then do
      let _ ← attempt (vol.freeChain first); throw e else throw e)
    (before : i < requests (do
      let first ← vol.buildContent data
      writeDirEntry slot target attrArchive first (data.length % 2 ^ 32)) disk) :
    Struck (do
      let first ← vol.buildContent data
      let outcome ← attempt (writeDirEntry slot target attrArchive first (data.length % 2 ^ 32))
      handle first outcome) disk i fun image =>
        vol.FreeKept disk image ↔ ¬ vol.Leaky disk path data (lead + i) := by
  have builds : vol.Accounted disk (vol.buildContent data) disk _ := accounted_buildContent sound data
  obtain ⟨outcome, after, count, traced, ends, beyond⟩ := builds
  have leaky_iff : ∀ i, ¬ vol.Leaky disk path data (lead + i) ↔
      vol.leaks (vol.clustersFor data) disk 0 0 i = false := by
    intro i
    unfold Leaky
    rw [leads, Nat.add_sub_cancel_left, and_iff_right (Nat.le_add_right lead i), Bool.not_eq_true]
  rw [leaky_iff]
  cases outcome with
  | error e =>
    rw [traced.clean.stop.requests_eq] at before
    exact (traced.struck i before).first
  | ok first =>
    obtain ⟨l, linked, held, same, rfl⟩ := ends first rfl
    rw [(traced.clean.bind (traced_writeDirEntry slot target attrArchive (l.headD 0)
      (data.length % 2 ^ 32)).clean).requests_eq] at before
    refine Struck.either (fun i image => vol.FreeKept disk image ↔
      vol.leaks (vol.clustersFor data) disk 0 0 i = false) traced.clean traced.struck (fun j inCommit => ?_) before
    refine Struck.recover ((traced_writeDirEntry _ _ _ _ _).struck j inCommit) ?_
    rintro e _ rfl
    obtain ⟨walk, kept⟩ := held.released sound same
    rw [handles]
    refine (traced_giveBackSome sound walk (held.nodup sound) e).clean.settles (iff_of_true kept ?_)
    exact beyond _ (Nat.le_add_right count j)

/-- **What `write_file` leaves** when request `k` fails before the commit. -/
theorem struck_writeFile (sound : vol.Sound) (path data : Bytes)
    (before : k < requests (vol.writeUntilCommit path data) disk) :
    Struck (vol.writeFile path data) disk k fun image =>
      vol.FreeKept disk image ↔ ¬ vol.Leaky disk path data k := by
  have fetches : Fetches (vol.locateSlot path) := (fetches_resolveComponents _ _).bind fun _ =>
    (fetches_locateOrFreeSlot _ _).bind fun _ => .pure _
  have locates : Prompt False (vol.locateSlot path) disk (· = disk) := fetches.prompt rfl
  obtain ⟨located, image, count, ⟨clean, struck⟩, same, -⟩ := locates
  have leads := clean.requests_eq
  -- the rest is the program of `struck_commit`, for some handler
  obtain ⟨handle, handles, split⟩ : ∃ handle : Option ℕ → ℕ → Except FatError Unit → FatM Unit,
      (∀ old first e, handle old first (.error e) = if first ≠ 0 then do
        let _ ← attempt (vol.freeChain first); throw e else throw e) ∧
      vol.writeFile path data = vol.locateSlot path >>= fun found => (do
        let first ← vol.buildContent data
        let outcome ← attempt (writeDirEntry found.2.1 found.1 attrArchive first (data.length % 2 ^ 32))
        handle found.2.2 first outcome) := by
    refine ⟨fun old first outcome => Except.casesOn outcome
      (fun e => if first ≠ 0 then do let _ ← attempt (vol.freeChain first); throw e else throw e)
      fun _ => old.elim (return) fun old =>
        if vol.validCluster old then do let _ ← attempt (vol.freeChain old); return else return,
      fun _ _ _ => rfl, ?_⟩
    unfold writeFile locateSlot
    rw [bind_assoc]
    refine bind_congr fun parent => ?_
    rw [bind_assoc]
    refine bind_congr fun found => bind_congr fun first => bind_congr fun outcome => ?_
    cases outcome with
    | error e => rfl
    | ok _ => rcases found with ⟨_, _ | _⟩ <;> rfl
  rw [split]
  unfold writeUntilCommit at before
  cases located with
  | error e =>
    rw [(Clean.stop clean).requests_eq] at before
    exact (struck k before).first.mono fun _ same => freeKept_iff_of_lt path data (by omega) same
  | ok found =>
    rw [same] at clean
    obtain ⟨ended, after, total, cleanC⟩ := clean_untilCommit sound disk data found.2.1 found.1
    rw [(Clean.bind clean cleanC).requests_eq] at before
    refine Struck.either (fun k image => vol.FreeKept disk image ↔ ¬ vol.Leaky disk path data k) clean
      (fun i early => ?_) (fun i late => ?_) before
    · exact (struck i early).mono fun _ same => freeKept_iff_of_lt path data (by omega) same
    · refine struck_commit sound leads found.2.1 found.1 (handles found.2.2) ?_
      exact late.trans_eq cleanC.requests_eq.symm

/-- **One failed request before the commit.** `write_file` returns an error, and every cluster that was free is
free again unless the request was one of those that must not fail. -/
theorem transient_failure_iff (sound : vol.Sound) (path data : Bytes) {dev : Device Sector BlkError} {k : ℕ}
    (struck : dev.StruckAt k) (before : k < requests (vol.writeUntilCommit path data) dev.disk) :
    (∃ e, (exec (vol.writeFile path data) dev).1 = .error e) ∧
      (vol.FreeKept dev.disk (exec (vol.writeFile path data) dev).2.disk ↔
        ¬ vol.Leaky dev.disk path data k) := by
  obtain ⟨failed, kept, -⟩ := struck_writeFile sound path data before dev rfl struck
  exact ⟨failed, kept⟩

end

/-- A volume of three clusters, with one FAT of one sector. -/
def tripleVolume : Fat32 where
  sectorsPerCluster := 1
  fatStartSector := 0
  dataStartSector := 1
  rootCluster := 2
  clusterCount := 3
  numFats := 1
  fatSize := 1
  sectorsPerCluster_pos := Nat.zero_lt_one
  numFats_pos := Nat.zero_lt_one

theorem tripleVolume_sound : tripleVolume.Sound :=
  .of_room (by decide) (by decide) (by decide) (by decide)

/-- Its image after formatting, on a device whose request `k` fails. -/
def tripleDevice (k : ℕ) : Device Sector BlkError :=
  Device.start (tripleVolume.formatted fun _ _ => 0) fun n _ => if n = k then some (.deviceError 1) else none

theorem tripleDevice_struck (k : ℕ) : (tripleDevice k).StruckAt k where
  hit _ := ⟨.deviceError 1, if_pos (Nat.zero_add k)⟩
  quiet i other _ := if_neg fun same => other ((Nat.zero_add i).symm.trans same)

/-- A file of two clusters, and the search for the second one fails: the first one is given back. -/
theorem transient_failure_iff_search :
    (∃ e, (exec (tripleVolume.writeFile [0x41] (replicate 513 0)) (tripleDevice 4)).1 = .error e) ∧
      tripleVolume.FreeKept (tripleDevice 4).disk
        (exec (tripleVolume.writeFile [0x41] (replicate 513 0)) (tripleDevice 4)).2.disk := by
  have failure := transient_failure_iff tripleVolume_sound [0x41] (replicate 513 0) (tripleDevice_struck 4)
    (by decide +kernel)
  refine ⟨failure.1, failure.2.mpr fun leaky => ?_⟩
  exact absurd leaky.2 (by decide +kernel)

/-- **The link fails, and two clusters leak**: they were free on a well-formed volume without leaks, and are
neither free nor part of a file afterwards. -/
theorem link_failure_leaks :
    tripleVolume.WellFormed (tripleDevice 7).disk ∧ tripleVolume.Exact (tripleDevice 7).disk ∧
      (tripleDevice 7).StruckAt 7 ∧
      7 < requests (tripleVolume.writeUntilCommit [0x41] (replicate 513 0)) (tripleDevice 7).disk ∧
      tripleVolume.nextOf (tripleDevice 7).disk 3 = 0 ∧
      (exec (tripleVolume.writeFile [0x41] (replicate 513 0)) (tripleDevice 7)).1 =
        .error (.block (.deviceError 1)) ∧ tripleVolume.nextOf
        (exec (tripleVolume.writeFile [0x41] (replicate 513 0)) (tripleDevice 7)).2.disk 3 ≠ 0 := by
  refine ⟨wellFormed_formatted tripleVolume_sound (by decide) fun _ _ => rfl,
    exact_formatted tripleVolume_sound (by decide), tripleDevice_struck 7, ?_, ?_, ?_, ?_⟩
  · decide +kernel
  · decide +kernel
  · decide +kernel
  · decide +kernel

end Fat32

end Ferros.Fat
