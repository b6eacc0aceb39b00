/-
**Which sectors the operations write.**

* `Writable` — what an operation may write. Allocation and release are trees of requests whose writes lie in the
  FAT (`writable_fat`); where the data goes depends on the chain that was built (`touches_writeFrom`).
* `fat_copies_agree` — **the copies of the FAT agree after every sequence of operations**, and every
  operation is confined.
-/

import Ferros.Fat.Mirror
import Ferros.Fat.Termination

namespace Ferros.Fat

open Lib List Option

namespace Fat32

variable {vol : Fat32} {disk : Disk} {allowed : ℕ → Prop} {c n first cluster written : ℕ}
  {sectors l : List ℕ} {data path name : Bytes} {pos : Pos} {dev : Device Sector BlkError} {α : Type}

/-! ### The data area -/

theorem sends_zeroSectors (all : ∀ s ∈ sectors, allowed s) :
    Sends allowed (fun _ => True) (zeroSectors sectors) := by
  induction sectors with
  | nil => exact .pure trivial
  | cons sector rest ih =>
    exact (Sends.writeBlock (all sector mem_cons_self)).bind fun _ _ =>
      ih fun s mem => all s (mem_cons_of_mem _ mem)

theorem sends_initDirCluster (all : ∀ s ∈ vol.sectorsOf cluster, allowed s) (parent : ℕ) :
    Sends allowed (fun _ => True) (vol.initDirCluster cluster parent) := by
  rw [sectorsOf_eq_cons] at all
  exact (Sends.writeBlock (all _ mem_cons_self)).bind fun _ _ =>
    sends_zeroSectors fun s mem => all s (mem_cons_of_mem _ mem)

theorem sends_writeDirEntry (isAllowed : allowed pos.1) (name : Name) (attr : UInt8) (first size : ℕ) :
    Sends allowed (fun _ => True) (writeDirEntry pos name attr first size) :=
  (fetches_readSector _).sends.bind fun _ _ => .writeBlock isAllowed

theorem sends_clearDirEntry (isAllowed : allowed pos.1) : Sends allowed (fun _ => True) (clearDirEntry pos) :=
  (fetches_readSector _).sends.bind fun _ _ => .writeBlock isAllowed

/-- **Data goes to the clusters of the chain.** -/
theorem touches_writeFrom (sound : vol.Sound) (nodup : l.Nodup)
    (all : ∀ c ∈ l, ∀ s ∈ vol.sectorsOf c, allowed s)
    (walk : vol.Walk dev.disk c l) (n : ℕ) (below : written ≤ data.length) :
    Touches allowed (vol.writeFrom data n c written) dev := by
  induction l generalizing dev c n written with
  | nil =>
    have stop : vol.validCluster c = false := walk
    cases n with
    | zero => exact .of_same rfl rfl
    | succ n =>
      rw [writeFrom, if_neg fun both => by simp [stop] at both]
      exact .of_same rfl rfl
  | cons head rest ih =>
    obtain ⟨rfl, valid, walk'⟩ := walk
    obtain ⟨-, distinctRest⟩ := nodup_cons.mp nodup
    cases n with
    | zero => exact .of_same rfl rfl
    | succ n =>
      rw [writeFrom]
      split
      · refine ((sends_writeSectors (all head mem_cons_self) _).touches dev).bind ?_
        intro written' dev' ran
        -- the sectors of a cluster hold no entry of the FAT, so the rest of the chain stays
        have runs : Runs False _ (writeSectors data (vol.sectorsOf head) written) dev.disk _ _ :=
          runs_writeSectors (nodup_sectorsOf head) below
        have wrote := runs.of_ok False.elim (congrArg Prod.fst ran)
        rw [ran] at wrote
        have agree : vol.DataAgree [head] dev.disk dev'.disk := fun s outside =>
          wrote.2.1 s (outside head (mem_singleton_self head))
        refine ((fetches_nextCluster head).sends.touches dev').bind fun next dev'' read => ?_
        have reads : Reads False (vol.nextCluster head) dev'.disk _ := reads_nextCluster head
        obtain ⟨-, sameDisk, right⟩ := reads.outcome
        have value := Except.ok.inj (right next (congrArg Prod.fst read))
        rw [read] at sameDisk
        refine ih distinctRest (fun x mem => all x (mem_cons_of_mem _ mem)) ?_ n ?_
        · rw [sameDisk, ← value, agree.nextOf sound valid]
          exact Lib.IsChain.congr walk' fun x mem =>
            agree.nextOf sound (Lib.IsChain.valid_of_mem walk' x mem)
        · rw [wrote.1]
          exact Nat.min_le_left _ _
      · exact .of_same rfl rfl

/-! ### The operations -/

/-- The clusters that an operation allocates, if any: a chain that is built on the image as it was. -/
def Allocates (vol : Fat32) (disk : Disk) (l : List ℕ) : Prop := l = [] ∨ ∃ image, vol.Built disk l image

/-- The sectors of the FAT, of some clusters and of a slot. -/
def Writable (vol : Fat32) (l : List ℕ) (slot : Option Pos) (sector : ℕ) : Prop :=
  vol.InFat sector ∨ (∃ c ∈ l, sector ∈ vol.sectorsOf c) ∨ ∃ p, slot = some p ∧ sector = p.1

/-- **What an operation on a path may write**: the FAT, the clusters that it allocates, and the sector of one
slot of the directory that the path leads to. -/
def Confined (vol : Fat32) (path : Bytes) (m : FatM Unit) (dev : Device Sector BlkError) : Prop :=
  ∃ l slot, vol.Allocates dev.disk l ∧
    (∀ p, slot = some p → ∃ dir name,
      vol.resolveOn dev.disk vol.rootCluster (components path) = .ok (dir, name) ∧
        p ∈ vol.slots dev.disk dir) ∧
    Touches (vol.Writable l slot) m dev

section Confined

theorem confined_throw (e : FatError) : vol.Confined path (throw e) dev :=
  ⟨[], none, .inl rfl, fun _ wrong => (nomatch wrong), .of_same rfl rfl⟩

/-- The FAT may be written in any case. -/
theorem writable_fat (sound : vol.Sound) (l : List ℕ) (slot : Option Pos) (c : ℕ)
    (valid : vol.validCluster c) (k : ℕ) (isCopy : k < vol.numFats) : vol.Writable l slot (vol.fatSector k c) :=
  .inl (inFat_fatSector isCopy (sound.entryFits c valid))

theorem Confined.after {m : FatM α} {f : α → FatM Unit} {outcome : Except FatError α}
    (reads : Reads False m dev.disk outcome) (fetches : Fetches m)
    (next : ∀ value dev', dev'.disk = dev.disk → outcome = .ok value → vol.Confined path (f value) dev') :
    vol.Confined path (m >>= f) dev := by
  obtain ⟨-, sameDisk, right⟩ := reads.outcome
  rcases ran : exec m dev with ⟨_ | value, dev'⟩
  · refine ⟨[], none, .inl rfl, fun _ wrong => (nomatch wrong), ?_⟩
    refine (fetches.sends.touches dev).bind fun value dev'' other => ?_
    cases ran.symm.trans other
  · rw [ran] at sameDisk
    obtain ⟨l, slot, allocates, place, touches⟩ :=
      next value dev' sameDisk (right value (congrArg Prod.fst ran))
    rw [sameDisk] at allocates place
    refine ⟨l, slot, allocates, place, (fetches.sends.touches dev).bind fun value' dev'' other => ?_⟩
    obtain ⟨same, rfl⟩ := Prod.mk.inj (ran.symm.trans other)
    cases same
    exact touches

/-- **An operation on an existing entry** looks for it first, and is confined if it is so from there on. -/
theorem confined_of_located (path : Bytes) (dev : Device Sector BlkError)
    {next : Option (Pos × DirEntry) → FatM Unit} (missing : next none = throw .notFound)
    (found : ∀ dir name p dev', vol.resolveOn dev'.disk vol.rootCluster (components path) = .ok (dir, name) →
      findOn dev'.disk (vol.slots dev'.disk dir) (shortName83 name) = some p →
      vol.Confined path (next (some (p, entryOf (slotAt dev'.disk p)))) dev') :
    vol.Confined path (do let (dir, name) ← vol.resolveParent path; next (← vol.locateEntry dir name)) dev := by
  refine Confined.after (reads_resolveParent path) (fetches_resolveComponents _ _) ?_
  rintro ⟨dir, name⟩ dev₁ same₁ resolved
  refine Confined.after (reads_locateEntry dir name) (fetches_locateEntry _ _) ?_
  intro entry dev₂ same₂ located
  rw [← same₂] at located
  rw [← same₂.trans same₁] at resolved
  cases search : findOn dev₂.disk (vol.slots dev₂.disk dir) (shortName83 name) with
  | none =>
    rw [search] at located
    cases located
    rw [map_none, missing]
    exact confined_throw _
  | some p =>
    rw [search] at located
    cases located
    exact found dir name p dev₂ resolved search

variable (sound : vol.Sound)
include sound

/-- The new content of a file goes to the chain that is allocated for it. -/
theorem touches_buildContent (data : Bytes) (dev : Device Sector BlkError) :
    ∃ l, vol.Allocates dev.disk l ∧ ∀ slot, Touches (vol.Writable l slot) (vol.buildContent data) dev := by
  unfold buildContent
  split
  · exact ⟨[], .inl rfl, fun _ => .of_same rfl rfl⟩
  · have allocs (l : List ℕ) (slot : Option Pos) :
        Touches (vol.Writable l slot) (vol.allocChain (vol.clustersFor data)) dev :=
      (sends_allocLoop (writable_fat sound l slot) fun zero => absurd rfl zero).touches dev
    have runs : Runs False _ (vol.allocChain (vol.clustersFor data)) dev.disk _ _ := runs_allocChain sound _
    rcases ran : exec (vol.allocChain (vol.clustersFor data)) dev with ⟨_ | first, dev'⟩
    · refine ⟨[], .inl rfl, fun slot => (allocs _ slot).bind fun value dev'' other => ?_⟩
      cases ran.symm.trans other
    · have alloc := runs.of_ok False.elim (congrArg Prod.fst ran)
      rw [ran] at alloc
      obtain ⟨l, allocates, walk, nodup⟩ : ∃ l, vol.Allocates dev.disk l ∧ vol.Walk dev'.disk first l ∧
          l.Nodup := by
        rcases alloc with ⟨-, rfl, -⟩ | ⟨l, -, built, rfl⟩
        · exact ⟨[], .inl rfl, not_valid_zero, nodup_nil⟩
        · have isChain := (built.spec sound).1
          exact ⟨l, .inr ⟨_, built⟩, isChain.walk sound, isChain.nodup sound⟩
      refine ⟨l, allocates, fun slot => (allocs l slot).bind fun value dev'' other => ?_⟩
      obtain ⟨same, rfl⟩ := Prod.mk.inj (ran.symm.trans other)
      cases same
      have writes := touches_writeFrom sound nodup
        (fun c mem s inside => show vol.Writable l slot s from .inr (.inl ⟨c, mem, inside⟩)) walk
        vol.clusterCount (Nat.zero_le data.length)
      refine writes.attempt.bind fun outcome dev3 _ => ?_
      cases outcome with
      | error e => exact (sends_giveBack (writable_fat sound l slot) _ e).touches dev3
      | ok _ => exact .of_same rfl rfl

theorem confined_writeFile (path data : Bytes) (dev : Device Sector BlkError) :
    vol.Confined path (vol.writeFile path data) dev := by
  unfold writeFile
  refine Confined.after (reads_resolveParent path) (fetches_resolveComponents _ _) ?_
  rintro ⟨dir, name⟩ dev₁ same₁ resolved
  refine Confined.after (reads_locateOrFreeSlot dir (shortName83 name)) (fetches_locateOrFreeSlot _ _) ?_
  rintro ⟨p, oldFirst⟩ dev₂ same₂ located
  obtain ⟨l, allocates, builds⟩ := touches_buildContent sound data dev₂
  have fat := writable_fat sound l (some p)
  refine ⟨l, some p, allocates, fun q same => ?_, (builds (some p)).bind fun first dev₃ _ => ?_⟩
  · cases same
    rw [same₂, same₁]
    rw [same₁] at located
    exact ⟨dir, name, resolved, mem_slots_of_slotFor located⟩
  · refine Sends.touches ?_ dev₃
    refine (sends_writeDirEntry (.inr (.inr ⟨p, rfl, rfl⟩)) _ _ _ _).attempt.bind fun outcome _ => ?_
    cases outcome with
    | error e =>
      simp only
      split
      · exact sends_giveBack fat _ e
      · exact .throw e
    | ok _ =>
      cases oldFirst with
      | none => exact .pure trivial
      | some old =>
        simp only
        split
        · exact (sends_freeFrom fat _ old).attempt.bind fun _ _ => .pure trivial
        · exact .pure trivial

theorem confined_mkdir (path : Bytes) (dev : Device Sector BlkError) :
    vol.Confined path (vol.mkdir path) dev := by
  unfold mkdir
  refine Confined.after (reads_resolveParent path) (fetches_resolveComponents _ _) ?_
  rintro ⟨dir, name⟩ dev₁ same₁ resolved
  refine Confined.after (reads_locateOrFreeSlot dir (shortName83 name)) (fetches_locateOrFreeSlot _ _) ?_
  rintro ⟨p, existing⟩ dev₂ same₂ located
  simp only
  split
  · exact confined_throw _
  · have place : ∀ q, some p = some q → ∃ dir name,
        vol.resolveOn dev₂.disk vol.rootCluster (components path) = .ok (dir, name) ∧
          q ∈ vol.slots dev₂.disk dir := by
      intro q same
      cases same
      rw [same₂, same₁]
      rw [same₁] at located
      exact ⟨dir, name, resolved, mem_slots_of_slotFor located⟩
    have allocs (l : List ℕ) : Touches (vol.Writable l (some p)) vol.allocCluster dev₂ :=
      (sends_allocFrom (writable_fat sound l (some p)) le_rfl).weaken.touches dev₂
    rcases ran : exec vol.allocCluster dev₂ with ⟨_ | cluster, dev₃⟩
    · refine ⟨[], some p, .inl rfl, place, (allocs _).bind fun value dev' other => ?_⟩
      cases ran.symm.trans other
    · have runs : Runs False _ vol.allocCluster dev₂.disk _ _ := runs_allocCluster sound
      obtain ⟨valid, free, -, -⟩ := runs.of_ok False.elim (congrArg Prod.fst ran)
      refine ⟨[cluster], some p, .inr ⟨_, .single valid free⟩, place, (allocs _).bind ?_⟩
      intro value dev' other
      obtain ⟨same, rfl⟩ := Prod.mk.inj (ran.symm.trans other)
      cases same
      have fat := writable_fat sound [cluster] (some p)
      have inits : Sends (vol.Writable [cluster] (some p)) (fun _ => True) (vol.initDirCluster cluster dir) :=
        sends_initDirCluster (fun s inside => .inr (.inl ⟨cluster, mem_singleton_self _, inside⟩)) dir
      refine Sends.touches (inits.attempt.bind fun outcome _ => ?_) dev₃
      cases outcome with
      | error e => exact sends_giveBack fat _ e
      | ok _ =>
        refine (sends_writeDirEntry (.inr (.inr ⟨p, rfl, rfl⟩)) _ _ _ _).attempt.bind fun outcome _ => ?_
        cases outcome with
        | error e => exact sends_giveBack fat _ e
        | ok _ => exact .pure trivial

/-- The slot that was found is cleared, and its chain released. -/
theorem confined_remove {dir : ℕ} {p : Pos}
    (resolved : vol.resolveOn dev.disk vol.rootCluster (components path) = .ok (dir, name))
    (located : findOn dev.disk (vol.slots dev.disk dir) (shortName83 name) = some p) (first : ℕ) :
    vol.Confined path (do clearDirEntry p; vol.freeChain first) dev := by
  have clears : Sends (vol.Writable [] (some p)) (fun _ => True) (clearDirEntry p) :=
    sends_clearDirEntry (.inr (.inr ⟨p, rfl, rfl⟩))
  have frees := sends_freeFrom (writable_fat sound [] (some p)) vol.clusterCount first
  refine ⟨[], some p, .inl rfl, fun q same => ?_, (clears.bind fun _ _ => frees).touches dev⟩
  cases same
  exact ⟨dir, name, resolved, mem_of_mem_liveOn (findOn_some located).1⟩

theorem confined_unlink (path : Bytes) (dev : Device Sector BlkError) :
    vol.Confined path (vol.unlink path) dev := by
  refine confined_of_located path dev rfl fun dir name p dev' resolved located => ?_
  simp only [freeChain_unless_zero]
  split
  · exact confined_throw _
  · exact confined_remove sound resolved located _

theorem confined_rmdir (path : Bytes) (dev : Device Sector BlkError) :
    vol.Confined path (vol.rmdir path) dev := by
  refine confined_of_located path dev rfl fun dir name p dev' resolved located => ?_
  simp only
  split
  · exact confined_throw _
  · refine Confined.after (reads_dirIsEmpty _) (fetches_dirIsEmpty _) ?_
    intro empty dev'' same _
    rw [← same] at resolved located
    split
    · exact confined_throw _
    · exact confined_remove sound resolved located _

theorem confined_perform (op : Op) (dev : Device Sector BlkError) : vol.Confined op.path
    (vol.perform op) dev := by
  cases op with
  | writeFile path data => exact confined_writeFile sound path data dev
  | mkdir path => exact confined_mkdir sound path dev
  | unlink path => exact confined_unlink sound path dev
  | rmdir path => exact confined_rmdir sound path dev

end Confined

/-! ### Sequences of operations -/

/-- The device after a sequence of operations, whatever they return. -/
def performAll (vol : Fat32) : List Op → Device Sector BlkError → Device Sector BlkError
  | [], dev => dev
  | op :: rest, dev => performAll vol rest (exec (vol.perform op) dev).2

/-- What the writes keep, a sequence of operations keeps. -/
theorem Kept.performAll {P : Disk → Prop} (kept : vol.Kept P) (sound : vol.Sound) (ops : List Op)
    (working : dev.Faultless) (holds : P dev.disk) :
    P (vol.performAll ops dev).disk := by
  induction ops generalizing dev with
  | nil => exact holds
  | cons op rest ih =>
    have runs := kept.concludes sound holds op
    refine ih (runs.faultless (fun _ => working) working) (runs.leaves (fun _ => working) (fun _ _ => id) ?_)
    rintro _ image (rfl | ⟨n, rolledBack⟩)
    · exact holds
    · exact kept.entry.rolledBack sound rolledBack holds

/-- **The copies of the FAT agree after every sequence of operations** on a working device, if they did
before: in all 32 bits of every entry, and in the 28 bits that are used. And no operation writes a sector
outside of the FAT, of the clusters that it allocates and of the slot that it updates. -/
theorem fat_copies_agree (sound : vol.Sound) {dev : Device Sector BlkError} (working : dev.Faultless) :
    (∀ ops, vol.CopiesAgree id dev.disk → vol.CopiesAgree id (vol.performAll ops dev).disk) ∧
    (∀ ops, vol.CopiesAgree (· &&& fat32EntryMask) dev.disk →
      vol.CopiesAgree (· &&& fat32EntryMask) (vol.performAll ops dev).disk) ∧
    ∀ ops op, vol.Confined op.path (vol.perform op) (vol.performAll ops dev) := by
  refine ⟨fun ops agree => ?_, fun ops agree => ?_, fun ops op => confined_perform sound op _⟩
  · exact (kept_identical sound).performAll sound ops working agree
  · refine (kept_copiesAgree sound fun old old' value _ => ?_).performAll sound ops working agree
    rw [setEntry_and_mask, setEntry_and_mask]

/-- A directory is made, a file fails for want of space, and the directory is removed. -/
theorem fat_copies_agree_mirrored : mirroredVolume.CopiesAgree id
        (mirroredVolume.performAll [.mkdir [0x41], .writeFile [0x42] [1], .rmdir [0x41]]
          (Device.start mirroredDisk fun _ _ => none)).disk ∧
      mirroredVolume.Confined [0x42] (mirroredVolume.perform (.writeFile [0x42] [1]))
        (mirroredVolume.performAll [.mkdir [0x41]] (Device.start mirroredDisk fun _ _ => none)) := by
  have working : (Device.start mirroredDisk fun _ _ => none : Device Sector BlkError).Faultless :=
    fun _ _ => rfl
  have agree := fat_copies_agree mirroredVolume_sound working
  exact ⟨agree.1 _ mirroredDisk_identical, agree.2.2 _ (.writeFile [0x42] [1])⟩

end Fat32

end Ferros.Fat
