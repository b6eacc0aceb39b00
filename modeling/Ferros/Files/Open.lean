/-
**Calls that take a path.**

`open`, `mkdir`, `unlink` and `rmdir` over the registry and the disk together. `open` looks the path up,
truncates or creates the file on the disk, and only then looks for a free descriptor.

* `open_atomic_iff` — **when a failed `open` has changed nothing**; `open_wastes_file` — a full table and a
  file that is created in vain.
-/

import Ferros.Fat.Created
import Ferros.Fat.Mount
import Ferros.Files.Dirents
import Ferros.Files.Resolve

namespace Ferros.Files

open Lib Option
open Fat (Bytes Fat32 Sector BlkError FatError FatM TreeNode components namesOf marked)

variable {vol : Fat32} {flags : ℕ} {dev : Device Sector BlkError} {v : ℤ}

def EEXIST : ℤ := 17
def EIO : ℤ := 5
def ENOSPC : ℤ := 28
def ENOTEMPTY : ℤ := 39

def fatErrno : FatError → ℤ
  | .notFound => ENOENT
  | .isADirectory => EISDIR
  | .notADirectory => ENOTDIR
  | .alreadyExists => EEXIST
  | .notEmpty => ENOTEMPTY
  | .noSpace | .dirFull => ENOSPC
  | _ => EIO

theorem fatErrno_pos (e : FatError) : 0 < fatErrno e := by
  unfold fatErrno
  split <;> decide

def oAccmode : ℕ := 0x3
def oRdonly : ℕ := 0x0
def oCreat : ℕ := 0x40
def oTrunc : ℕ := 0x200
def oAppend : ℕ := 0x400

/-- The registry and the disk. -/
structure Storage where
  registry : Registry
  device : Device Sector BlkError

/-! ### The calls -/

def writes (flags : ℕ) : Bool := (flags &&& oAccmode) != oRdonly
def creates (flags : ℕ) : Bool := (flags &&& oCreat) != 0
def truncates (flags : ℕ) : Bool := (flags &&& oTrunc) != 0
def appends (flags : ℕ) : Bool := (flags &&& oAppend) != 0

/-- `write_file(path, &[])` and what is opened then, or an errno. -/
def emptied (path : Bytes) (f : OpenFile) (dev : Device Sector BlkError) :
    Except ℤ OpenFile × Device Sector BlkError :=
  match exec (Fs.writeFile path []) dev with
  | (.error e, dev) => (.error (fatErrno e), dev)
  | (.ok _, dev) => (.ok f, dev)

/-- The part of `open` on the disk: what is opened, or an errno. -/
def openOn (path : Bytes) (flags : ℕ) (dev : Device Sector BlkError) :
    Except ℤ OpenFile × Device Sector BlkError :=
  match exec (Fs.lookup path) dev with
  | (.ok (.file existing), dev) =>
    if truncates flags then emptied path ⟨path, [], 0, writes flags, false, false⟩ dev
    else
      (.ok ⟨path, existing, if appends flags then existing.length else 0, writes flags, false, false⟩, dev)
  | (.ok (.dir items), dev) =>
    if writes flags then (.error EISDIR, dev)
    else (.ok ⟨path, serializeDirents items, 0, false, false, true⟩, dev)
  | (.error .notFound, dev) =>
    if creates flags then emptied path ⟨path, [], 0, writes flags, false, false⟩ dev
    else (.error ENOENT, dev)
  | (.error e, dev) => (.error (fatErrno e), dev)

def sysOpen (key : Key) (path : Except ℤ (List UInt8)) (flags : ℕ) (s : Storage) : Option (ℤ × Storage) :=
  match pathArg key path s.registry with
  | (.error e, registry) => some (-e, { s with registry })
  | (.ok resolved, registry) =>
    match openOn resolved flags s.device with
    | (.error e, device) => some (-e, ⟨registry, device⟩)
    | (.ok f, device) =>
      (allocCurrent key (.file f) registry).map fun (v, registry) => (v, ⟨registry, device⟩)

/-- The common body of `mkdir`, `unlink` and `rmdir`. -/
def pathCall (call : Bytes → FatM Unit) (key : Key) (path : Except ℤ (List UInt8)) (s : Storage) :
    ℤ × Storage :=
  match pathArg key path s.registry with
  | (.error e, registry) => (-e, { s with registry })
  | (.ok resolved, registry) =>
    match exec (call resolved) s.device with
    | (.ok _, device) => (0, ⟨registry, device⟩)
    | (.error e, device) => (-fatErrno e, ⟨registry, device⟩)

section

variable (key : Key) (path : Except ℤ (List UInt8)) (s : Storage)

def sysMkdir : ℤ × Storage :=
  pathCall Fs.mkdir key path s

def sysUnlink : ℤ × Storage :=
  pathCall Fs.unlink key path s

def sysRmdir : ℤ × Storage :=
  pathCall Fs.rmdir key path s

end

/-! ### The part on the disk -/

section

variable {path : Bytes}

/-- The effect of `open` on the disk: nothing that the tree owns changes, or `write_file` has written an
empty file. -/
structure OpenEffect (vol : Fat32) (path : Bytes) (flags : ℕ) (before : Device Sector BlkError)
    (result : Except ℤ OpenFile × Device Sector BlkError) : Prop where
  mounted : vol.Mounted result.2.disk
  fault : result.2.fault = before.fault
  effect : vol.AgreeOn (vol.Owned before.disk) before.disk result.2.disk ∨
    (∃ f, result.1 = .ok f) ∧
      (creates flags = true ∨ ∃ content, vol.treeOf before.disk (namesOf path) = some (.file content)) ∧
      ∃ write : vol.FileWrite before.disk path [],
        vol.AgreeOn (vol.Owned write.after) write.after result.2.disk

section Consistent

variable (inv : vol.Consistent dev.disk) (mounted : vol.Mounted dev.disk) (clean : (0 : UInt8) ∉ path)
include inv mounted clean

theorem runs_writeEmpty {working : Prop} : Runs working (vol.Safe dev.disk) (Fs.writeFile path []) dev.disk
    (fun _ image => ∃ write : vol.FileWrite dev.disk path [],
      vol.AgreeOn (vol.Owned write.after) write.after image)
    (fun e image => vol.AgreeOn (vol.Owned dev.disk) dev.disk image ∧
      (working → vol.NoSlot dev.disk path e)) := by
  refine Fat32.runs_mounted mounted ((Fat32.runs_writeFile inv (Fat32.used_of_clean clean) []).mono
    (fun _ safe => safe) (fun _ _ ⟨write, agree, _⟩ => ⟨write, agree⟩) ?_)
    fun e broken => ⟨Fat32.AgreeOn.refl _ _, fun works => absurd works broken⟩
  rintro e image ⟨agree, cause⟩
  refine ⟨agree, fun works => ?_⟩
  rcases cause works with ⟨_, noSlot⟩ | ⟨_, back⟩
  · exact noSlot
  · have short := Fat32.freeClusters_lt_of_rolledBack inv.sound back
    rw [vol.clustersFor_nil] at short
    exact absurd short (Nat.not_lt_zero _)

theorem emptied_effect (f : OpenFile)
    (cause : creates flags ∨ ∃ content, vol.treeOf dev.disk (namesOf path) = some (.file content)) :
    OpenEffect vol path flags dev (emptied path f dev) := by
  have runs : Runs False _ (Fs.writeFile path []) dev.disk _ _ := runs_writeEmpty inv mounted clean
  obtain ⟨fault, _, outcome⟩ := runs dev rfl False.elim
  have stays : vol.Mounted (exec (Fs.writeFile path []) dev).2.disk :=
    mounted.exec (fun vol => vol.writeFile path []) (Fat32.spares_perform inv.sound (.writeFile path []))
  unfold emptied
  rcases written : exec (Fs.writeFile path []) dev with ⟨answer, dev'⟩
  rw [written] at fault outcome stays
  cases answer with
  | error e => exact ⟨stays, fault, .inl outcome.1⟩
  | ok _ => exact ⟨stays, fault, .inr ⟨⟨f, rfl⟩, cause, outcome⟩⟩

/-- **What `open` may do on the disk**, whatever the device does. -/
theorem openOn_effect : OpenEffect vol path flags dev (openOn path flags dev) := by
  have reads : Reads False (Fs.lookup path) dev.disk _ := Fat32.reads_mounted mounted (inv.reads_lookup path)
  obtain ⟨fault, disk, right⟩ := reads.outcome
  have found := inv.treeOf_lookupOn path
  unfold openOn
  rcases looked : exec (Fs.lookup path) dev with ⟨answer, dev'⟩
  rw [looked] at fault disk right
  simp only at fault disk right
  rw [← disk] at inv mounted found right
  have quiet : ∀ result, OpenEffect vol path flags dev (result, dev') :=
    fun result => ⟨mounted, fault, .inl (disk ▸ Fat32.AgreeOn.refl _ _)⟩
  have emptied : ∀ f, (creates flags ∨
      ∃ content, vol.treeOf dev'.disk (namesOf path) = some (.file content)) →
      OpenEffect vol path flags dev (emptied path f dev') := by
    intro f cause
    obtain ⟨stays, sameFault, effect⟩ := emptied_effect inv mounted clean f cause
    exact ⟨stays, sameFault.trans fault, disk ▸ effect⟩
  cases answer with
  | ok node =>
    cases node with
    | file existing =>
      rw [right _ rfl] at found
      simp only
      split
      · exact emptied _ (.inr ⟨existing, found⟩)
      · exact quiet _
    | dir items =>
      simp only
      split
      · exact quiet _
      · exact quiet _
  | error e =>
    cases e with
    | notFound =>
      simp only
      split
      · rename_i create
        exact emptied _ (.inl create)
      · exact quiet _
    | _ => exact quiet _

end Consistent

/-- Whether `open` alters the tree of the volume: it truncates a file that is not empty, or creates one. -/
def Alters (vol : Fat32) (path : Bytes) (flags : ℕ) (disk : Fat.Disk) : Prop :=
  (truncates flags = true ∧
    ∃ content, content ≠ [] ∧ vol.treeOf disk (namesOf path) = some (.file content)) ∨
  (creates flags = true ∧ vol.lookupOn disk path = .error .notFound ∧
    (∀ e, ¬ vol.NoSlot disk path e) ∧ marked path = false)

section Working

variable (inv : vol.Consistent dev.disk) (mounted : vol.Mounted dev.disk) (clean : (0 : UInt8) ∉ path)
  (working : dev.Faultless)
include inv mounted clean working

theorem emptied_working (f : OpenFile) (notDir : vol.treeOf dev.disk (namesOf path) ≠ some .dir) :
    (∃ g, (emptied path f dev).1 = .ok g) ∧ vol.treeOf (emptied path f dev).2.disk ≠ vol.treeOf dev.disk ↔
      (∀ e, ¬ vol.NoSlot dev.disk path e) ∧ marked path = false ∧
        vol.treeOf dev.disk (namesOf path) ≠ some (.file []) := by
  have runs : Runs True _ (Fs.writeFile path []) dev.disk _ _ := runs_writeEmpty inv mounted clean
  obtain ⟨_, _, outcome⟩ := runs dev rfl fun _ => working
  unfold emptied
  rcases written : exec (Fs.writeFile path []) dev with ⟨answer, dev'⟩
  rw [written] at outcome
  cases answer with
  | error e =>
    refine iff_of_false ?_ fun slot => slot.1 e (outcome.2 trivial)
    rintro ⟨⟨g, opened⟩, -⟩
    cases opened
  | ok _ =>
    obtain ⟨write, agree⟩ := outcome
    have used := Fat32.used_of_clean clean write.resolved
    simp only
    rw [(write.consistent_after inv).treeOf_frame agree, ne_eq,
      write.treeOf_eq_iff inv used (by decide) notDir, not_or, Bool.not_eq_true]
    exact and_congr_left' (iff_of_true ⟨f, rfl⟩ write.not_noSlot)

/-- **When `open` alters the tree.** -/
theorem openOn_alters : (∃ f, (openOn path flags dev).1 = .ok f) ∧
      vol.treeOf (openOn path flags dev).2.disk ≠ vol.treeOf dev.disk ↔ Alters vol path flags dev.disk := by
  have reads : Reads True (Fs.lookup path) dev.disk _ := Fat32.reads_mounted mounted (inv.reads_lookup path)
  obtain ⟨right, disk⟩ := reads.exec_eq working
  have works := (reads fun _ => True).faultless (fun _ => working) working
  have found := inv.treeOf_lookupOn path
  unfold openOn
  rcases looked : exec (Fs.lookup path) dev with ⟨answer, dev'⟩
  rw [looked] at right disk works
  simp only at right disk works
  unfold Alters
  rw [← disk] at inv mounted found right ⊢
  rw [← right] at found ⊢
  have quiet : ∀ result : Except ℤ OpenFile, ¬ ((∃ f, result = .ok f) ∧
      vol.treeOf dev'.disk ≠ vol.treeOf dev'.disk) := fun result altered => altered.2 rfl
  cases answer with
  | ok node =>
    cases node with
    | file existing =>
      have named : components path ≠ [] := by
        intro isRoot
        rw [namesOf, isRoot] at found
        cases found
      simp only [Fat32.nodeFound] at found
      simp only [found, some.injEq, TreeNode.file.injEq, exists_eq_right', reduceCtorEq, false_and,
        and_false, or_false]
      split
      · rename_i truncate
        rw [emptied_working inv mounted clean works _ (by rw [found]; simp), found]
        simp [truncate, inv.not_noSlot_of_treeOf named found, inv.not_marked_of_treeOf found]
      · rename_i keep
        exact iff_of_false (quiet _) fun altered => keep altered.1
    | dir items =>
      refine iff_of_false ?_ ?_
      · simp only
        split
        · exact quiet _
        · exact quiet _
      · simp [found, Fat32.nodeFound]
  | error e =>
    cases e with
    | notFound =>
      simp only [found, Fat32.nodeFound]
      split
      · rename_i create
        rw [emptied_working inv mounted clean works _ (by rw [found]; simp [Fat32.nodeFound]), found]
        simp [create, Fat32.nodeFound]
      · rename_i keep
        exact iff_of_false (quiet _) (by simp [keep])
    | _ => exact iff_of_false (quiet _) (by simp [found, Fat32.nodeFound])

end Working

end

/-! ### Failed calls -/

/-- No descriptor is free. -/
def tableFull (fds : List (Option Fd)) : Bool := fds.all Option.isSome && maxFds ≤ fds.length

theorem allocFd_eq_none_iff {fds : List (Option Fd)} {entry : Fd} :
    allocFd fds entry = none ↔ tableFull fds := by
  have used : fds.findIdx? Option.isNone = none ↔ fds.all Option.isSome := by
    rw [List.findIdx?_eq_none_iff, List.all_eq_true]
    simp only [isNone_eq_false_iff]
  unfold allocFd tableFull
  cases free : fds.findIdx? Option.isNone with
  | none => simp [used.mp free]
  | some i =>
    rw [Bool.eq_false_iff.mpr (mt used.mpr (by simp [free]))]
    simp

/-- The lowest free descriptor takes the file, or there is none and the file is dropped. -/
theorem allocCurrent_file (key : Key) (f : OpenFile) (r : Registry) :
    if tableFull (r.proc key).fds then allocCurrent key (.file f) r = some (-EMFILE, r.put key (r.proc key))
    else ∃ (fd : ℕ) (fds : List (Option Fd)), allocFd (r.proc key).fds (.file f) = some (fd, fds) ∧
      allocCurrent key (.file f) r = some ((fd : ℤ), r.put key { r.proc key with fds }) := by
  simp only [allocCurrent]
  split
  · rename_i full
    rw [allocFd_eq_none_iff.mpr full]
    rfl
  · rename_i room
    obtain ⟨⟨fd, fds⟩, alloc⟩ := ne_none_iff_exists'.mp (mt allocFd_eq_none_iff.mp room)
    rw [alloc]
    exact ⟨fd, fds, rfl, rfl⟩

/-- A file that is opened leaves the working directories alone. -/
theorem cwd_allocCurrent {key other : Key} {f : OpenFile} {r r' : Registry}
    (ran : allocCurrent key (.file f) r = some (v, r')) : (r'.proc other).cwd = (r.proc other).cwd := by
  have alloc := allocCurrent_file key f r
  split at alloc
  · cases alloc.symm.trans ran
    rw [proc_put_proc]
  · obtain ⟨fd, fds, _, alloc⟩ := alloc
    cases alloc.symm.trans ran
    by_cases same : other = key
    · rw [same, proc_put]
    · rw [proc_put_of_ne _ _ same]

/-- **What a call of `open` does**: the argument is refused, or the part on the disk fails, or it succeeds and
a descriptor is looked for. -/
theorem sysOpen_cases {key : Key} {path : Except ℤ (List UInt8)} {s s' : Storage}
    (ran : sysOpen key path flags s = some (v, s')) :
    (∃ e, (pathArg key path s.registry).1 = .error e ∧ v = -e ∧
      s' = { s with registry := (pathArg key path s.registry).2 }) ∨
    ∃ resolved, (pathArg key path s.registry).1 = .ok resolved ∧
      s'.device = (openOn resolved flags s.device).2 ∧
      ((∃ e, (openOn resolved flags s.device).1 = .error e ∧ v = -e ∧
          s'.registry = (pathArg key path s.registry).2) ∨ ∃ f, (openOn resolved flags s.device).1 = .ok f ∧
          allocCurrent key (.file f) (pathArg key path s.registry).2 = some (v, s'.registry)) := by
  unfold sysOpen at ran
  rcases argument : pathArg key path s.registry with ⟨answer, registry⟩
  rw [argument] at ran
  cases answer with
  | error e =>
    cases ran
    exact .inl ⟨e, rfl, rfl, rfl⟩
  | ok resolved =>
    refine .inr ⟨resolved, rfl, ?_⟩
    simp only at ran ⊢
    rcases opened : openOn resolved flags s.device with ⟨result, device⟩
    rw [opened] at ran
    cases result with
    | error e =>
      cases ran
      exact ⟨rfl, .inl ⟨e, rfl, rfl, rfl⟩⟩
    | ok f =>
      obtain ⟨⟨value, registry'⟩, alloc, same⟩ := map_eq_some_iff.mp ran
      cases same
      exact ⟨rfl, .inr ⟨f, rfl, alloc⟩⟩

/-- **A failed `open` has changed nothing**: not the tree of the volume, nor the descriptors of the caller. -/
def OpenAtomic (vol : Fat32) (key : Key) (path : Except ℤ (List UInt8)) (flags : ℕ) (s : Storage) : Prop :=
  ∃ v s', sysOpen key path flags s = some (v, s') ∧
    (v < 0 → vol.treeOf s'.device.disk = vol.treeOf s.device.disk ∧
      (s'.registry.proc key).fds = (s.registry.proc key).fds)

section Atomic

variable {key : Key} {path : Except ℤ (List UInt8)} {s : Storage}

/-- What decides: whether a table without room meets a call that altered the tree. -/
theorem openAtomic_iff (wasted : ∀ resolved, (pathArg key path s.registry).1 = .ok resolved →
      ∀ e, (openOn resolved flags s.device).1 = .error e →
        vol.treeOf (openOn resolved flags s.device).2.disk = vol.treeOf s.device.disk) :
    OpenAtomic vol key path flags s ↔ ¬ (tableFull (s.registry.proc key).fds ∧
        ∃ resolved, (pathArg key path s.registry).1 = .ok resolved ∧
          (∃ f, (openOn resolved flags s.device).1 = .ok f) ∧
          vol.treeOf (openOn resolved flags s.device).2.disk ≠ vol.treeOf s.device.disk) := by
  have procs : ∀ other, (pathArg key path s.registry).2.proc other = _ := pathArg_registry.2
  unfold OpenAtomic sysOpen
  rcases argument : pathArg key path s.registry with ⟨answer, registry⟩
  rw [argument] at wasted procs
  cases answer with
  | error e =>
    refine iff_of_true ⟨_, _, rfl, fun _ => ⟨rfl, congrArg _ (procs key)⟩⟩ ?_
    rintro ⟨_, resolved, accepted, _⟩
    cases accepted
  | ok resolved =>
    have unchanged := wasted resolved rfl
    simp only [Except.ok.injEq, exists_eq_left']
    rcases opened : openOn resolved flags s.device with ⟨result, device⟩
    rw [opened] at unchanged
    cases result with
    | error e =>
      refine iff_of_true ⟨_, _, rfl, fun _ => ⟨unchanged e rfl, congrArg _ (procs key)⟩⟩ ?_
      rintro ⟨_, ⟨f, ok⟩, _⟩
      cases ok
    | ok f =>
      have alloc := allocCurrent_file key f registry
      rw [procs key] at alloc
      split at alloc
      · rename_i full
        simp only [alloc, full, map_some, true_and]
        constructor
        · rintro ⟨_, _, same, kept⟩ ⟨_, altered⟩
          cases same
          exact altered (kept (by decide)).1
        · intro unaltered
          refine ⟨_, _, rfl, fun _ => ⟨?_, ?_⟩⟩
          · by_contra altered
            exact unaltered ⟨⟨f, rfl⟩, altered⟩
          · rw [proc_put]
      · rename_i room
        obtain ⟨fd, fds, -, alloc⟩ := alloc
        simp only [alloc, map_some]
        refine iff_of_true ⟨_, _, rfl, fun negative => ?_⟩ fun wasted => room wasted.1
        exact absurd negative (not_lt.mpr (Int.natCast_nonneg fd))

/-- **When `open` is atomic.** With a free descriptor it is, whatever the device does. On a working device
it is exactly when the table has room or the call does not alter the tree. -/
theorem open_atomic_iff (vol : Fat32) (key : Key) (path : Except ℤ (List UInt8)) (flags : ℕ) (s : Storage)
    (inv : vol.Consistent s.device.disk) (mounted : vol.Mounted s.device.disk)
    (clean : ∀ given, path = .ok given → (0 : UInt8) ∉ given) (cwd : (0 : UInt8) ∉ (s.registry.proc key).cwd) :
    (tableFull (s.registry.proc key).fds = false → OpenAtomic vol key path flags s) ∧ (s.device.Faultless →
      (OpenAtomic vol key path flags s ↔ ¬ (tableFull (s.registry.proc key).fds = true ∧
          ∃ resolved, (pathArg key path s.registry).1 = .ok resolved ∧
            Alters vol resolved flags s.device.disk))) := by
  have wasted : ∀ resolved, (pathArg key path s.registry).1 = .ok resolved →
      ∀ e, (openOn resolved flags s.device).1 = .error e →
        vol.treeOf (openOn resolved flags s.device).2.disk = vol.treeOf s.device.disk := by
    intro resolved accepted e failed
    rcases (openOn_effect inv mounted (clean_of_pathArg accepted clean cwd)).effect with
      agree | ⟨⟨f, opened⟩, _⟩
    · exact inv.treeOf_frame agree
    · cases failed.symm.trans opened
  refine ⟨fun room => (openAtomic_iff wasted).mpr fun full => ?_, fun working =>
    (openAtomic_iff wasted).trans ?_⟩
  · cases room.symm.trans full.1
  · exact not_congr (and_congr_right' (exists_congr fun resolved => and_congr_right fun accepted =>
      openOn_alters inv mounted (clean_of_pathArg accepted clean cwd) working))

/-- A process whose table has no free descriptor. -/
def fullRegistry : Registry :=
  Registry.empty.put 0 ⟨List.replicate maxFds (some .console), [slash], userHeapBase⟩

/-- Opening `/A` on the new volume with a free descriptor, and reading with none. -/
theorem open_atomic_iff_new : OpenAtomic Fat32.bootVolume 0 (.ok [slash, 0x41]) oCreat
        ⟨Registry.empty, Fat32.workingDevice Fat32.bootDisk⟩ ∧
      OpenAtomic Fat32.bootVolume 0 (.ok [slash, 0x41]) oRdonly
        ⟨fullRegistry, Fat32.workingDevice Fat32.bootDisk⟩ := by
  have clean : ∀ given, (Except.ok [slash, 0x41] : Except ℤ _) = .ok given → (0 : UInt8) ∉ given := by
    rintro _ ⟨⟩
    decide
  constructor
  · exact (open_atomic_iff _ _ _ _ _ Fat32.bootDisk_wellFormed.toConsistent Fat32.bootDisk_mounted clean
      (by decide +kernel)).1 (by decide +kernel)
  · refine ((open_atomic_iff _ _ _ _ _ Fat32.bootDisk_wellFormed.toConsistent Fat32.bootDisk_mounted clean
      (by decide +kernel)).2 fun _ _ => rfl).mpr ?_
    rintro ⟨_, resolved, _, ⟨truncate, _⟩ | ⟨create, _⟩⟩
    · exact absurd truncate (by decide)
    · exact absurd create (by decide)

/-- **A file that is created in vain**: without a free descriptor `open` fails, and the file is there. -/
theorem open_wastes_file :
    ∃ s', sysOpen 0 (.ok [slash, 0x41]) oCreat ⟨fullRegistry, Fat32.workingDevice Fat32.bootDisk⟩ =
        some (-EMFILE, s') ∧ Fat32.bootVolume.treeOf Fat32.bootDisk (namesOf [slash, 0x41]) = none ∧
      Fat32.bootVolume.treeOf s'.device.disk (namesOf [slash, 0x41]) = some (.file []) :=
  ⟨_, rfl, by decide +kernel, by decide +kernel⟩

end Atomic

end Ferros.Files
