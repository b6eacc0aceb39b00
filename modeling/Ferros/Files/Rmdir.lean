/-
**Only empty directories are removed, if no name prints like a dot slot.**

`rmdir` decides on the printed names whether a directory is empty: it takes every entry that prints as `.` or
`..` for one of the two slots that `mkdir` made. A component of a resolved path is neither, but the 8.3 name
made from it may print like one.

* `rmdir_only_empty` — **in every run of such calls `rmdir` removes only empty directories**;
  `rmdir_loses_file` — a run where it removes one with a file in it.
-/

import Ferros.Files.Open

namespace Ferros.Files

open Lib List Option
open Fat (Bytes Fat32 Sector BlkError FatError FatM Disk Name namesOf)

/-! ### The calls -/

/-- A path as `read_user_cstr` returns it. -/
abbrev CPath := { path : List UInt8 // (0 : UInt8) ∉ path }

/-- The calls that change the tree, each by the process of a key. -/
inductive TreeCall
  | openPath (key : Key) (path : CPath) (flags : ℕ)
  | mkdir (key : Key) (path : CPath)
  | unlink (key : Key) (path : CPath)
  | rmdir (key : Key) (path : CPath)

def performTree : TreeCall → Storage → Option Storage
  | .openPath key path flags, s => (sysOpen key (.ok path.1) flags s).map Prod.snd
  | .mkdir key path, s => some (sysMkdir key (.ok path.1) s).2
  | .unlink key path, s => some (sysUnlink key (.ok path.1) s).2
  | .rmdir key path, s => some (sysRmdir key (.ok path.1) s).2

/-- The name that a resolved path ends with prints neither as `.` nor as `..`. -/
def endsDistinct : Except ℤ Bytes → Bool
  | .ok resolved => (namesOf resolved).getLast?.all fun name => decide (Fat32.NotDots name)
  | .error _ => true

/-- A call that may create an entry gives it a name that prints neither as `.` nor as `..`. -/
def TreeCall.distinct : TreeCall → Storage → Bool
  | .openPath key path flags, s => !creates flags || endsDistinct (pathArg key (.ok path.1) s.registry).1
  | .mkdir key path, s => endsDistinct (pathArg key (.ok path.1) s.registry).1
  | .unlink _ _, _ => true
  | .rmdir _ _, _ => true

/-! ### What the calls keep -/

/-- **A volume in order**, mounted, with working directories that are paths. -/
structure Ready (vol : Fat32) (s : Storage) : Prop where
  wellFormed : vol.WellFormed s.device.disk
  mounted : vol.Mounted s.device.disk
  cwds : ∀ key, (0 : UInt8) ∉ (s.registry.proc key).cwd

section Steps

variable {vol : Fat32} {disk image : Disk} {path resolved : Bytes}

theorem notDots_of_endsDistinct {names : List Name} {name : Name} (nodup : endsDistinct (.ok path))
    (split : namesOf path = names ++ [name]) : Fat32.NotDots name := by
  simp only [endsDistinct, split, getLast?_concat, all_some, decide_eq_true_eq] at nodup
  exact nodup

/-- `open` keeps the volume in order, if what it creates prints neither as `.` nor as `..`. -/
theorem OpenEffect.wellFormed {dev : Device Sector BlkError} {flags : ℕ}
    {result : Except ℤ OpenFile × Device Sector BlkError} (effect : OpenEffect vol path flags dev result)
    (wf : vol.WellFormed dev.disk) (nodup : creates flags → endsDistinct (.ok path)) :
    vol.WellFormed result.2.disk := by
  rcases effect.effect with agree | ⟨_, cause, write, agree⟩
  · exact wf.frame agree
  · refine (write.wellFormed_after wf (by decide) ?_).frame agree
    rcases cause with create | ⟨content, found⟩
    · exact notDots_of_endsDistinct (nodup create) write.path_eq
    · rw [namesOf, write.path_eq] at found
      exact wf.notDots (by rw [found]; exact some_ne_none _)

theorem wellFormed_removal (wf : vol.WellFormed disk) {kind : Bool}
    (left : image = disk ∨ ∃ gone : vol.Removal disk path kind,
      vol.AgreeOn (vol.Owned gone.after) gone.after image) : vol.WellFormed image := by
  rcases left with rfl | ⟨gone, agree⟩
  · exact wf
  · exact (gone.wellFormed_after wf).frame agree

section Exec

variable {dev : Device Sector BlkError} (wf : vol.WellFormed dev.disk)
  (mounted : vol.Mounted dev.disk)
include wf mounted

theorem wellFormed_mkdir (clean : (0 : UInt8) ∉ path) (nodup : endsDistinct (.ok path)) :
    vol.WellFormed (exec (Fs.mkdir path) dev).2.disk := by
  have runs : Runs False _ (Fs.mkdir path) dev.disk _ _ := Fat32.runs_mounted mounted
    (Fat32.runs_mkdir wf.toConsistent clean) fun _ _ => ⟨Fat32.AgreeOn.refl _ _, False.elim⟩
  refine runs.leaves False.elim ?_ fun _ _ fails => wf.frame fails.1
  rintro _ _ ⟨make, rfl⟩
  exact make.wellFormed_after wf (notDots_of_endsDistinct nodup make.path_eq)

theorem wellFormed_unlink : vol.WellFormed (exec (Fs.unlink path) dev).2.disk := by
  have runs : Runs False _ (Fs.unlink path) dev.disk _ _ := Fat32.runs_mounted mounted
    (Fat32.runs_unlink wf.toConsistent) fun _ _ => .inl rfl
  refine runs.leaves False.elim ?_ fun _ _ fails => wellFormed_removal wf (fails.imp_right And.right)
  rintro _ _ ⟨gone, agree, _⟩
  exact wellFormed_removal wf (.inr ⟨gone, agree⟩)

theorem wellFormed_rmdir : vol.WellFormed (exec (Fs.rmdir path) dev).2.disk := by
  have runs : Runs False _ (Fs.rmdir path) dev.disk _ _ := Fat32.runs_mounted mounted
    (Fat32.runs_rmdir wf.toConsistent) fun _ _ => .inl rfl
  refine runs.leaves False.elim ?_ fun _ _ fails => wellFormed_removal wf (fails.imp_right And.right)
  rintro _ _ ⟨gone, _, agree, _⟩
  exact wellFormed_removal wf (.inr ⟨gone, agree⟩)

end Exec

section Ready

variable {s s' : Storage} (ready : Ready vol s) {key : Key}
include ready

theorem Ready.clean {path : CPath} (accepted : (pathArg key (.ok path.1) s.registry).1 = .ok resolved) :
    (0 : UInt8) ∉ resolved :=
  clean_of_pathArg accepted (fun _ same => by cases same; exact path.2) (ready.cwds key)

/-- A call that takes a path keeps the storage in order if what it does on the disk does. -/
theorem Ready.pathCall {call : Bytes → FatM Unit} {path : Except ℤ (List UInt8)}
    (keeps : ∀ resolved, (pathArg key path s.registry).1 = .ok resolved →
      vol.WellFormed (exec (call resolved) s.device).2.disk ∧
        vol.Mounted (exec (call resolved) s.device).2.disk) : Ready vol (pathCall call key path s).2 := by
  have procs : ∀ other, (pathArg key path s.registry).2.proc other = _ := pathArg_registry.2
  have cwds : ∀ other, (0 : UInt8) ∉ ((pathArg key path s.registry).2.proc other).cwd := by
    intro other
    rw [procs other]
    exact ready.cwds other
  unfold Files.pathCall
  rcases argument : pathArg key path s.registry with ⟨answer, registry⟩
  rw [argument] at keeps cwds
  cases answer with
  | error e => exact ⟨ready.wellFormed, ready.mounted, cwds⟩
  | ok resolved =>
    obtain ⟨wf, mounted⟩ := keeps resolved rfl
    rcases called : exec (call resolved) s.device with ⟨result, device⟩
    rw [called] at wf mounted
    simp only [called]
    cases result with
    | ok _ => exact ⟨wf, mounted, cwds⟩
    | error e => exact ⟨wf, mounted, cwds⟩

theorem Ready.sysOpen {path : CPath} {flags : ℕ} {v : ℤ} (nodup : (TreeCall.openPath key path flags).distinct s)
    (ran : sysOpen key (.ok path.1) flags s = some (v, s')) : Ready vol s' := by
  have procs : ∀ other, (pathArg key (.ok path.1) s.registry).2.proc other = _ := pathArg_registry.2
  rcases sysOpen_cases ran with ⟨e, _, _, rfl⟩ | ⟨resolved, accepted, device, registry⟩
  · exact ⟨ready.wellFormed, ready.mounted, fun other => (procs other).symm ▸ ready.cwds other⟩
  · have effect : OpenEffect vol resolved flags s.device _ :=
      openOn_effect ready.wellFormed.toConsistent ready.mounted (ready.clean accepted)
    have cwds : ∀ other, (s'.registry.proc other).cwd = (s.registry.proc other).cwd := by
      intro other
      rw [← procs other]
      rcases registry with ⟨_, _, _, same⟩ | ⟨f, _, alloc⟩
      · rw [same]
      · exact cwd_allocCurrent alloc
    refine ⟨?_, device ▸ effect.mounted, fun other => (cwds other).symm ▸ ready.cwds other⟩
    rw [device]
    refine effect.wellFormed ready.wellFormed fun create => ?_
    simpa [TreeCall.distinct, create, accepted] using nodup

/-- **What every call keeps**, if what it creates prints neither as `.` nor as `..`. -/
theorem Ready.perform {call : TreeCall} (ran : guarded TreeCall.distinct performTree call s = some s') :
    Ready vol s' := by
  have sound := ready.wellFormed.toConsistent.sound
  obtain ⟨nodup, ran⟩ := guarded_eq_some.mp ran
  cases call with
  | openPath key path flags =>
    obtain ⟨⟨v, left⟩, opened, rfl⟩ := map_eq_some_iff.mp ran
    exact ready.sysOpen nodup opened
  | mkdir key path =>
    cases ran
    refine ready.pathCall fun resolved accepted => ⟨?_, ready.mounted.exec (fun vol => vol.mkdir resolved)
      (Fat32.spares_perform sound (.mkdir resolved))⟩
    rw [TreeCall.distinct, accepted] at nodup
    exact wellFormed_mkdir ready.wellFormed ready.mounted (ready.clean accepted) nodup
  | unlink key path =>
    cases ran
    exact ready.pathCall fun resolved _ => ⟨wellFormed_unlink ready.wellFormed ready.mounted,
      ready.mounted.exec (fun vol => vol.unlink resolved) (Fat32.spares_perform sound (.unlink resolved))⟩
  | rmdir key path =>
    cases ran
    exact ready.pathCall fun resolved _ => ⟨wellFormed_rmdir ready.wellFormed ready.mounted,
      ready.mounted.exec (fun vol => vol.rmdir resolved) (Fat32.spares_perform sound (.rmdir resolved))⟩

end Ready

end Steps

/-! ### Removing directories -/

theorem Ready.sysRmdir {vol : Fat32} {s s' : Storage} (ready : Ready vol s) {key : Key} {path : CPath}
    (removed : sysRmdir key (.ok path.1) s = (0, s')) :
    ∃ resolved dir, (pathArg key (.ok path.1) s.registry).1 = .ok resolved ∧
      vol.DirAt s.device.disk (namesOf resolved) dir ∧
      ∀ p ∈ vol.live s.device.disk dir, Fat.dotSlot (Fat.slotAt s.device.disk p) := by
  unfold Files.sysRmdir Files.pathCall at removed
  rcases argument : pathArg key (.ok path.1) s.registry with ⟨answer, registry⟩
  rw [argument] at removed
  cases answer with
  | error e =>
    obtain rfl := pathArg_error (congrArg Prod.fst argument)
    have zero : -ENOENT = 0 := congrArg Prod.fst removed
    exact absurd zero (by decide)
  | ok resolved =>
    have runs : Runs False _ (Fs.rmdir resolved) s.device.disk _ _ := Fat32.runs_mounted ready.mounted
      (Fat32.runs_rmdir ready.wellFormed.toConsistent) fun _ _ => .inl rfl
    rcases called : exec (Fs.rmdir resolved) s.device with ⟨result, device⟩
    simp only [called] at removed
    cases result with
    | error e =>
      have positive := fatErrno_pos e
      have zero := congrArg Prod.fst removed
      simp only at zero
      omega
    | ok _ =>
      obtain ⟨gone, dots, _⟩ := runs.of_ok False.elim (by rw [called])
      have isDir := Fat32.DirAt.child (gone.isDir ready.wellFormed.toConsistent) gone.wasChild gone.kind_eq
      have empty := ready.wellFormed.children_of_listsDots isDir dots
      rw [(Fat.findOn_some gone.located).2, ← gone.path_eq] at isDir
      exact ⟨resolved, _, rfl, isDir, fun p live => Fat32.dotSlot_of_no_children empty live⟩

/-- The calls on a volume in order, with what they create printing neither as `.` nor as `..`. -/
def distinctCalls (vol : Fat32) : System Storage :=
  System.ofOps (Ready vol) (guarded TreeCall.distinct performTree)

/-- **Only empty directories are removed** in every run where no created name prints as `.` or `..`: the
directory that a successful `rmdir` removes has no live entry other than its dot slots. -/
theorem rmdir_only_empty (vol : Fat32) (s : Storage) (reached : (distinctCalls vol).Reached s) (key : Key)
    (path : CPath) (s' : Storage) (removed : sysRmdir key (.ok path.1) s = (0, s')) :
    ∃ resolved dir, (pathArg key (.ok path.1) s.registry).1 = .ok resolved ∧
      vol.DirAt s.device.disk (namesOf resolved) dir ∧
      ∀ p ∈ vol.live s.device.disk dir, Fat.dotSlot (Fat.slotAt s.device.disk p) = true := by
  have ready : Ready vol s := (distinctCalls vol).invariant (Ready vol) (fun _ start => start)
    (fun _ _ _ before ⟨_, ran⟩ => before.perform ran) reached
  exact ready.sysRmdir removed

/-- The new volume, with the directory `/D`. -/
def dirStorage : Storage :=
  (sysMkdir 0 (.ok [slash, 0x44]) ⟨Registry.empty, Fat32.workingDevice Fat32.bootDisk⟩).2

/-- The file ` ..` in it. -/
def dotsPath : CPath := ⟨[slash, 0x44, slash, 0x20, 0x2E, 0x2E], by decide⟩

def dotsStorage : Storage := (performTree (.openPath 0 dotsPath oCreat) dirStorage).get (by decide +kernel)

theorem ready_boot : Ready Fat32.bootVolume ⟨Registry.empty, Fat32.workingDevice Fat32.bootDisk⟩ where
  wellFormed := Fat32.bootDisk_wellFormed
  mounted := Fat32.bootDisk_mounted
  cwds key := by
    have initial : Registry.empty.proc key = ProcState.initial := rfl
    rw [initial]
    decide

/-- The directory `/D` of the new volume is removed. -/
theorem rmdir_only_empty_new :
    ∃ resolved dir, (pathArg 0 (.ok [slash, 0x44]) dirStorage.registry).1 = .ok resolved ∧
      Fat32.bootVolume.DirAt dirStorage.device.disk (namesOf resolved) dir ∧
      ∀ p ∈ Fat32.bootVolume.live dirStorage.device.disk dir,
        Fat.dotSlot (Fat.slotAt dirStorage.device.disk p) = true := by
  have made : (distinctCalls Fat32.bootVolume).Reached dirStorage :=
    (System.Reached.start ready_boot).step ⟨.mkdir 0 ⟨[slash, 0x44], by decide⟩, if_pos (by decide +kernel)⟩
  exact rmdir_only_empty _ _ made 0 ⟨[slash, 0x44], by decide⟩ _ (Prod.ext (by decide +kernel) rfl)

/-- **A directory that is removed with a file in it**: ` ..` prints as `..`. -/
theorem rmdir_loses_file : (System.ofOps (Ready Fat32.bootVolume) performTree).Reached dotsStorage ∧
      Fat32.bootVolume.treeOf dotsStorage.device.disk (namesOf dotsPath.1) = some (.file []) ∧
      (sysRmdir 0 (.ok [slash, 0x44]) dotsStorage).1 = 0 ∧
      Fat32.bootVolume.treeOf (sysRmdir 0 (.ok [slash, 0x44]) dotsStorage).2.device.disk
        (namesOf [slash, 0x44]) = none := by
  have made : (System.ofOps (Ready Fat32.bootVolume) performTree).Reached dirStorage :=
    (System.Reached.start ready_boot).step ⟨.mkdir 0 ⟨[slash, 0x44], by decide⟩, rfl⟩
  refine ⟨made.step ⟨.openPath 0 dotsPath oCreat, (some_get _).symm⟩, ?_, ?_, ?_⟩
  · decide +kernel
  · decide +kernel
  · decide +kernel

end Ferros.Files
