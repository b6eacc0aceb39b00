/-
**Programs over a block device that may fail, and may stop, at any request.**

A `Device` is an array of blocks together with a fault schedule: request number `n`, if it is for
block `lba`, reports `fault n lba` if there is one. A failed request leaves the array unchanged. Every
write that takes effect is recorded: in `written`, which lists the images a run can be cut off at, and
in `targets`, which lists the blocks that were written.

A program is a value of `DiskM`: it may fail with an error of its own, and it changes the device
only through `readBlock` and `writeBlock`.

* `Runs working crash m disk post fail` — the program logic. Started on `disk`, whatever the fault
  schedule, every image the program writes satisfies `crash`, a normal return satisfies `post` and
  an error satisfies `fail`. Under the proposition `working` the schedule is empty, so a device
  error never has to be explained there.
* `Runs.bind`, `Runs.attempt`, `Runs.readBlock`, `Runs.writeBlock`, `Runs.mono` — its rules.
* `Reads working m disk outcome` — a program that writes nothing and whose outcome is a function of
  the image, device errors apart; with `Reads.seq`, `Reads.before` and `Reads.andThen`.
* `ReadsSteadily disk bad m outcome` — the same on a device that fails at certain blocks, each time.
* `Touches allowed m dev` — every block that `m` writes, run on `dev`, is an allowed one, and the others are
  left alone. What is allowed may be chosen after looking at the run up to a point (`Touches.bind`).
* `Sends allowed good m` — **a finite tree of requests** with such writes, whatever the device answers.
-/

import Mathlib.Data.Nat.Notation
import Mathlib.Logic.Function.Basic

namespace Ferros.Lib

open List Function

/-- A block device: its content, the fault that every request number meets at every block, the number of
requests made so far, and the images after the writes that took effect and their blocks, latest first. -/
structure Device (Block Fault : Type) where
  disk : ℕ → Block
  fault : ℕ → ℕ → Option Fault
  calls : ℕ
  written : List (ℕ → Block)
  targets : List ℕ

/-- No request fails. -/
def Device.Faultless {Block Fault : Type} (dev : Device Block Fault) : Prop :=
  ∀ n lba, dev.fault n lba = none

/-- A device that holds `disk` and has not been used yet. -/
def Device.start {Block Fault : Type} (disk : ℕ → Block) (fault : ℕ → ℕ → Option Fault) :
    Device Block Fault :=
  ⟨disk, fault, 0, [], []⟩

/-- Programs that use a device and may fail. -/
abbrev DiskM (Block Fault Err : Type) := ExceptT Err (StateM (Device Block Fault))

variable {Block Fault Err α β : Type} {working : Prop} {lba : ℕ} {allowed : ℕ → Prop}
  {crash crash' P : (ℕ → Block) → Prop} {f : α → DiskM Block Fault Err β} {disk image : ℕ → Block} {value : α}
  {e : Err} {inject : Fault → Err} {fail fail' : Err → (ℕ → Block) → Prop} {post : α → (ℕ → Block) → Prop}
  {bad : ℕ → Option Fault} {block : Block}

section Programs

variable (m : DiskM Block Fault Err α) (dev : Device Block Fault)

/-- The outcome of a program and the device it leaves. -/
def exec : Except Err α × Device Block Fault :=
  StateT.run (ExceptT.run m) dev

/-- Reads block `lba`; `inject` turns a fault of the device into an error of the program. -/
def readBlock (inject : Fault → Err) (lba : ℕ) : DiskM Block Fault Err Block :=
  ExceptT.mk fun dev =>
    match dev.fault dev.calls lba with
    | some f => (.error (inject f), { dev with calls := dev.calls + 1 })
    | none => (.ok (dev.disk lba), { dev with calls := dev.calls + 1 })

def writeBlock (inject : Fault → Err) (lba : ℕ) (block : Block) : DiskM Block Fault Err Unit :=
  ExceptT.mk fun dev =>
    match dev.fault dev.calls lba with
    | some f => (.error (inject f), { dev with calls := dev.calls + 1 })
    | none =>
      (.ok (), { dev with
        disk := update dev.disk lba block
        calls := dev.calls + 1
        written := update dev.disk lba block :: dev.written
        targets := lba :: dev.targets })

/-- Runs a program and hands its outcome, error or not, to what follows. -/
def attempt : DiskM Block Fault Err (Except Err α) :=
  ExceptT.mk fun dev => (.ok (exec m dev).1, (exec m dev).2)

theorem exec_pure (value : α) : exec (pure value : DiskM Block Fault Err α) dev = (.ok value, dev) := rfl

theorem exec_throw (e : Err) : exec (throw e : DiskM Block Fault Err α) dev = (.error e, dev) := rfl

theorem exec_attempt : exec (attempt m) dev = (.ok (exec m dev).1, (exec m dev).2) := rfl

theorem exec_readBlock (inject : Fault → Err) (lba : ℕ) :
    exec (readBlock inject lba : DiskM Block Fault Err Block) dev = match dev.fault dev.calls lba with
      | some f => (.error (inject f), { dev with calls := dev.calls + 1 })
      | none => (.ok (dev.disk lba), { dev with calls := dev.calls + 1 }) := rfl

theorem exec_writeBlock (inject : Fault → Err) (lba : ℕ) (block : Block) :
    exec (writeBlock inject lba block : DiskM Block Fault Err Unit) dev =
      match dev.fault dev.calls lba with
      | some f => (.error (inject f), { dev with calls := dev.calls + 1 })
      | none => (.ok (), { dev with
          disk := update dev.disk lba block
          calls := dev.calls + 1
          written := update dev.disk lba block :: dev.written
          targets := lba :: dev.targets }) := rfl

theorem exec_bind (f : α → DiskM Block Fault Err β) : exec (m >>= f) dev = match exec m dev with
      | (.ok value, dev') => exec (f value) dev' | (.error e, dev') => (.error e, dev') := by
  rcases run : exec m dev with ⟨outcome, dev'⟩
  have run' : StateT.run (ExceptT.run m) dev = (outcome, dev') := run
  unfold exec
  rw [ExceptT.run_bind, StateT.run_bind, run']
  cases outcome <;> rfl

end Programs

/-! ### The program logic -/

section

variable {m : DiskM Block Fault Err α}

/-- **What every run from `disk` does.** Every image written satisfies `crash`; a normal return
satisfies `post`, an error satisfies `fail`; and the fault schedule, which is empty if `working`,
is left as it is. -/
def Runs (working : Prop) (crash : (ℕ → Block) → Prop) (m : DiskM Block Fault Err α)
    (disk : ℕ → Block) (post : α → (ℕ → Block) → Prop) (fail : Err → (ℕ → Block) → Prop) : Prop :=
  ∀ dev : Device Block Fault, dev.disk = disk → (working → dev.Faultless) →
    (exec m dev).2.fault = dev.fault ∧
    (∃ new, (exec m dev).2.written = new ++ dev.written ∧ ∀ image ∈ new, crash image) ∧
    match (exec m dev).1 with
    | .ok value => post value (exec m dev).2.disk
    | .error e => fail e (exec m dev).2.disk

theorem Runs.pure (holds : post value disk) :
    Runs working crash (Pure.pure value : DiskM Block Fault Err α) disk post fail := by
  rintro dev rfl _
  rw [exec_pure]
  exact ⟨rfl, ⟨[], rfl, fun _ mem => absurd mem (not_mem_nil)⟩, holds⟩

theorem Runs.throw (holds : fail e disk) :
    Runs working crash (MonadExcept.throw e : DiskM Block Fault Err α) disk post fail := by
  rintro dev rfl _
  rw [exec_throw]
  exact ⟨rfl, ⟨[], rfl, fun _ mem => absurd mem (not_mem_nil)⟩, holds⟩

/-- **Consequence.** -/
theorem Runs.mono {post' : α → (ℕ → Block) → Prop} (runs : Runs working crash m disk post fail)
    (crashes : ∀ image, crash image → crash' image)
    (posts : ∀ value image, post value image → post' value image)
    (fails : ∀ e image, fail e image → fail' e image) : Runs working crash' m disk post' fail' := by
  intro dev onDisk quiet
  obtain ⟨sameFault, ⟨new, grown, safe⟩, outcome⟩ := runs dev onDisk quiet
  refine ⟨sameFault, ⟨new, grown, fun image mem => crashes image (safe image mem)⟩, ?_⟩
  revert outcome
  cases (exec m dev).1 with
  | ok value => exact posts value _
  | error e => exact fails e _

/-- **Sequencing.** What follows starts on the image the first part left. -/
theorem Runs.bind {mid : α → (ℕ → Block) → Prop} {post : β → (ℕ → Block) → Prop}
    (first : Runs working crash m disk mid fail)
    (next : ∀ value image, mid value image → Runs working crash (f value) image post fail) :
    Runs working crash (m >>= f) disk post fail := by
  intro dev onDisk quiet
  obtain ⟨sameFault, ⟨new, grown, safe⟩, outcome⟩ := first dev onDisk quiet
  rw [exec_bind]
  rcases hrun : exec m dev with ⟨result, dev'⟩
  rw [hrun] at sameFault grown outcome
  cases result with
  | error e => exact ⟨sameFault, ⟨new, grown, safe⟩, outcome⟩
  | ok value =>
    obtain ⟨sameFault', ⟨new', grown', safe'⟩, outcome'⟩ :=
      next value dev'.disk outcome dev' rfl fun hw n lba => by rw [sameFault]; exact quiet hw n lba
    refine ⟨sameFault'.trans sameFault, ⟨new' ++ new, ?_, ?_⟩, outcome'⟩
    · rw [grown', grown, append_assoc]
    · intro image mem
      rcases mem_append.mp mem with mem | mem
      · exact safe' image mem
      · exact safe image mem

/-- Sequencing after a program that leaves a known image. -/
theorem Runs.step {post : β → (ℕ → Block) → Prop}
    (first : Runs working crash m disk (fun _ image' => image' = image) fail)
    (next : ∀ value, Runs working crash (f value) image post fail) :
    Runs working crash (m >>= f) disk post fail :=
  first.bind fun value _ same => same ▸ next value

/-- An attempted program never fails; its outcome is passed on. -/
theorem Runs.attempt (runs : Runs working crash m disk post fail) :
    Runs working crash (Ferros.Lib.attempt m) disk (fun outcome image => match outcome with
        | .ok value => post value image | .error e => fail e image) fail' := by
  intro dev onDisk quiet
  obtain ⟨sameFault, grown, outcome⟩ := runs dev onDisk quiet
  rw [exec_attempt]
  exact ⟨sameFault, grown, outcome⟩

theorem Runs.readBlock {post : Block → (ℕ → Block) → Prop} (holds : post (disk lba) disk)
    (fails : ∀ f, ¬ working → fail (inject f) disk) :
    Runs working crash (Ferros.Lib.readBlock inject lba) disk post fail := by
  rintro dev rfl quiet
  rw [exec_readBlock]
  cases hit : dev.fault dev.calls lba with
  | some f =>
    refine ⟨rfl, ⟨[], rfl, fun _ mem => absurd mem (not_mem_nil)⟩, ?_⟩
    exact fails f fun hw => by simpa [hit] using quiet hw dev.calls lba
  | none => exact ⟨rfl, ⟨[], rfl, fun _ mem => absurd mem (not_mem_nil)⟩, holds⟩

/-- A write replaces the block, or fails on a device that is not working and changes nothing. -/
theorem Runs.writeBlock {post : Unit → (ℕ → Block) → Prop}
    (safe : crash (update disk lba block)) (holds : post () (update disk lba block))
    (fails : ∀ f, ¬ working → fail (inject f) disk) :
    Runs working crash (Ferros.Lib.writeBlock inject lba block) disk post fail := by
  rintro dev rfl quiet
  rw [exec_writeBlock]
  cases hit : dev.fault dev.calls lba with
  | some f =>
    refine ⟨rfl, ⟨[], rfl, fun _ mem => absurd mem (not_mem_nil)⟩, ?_⟩
    exact fails f fun hw => by simpa [hit] using quiet hw dev.calls lba
  | none =>
    refine ⟨rfl, ⟨[update dev.disk lba block], rfl, fun image mem => ?_⟩, holds⟩
    rw [mem_singleton.mp mem]
    exact safe

section Outcome

variable {dev : Device Block Fault} (runs : Runs working crash m dev.disk post fail)
  (quiet : working → dev.Faultless)
include runs quiet

/-- What a program that returned has established. -/
theorem Runs.of_ok (returned : (exec m dev).1 = .ok value) : post value (exec m dev).2.disk := by
  obtain ⟨_, _, outcome⟩ := runs dev rfl quiet
  rw [returned] at outcome
  exact outcome

/-- What a program that failed has left. -/
theorem Runs.of_error (failed : (exec m dev).1 = .error e) : fail e (exec m dev).2.disk := by
  obtain ⟨_, _, outcome⟩ := runs dev rfl quiet
  rw [failed] at outcome
  exact outcome

/-- What holds of the image however the program ends. -/
theorem Runs.leaves (returned : ∀ value image, post value image → P image)
    (failed : ∀ e image, fail e image → P image) : P (exec m dev).2.disk := by
  obtain ⟨_, _, outcome⟩ := runs dev rfl quiet
  revert outcome
  cases (exec m dev).1 with
  | ok value => exact returned value _
  | error e => exact failed e _

/-- A working device stays one. -/
theorem Runs.faultless (now : dev.Faultless) : (exec m dev).2.Faultless := by
  obtain ⟨same, _, _⟩ := runs dev rfl quiet
  unfold Device.Faultless
  rw [same]
  exact now

end Outcome

/-! ### Programs that only read -/

/-- **A program that writes nothing** and ends with `outcome`, or with a device error. -/
def Reads (working : Prop) (m : DiskM Block Fault Err α) (disk : ℕ → Block)
    (outcome : Except Err α) : Prop :=
  ∀ crash : (ℕ → Block) → Prop,
    Runs working crash m disk (fun value image => image = disk ∧ outcome = .ok value)
      (fun e image => image = disk ∧ (outcome = .error e ∨ ¬ working))

theorem Reads.pure : Reads working (Pure.pure value : DiskM Block Fault Err α) disk (.ok value) :=
  fun _ => Runs.pure ⟨rfl, rfl⟩

theorem Reads.throw : Reads working (MonadExcept.throw e : DiskM Block Fault Err α) disk (.error e) :=
  fun _ => Runs.throw ⟨rfl, .inl rfl⟩

theorem Reads.readBlock : Reads working (Ferros.Lib.readBlock inject lba) disk (.ok (disk lba)) :=
  fun _ => Runs.readBlock ⟨rfl, rfl⟩ fun _ broken => ⟨rfl, .inr broken⟩

/-- A reading program before any other one. -/
theorem Reads.andThen {outcome : Except Err α} {post : β → (ℕ → Block) → Prop}
    (reads : Reads working m disk outcome)
    (next : ∀ value, outcome = .ok value → Runs working crash (f value) disk post fail)
    (fails : ∀ e, outcome = .error e ∨ ¬ working → fail e disk) :
    Runs working crash (m >>= f) disk post fail := by
  have first : Runs working crash m disk
      (fun value image => image = disk ∧ outcome = .ok value) fail := by
    refine (reads crash).mono (fun _ safe => safe) (fun _ _ holds => holds) ?_
    rintro e _ ⟨rfl, cause⟩
    exact fails e cause
  refine first.bind ?_
  rintro value _ ⟨rfl, returned⟩
  exact next value returned

/-- A reading program that returns `value`, before any other one. -/
theorem Reads.before {post : β → (ℕ → Block) → Prop} (reads : Reads working m disk (.ok value))
    (next : Runs working crash (f value) disk post fail) (fails : ∀ e, ¬ working → fail e disk) :
    Runs working crash (m >>= f) disk post fail := by
  refine reads.andThen (fun _ returned => ?_) fun e cause => fails e (cause.resolve_left ?_)
  · cases returned
    exact next
  · exact fun failed => by cases failed

/-- A reading program that returns `value`, before another reading program. -/
theorem Reads.seq {outcome : Except Err β} (first : Reads working m disk (.ok value))
    (next : Reads working (f value) disk outcome) : Reads working (m >>= f) disk outcome :=
  fun crash => first.before (next crash) fun _ broken => ⟨rfl, .inr broken⟩

/-- A reading program that fails ends the program. -/
theorem Reads.stop (first : Reads working m disk (.error e)) : Reads working (m >>= f) disk (.error e) := by
  intro crash
  refine first.andThen (fun _ returned => by cases returned) fun e' cause => ⟨rfl, ?_⟩
  exact cause.imp_left fun same => by cases same; rfl

/-- On a working device the outcome is the one stated. -/
theorem Reads.exec_eq {dev : Device Block Fault} {outcome : Except Err α}
    (reads : Reads True m dev.disk outcome) (quiet : dev.Faultless) :
    (exec m dev).1 = outcome ∧ (exec m dev).2.disk = dev.disk := by
  obtain ⟨_, _, result⟩ := reads (fun _ => True) dev rfl fun _ => quiet
  revert result
  cases (exec m dev).1 with
  | ok value => exact fun result => ⟨result.2.symm, result.1⟩
  | error e => exact fun result => ⟨(result.2.resolve_right (not_not_intro trivial)).symm, result.1⟩

/-- Whatever the device does, a reading program leaves the content as it is, and what it returns is right. -/
theorem Reads.outcome {dev : Device Block Fault} {outcome : Except Err α}
    (reads : Reads False m dev.disk outcome) :
    (exec m dev).2.fault = dev.fault ∧ (exec m dev).2.disk = dev.disk ∧
      ∀ value, (exec m dev).1 = .ok value → outcome = .ok value := by
  obtain ⟨sameFault, _, result⟩ := reads (fun _ => True) dev rfl False.elim
  revert result
  cases (exec m dev).1 with
  | ok value => exact fun result => ⟨sameFault, result.1, fun _ same => by cases same; exact result.2⟩
  | error e => exact fun result => ⟨sameFault, result.1, fun _ same => by cases same⟩

/-! ### Devices with bad blocks -/

/-- **A device that gives the same answer to every request for a block**: a fault, or what `disk` holds. -/
structure Device.Steady (disk : ℕ → Block) (bad : ℕ → Option Fault) (dev : Device Block Fault) : Prop where
  disk : dev.disk = disk
  fault : ∀ n lba, dev.fault n lba = bad lba

def ReadsSteadily (disk : ℕ → Block) (bad : ℕ → Option Fault) (m : DiskM Block Fault Err α)
    (outcome : Except Err α) : Prop :=
  ∀ dev : Device Block Fault, dev.Steady disk bad →
    (exec m dev).1 = outcome ∧ (exec m dev).2.Steady disk bad

theorem ReadsSteadily.pure : ReadsSteadily disk bad (Pure.pure value : DiskM Block Fault Err α) (.ok value) :=
  fun _ steady => ⟨rfl, steady⟩

theorem ReadsSteadily.throw :
    ReadsSteadily disk bad (MonadExcept.throw e : DiskM Block Fault Err α) (.error e) :=
  fun _ steady => ⟨rfl, steady⟩

theorem ReadsSteadily.readBlock (good : bad lba = none) :
    ReadsSteadily disk bad (Ferros.Lib.readBlock inject lba) (.ok (disk lba)) := by
  rintro dev ⟨rfl, fault⟩
  rw [exec_readBlock, fault, good]
  exact ⟨rfl, rfl, fault⟩

theorem ReadsSteadily.readBad {f : Fault} (isBad : bad lba = some f) :
    ReadsSteadily disk bad (Ferros.Lib.readBlock inject lba) (.error (inject f)) := by
  rintro dev ⟨rfl, fault⟩
  rw [exec_readBlock, fault, isBad]
  exact ⟨rfl, rfl, fault⟩

theorem ReadsSteadily.seq {outcome : Except Err β} (first : ReadsSteadily disk bad m (.ok value))
    (next : ReadsSteadily disk bad (f value) outcome) : ReadsSteadily disk bad (m >>= f) outcome := by
  intro dev steady
  obtain ⟨returned, steady'⟩ := first dev steady
  rw [exec_bind]
  rcases hrun : exec m dev with ⟨result, dev'⟩
  rw [hrun] at returned steady'
  cases returned
  exact next dev' steady'

theorem ReadsSteadily.stop (first : ReadsSteadily disk bad m (.error e)) :
    ReadsSteadily disk bad (m >>= f) (.error e) := by
  intro dev steady
  obtain ⟨failed, steady'⟩ := first dev steady
  rw [exec_bind]
  rcases hrun : exec m dev with ⟨result, dev'⟩
  rw [hrun] at failed steady'
  cases failed
  exact ⟨rfl, steady'⟩

/-! ### Programs built of reads -/

/-- **A program built of reads alone**: it ends, or it reads a block and goes on. -/
inductive Fetches : DiskM Block Fault Err α → Prop
  | pure (value : α) : Fetches (Pure.pure value)
  | throw (e : Err) : Fetches (MonadExcept.throw e)
  | read (inject : Fault → Err) (lba : ℕ) {next : Block → DiskM Block Fault Err α}
      (rest : ∀ block, Fetches (next block)) : Fetches (Ferros.Lib.readBlock inject lba >>= next)

theorem Fetches.readBlock : Fetches (Ferros.Lib.readBlock inject lba : DiskM Block Fault Err Block) := by
  rw [← bind_pure (Ferros.Lib.readBlock inject lba)]
  exact .read inject lba fun block => .pure block

theorem Fetches.bind (first : Fetches m) (next : ∀ value, Fetches (f value)) : Fetches (m >>= f) := by
  induction first with
  | pure value =>
    rw [pure_bind]
    exact next value
  | throw e => exact .throw e
  | read inject lba rest ih =>
    rw [bind_assoc]
    exact .read inject lba ih

/-! ### Blocks that a program never writes -/

/-- **A program that leaves every block below `low` alone**, whatever the device does. -/
def Spares (low : ℕ) (m : DiskM Block Fault Err α) : Prop :=
  ∀ dev : Device Block Fault, ∀ lba < low, (exec m dev).2.disk lba = dev.disk lba

end

/-! ### The blocks that a program writes -/

def Touches (allowed : ℕ → Prop) (m : DiskM Block Fault Err α) (dev : Device Block Fault) : Prop :=
  ∃ log, (exec m dev).2.targets = log ++ dev.targets ∧ (∀ lba ∈ log, allowed lba) ∧
    ∀ lba ∉ log, (exec m dev).2.disk lba = dev.disk lba

section Touches

variable {m : DiskM Block Fault Err α} {dev : Device Block Fault}

/-- A run that writes nothing. -/
theorem Touches.of_same (same : (exec m dev).2.targets = dev.targets)
    (sameDisk : (exec m dev).2.disk = dev.disk) : Touches allowed m dev :=
  ⟨[], same, forall_mem_nil _, fun lba _ => congrFun sameDisk lba⟩

/-- **Blocks that are not allowed keep their content.** -/
theorem Touches.disk_eq (touches : Touches allowed m dev) (other : ¬ allowed lba) :
    (exec m dev).2.disk lba = dev.disk lba := by
  obtain ⟨log, -, inside, outside⟩ := touches
  exact outside lba fun mem => other (inside lba mem)

theorem Touches.bind (first : Touches allowed m dev)
    (next : ∀ value dev', exec m dev = (.ok value, dev') → Touches allowed (f value) dev') :
    Touches allowed (m >>= f) dev := by
  obtain ⟨log, grown, inside, outside⟩ := first
  unfold Touches
  rw [exec_bind]
  rcases ran : exec m dev with ⟨outcome, dev'⟩
  rw [ran] at grown outside
  cases outcome with
  | error e => exact ⟨log, grown, inside, outside⟩
  | ok value =>
    obtain ⟨log', grown', inside', outside'⟩ := next value dev' ran
    refine ⟨log' ++ log, ?_, fun lba mem => ?_, fun lba other => ?_⟩
    · rw [append_assoc, ← grown]
      exact grown'
    · exact (mem_append.mp mem).elim (inside' lba) (inside lba)
    · obtain ⟨notLater, notEarlier⟩ := not_or.mp (mt mem_append.mpr other)
      exact (outside' lba notLater).trans (outside lba notEarlier)

theorem Touches.attempt (touches : Touches allowed m dev) : Touches allowed (Ferros.Lib.attempt m) dev :=
  touches

end Touches

/-! ### The requests of a program -/

/-- **A tree of requests**: a program that is done, or makes one and goes on with the answer. It writes allowed
blocks only, and what it returns is `good`. -/
inductive Sends (allowed : ℕ → Prop) {α : Type} (good : α → Prop) : DiskM Block Fault Err α → Prop
  | pure {value : α} (isGood : good value) : Sends allowed good (Pure.pure value)
  | throw (e : Err) : Sends allowed good (MonadExcept.throw e)
  | read (inject : Fault → Err) (lba : ℕ) {next : Except Err Block → DiskM Block Fault Err α}
      (rest : ∀ answer, Sends allowed good (next answer)) :
      Sends allowed good (attempt (readBlock inject lba) >>= next)
  | write (inject : Fault → Err) {lba : ℕ} (isAllowed : allowed lba) (block : Block)
      {next : Except Err Unit → DiskM Block Fault Err α} (rest : ∀ answer, Sends allowed good (next answer)) :
      Sends allowed good (attempt (writeBlock inject lba block) >>= next)

section Sends

variable {m : DiskM Block Fault Err α} {good : α → Prop} {good' : β → Prop}

theorem Sends.bind (first : Sends allowed good m) (next : ∀ value, good value → Sends allowed good' (f value)) :
    Sends allowed good' (m >>= f) := by
  induction first with
  | pure isGood =>
    rw [pure_bind]
    exact next _ isGood
  | throw e => exact .throw e
  | read inject lba rest ih =>
    rw [bind_assoc]
    exact .read inject lba ih
  | write inject isAllowed block rest ih =>
    rw [bind_assoc]
    exact .write inject isAllowed block ih

theorem Sends.attempt (sends : Sends allowed good m) :
    Sends allowed (fun outcome => ∀ value, outcome = .ok value → good value) (attempt m) := by
  induction sends with
  | @pure value isGood => exact Sends.pure fun _ same => Except.ok.inj same ▸ isGood
  | throw e => exact Sends.pure fun _ wrong => by cases wrong
  | read inject lba rest ih => exact .read inject lba ih
  | write inject isAllowed block rest ih => exact .write inject isAllowed block ih

/-- What is returned may be forgotten. -/
theorem Sends.weaken (sends : Sends allowed good m) : Sends allowed (fun _ => True) m := by
  rw [← bind_pure m]
  exact sends.bind fun _ _ => .pure trivial

/-- One request is a tree if its answers are passed on. -/
theorem Sends.passOn (sends : ∀ pass : Except Err α → DiskM Block Fault Err α,
    (∀ answer, Sends allowed (fun _ => True) (pass answer)) →
      Sends allowed (fun _ => True) (Ferros.Lib.attempt m >>= pass)) : Sends allowed (fun _ => True) m := by
  have again : (Ferros.Lib.attempt m >>= MonadExcept.ofExcept) = m := by
    funext dev
    show exec _ dev = exec m dev
    rw [exec_bind, exec_attempt]
    rcases exec m dev with ⟨_ | _, _⟩ <;> rfl
  rw [← again]
  refine sends _ fun answer => ?_
  cases answer with
  | ok value => exact .pure trivial
  | error e => exact .throw e

theorem Sends.writeBlock (isAllowed : allowed lba) :
    Sends allowed (fun _ => True) (Ferros.Lib.writeBlock inject lba block : DiskM Block Fault Err Unit) :=
  .passOn fun _ rest => .write inject isAllowed block rest

/-- A program built of reads writes nothing. -/
theorem Fetches.sends (fetches : Fetches m) : Sends allowed (fun _ => True) m := by
  induction fetches with
  | pure value => exact .pure trivial
  | throw e => exact .throw e
  | read inject lba rest ih =>
    exact Sends.bind (.passOn fun _ rest => .read inject lba rest) fun block _ => ih block

theorem Sends.touches (sends : Sends allowed (fun _ => True) m) (dev : Device Block Fault) :
    Touches allowed m dev := by
  induction sends generalizing dev with
  | pure isGood => exact .of_same rfl rfl
  | throw e => exact .of_same rfl rfl
  | read inject lba rest ih =>
    refine Touches.bind ?_ fun answer dev' _ => ih answer dev'
    unfold Touches
    rw [exec_attempt, exec_readBlock]
    cases dev.fault dev.calls lba with
    | some f => exact ⟨[], rfl, forall_mem_nil _, fun _ _ => rfl⟩
    | none => exact ⟨[], rfl, forall_mem_nil _, fun _ _ => rfl⟩
  | @write inject lba isAllowed block next rest ih =>
    refine Touches.bind ?_ fun answer dev' _ => ih answer dev'
    unfold Touches
    rw [exec_attempt, exec_writeBlock]
    cases dev.fault dev.calls lba with
    | some f => exact ⟨[], rfl, forall_mem_nil _, fun _ _ => rfl⟩
    | none =>
      refine ⟨[lba], rfl, fun _ mem => mem_singleton.mp mem ▸ isAllowed, fun other outside => ?_⟩
      exact update_of_ne (fun same => outside (mem_singleton.mpr same)) _ _

end Sends

end Ferros.Lib
