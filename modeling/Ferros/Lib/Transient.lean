/-
**One request that fails.**

A device is `StruckAt j` when request `j` from now on fails, whatever it asks for, and no other one does.

* `Clean m disk outcome image count` — as long as none of them fails, `m` makes `count` requests and ends with
  `outcome` on `image`.
* `Struck m disk j post` — if request `j` of `m` fails and no other one, then `m` fails, and what it leaves
  satisfies `post`. A program before the failure is followed by its clean run (`Struck.later`), one that
  catches the error goes on undisturbed (`Struck.recover`).
* `Traced m disk outcome image count left` — both at once: what is left is `left j` for each request `j`.
* `Prompt total m disk R` — wherever it is struck, if at all, `m` leaves an image with `R`; under the
  proposition `total` it fails only then.

`Traced` has a rule for each way in which programs are put together, so that a program is gone through once.
-/

import Ferros.Lib.Device

namespace Ferros.Lib

variable {Block Fault Err α β : Type} {count count' lba j j' : ℕ} {f : α → DiskM Block Fault Err β}
  {mid image : ℕ → Block} {outcome : Except Err α} {e : Err} {inject : Fault → Err}
  {post post' R : (ℕ → Block) → Prop} {value : α} {block : Block}

/-- None of the next `count` requests fails. -/
def Device.QuietFor (dev : Device Block Fault) (count : ℕ) : Prop :=
  ∀ i < count, ∀ lba, dev.fault (dev.calls + i) lba = none

/-- No request fails from now on. -/
def Device.Quiet (dev : Device Block Fault) : Prop := ∀ i lba, dev.fault (dev.calls + i) lba = none

/-- **Request `j` from now on fails**, and no other one. -/
structure Device.StruckAt (dev : Device Block Fault) (j : ℕ) : Prop where
  hit : ∀ lba, ∃ f, dev.fault (dev.calls + j) lba = some f
  quiet : ∀ i, i ≠ j → ∀ lba, dev.fault (dev.calls + i) lba = none

section

variable (m : DiskM Block Fault Err α) (disk : ℕ → Block)

/-- The undisturbed run of a program. -/
def Clean (outcome : Except Err α) (image : ℕ → Block)
    (count : ℕ) : Prop :=
  ∀ dev : Device Block Fault, dev.disk = disk → dev.QuietFor count →
    (exec m dev).1 = outcome ∧ (exec m dev).2.disk = image ∧
      (exec m dev).2.calls = dev.calls + count ∧ (exec m dev).2.fault = dev.fault

/-- The run of a program that is struck at request `j`. -/
def Struck (j : ℕ) (post : (ℕ → Block) → Prop) : Prop :=
  ∀ dev : Device Block Fault, dev.disk = disk → dev.StruckAt j →
    (∃ e, (exec m dev).1 = .error e) ∧ post (exec m dev).2.disk ∧ (exec m dev).2.Quiet

/-- A program that fails by itself. -/
def Settles (post : (ℕ → Block) → Prop) : Prop :=
  ∀ dev : Device Block Fault, dev.disk = disk → dev.Quiet →
    (∃ e, (exec m dev).1 = .error e) ∧ post (exec m dev).2.disk ∧ (exec m dev).2.Quiet

/-- The number of requests of an undisturbed run. -/
def requests : ℕ :=
  (exec m (Device.start disk fun _ _ => none)).2.calls

end

/-! ### Undisturbed runs -/

section

variable {m : DiskM Block Fault Err α} {disk : ℕ → Block}

theorem Clean.pure : Clean (Pure.pure value : DiskM Block Fault Err α) disk (.ok value) disk 0 :=
  fun _ onDisk _ => ⟨rfl, onDisk, rfl, rfl⟩

theorem Clean.throw : Clean (MonadExcept.throw e : DiskM Block Fault Err α) disk (.error e) disk 0 :=
  fun _ onDisk _ => ⟨rfl, onDisk, rfl, rfl⟩

section

variable (clean : Clean m disk outcome image count)
include clean

omit clean in
/-- Sequencing: the requests add up. -/
theorem Clean.bind {outcome : Except Err β} (first : Clean m disk (.ok value) mid count)
    (next : Clean (f value) mid outcome image count') :
    Clean (m >>= f) disk outcome image (count + count') := by
  intro dev onDisk quiet
  obtain ⟨returned, onMid, calls, fault⟩ :=
    first dev onDisk fun i below => quiet i (Nat.lt_add_right count' below)
  rw [exec_bind]
  rcases ran : exec m dev with ⟨result, dev'⟩
  rw [ran] at returned onMid calls fault
  cases returned
  obtain ⟨returned', onImage, calls', fault'⟩ := next dev' onMid fun i below lba => by
    rw [fault, calls, Nat.add_assoc]
    exact quiet (count + i) (Nat.add_lt_add_left below count) lba
  refine ⟨returned', onImage, ?_, fault'.trans fault⟩
  rw [calls', calls, Nat.add_assoc]

omit clean in
theorem Clean.stop (first : Clean m disk (.error e) image count) :
    Clean (m >>= f) disk (.error e) image count := by
  intro dev onDisk quiet
  obtain ⟨failed, rest⟩ := first dev onDisk quiet
  rw [exec_bind]
  rcases ran : exec m dev with ⟨result, dev'⟩
  rw [ran] at failed rest
  cases failed
  exact ⟨rfl, rest⟩

theorem Clean.attempt : Clean (Ferros.Lib.attempt m) disk (.ok outcome) image count := by
  intro dev onDisk quiet
  obtain ⟨ended, rest⟩ := clean dev onDisk quiet
  rw [exec_attempt]
  exact ⟨congrArg Except.ok ended, rest⟩

omit clean in
theorem quietFor_start (disk : ℕ → Block) (count : ℕ) :
    (Device.start disk fun _ _ => none : Device Block Fault).QuietFor count :=
  fun _ _ _ => rfl

/-- **An undisturbed run has one result.** -/
theorem Clean.requests_eq : requests m disk = count := by
  obtain ⟨-, -, calls, -⟩ := clean (Device.start disk fun _ _ => none) rfl (quietFor_start disk count)
  exact calls.trans (Nat.zero_add count)

theorem Clean.start_eq : (exec m (Device.start disk fun _ _ => none)).1 = outcome :=
  (clean (Device.start disk fun _ _ => none) rfl (quietFor_start disk count)).1

theorem Clean.start_disk : (exec m (Device.start disk fun _ _ => none)).2.disk = image :=
  (clean (Device.start disk fun _ _ => none) rfl (quietFor_start disk count)).2.1

end

theorem Clean.settles (clean : Clean m disk (.error e) image count)
    (holds : post image) : Settles m disk post := by
  intro dev onDisk quiet
  obtain ⟨failed, onImage, calls, fault⟩ := clean dev onDisk fun i _ => quiet i
  refine ⟨⟨e, failed⟩, onImage ▸ holds, fun i lba => ?_⟩
  rw [calls, fault, Nat.add_assoc]
  exact quiet (count + i) lba

end

/-! ### Runs that are struck -/

section

variable {m : DiskM Block Fault Err α} {disk : ℕ → Block} {total : ℕ}

/-- After the failure nothing fails. -/
theorem Device.StruckAt.quiet_after {dev dev' : Device Block Fault} (struck : dev.StruckAt 0)
    (calls : dev'.calls = dev.calls + 1) (fault : dev'.fault = dev.fault) : dev'.Quiet := by
  intro i lba
  rw [calls, fault, Nat.add_assoc]
  exact struck.quiet (1 + i) (by omega) lba

theorem Struck.mono (struck : Struck m disk j post) (weaker : ∀ image, post image → post' image) :
    Struck m disk j post' := by
  intro dev onDisk hit
  obtain ⟨failed, holds, quiet⟩ := struck dev onDisk hit
  exact ⟨failed, weaker _ holds, quiet⟩

theorem Struck.first (struck : Struck m disk j post) : Struck (m >>= f) disk j post := by
  intro dev onDisk hit
  obtain ⟨⟨e, failed⟩, rest⟩ := struck dev onDisk hit
  rw [exec_bind]
  rcases ran : exec m dev with ⟨result, dev'⟩
  rw [ran] at failed rest
  cases failed
  exact ⟨⟨e, rfl⟩, rest⟩

/-- **The failure comes later**, after the clean run of the first program. -/
theorem Struck.later (first : Clean m disk (.ok value) mid count) (next : Struck (f value) mid j post) :
    Struck (m >>= f) disk (count + j) post := by
  intro dev onDisk hit
  obtain ⟨returned, onMid, calls, fault⟩ := first dev onDisk fun i below => hit.quiet i (by omega)
  rw [exec_bind]
  rcases ran : exec m dev with ⟨result, dev'⟩
  rw [ran] at returned onMid calls fault
  cases returned
  refine next dev' onMid ⟨fun lba => ?_, fun i other lba => ?_⟩
  · rw [fault, calls, Nat.add_assoc]
    exact hit.hit lba
  · rw [fault, calls, Nat.add_assoc]
    exact hit.quiet (count + i) (by omega) lba

/-- The failure comes in either of two programs. -/
theorem Struck.either (post : ℕ → (ℕ → Block) → Prop) (first : Clean m disk (.ok value) mid count)
    (early : ∀ i < count, Struck m disk i (post i))
    (late : ∀ i < total, Struck (f value) mid i (post (count + i))) (below : j < count + total) :
    Struck (m >>= f) disk j (post j) := by
  by_cases inFirst : j < count
  · exact (early j inFirst).first
  · obtain ⟨i, rfl⟩ := Nat.exists_eq_add_of_le (Nat.le_of_not_lt inFirst)
    exact .later first (late i (Nat.lt_of_add_lt_add_left below))

/-- **The error is caught**, and the handler is not disturbed. -/
theorem Struck.recover {g : Except Err α → DiskM Block Fault Err β} (struck : Struck m disk j post)
    (handled : ∀ e image, post image → Settles (g (.error e)) image post') :
    Struck (Ferros.Lib.attempt m >>= g) disk j post' := by
  intro dev onDisk hit
  obtain ⟨⟨e, failed⟩, holds, quiet⟩ := struck dev onDisk hit
  rw [exec_bind, exec_attempt, failed]
  exact handled e _ holds _ rfl quiet

end

/-! ### Both at once -/

section

variable {m : DiskM Block Fault Err α} {disk : ℕ → Block} {left left' : ℕ → (ℕ → Block) → Prop}

/-- **A program and each of its requests**: undisturbed it makes `count` of them, and if request `j` fails it
leaves an image with `left j`. -/
structure Traced (m : DiskM Block Fault Err α) (disk : ℕ → Block) (outcome : Except Err α) (image : ℕ → Block)
    (count : ℕ) (left : ℕ → (ℕ → Block) → Prop) : Prop where
  clean : Clean m disk outcome image count
  struck : ∀ j < count, Struck m disk j (left j)

theorem Traced.pure : Traced (Pure.pure value : DiskM Block Fault Err α) disk (.ok value) disk 0 left :=
  ⟨.pure, nofun⟩

theorem Traced.throw : Traced (MonadExcept.throw e : DiskM Block Fault Err α) disk (.error e) disk 0 left :=
  ⟨.throw, nofun⟩

theorem Traced.readBlock (holds : left 0 disk) :
    Traced (Ferros.Lib.readBlock inject lba) disk (.ok (disk lba)) disk 1 left := by
  refine ⟨fun dev onDisk quiet => ?_, fun j below dev onDisk struck => ?_⟩
  · have good : dev.fault dev.calls lba = none := quiet 0 Nat.zero_lt_one lba
    rw [exec_readBlock, good, ← onDisk]
    exact ⟨rfl, rfl, rfl, rfl⟩
  · obtain rfl : j = 0 := Nat.lt_one_iff.mp below
    obtain ⟨fault, hit⟩ := struck.hit lba
    have here : dev.fault dev.calls lba = some fault := hit
    rw [exec_readBlock, here]
    exact ⟨⟨_, rfl⟩, onDisk ▸ holds, struck.quiet_after rfl rfl⟩

theorem Traced.writeBlock (holds : left 0 disk) :
    Traced (Ferros.Lib.writeBlock inject lba block) disk (.ok ()) (Function.update disk lba block) 1 left := by
  refine ⟨fun dev onDisk quiet => ?_, fun j below dev onDisk struck => ?_⟩
  · have good : dev.fault dev.calls lba = none := quiet 0 Nat.zero_lt_one lba
    rw [exec_writeBlock, good, ← onDisk]
    exact ⟨rfl, rfl, rfl, rfl⟩
  · obtain rfl : j = 0 := Nat.lt_one_iff.mp below
    obtain ⟨fault, hit⟩ := struck.hit lba
    have here : dev.fault dev.calls lba = some fault := hit
    rw [exec_writeBlock, here]
    exact ⟨⟨_, rfl⟩, onDisk ▸ holds, struck.quiet_after rfl rfl⟩

theorem Traced.counts (traced : Traced m disk outcome image count left) (same : count = count') :
    Traced m disk outcome image count' left :=
  same ▸ traced

theorem Traced.mono (traced : Traced m disk outcome image count left)
    (weaker : ∀ j < count, ∀ image, left j image → left' j image) : Traced m disk outcome image count left' :=
  ⟨traced.clean, fun j below => (traced.struck j below).mono (weaker j below)⟩

theorem Traced.bind {outcome : Except Err β} (first : Traced m disk (.ok value) mid count left)
    (next : Traced (f value) mid outcome image count' fun i => left (count + i)) :
    Traced (m >>= f) disk outcome image (count + count') left :=
  ⟨first.clean.bind next.clean, fun _ below => Struck.either left first.clean first.struck next.struck below⟩

theorem Traced.stop (first : Traced m disk (.error e) image count left) :
    Traced (m >>= f) disk (.error e) image count left :=
  ⟨first.clean.stop, fun j below => (first.struck j below).first⟩

/-- **A program whose error is caught.** -/
theorem Traced.recover {g : Except Err α → DiskM Block Fault Err β} {ended : Except Err β}
    (first : Traced m disk outcome mid count left')
    (handled : ∀ j < count, ∀ e image, left' j image → Settles (g (.error e)) image (left j))
    (next : Traced (g outcome) mid ended image count' fun i => left (count + i)) :
    Traced (Ferros.Lib.attempt m >>= g) disk ended image (count + count') left := by
  refine ⟨first.clean.attempt.bind next.clean, fun j below => ?_⟩
  by_cases inFirst : j < count
  · exact Struck.recover (first.struck j inFirst) (handled j inFirst)
  · obtain ⟨i, rfl⟩ := Nat.exists_eq_add_of_le (Nat.le_of_not_lt inFirst)
    exact .later first.clean.attempt (next.struck i (Nat.lt_of_add_lt_add_left below))

end

/-! ### Programs that are safe wherever they are struck -/

/-- **Wherever it is struck, if at all, the program leaves an image with `R`**, and if `total` it fails only
then. -/
def Prompt (total : Prop) (m : DiskM Block Fault Err α) (disk : ℕ → Block) (R : (ℕ → Block) → Prop) : Prop :=
  ∃ outcome image count, Traced m disk outcome image count (fun _ => R) ∧ R image ∧
    (total → ∃ value, outcome = .ok value)

section Prompt

variable {total : Prop} {m : DiskM Block Fault Err α} {disk : ℕ → Block}

theorem Prompt.pure (holds : R disk) :
    Prompt total (Pure.pure value : DiskM Block Fault Err α) disk R :=
  ⟨_, _, _, .pure, holds, fun _ => ⟨value, rfl⟩⟩

theorem Prompt.throw (holds : R disk) :
    Prompt False (MonadExcept.throw e : DiskM Block Fault Err α) disk R :=
  ⟨_, _, _, .throw, holds, False.elim⟩

theorem Prompt.readBlock (holds : R disk) : Prompt total (Ferros.Lib.readBlock inject lba) disk R :=
  ⟨_, _, _, .readBlock holds, holds, fun _ => ⟨_, rfl⟩⟩

theorem Prompt.writeBlock (holds : R disk) (after : R (Function.update disk lba block)) :
    Prompt total (Ferros.Lib.writeBlock inject lba block) disk R :=
  ⟨_, _, _, .writeBlock holds, after, fun _ => ⟨_, rfl⟩⟩

theorem Prompt.bind (first : Prompt total m disk R)
    (next : ∀ value image, R image → Prompt total (f value) image R) : Prompt total (m >>= f) disk R := by
  obtain ⟨outcome, mid, count, traced, onMid, returns⟩ := first
  cases outcome with
  | error e =>
    refine ⟨_, _, _, traced.stop, onMid, fun isTotal => ?_⟩
    obtain ⟨value, wrong⟩ := returns isTotal
    cases wrong
  | ok value =>
    obtain ⟨outcome, image, count', traced', onImage, returns'⟩ := next value mid onMid
    exact ⟨_, _, _, traced.bind traced', onImage, returns'⟩

/-- A program built of reads leaves the image as it is. -/
theorem Fetches.prompt (fetches : Fetches m) (holds : R disk) : Prompt False m disk R := by
  have same : Prompt False m disk (· = disk) := by
    induction fetches with
    | pure value => exact .pure rfl
    | throw e => exact .throw rfl
    | read inject lba rest ih =>
      refine Prompt.bind (.readBlock rfl) ?_
      rintro value _ rfl
      exact ih value
  obtain ⟨outcome, _, count, traced, rfl, returns⟩ := same
  refine ⟨outcome, _, count, traced.mono ?_, holds, returns⟩
  rintro - - _ rfl
  exact holds

end Prompt

end Ferros.Lib
