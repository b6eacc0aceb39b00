/-
**Transition systems.**

A `System` is a set of starting states and a step relation; `Reached` is what its runs reach.

* `System.invariant` — a property that holds at the start and that every step from a reached state
  keeps holds of every reached state.
* `System.onward` — the runs that go on from a state; `System.restrict` — the runs whose steps all meet a
  condition.
* `System.ofOps`, `replay` — a system given by operations that compute the next state, and the
  replay of a list of them; `checked` — the operations whose steps meet a condition; `guarded` — the
  operations where a condition allows them.
* `answers`, `Along` — operations that also answer, and what holds on the way; `answers_simulates` — the
  simulation rule.
-/

import Mathlib.Data.Nat.Notation

namespace Ferros.Lib

open List Option

structure System (σ : Type) where
  start : σ → Prop
  step : σ → σ → Prop

variable {σ ι τ ω : Type} {s t : σ} {perform : ι → σ → Option σ}

/-- The states that runs of the system reach. -/
inductive System.Reached (sys : System σ) : σ → Prop
  | start {s : σ} (first : sys.start s) : System.Reached sys s
  | step {s t : σ} (before : System.Reached sys s) (next : sys.step s t) : System.Reached sys t

/-- **The invariant rule.** -/
theorem System.invariant (sys : System σ) (inv : σ → Prop) (first : ∀ s, sys.start s → inv s)
    (next : ∀ s t, sys.Reached s → inv s → sys.step s t → inv t) (reached : sys.Reached s) : inv s := by
  induction reached with
  | start isFirst => exact first _ isFirst
  | step before taken ih => exact next _ _ before ih taken

/-- The runs that start in `s`. -/
def System.onward (sys : System σ) (s : σ) : System σ :=
  ⟨(· = s), sys.step⟩

/-- The runs whose steps all meet `good`. -/
def System.restrict (sys : System σ) (good : σ → σ → Prop) : System σ :=
  ⟨sys.start, fun s t => sys.step s t ∧ good s t⟩

/-- The system of operations that compute the next state, or have none. -/
def System.ofOps (start : σ → Prop) (perform : ι → σ → Option σ) : System σ :=
  ⟨start, fun s t => ∃ op, perform op s = some t⟩

/-- Performs operations in order. -/
def replay (perform : ι → σ → Option σ) : List ι → σ → Option σ
  | [], s => some s
  | op :: rest, s => (perform op s).bind (replay perform rest)

theorem System.Reached.replay {start : σ → Prop} {ops : List ι}
    (reached : (System.ofOps start perform).Reached s) (replayed : Lib.replay perform ops s = some t) :
    (System.ofOps start perform).Reached t := by
  induction ops generalizing s with
  | nil =>
    cases replayed
    exact reached
  | cons op rest ih =>
    obtain ⟨between, first, later⟩ := bind_eq_some_iff.mp replayed
    exact ih (reached.step ⟨op, first⟩) later

/-- Operations that are performed only where `good` allows them. -/
def guarded (good : ι → σ → Bool) (perform : ι → σ → Option σ) (op : ι) (s : σ) : Option σ :=
  if good op s then perform op s else none

theorem guarded_eq_some {good : ι → σ → Bool} {op : ι} :
    guarded good perform op s = some t ↔ good op s ∧ perform op s = some t := by
  unfold guarded
  cases good op s with
  | false => exact iff_of_false (fun wrong => by cases wrong) fun both => Bool.noConfusion both.1
  | true => exact (and_iff_right rfl).symm

theorem System.Reached.unguard {start : σ → Prop} {good : ι → σ → Bool}
    (reached : (System.ofOps start (guarded good perform)).Reached s) : (System.ofOps start perform).Reached s := by
  induction reached with
  | start isFirst => exact .start isFirst
  | step _ taken ih =>
    obtain ⟨op, ran⟩ := taken
    exact ih.step ⟨op, (guarded_eq_some.mp ran).2⟩

/-- Operations that have a result only if the step meets `good`. -/
def checked (good : σ → σ → Prop) [DecidableRel good] (perform : ι → σ → Option σ) (op : ι) (s : σ) :
    Option σ :=
  (perform op s).filter fun t => decide (good s t)

theorem System.restrict_ofOps (start : σ → Prop) (perform : ι → σ → Option σ) (good : σ → σ → Prop)
    [DecidableRel good] :
    (System.ofOps start perform).restrict good = System.ofOps start (checked good perform) := by
  refine congrArg (System.mk start) (funext fun s => funext fun t => propext ?_)
  constructor
  · rintro ⟨⟨op, ran⟩, meets⟩
    exact ⟨op, filter_eq_some_iff.mpr ⟨ran, decide_eq_true meets⟩⟩
  · rintro ⟨op, ran⟩
    obtain ⟨ran, meets⟩ := filter_eq_some_iff.mp ran
    exact ⟨⟨op, ran⟩, of_decide_eq_true meets⟩

/-! ### Runs with answers -/

/-- The answers of operations performed in order, and the state they leave. -/
def answers (perform : ι → σ → ω × σ) : List ι → σ → List ω × σ
  | [], s => ([], s)
  | op :: rest, s =>
    let (answer, s) := perform op s
    let (later, s) := answers perform rest s
    (answer :: later, s)

/-- Every state on the way satisfies `good`. -/
def Along (good : σ → Prop) (perform : ι → σ → ω × σ) : List ι → σ → Prop
  | [], _ => True
  | op :: rest, s => good (perform op s).2 ∧ Along good perform rest (perform op s).2

/-- **The simulation rule.** If related states give the same answer and stay related wherever the abstract
state is good, then so do whole runs. -/
theorem answers_simulates {concrete : ι → σ → ω × σ} {abstract : ι → τ → ω × τ} {good : τ → Prop}
    (related : σ → τ → Prop) (step : ∀ op s t, related s t → good (abstract op t).2 →
      (concrete op s).1 = (abstract op t).1 ∧ related (concrete op s).2 (abstract op t).2)
    (ops : List ι) {t : τ} (start : related s t) (along : Along good abstract ops t) :
    (answers concrete ops s).1 = (answers abstract ops t).1 ∧
      related (answers concrete ops s).2 (answers abstract ops t).2 := by
  induction ops generalizing s t with
  | nil => exact ⟨rfl, start⟩
  | cons op rest ih =>
    obtain ⟨same, next⟩ := step op s t start along.1
    obtain ⟨later, finish⟩ := ih next along.2
    exact ⟨cons_eq_cons.mpr ⟨same, later⟩, finish⟩

end Ferros.Lib
