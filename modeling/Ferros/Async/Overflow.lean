/-
**The queue of the executor.**

Nothing keeps a task from being in the queue several times. The task of the keyboard can be woken once for every
time it registers its waker, and it registers it again and again in one poll if each time a scancode comes just
before the second look at the queue; then the hundred slots do not suffice for a single task.

* `ready_queue_overflows` — a single task; `ready_queue_bounded` — orderly runs.

In orderly runs the queue has distinct tasks of the table (`Bounded`), of which there are at most a hundred. The
overflow is reached by induction on the number of scancodes caught in one poll (`caught_succ`).
-/

import Ferros.Async.Executor
import Mathlib.Data.List.Nodup
import Mathlib.Data.List.Perm.Subperm

namespace Ferros.Async

open Lib List

variable {keyboard id : TaskId} {m m' : Machine} {n : ℕ}

/-- There are at most as many tasks as slots. -/
def few (op : Op) (m : Machine) : Bool :=
  match op with
  | .spawn _ => m.tasks.length < taskSlots
  | _ => true

def Machine.resting (m : Machine) (id : TaskId) : Bool := id ∈ m.tasks ∧ id ∉ m.taskQueue

/-- No task is woken that is in the queue or has finished, and none finishes that is in the queue. -/
def orderly (op : Op) (m : Machine) : Bool :=
  match op, m.place with
  | .wake id, _ => m.resting id
  | .addScancode _, _ => queueSize ≤ m.scancodes.length || m.waker.all m.resting
  | .polled true, .polling id => id ∉ m.taskQueue
  | op, _ => few op m

/-! ### Orderly runs -/

/-- The tasks in the queue are in the table, each once. -/
structure Bounded (m : Machine) : Prop where
  tasks : m.tasks.Nodup
  count : m.tasks.length ≤ taskSlots
  queue : m.taskQueue.Nodup
  live : m.taskQueue ⊆ m.tasks
  calm : m.place ≠ .panicked

/-- **The only push**: there is a slot for a task that is in the table and not in the queue. -/
theorem Bounded.wakeTask [Crates] (bounded : Bounded m) (resting : m.resting id) : Bounded (m.wakeTask id) := by
  obtain ⟨present, away⟩ := of_decide_eq_true resting
  have nodup : (m.taskQueue ++ [id]).Nodup := by
    refine nodup_append.mpr ⟨bounded.queue, nodup_singleton id, fun other mem last final => ?_⟩
    rw [mem_singleton.mp final]
    exact fun same => away (same ▸ mem)
  have inside : m.taskQueue ++ [id] ⊆ m.tasks :=
    append_subset.mpr ⟨bounded.live, cons_subset.mpr ⟨present, nil_subset _⟩⟩
  have slot : (m.taskQueue ++ [id]).length ≤ m.tasks.length := (subperm_of_subset nodup inside).length_le
  rw [length_append, length_singleton] at slot
  rcases m.wakeTask_cases id with pushed | ⟨full, -⟩
  · rw [pushed]
    exact ⟨bounded.tasks, bounded.count, nodup, inside, bounded.calm⟩
  · have count := bounded.count
    omega

/-- Other places and scancodes do not matter. -/
theorem Bounded.congr (bounded : Bounded m) (tasks : m'.tasks = m.tasks) (queue : m'.taskQueue = m.taskQueue)
    (calm : m'.place ≠ .panicked) : Bounded m' where
  tasks := by rw [tasks]; exact bounded.tasks
  count := by rw [tasks]; exact bounded.count
  queue := by rw [queue]; exact bounded.queue
  live := by rw [tasks, queue]; exact bounded.live
  calm := calm

theorem Place.resumed_ne_panicked {place : Place} (calm : place ≠ .panicked) : place.resumed ≠ .panicked := by
  unfold Place.resumed
  split
  · intro wrong
    cases wrong
  · exact calm

section

variable (bounded : Bounded m)
include bounded

theorem Bounded.resume : Bounded { m with place := m.place.resumed } :=
  bounded.congr rfl rfl (Place.resumed_ne_panicked bounded.calm)

theorem Bounded.spawn [Crates] (new : id ∉ m.tasks) (free : m.tasks.length < taskSlots) :
    Bounded ({ m with tasks := id :: m.tasks }.wakeTask id) := by
  have added : Bounded { m with tasks := id :: m.tasks } :=
    ⟨nodup_cons.mpr ⟨new, bounded.tasks⟩, free, bounded.queue, subset_cons_of_subset id bounded.live,
      bounded.calm⟩
  exact added.wakeTask (decide_eq_true ⟨mem_cons_self, fun mem => new (bounded.live mem)⟩)

theorem Bounded.addScancode [Crates] (scancode : UInt8)
    (orderly : queueSize ≤ m.scancodes.length ∨ m.waker.all m.resting) : Bounded (m.addScancode scancode) := by
  rcases m.addScancode_cases scancode with dropped | ⟨free, taken⟩
  · rw [dropped]
    exact bounded
  · have calm := orderly.resolve_left (Nat.not_le.mpr free)
    rw [taken]
    rcases Machine.wakeKeyboard_cases { m with
      scancodes := m.scancodes ++ [scancode], accepted := m.accepted ++ [scancode] } with
      ⟨id, registered, woken⟩ | ⟨-, unwoken⟩
    · rw [woken]
      simp only at registered
      rw [registered] at calm
      have kept : Bounded { m with
          scancodes := m.scancodes ++ [scancode], accepted := m.accepted ++ [scancode], waker := none } :=
        bounded.congr rfl rfl bounded.calm
      exact kept.wakeTask calm
    · rw [unwoken]
      exact bounded.congr rfl rfl bounded.calm

theorem Bounded.pollNext [Crates] (stage : Stage) : Bounded (m.pollNext keyboard stage) := by
  unfold Machine.pollNext
  split
  · exact bounded.congr rfl rfl bounded.calm
  all_goals exact bounded.congr rfl rfl fun wrong => by cases wrong

theorem Bounded.next : Bounded (m.next keyboard) := by
  have queue := bounded.queue
  have live := bounded.live
  unfold Machine.next
  split
  · exact bounded.congr rfl rfl fun wrong => by cases wrong
  · rename_i id rest present
    rw [present] at queue live
    have shorter := subset_of_cons_subset live
    have nodup := (nodup_cons.mp queue).2
    split
    · refine ⟨bounded.tasks, bounded.count, nodup, shorter, ?_⟩
      simp only
      split
      · intro wrong
        cases wrong
      · intro wrong
        cases wrong
    · exact ⟨bounded.tasks, bounded.count, nodup, shorter, bounded.calm⟩

theorem Bounded.polled {ready : Bool} (away : ready → id ∉ m.taskQueue) :
    Bounded { m with tasks := if ready then m.tasks.erase id else m.tasks, place := .ready } := by
  cases ready with
  | false => exact bounded.congr rfl rfl fun wrong => by cases wrong
  | true =>
    refine ⟨bounded.tasks.erase id, Nat.le_trans length_erase_le bounded.count, bounded.queue, ?_,
      fun wrong => by cases wrong⟩
    intro other mem
    refine (mem_erase_of_ne ?_).mpr (bounded.live mem)
    exact fun same => away rfl (same ▸ mem)

theorem Bounded.step [Crates] {op : Op} (good : orderly op m) (step : m.Step keyboard op m') : Bounded m' := by
  cases step with
  | spawn here new => exact bounded.spawn new (of_decide_eq_true good)
  | runReadyTasks here | sleepIfIdle here => exact bounded.congr rfl rfl fun wrong => by cases wrong
  | next here => exact bounded.next
  | @polled ready id here =>
    refine bounded.polled fun finished => ?_
    subst finished
    unfold orderly at good
    rw [here] at good
    exact of_decide_eq_true good
  | pollNext here => exact bounded.pollNext _
  | check here =>
    refine bounded.congr rfl rfl ?_
    simp only
    split
    · intro wrong
      cases wrong
    · intro wrong
      cases wrong
  | wake enabled made => exact bounded.resume.wakeTask good
  | addScancode enabled =>
    refine bounded.resume.addScancode _ ?_
    have either := Bool.or_eq_true _ _ ▸ good
    exact either.imp_left of_decide_eq_true
  | interrupt enabled => exact bounded.resume

end

theorem bounded_fresh : Bounded .fresh :=
  ⟨.nil, Nat.zero_le _, .nil, nil_subset _, fun wrong => by cases wrong⟩

/-- The runs with at most a hundred tasks. -/
def fewRuns [Crates] (keyboard : TaskId) : System Machine :=
  System.ofOps (· = Machine.fresh) (guarded few (Machine.perform keyboard))

def orderlyRuns [Crates] (keyboard : TaskId) : System Machine :=
  System.ofOps (· = Machine.fresh) (guarded orderly (Machine.perform keyboard))

/-- **In orderly runs no push fails.** -/
theorem ready_queue_bounded [Crates] (keyboard : TaskId) {m : Machine}
    (reached : (orderlyRuns keyboard).Reached m) : m.place ≠ .panicked := by
  have start : ∀ m, (orderlyRuns keyboard).start m → Bounded m := by
    rintro m rfl
    exact bounded_fresh
  refine ((orderlyRuns keyboard).invariant Bounded start ?_ reached).calm
  rintro m m' - bounded ⟨op, ran⟩
  obtain ⟨good, ran⟩ := guarded_eq_some.mp ran
  exact bounded.step good (Machine.step_of_perform ran)

/-- The keyboard's task is woken and goes to sleep, twice. -/
def wokenRun : List Op :=
  [.spawn 0, .runReadyTasks, .next, .pollNext, .pollNext, .pollNext, .addScancode 0x1E, .next, .pollNext,
    .pollNext, .pollNext, .pollNext, .next, .sleepIfIdle, .check, .addScancode 0x9E]

def wokenMachine : Machine := ⟨[0], [0], [0, 0], [0x9E], none, .caller, [0x1E, 0x9E], [0x1E]⟩

theorem ready_queue_bounded_woken : wokenMachine.place ≠ .panicked :=
  have reached : (orderlyRuns 0).Reached wokenMachine := (System.Reached.start rfl).replay
    (show replay (guarded orderly (Machine.perform 0)) wokenRun .fresh = some wokenMachine from rfl)
  ready_queue_bounded 0 reached

/-! ### The overflow -/

/-- The first poll of the keyboard's task, after it found `n` scancodes at its second look. -/
def caught (n : ℕ) : Machine :=
  ⟨[0], replicate n 0, [0], [], none, .keyboard .fast, replicate n 0x1E, replicate n 0x1E⟩

/-- The same poll before the next second look, with the waker registered. -/
def watching (n : ℕ) : Machine := { caught n with waker := some 0, place := .keyboard .again }

theorem caught_watches (n : ℕ) :
    replay (guarded few (Machine.perform 0)) [.pollNext, .pollNext] (caught n) = some (watching n) := rfl

/-- A scancode comes just then. -/
theorem watching_interrupted (n : ℕ) : guarded few (Machine.perform 0) (.addScancode 0x1E) (watching n) = some
    (Machine.wakeTask 0 { caught n with
      scancodes := [0x1E], accepted := replicate n 0x1E ++ [0x1E], place := .keyboard .again }) := rfl

theorem caught_succ (free : n < taskSlots) (reached : (fewRuns 0).Reached (caught n)) :
    (fewRuns 0).Reached (caught (n + 1)) := by
  have slot : Crates.push taskSlots 0 (replicate n 0) = some (replicate n 0 ++ [0]) := by
    rw [Crates.push_eq, length_replicate, if_pos free]
  have interrupted := (reached.replay (caught_watches n)).step ⟨_, watching_interrupted n⟩
  rw [Machine.wakeTask, caught, slot] at interrupted
  refine interrupted.replay (show replay _ [.pollNext, .pollNext] _ = some (caught (n + 1)) from ?_)
  rw [caught, replicate_succ', replicate_succ']
  rfl

theorem caught_reached (fits : n ≤ taskSlots) : (fewRuns 0).Reached (caught n) := by
  induction n with
  | zero =>
    have fresh : (fewRuns 0).Reached .fresh := .start rfl
    exact fresh.replay (show replay _ [.spawn 0, .runReadyTasks, .next] _ = some (caught 0) from rfl)
  | succ n ih => exact caught_succ fits (ih (Nat.le_of_succ_le fits))

/-- **One poll of a single task fills the queue**, and the next interrupt panics. -/
theorem ready_queue_overflows : ∃ m, (fewRuns 0).Reached m ∧ m.tasks = [0] ∧ m.place = .panicked := by
  have full : Crates.push taskSlots 0 (replicate taskSlots 0) = none := by
    rw [Crates.push_eq, length_replicate, if_neg (Nat.lt_irrefl _)]
  have interrupted := ((caught_reached (Nat.le_refl taskSlots)).replay (caught_watches taskSlots)).step
    ⟨_, watching_interrupted taskSlots⟩
  rw [Machine.wakeTask, caught, full] at interrupted
  exact ⟨_, interrupted, rfl, rfl⟩

end Ferros.Async
