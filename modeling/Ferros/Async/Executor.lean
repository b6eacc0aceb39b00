/-
**The executor and the keyboard's task.**

One thread polls the tasks that were woken and halts if there are none. Between any two of its steps an
interrupt may come, unless it has disabled them; the keyboard's puts a scancode into a queue and wakes the
task that reads it.

* `Machine.perform` — the steps: `spawn`, the loop of `run_ready_tasks`, `sleep_if_idle`, `poll_next`,
  `add_scancode`, and wakers called from anywhere.
* `executorRuns` — all runs, from the executor and the scancode queue as they are made.

The task of the keyboard is polled step by step. What another task does in its poll is free: it may call
wakers, and finish or not. A waker is known by the task it wakes. The queues and the `AtomicWaker` belong to
other crates; what is relied on of them is a parameter (`Crates`), and each of their operations is one step. An
id is given out once, so that `spawn` never finds it in the table; the stream never ends, so that the
keyboard's task never finishes.
-/

import Ferros.Lib.System
import Mathlib.Data.List.Basic

namespace Ferros.Async

open Lib Option

abbrev TaskId := ℕ

/-- The operations of `ArrayQueue` and `AtomicWaker`, on what a queue holds and on the registered waker, with the
laws that the kernel relies on. -/
class Crates where
  push : {α : Type} → ℕ → α → List α → Option (List α)
  register : TaskId → Option TaskId → Option TaskId
  /-- The waker, and what is left in its place. -/
  take : Option TaskId → Option TaskId × Option TaskId
  /-- A full queue refuses. -/
  push_eq : ∀ {α : Type} (capacity : ℕ) (x : α) (queue : List α),
    push capacity x queue = if queue.length < capacity then some (queue ++ [x]) else none
  register_eq : ∀ id old, register id old = some id
  take_eq : ∀ old, take old = (old, none)

instance : Crates where
  push capacity x queue := if queue.length < capacity then some (queue ++ [x]) else none
  register id _ := some id
  take old := (old, none)
  push_eq _ _ _ := rfl
  register_eq _ _ := rfl
  take_eq _ := rfl

def taskSlots : ℕ := 100

/-- `QUEUE_SIZE`, the slots of the scancode queue. -/
def queueSize : ℕ := 128

/-- Where `poll_next` is. -/
inductive Stage
  /-- Before the first `pop`. -/
  | fast
  /-- The queue was empty; before `WAKER.register`. -/
  | register
  /-- Before the second `pop`. -/
  | again
  /-- It found a scancode; before `WAKER.take`. -/
  | take
  deriving DecidableEq, Repr

/-- Where the executor is. -/
inductive Place
  /-- In none of its loops. -/
  | caller
  /-- In `run_ready_tasks`, before the next `pop`. -/
  | ready
  /-- In the poll of a task. -/
  | polling (id : TaskId)
  /-- In the poll of the keyboard's task. -/
  | keyboard (stage : Stage)
  /-- In `sleep_if_idle`, with interrupts disabled. -/
  | checking
  | halted
  | panicked
  deriving DecidableEq, Repr

structure Machine where
  tasks : List TaskId
  taskQueue : List TaskId
  /-- The tasks that a waker was made for. -/
  wakers : List TaskId
  scancodes : List UInt8
  /-- `WAKER`. -/
  waker : Option TaskId
  place : Place
  /-- The scancodes that `add_scancode` put into the queue so far, and those that the task took. -/
  accepted : List UInt8
  consumed : List UInt8
  deriving DecidableEq, Repr

/-- `Executor::new` and `keyboard::init`. -/
def Machine.fresh : Machine := ⟨[], [], [], [], none, .caller, [], []⟩

/-- The place where an interrupt returns to: `hlt` is over. -/
def Place.resumed : Place → Place
  | .halted => .caller
  | place => place

def Place.interruptible (place : Place) : Bool := place ≠ .checking ∧ place ≠ .panicked

/-- `TaskWaker::wake_task`, and the same push in `spawn`: both panic if the queue is full. -/
def Machine.wakeTask [Crates] (id : TaskId) (m : Machine) : Machine :=
  match Crates.push taskSlots id m.taskQueue with
  | some taskQueue => { m with taskQueue }
  | none => { m with place := .panicked }

/-- `WAKER.wake()`. -/
def Machine.wakeKeyboard [Crates] (m : Machine) : Machine :=
  match Crates.take m.waker with
  | (some id, waker) => { m with waker }.wakeTask id
  | (none, waker) => { m with waker }

/-- `add_scancode`: a full queue drops the byte. -/
def Machine.addScancode [Crates] (scancode : UInt8) (m : Machine) : Machine :=
  match Crates.push queueSize scancode m.scancodes with
  | some scancodes => { m with scancodes, accepted := m.accepted ++ [scancode] }.wakeKeyboard
  | none => m

/-- The next step of `poll_next`. A scancode ends it, and the task calls it again after it used the scancode;
if there is none the poll of the task is over. -/
def Machine.pollNext [Crates] (keyboard : TaskId) (stage : Stage) (m : Machine) : Machine :=
  match stage, m.scancodes with
  | .fast, scancode :: rest => { m with scancodes := rest, consumed := m.consumed ++ [scancode] }
  | .fast, [] => { m with place := .keyboard .register }
  | .register, _ => { m with waker := Crates.register keyboard m.waker, place := .keyboard .again }
  | .again, scancode :: rest =>
    { m with scancodes := rest, consumed := m.consumed ++ [scancode], place := .keyboard .take }
  | .again, [] => { m with place := .ready }
  | .take, _ => { m with waker := (Crates.take m.waker).2, place := .keyboard .fast }

/-- One turn of the loop of `run_ready_tasks`, up to the poll. -/
def Machine.next (keyboard : TaskId) (m : Machine) : Machine :=
  match m.taskQueue with
  | [] => { m with place := .caller }
  | id :: taskQueue =>
    if id ∈ m.tasks then
      { m with
        taskQueue
        wakers := id :: m.wakers
        place := if id = keyboard then .keyboard .fast else .polling id }
    else { m with taskQueue }

inductive Op
  | spawn (id : TaskId)
  | runReadyTasks
  | next
  /-- The poll of a task returns. -/
  | polled (ready : Bool)
  | pollNext
  | sleepIfIdle
  /-- The test for an empty queue in `sleep_if_idle`, and what follows. -/
  | check
  /-- A waker is called, by the task that is polled or by an interrupt. -/
  | wake (id : TaskId)
  | addScancode (scancode : UInt8)
  /-- Another interrupt. -/
  | interrupt
  deriving DecidableEq, Repr

def Machine.perform [Crates] (keyboard : TaskId) (op : Op) (m : Machine) : Option Machine :=
  match op, m.place with
  | .spawn id, .caller => if id ∈ m.tasks then none else some ({ m with tasks := id :: m.tasks }.wakeTask id)
  | .runReadyTasks, .caller => some { m with place := .ready }
  | .next, .ready => some (m.next keyboard)
  | .polled ready, .polling id =>
    some { m with tasks := if ready then m.tasks.erase id else m.tasks, place := .ready }
  | .pollNext, .keyboard stage => some (m.pollNext keyboard stage)
  | .sleepIfIdle, .caller => some { m with place := .checking }
  | .check, .checking => some { m with place := if m.taskQueue = [] then .halted else .caller }
  | .wake id, place =>
    if place.interruptible ∧ id ∈ m.wakers then some ({ m with place := place.resumed }.wakeTask id) else none
  | .addScancode scancode, place =>
    if place.interruptible then some ({ m with place := place.resumed }.addScancode scancode) else none
  | .interrupt, place => if place.interruptible then some { m with place := place.resumed } else none
  | _, _ => none

variable [Crates] {keyboard : TaskId} {op : Op} {m m' : Machine}

/-- What a step can do. -/
inductive Machine.Step (keyboard : TaskId) (m : Machine) : Op → Machine → Prop
  | spawn {id : TaskId} (here : m.place = .caller) (new : id ∉ m.tasks) :
      Machine.Step keyboard m (.spawn id) ({ m with tasks := id :: m.tasks }.wakeTask id)
  | runReadyTasks (here : m.place = .caller) :
      Machine.Step keyboard m .runReadyTasks { m with place := .ready }
  | next (here : m.place = .ready) : Machine.Step keyboard m .next (m.next keyboard)
  | polled {ready : Bool} {id : TaskId} (here : m.place = .polling id) : Machine.Step keyboard m (.polled ready)
      { m with tasks := if ready then m.tasks.erase id else m.tasks, place := .ready }
  | pollNext {stage : Stage} (here : m.place = .keyboard stage) :
      Machine.Step keyboard m .pollNext (m.pollNext keyboard stage)
  | sleepIfIdle (here : m.place = .caller) : Machine.Step keyboard m .sleepIfIdle { m with place := .checking }
  | check (here : m.place = .checking) :
      Machine.Step keyboard m .check { m with place := if m.taskQueue = [] then .halted else .caller }
  | wake {id : TaskId} (enabled : m.place.interruptible = true) (made : id ∈ m.wakers) :
      Machine.Step keyboard m (.wake id) ({ m with place := m.place.resumed }.wakeTask id)
  | addScancode {scancode : UInt8} (enabled : m.place.interruptible = true) :
      Machine.Step keyboard m (.addScancode scancode)
        ({ m with place := m.place.resumed }.addScancode scancode)
  | interrupt (enabled : m.place.interruptible = true) :
      Machine.Step keyboard m .interrupt { m with place := m.place.resumed }

theorem Machine.step_of_perform (ran : m.perform keyboard op = some m') : m.Step keyboard op m' := by
  unfold Machine.perform at ran
  cases op with
  | wake id =>
    obtain ⟨allowed, same⟩ := ite_some_none_eq_some.mp ran
    exact same ▸ .wake allowed.1 allowed.2
  | addScancode scancode =>
    obtain ⟨enabled, same⟩ := ite_some_none_eq_some.mp ran
    exact same ▸ .addScancode enabled
  | interrupt =>
    obtain ⟨enabled, same⟩ := ite_some_none_eq_some.mp ran
    exact same ▸ .interrupt enabled
  | spawn id =>
    cases here : m.place <;> rw [here] at ran <;> try cases ran
    obtain ⟨new, same⟩ := ite_none_left_eq_some.mp ran
    cases same
    rw [← here]
    exact .spawn here new
  | runReadyTasks =>
    cases here : m.place <;> rw [here] at ran <;> cases ran
    exact .runReadyTasks here
  | next =>
    cases here : m.place <;> rw [here] at ran <;> cases ran
    exact .next here
  | polled ready =>
    cases here : m.place <;> rw [here] at ran <;> cases ran
    exact .polled here
  | pollNext =>
    cases here : m.place <;> rw [here] at ran <;> cases ran
    exact .pollNext here
  | sleepIfIdle =>
    cases here : m.place <;> rw [here] at ran <;> cases ran
    exact .sleepIfIdle here
  | check =>
    cases here : m.place <;> rw [here] at ran <;> cases ran
    exact .check here

theorem Machine.wakeTask_cases (id : TaskId) (m : Machine) :
    m.wakeTask id = { m with taskQueue := m.taskQueue ++ [id] } ∨
      (taskSlots ≤ m.taskQueue.length ∧ m.wakeTask id = { m with place := .panicked }) := by
  unfold Machine.wakeTask
  rw [Crates.push_eq]
  by_cases free : m.taskQueue.length < taskSlots
  · exact .inl (by rw [if_pos free])
  · exact .inr ⟨Nat.le_of_not_lt free, by rw [if_neg free]⟩

theorem Machine.wakeKeyboard_cases (m : Machine) :
    (∃ id, m.waker = some id ∧ m.wakeKeyboard = { m with waker := none }.wakeTask id) ∨
      m.waker = none ∧ m.wakeKeyboard = m := by
  unfold Machine.wakeKeyboard
  rw [Crates.take_eq]
  cases waker : m.waker with
  | some id => exact .inl ⟨id, rfl, rfl⟩
  | none =>
    refine .inr ⟨rfl, ?_⟩
    show { m with waker := none } = m
    rw [← waker]

theorem Machine.addScancode_cases (scancode : UInt8) (m : Machine) :
    m.addScancode scancode = m ∨ (m.scancodes.length < queueSize ∧ m.addScancode scancode = { m with
      scancodes := m.scancodes ++ [scancode], accepted := m.accepted ++ [scancode] }.wakeKeyboard) := by
  unfold Machine.addScancode
  rw [Crates.push_eq]
  by_cases free : m.scancodes.length < queueSize
  · exact .inr ⟨free, by rw [if_pos free]⟩
  · exact .inl (by rw [if_neg free])

omit [Crates] in
theorem Place.resumed_ne_halted (place : Place) : place.resumed ≠ .halted := by
  cases place with
  | caller | ready | polling _ | keyboard _ | checking | halted | panicked => intro wrong; cases wrong

/-- The executor with a task for the keyboard, in all orders of steps and interrupts. -/
def executorRuns (keyboard : TaskId) : System Machine :=
  System.ofOps (· = Machine.fresh) (Machine.perform keyboard)

end Ferros.Async
