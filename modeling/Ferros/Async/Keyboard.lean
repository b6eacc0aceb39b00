/-
**No scancode is slept through.**

* `Attentive` — the invariant: whenever the task of the keyboard is not being polled, it is in the queue, or
  its waker is registered and there is no scancode.
* `no_scancode_slept_through` — so the executor never halts with a scancode in the queue.

A poll is interrupted between any two of its steps. The waker is registered before the second look at the queue:
a scancode that comes earlier is seen by that look, and one that comes later finds the waker (`Alert`).
-/

import Ferros.Async.Executor

namespace Ferros.Async

open Lib List Option

variable {keyboard : TaskId} {m m' : Machine}

/-! ### The invariant -/

/-- The task of the keyboard is being polled, or nothing runs at all. -/
def Place.busy : Place → Bool
  | .keyboard _ | .panicked => true
  | _ => false

/-- A scancode need not wake anybody: if the task is being polled it will look for one. -/
def Place.excused (place : Place) : Bool := place.busy && place ≠ .keyboard .again

/-- A scancode would be noticed. -/
inductive Alert (keyboard : TaskId) (m : Machine) : Prop
  | queued (mem : keyboard ∈ m.taskQueue)
  | excused (here : m.place.excused = true)
  | registered (waker : m.waker = some keyboard) (none : m.scancodes = [] ∨ m.place = .keyboard .again)

/-- What does not depend on who is awake. -/
structure Sound (keyboard : TaskId) (m : Machine) : Prop where
  /-- Scancodes are neither lost nor reordered. -/
  conserved : m.consumed ++ m.scancodes = m.accepted
  /-- No other task registers a waker. -/
  own : ∀ id, m.waker = some id → id = keyboard
  idle : m.place = .halted → m.taskQueue = []

structure Attentive (keyboard : TaskId) (m : Machine) : Prop extends Sound keyboard m where
  alert : keyboard ∈ m.tasks → Alert keyboard m

/-! ### Waking -/

theorem tasks_wakeTask [Crates] (id : TaskId) (m : Machine) : (m.wakeTask id).tasks = m.tasks := by
  rcases m.wakeTask_cases id with pushed | ⟨-, panics⟩
  · rw [pushed]
  · rw [panics]

theorem Sound.wakeTask [Crates] (sound : Sound keyboard m) (running : m.place ≠ .halted) (id : TaskId) :
    Sound keyboard (m.wakeTask id) := by
  rcases m.wakeTask_cases id with pushed | ⟨-, panics⟩
  · rw [pushed]
    exact ⟨sound.conserved, sound.own, fun halted => absurd halted running⟩
  · rw [panics]
    exact ⟨sound.conserved, sound.own, fun wrong => by cases wrong⟩

theorem Alert.wakeTask [Crates] (alert : Alert keyboard m) (id : TaskId) : Alert keyboard (m.wakeTask id) := by
  rcases m.wakeTask_cases id with pushed | ⟨-, panics⟩
  · rw [pushed]
    cases alert with
    | queued mem => exact .queued (mem_append_left _ mem)
    | excused here => exact .excused here
    | registered waker none => exact .registered waker none
  · rw [panics]
    exact .excused rfl

theorem Alert.withTasks (alert : Alert keyboard m) (tasks : List TaskId) : Alert keyboard { m with tasks } := by
  cases alert with
  | queued mem => exact .queued mem
  | excused here => exact .excused here
  | registered waker none => exact .registered waker none

/-- A task that is woken is in the queue, or there was a panic. -/
theorem Alert.woken [Crates] (keyboard : TaskId) (m : Machine) : Alert keyboard (m.wakeTask keyboard) := by
  rcases m.wakeTask_cases keyboard with pushed | ⟨-, panics⟩
  · rw [pushed]
    exact .queued (mem_append_right _ mem_cons_self)
  · rw [panics]
    exact .excused rfl

section

variable (good : Attentive keyboard m)
include good

theorem Attentive.wakeTask [Crates] (running : m.place ≠ .halted) (id : TaskId) :
    Attentive keyboard (m.wakeTask id) where
  toSound := good.toSound.wakeTask running id
  alert := fun spawned => (good.alert (tasks_wakeTask id m ▸ spawned)).wakeTask id

theorem Attentive.spawn [Crates] (here : m.place = .caller) (id : TaskId) :
    Attentive keyboard ({ m with tasks := id :: m.tasks }.wakeTask id) where
  toSound := by
    have sound : Sound keyboard { m with tasks := id :: m.tasks } := ⟨good.conserved, good.own, good.idle⟩
    refine sound.wakeTask ?_ id
    rw [here]
    intro wrong
    cases wrong
  alert := by
    intro spawned
    rw [tasks_wakeTask] at spawned
    rcases mem_cons.mp spawned with rfl | before
    · exact .woken _ _
    · exact ((good.alert before).withTasks _).wakeTask id

/-! ### Places -/

omit good in
/-- Away from the poll of the keyboard's task, the place does not matter. -/
theorem Alert.move (alert : Alert keyboard m) (away : m.place.busy = false) (place : Place) :
    Alert keyboard { m with place } := by
  cases alert with
  | queued mem => exact .queued mem
  | excused here =>
    rw [Place.excused, away] at here
    cases here
  | registered waker none =>
    refine .registered waker (.inl (none.resolve_right fun here => ?_))
    rw [here] at away
    cases away

/-- The executor goes on to another place. -/
theorem Attentive.move (away : m.place.busy = false) {place : Place} (idle : place = .halted → m.taskQueue = [])
    : Attentive keyboard { m with place } :=
  ⟨⟨good.conserved, good.own, idle⟩, fun spawned => (good.alert spawned).move away place⟩

theorem Attentive.resume : Attentive keyboard { m with place := m.place.resumed } := by
  cases here : m.place with
  | halted => exact good.move (by rw [here]; rfl) fun wrong => by cases wrong
  | caller | ready | polling _ | keyboard _ | checking | panicked =>
    rw [Place.resumed, ← here]
    · exact good
    · intro wrong
      cases wrong

/-! ### Steps -/

/-- **The interrupt of the keyboard**: if the scancode was put into an empty queue, the waker is called. -/
theorem Attentive.addScancode [Crates] (running : m.place ≠ .halted) (scancode : UInt8) :
    Attentive keyboard (m.addScancode scancode) := by
  rcases m.addScancode_cases scancode with dropped | ⟨-, taken⟩
  · rw [dropped]
    exact good
  · have conserved : m.consumed ++ (m.scancodes ++ [scancode]) = m.accepted ++ [scancode] := by
      rw [← append_assoc, good.conserved]
    rw [taken]
    rcases Machine.wakeKeyboard_cases { m with
      scancodes := m.scancodes ++ [scancode], accepted := m.accepted ++ [scancode] } with
      ⟨id, registered, woken⟩ | ⟨unregistered, unwoken⟩
    · rw [woken]
      obtain rfl := good.own id registered
      have sound : Sound id { m with
          scancodes := m.scancodes ++ [scancode], accepted := m.accepted ++ [scancode], waker := none } :=
        ⟨conserved, (fun _ wrong => by cases wrong), good.idle⟩
      exact ⟨sound.wakeTask running id, fun _ => .woken _ _⟩
    · rw [unwoken]
      refine ⟨⟨conserved, good.own, good.idle⟩, fun spawned => ?_⟩
      cases good.alert spawned with
      | queued mem => exact .queued mem
      | excused here => exact .excused here
      | registered waker _ => cases unregistered.symm.trans waker

/-- **The poll of the keyboard's task**: it ends only after the waker was registered and no scancode was
found. -/
theorem Attentive.pollNext [Crates] {stage : Stage} (here : m.place = .keyboard stage) :
    Attentive keyboard (m.pollNext keyboard stage) := by
  have conserved := good.conserved
  unfold Machine.pollNext
  split
  · rename_i scancode rest present
    rw [present] at conserved
    refine ⟨⟨?_, good.own, good.idle⟩, fun _ => .excused ?_⟩
    · rw [append_assoc]
      exact conserved
    · rw [here]
      rfl
  · exact ⟨⟨conserved, good.own, fun wrong => by cases wrong⟩, fun _ => .excused rfl⟩
  · rw [Crates.register_eq]
    exact ⟨⟨conserved, fun id same => (some.inj same).symm, fun wrong => by cases wrong⟩,
      fun _ => .registered rfl (.inr rfl)⟩
  · rename_i scancode rest present
    rw [present] at conserved
    refine ⟨⟨?_, good.own, fun wrong => by cases wrong⟩, fun _ => .excused rfl⟩
    rw [append_assoc]
    exact conserved
  · rename_i empty
    refine ⟨⟨conserved, good.own, fun wrong => by cases wrong⟩, fun spawned => ?_⟩
    cases good.alert spawned with
    | queued mem => exact .queued mem
    | excused wrong =>
      rw [here] at wrong
      cases wrong
    | registered waker _ => exact .registered waker (.inl empty)
  · rw [Crates.take_eq]
    exact ⟨⟨conserved, (fun _ wrong => by cases wrong), fun wrong => by cases wrong⟩, fun _ => .excused rfl⟩

theorem Attentive.next (here : m.place = .ready) : Attentive keyboard (m.next keyboard) := by
  have away : m.place.busy = false := by rw [here]; rfl
  unfold Machine.next
  split
  · exact good.move away fun wrong => by cases wrong
  · rename_i id rest present
    -- An id that is not in the table is not the keyboard's, and one that is starts a poll.
    have left (other : id ≠ keyboard) (spawned : keyboard ∈ m.tasks) (place : Place) (wakers : List TaskId) :
        Alert keyboard { m with taskQueue := rest, wakers, place } := by
      cases (good.alert spawned).move away place with
      | queued mem =>
        rw [present] at mem
        exact .queued ((mem_cons.mp mem).resolve_left (Ne.symm other))
      | excused here => exact .excused here
      | registered waker none => exact .registered waker none
    split
    · refine ⟨⟨good.conserved, good.own, fun halted => ?_⟩, fun spawned => ?_⟩
      · simp only at halted
        split at halted
        · cases halted
        · cases halted
      · by_cases same : id = keyboard
        · refine .excused ?_
          rw [if_pos same]
          rfl
        · exact left same spawned _ _
    · rename_i gone
      refine ⟨⟨good.conserved, good.own, fun halted => ?_⟩, fun spawned => ?_⟩
      · cases here.symm.trans halted
      · exact left (fun same => gone (same ▸ spawned)) spawned _ _

theorem Attentive.step [Crates] {op : Op} (step : m.Step keyboard op m') : Attentive keyboard m' := by
  cases step with
  | spawn here new => exact good.spawn here _
  | runReadyTasks here | sleepIfIdle here =>
    exact good.move (by rw [here]; rfl) fun wrong => by cases wrong
  | next here => exact good.next here
  | polled here =>
    refine ⟨⟨good.conserved, good.own, fun wrong => by cases wrong⟩, fun spawned => ?_⟩
    have before : keyboard ∈ m.tasks := by
      simp only at spawned
      split at spawned
      · exact mem_of_mem_erase spawned
      · exact spawned
    have moved : Alert keyboard { m with place := .ready } := (good.alert before).move (by rw [here]; rfl) _
    exact moved.withTasks _
  | pollNext here => exact good.pollNext here
  | check here =>
    refine good.move (by rw [here]; rfl) fun halts => ?_
    by_contra busy
    rw [if_neg busy] at halts
    cases halts
  | wake enabled made => exact good.resume.wakeTask m.place.resumed_ne_halted _
  | addScancode enabled => exact good.resume.addScancode m.place.resumed_ne_halted _
  | interrupt enabled => exact good.resume

end

theorem attentive_fresh (keyboard : TaskId) : Attentive keyboard .fresh :=
  ⟨⟨rfl, (fun _ wrong => by cases wrong), fun wrong => by cases wrong⟩, fun wrong => by cases wrong⟩

/-- **No scancode is slept through.** -/
theorem no_scancode_slept_through [Crates] (keyboard : TaskId) {m : Machine}
    (reached : (executorRuns keyboard).Reached m) (spawned : keyboard ∈ m.tasks) :
    m.consumed ++ m.scancodes = m.accepted ∧
      (m.place = .halted → m.scancodes = [] ∧ m.consumed = m.accepted) := by
  have good : Attentive keyboard m := (executorRuns keyboard).invariant (Attentive keyboard)
    (fun _ first => first ▸ attentive_fresh keyboard)
    (fun _ _ _ good next => next.elim fun _ ran => good.step (Machine.step_of_perform ran)) reached
  refine ⟨good.conserved, fun halted => ?_⟩
  have none : m.scancodes = [] := by
    cases good.alert spawned with
    | queued mem =>
      rw [good.idle halted] at mem
      cases mem
    | excused wrong =>
      rw [halted] at wrong
      cases wrong
    | registered waker none =>
      refine none.resolve_right fun wrong => ?_
      rw [halted] at wrong
      cases wrong
  have conserved := good.conserved
  rw [none, append_nil] at conserved
  exact ⟨none, conserved⟩

/-- A scancode before the waker is registered and one after it, both before the second look at the queue. -/
def typedRun : List Op :=
  [.spawn 0, .runReadyTasks, .next, .pollNext, .addScancode 0x1E, .pollNext, .addScancode 0x9E, .pollNext,
    .pollNext, .pollNext, .pollNext, .pollNext, .pollNext, .next, .pollNext, .pollNext, .pollNext, .next,
    .sleepIfIdle, .check]

def typedMachine : Machine := ⟨[0], [], [0, 0], [], some 0, .halted, [0x1E, 0x9E], [0x1E, 0x9E]⟩

theorem no_scancode_slept_through_typed : typedMachine.consumed = typedMachine.accepted :=
  have reached : (executorRuns 0).Reached typedMachine := (System.Reached.start rfl).replay
    (show replay (Machine.perform 0) typedRun .fresh = some typedMachine from rfl)
  ((no_scancode_slept_through 0 reached (by decide)).2 rfl).2

end Ferros.Async
