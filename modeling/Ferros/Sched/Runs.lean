/-
**All runs of the scheduler.**

A run is any sequence of calls, in any order, in which only user processes block and exit; `Run` adds to
the statics the number of threads created so far and the pids whose memory the reaper has taken.

* `Good` — what holds in every reached state while fewer than `2 ^ 32` threads have been created, with
  `Good.effect` for one call and `good_of_reached` for runs.
* `scheduler_invariant` — the invariant of the scheduler over all runs; `runnable_gets_cpu` — nobody starves.
-/

import Ferros.Lib.System
import Ferros.Sched.Calls

namespace Ferros.Sched

open Lib List Option
open Mm (Frame)

/-! ### Calls and runs -/

/-- The calls of the module, with the values the rest of the kernel passes in. -/
inductive Call
  | init (kernelCr3 : Frame)
  | spawn (stack : Stack) (top : ℕ)
  | addUserTask (cr3 : Frame) (kernelStackTop : ℕ) (kstack : Stack) (fsBase : ℕ)
  | execReplaceCr3 (new : Frame)
  | startPreemption
  | stopPreemption
  | onTimerTick
  | yieldNow
  | exitCurrent (status : ℤ)
  | exitCurrentKilled (sig : ℕ)
  | signal (target sig : ℕ)
  | waitCurrent (wantPid : ℤ)
  | blockCurrentOnStdin
  | blockCurrentOnPipe
  | wakeStdinReaders
  | wakePipeWaiters
  | reap (installed : Bool)
  deriving DecidableEq, Repr

def perform : Call → Statics → Except Panic Statics
  | .init kernelCr3, w => .ok (init kernelCr3 w)
  | .spawn stack top, w => spawn stack top w
  | .addUserTask cr3 top kstack fsBase, w => (addUserTask cr3 top kstack fsBase w).map Prod.snd
  | .execReplaceCr3 new, w => (execReplaceCr3 new w).map Prod.snd
  | .startPreemption, w => .ok (startPreemption w)
  | .stopPreemption, w => .ok (stopPreemption w)
  | .onTimerTick, w => onTimerTick w
  | .yieldNow, w => yieldNow w
  | .exitCurrent status, w => exitCurrent status w
  | .exitCurrentKilled sig, w => exitCurrentKilled sig w
  | .signal target sig, w => (signal target sig w).map Prod.snd
  | .waitCurrent wantPid, w => (waitCurrent wantPid w).map Prod.snd
  | .blockCurrentOnStdin, w => blockCurrentOnStdin w
  | .blockCurrentOnPipe, w => blockCurrentOnPipe w
  | .wakeStdinReaders, w => .ok (wakeStdinReaders w)
  | .wakePipeWaiters, w => .ok (wakePipeWaiters w)
  | .reap installed, w => .ok (reap installed w).2

/-- Is the current thread a user process? Before `init` there is none to object. -/
def currentIsUser (w : Statics) : Bool :=
  match w.scheduler with
  | some s => (s.threads[s.current]?).all (·.cr3.isSome)
  | none => true

/-- Only user processes exit, exec and block; `wait_current` blocks if it finds a live child only. -/
def mayCall : Call → Statics → Bool
  | .exitCurrent _, w | .exitCurrentKilled _, w | .execReplaceCr3 _, w => currentIsUser w
  | .blockCurrentOnStdin, w | .blockCurrentOnPipe, w => currentIsUser w
  | .waitCurrent wantPid, w =>
    match tryCollectOrBlock wantPid w with
    | .ok (.wouldBlock, _) => currentIsUser w
    | _ => true
  | _, _ => true

/-- The number of threads a call creates. -/
def creates : Call → ℕ
  | .init _ | .spawn _ _ | .addUserTask _ _ _ _ => 1
  | _ => 0

/-- The pids of the threads whose `cr3` and `stack` a call takes. -/
def takes : Call → Statics → List ℕ
  | .reap true, w => (w.scheduler.elim [] reaped).map Thread.pid
  | _, _ => []

structure Run where
  statics : Statics
  created : ℕ
  taken : List ℕ
  deriving DecidableEq, Repr

def Run.step (call : Call) (r : Run) : Option Run :=
  if mayCall call r.statics then
    match perform call r.statics with
    | .ok w => some ⟨w, r.created + creates call, r.taken ++ takes call r.statics⟩
    | .error _ => none
  else none

/-- Every sequence of calls, from before `init` on. -/
def schedulerRuns : System Run :=
  .ofOps (· = ⟨boot, 0, []⟩) Run.step

variable {call : Call} {r r' : Run} {s s' : Scheduler} {w w' : Statics} {cur t t' : Thread} {made d : ℕ}

theorem Run.step_eq_some (stepped : r.step call = some r') :
    mayCall call r.statics ∧ ∃ w, perform call r.statics = .ok w ∧
      r' = ⟨w, r.created + creates call, r.taken ++ takes call r.statics⟩ := by
  unfold Run.step at stepped
  split at stepped
  · rename_i allowed
    split at stepped
    · rename_i w ran
      exact ⟨allowed, w, ran, (some.inj stepped).symm⟩
    · exact absurd stepped (by simp)
  · exact absurd stepped (by simp)

/-! ### What a call does -/

/-- All that a call other than `init` can do to an initialised scheduler, with the number of threads
it creates. -/
inductive Effect (w : Statics) (s : Scheduler) : ℕ → Statics → Prop
  | acts {f : ℕ → Thread → Thread} {w' : Statics} (acts : Acts f s w w') : Effect w s 0 w'
  | pushed (t : Thread) (pid : t.pid = w.nextPid) (runs : t.state = .runnable)
      (parent : ∃ u ∈ s.threads, u.pid = t.parent ∧ isAlive u.state = true) :
      Effect w s 1 ((fetchPid w).2.put { s with threads := s.threads ++ [t] })
  | flagged (preemption : Bool) : Effect w s 0 { w with preemption }

/-- Every thread keeps its place and its pid, and its state makes an allowed move. -/
def Scheduler.Moves (s s' : Scheduler) : Prop :=
  ∀ (i : ℕ) (t : Thread), s.threads[i]? = some t →
    ∃ t', s'.threads[i]? = some t' ∧ t'.pid = t.pid ∧ Move t.state t'.state

theorem Effect.moves (effect : Effect w s made w') (here : w.scheduler = some s)
    (after : w'.scheduler = some s') : s.Moves s' := by
  intro i t present
  cases effect with
  | acts acts =>
    obtain ⟨n, rfl, -⟩ := acts.result
    cases after
    have step := acts.updates.evolves i t present
    refine ⟨_, ?_, step.pid, step.move⟩
    rw [show ∀ f, ({ s.update f with current := n } : Scheduler).threads = (s.update f).threads
      from fun _ => rfl, s.getElem?_update, present, map_some]
  | pushed u pid runs parent =>
    cases after
    have inRange := (List.getElem?_eq_some_iff.mp present).1
    exact ⟨t, (getElem?_append_left inRange).trans present, rfl, .stay _⟩
  | flagged preemption =>
    cases here.symm.trans after
    exact ⟨t, present, rfl, .stay _⟩

theorem user_of_currentIsUser (here : w.scheduler = some s) (present : s.threads[s.current]? = some cur)
    (user : currentIsUser w) : ∃ frame, cur.cr3 = some frame := by
  simp only [currentIsUser, here, present, all_some] at user
  exact isSome_iff_exists.mp user

/-- **What a call does**, and that the only panic left is the overflow of a shift by 64 or more. -/
theorem perform_effect (ready : Ready s) (here : w.scheduler = some s) (notInit : ∀ k, call ≠ .init k)
    (allowed : mayCall call w) : perform call w = .error .shiftOverflow ∨
      ∃ w', perform call w = .ok w' ∧ Effect w s (creates call) w' := by
  obtain ⟨cur, present, runs⟩ := ready.running
  have asParent : ∃ u ∈ s.threads, u.pid = cur.pid ∧ isAlive u.state :=
    ⟨cur, mem_of_getElem? present, rfl, by rw [runs]; rfl⟩
  have userOf : currentIsUser w → cur.cr3 ≠ none := fun user =>
    isSome_iff_ne_none.mp
      (isSome_iff_exists.mpr (user_of_currentIsUser here present user))
  have yields : ∃ w', yieldNow w = .ok w' ∧ Effect w s 0 w' := by
    obtain ⟨w', yielded, acts⟩ := ready.yields here
    exact ⟨w', yielded, .acts acts⟩
  cases call with
  | init k => exact absurd rfl (notInit k)
  | spawn stack top =>
    exact .inr ⟨_, spawn_eq here present stack top, .pushed _ rfl rfl asParent⟩
  | addUserTask cr3 top kstack fsBase =>
    refine .inr ⟨_, ?_, .pushed (userThread w.nextPid cur.pid cr3 top kstack fsBase)
      rfl rfl asParent⟩
    rw [perform, addUserTask_eq here present]
    rfl
  | execReplaceCr3 new =>
    obtain ⟨old, user⟩ := user_of_currentIsUser here present allowed
    obtain ⟨replaced, acts⟩ := ready.replaces here present user new
    exact .inr ⟨_, by rw [perform, replaced]; rfl, .acts acts⟩
  | startPreemption => exact .inr ⟨_, rfl, .flagged true⟩
  | stopPreemption => exact .inr ⟨_, rfl, .flagged false⟩
  | onTimerTick =>
    refine .inr ?_
    rw [perform, onTimerTick]
    split
    · exact yields
    · exact ⟨w, rfl, .flagged w.preemption⟩
  | yieldNow => exact .inr yields
  | exitCurrent status =>
    obtain ⟨w', exited, acts⟩ := ready.exits here present (userOf allowed) status none
    exact .inr ⟨w', exited, .acts acts⟩
  | exitCurrentKilled sig =>
    obtain ⟨w', exited, acts⟩ := ready.exits here present (userOf allowed) (128 + sig) (some sig)
    exact .inr ⟨w', exited, .acts acts⟩
  | signal target sig =>
    have outcome := ready.signals here target sig
    rw [perform]
    generalize signal target sig w = result at outcome ⊢
    cases outcome with
    | overflow large => exact .inl rfl
    | missed => exact .inr ⟨w, rfl, .flagged w.preemption⟩
    | checked => exact .inr ⟨w, rfl, .flagged w.preemption⟩
    | noted place isTarget acts => exact .inr ⟨_, rfl, .acts acts⟩
    | killed deadly place isTarget acts => exact .inr ⟨_, rfl, .acts acts⟩
  | waitCurrent wantPid =>
    have user : ∀ w', tryCollectOrBlock wantPid w = .ok (.wouldBlock, w') → cur.cr3 ≠ none := by
      intro w' tried
      rw [mayCall, tried] at allowed
      exact userOf allowed
    obtain ⟨out, w', waited, outcome⟩ := ready.waits here present wantPid user
    refine .inr ⟨w', by rw [perform, waited]; rfl, ?_⟩
    cases outcome with
    | collected place mine zombie acts same => exact .acts acts
    | blocked noZombie child acts => exact .acts acts
    | childless noZombie noChild => exact .flagged w.preemption
  | blockCurrentOnStdin =>
    obtain ⟨w', blocked, acts⟩ := ready.blocks here present (userOf allowed) .stdin
    exact .inr ⟨w', blocked, .acts acts⟩
  | blockCurrentOnPipe =>
    obtain ⟨w', blocked, acts⟩ := ready.blocks here present (userOf allowed) .pipe
    exact .inr ⟨w', blocked, .acts acts⟩
  | wakeStdinReaders => exact .inr ⟨_, rfl, .acts (ready.wakes here .stdin)⟩
  | wakePipeWaiters => exact .inr ⟨_, rfl, .acts (ready.wakes here .pipe)⟩
  | reap installed =>
    cases installed with
    | true => exact .inr ⟨_, by rw [perform, reap_eq here], .acts (ready.reaps w)⟩
    | false => exact .inr ⟨w, rfl, .flagged w.preemption⟩

/-- Before `init` a call panics or changes nothing but the preemption flag. -/
theorem perform_uninitialized (here : w.scheduler = none) (notInit : ∀ k, call ≠ .init k) :
    perform call w = .error .notInitialized ∨ ∃ preemption, perform call w = .ok { w with preemption } := by
  have got : w.get = .error .notInitialized := by rw [Statics.get, here]
  have got' : (fetchPid w).2.get = .error .notInitialized := got
  have pid : currentPid w = .ok 0 := by simp only [currentPid, here]
  have stays : switchToNext w = .ok (none, w) := by simp only [switchToNext, here]
  have wakes : ∀ reason, wakeAll reason w = w := by
    intro reason
    rw [wakeAll, here, map_none, ← here]
  cases call with
  | init k => exact absurd rfl (notInit k)
  | spawn stack top =>
    refine .inl ?_
    simp only [perform, spawn, pid, pushThread, got', bind, Except.bind]
  | addUserTask cr3 top kstack fsBase =>
    refine .inl ?_
    simp only [perform, addUserTask, pid, pushThread, got', bind, Except.bind]
    rfl
  | execReplaceCr3 new =>
    refine .inl ?_
    simp only [perform, execReplaceCr3, got, bind, Except.bind]
    rfl
  | startPreemption => exact .inr ⟨true, rfl⟩
  | stopPreemption => exact .inr ⟨false, rfl⟩
  | onTimerTick =>
    refine .inr ⟨w.preemption, ?_⟩
    simp only [perform, onTimerTick, stays]
    split <;> rfl
  | yieldNow => exact .inr ⟨w.preemption, by simp only [perform, yieldNow, stays]; rfl⟩
  | exitCurrent status =>
    exact .inl (by simp only [perform, exitCurrent, exitCurrentInner, got, bind, Except.bind])
  | exitCurrentKilled sig =>
    exact .inl (by simp only [perform, exitCurrentKilled, exitCurrentInner, got, bind, Except.bind])
  | signal target sig => exact .inl (by simp only [perform, signal, got, bind, Except.bind]; rfl)
  | waitCurrent wantPid =>
    exact .inl (by simp only [perform, waitCurrent, tryCollectOrBlock, got, bind, Except.bind]; rfl)
  | blockCurrentOnStdin =>
    exact .inl (by simp only [perform, blockCurrentOnStdin, blockCurrentOn, got, bind, Except.bind])
  | blockCurrentOnPipe =>
    exact .inl (by simp only [perform, blockCurrentOnPipe, blockCurrentOn, got, bind, Except.bind])
  | wakeStdinReaders =>
    exact .inr ⟨w.preemption, by simp only [perform, wakeStdinReaders, wakes]⟩
  | wakePipeWaiters =>
    exact .inr ⟨w.preemption, by simp only [perform, wakePipeWaiters, wakes]⟩
  | reap installed =>
    refine .inr ⟨w.preemption, ?_⟩
    have nothing : reap installed w = ([], w) := by
      cases installed <;> simp only [reap, here]
    rw [perform, nothing]

/-! ### The invariant of a run -/

/-- What holds in every state of a run in which pids have not wrapped around. -/
structure Good (r : Run) : Prop where
  ready : ∀ s, r.statics.scheduler = some s → Ready s
  /-- Pids are handed out in order. -/
  numbered : ∃ n ≤ r.created, r.statics.nextPid = (n + 1) % 2 ^ 32 ∧
    (∀ s, r.statics.scheduler = some s → ∀ t ∈ s.threads, t.pid ≤ n) ∧ ∀ p ∈ r.taken, p ≤ n
  /-- A thread whose memory was taken stays reaped. -/
  gone : ∀ s, r.statics.scheduler = some s → ∀ t ∈ s.threads, t.pid ∈ r.taken →
    t.state = .reaped
  nonzero : 0 ∉ r.taken
  once : r.taken.Nodup

theorem Move.reaped {st : State} (move : Move .reaped st) : st = .reaped := by
  cases move with
  | stay => rfl
  | die alive => exact absurd alive (by decide)

/-- **One call** keeps the invariant, what the reaper takes apart. -/
theorem Good.effect (good : Good r) (here : r.statics.scheduler = some s) (effect : Effect r.statics s made w')
    (few : r.created + made < 2 ^ 32) : Good ⟨w', r.created + made, r.taken⟩ := by
  obtain ⟨n, bound, next, pids, takenPids⟩ := good.numbered
  cases effect with
  | @acts f _ acts =>
    obtain ⟨m, rfl, ready⟩ := acts.result
    have old : ∀ t' ∈ s.threads.mapIdx f, ∃ t ∈ s.threads, Evolves t t' := by
      intro t' mem
      obtain ⟨i, t, present, rfl⟩ := mem_mapIdx_iff.mp mem
      exact ⟨t, mem_of_getElem? present, acts.updates.evolves i t present⟩
    refine ⟨?_, ⟨n, bound, next, ?_, takenPids⟩, ?_, good.nonzero, good.once⟩
    · rintro s' same
      cases same
      exact ready
    · rintro s' same t' mem
      cases same
      obtain ⟨t, before, evolves⟩ := old t' mem
      rw [evolves.pid]
      exact pids s here t before
    · rintro s' same t' mem taken
      cases same
      obtain ⟨t, before, evolves⟩ := old t' mem
      have wasReaped := good.gone s here t before (evolves.pid ▸ taken)
      exact (wasReaped ▸ evolves.move).reaped
  | pushed t pid runs parent =>
    have fits : (n + 1) % 2 ^ 32 = n + 1 := Nat.mod_eq_of_lt (by omega)
    have isNext : t.pid = n + 1 := by rw [pid, next, fits]
    refine ⟨?_, ⟨n + 1, Nat.succ_le_succ bound, ?_, ?_, fun p taken => Nat.le_succ_of_le (takenPids p taken)⟩,
      ?_, good.nonzero, good.once⟩
    · rintro s' same
      cases same
      refine (good.ready s here).push (fun u mem equal => ?_) fun _ => parent
      have := pids s here u mem
      omega
    · show (r.statics.nextPid + 1) % 2 ^ 32 = _
      rw [next, fits]
    · rintro s' same u mem
      cases same
      rcases mem_append.mp mem with before | new
      · exact Nat.le_succ_of_le (pids s here u before)
      · exact Nat.le_of_eq (mem_singleton.mp new ▸ isNext)
    · rintro s' same u mem taken
      cases same
      rcases mem_append.mp mem with before | new
      · exact good.gone s here u before taken
      · have := takenPids u.pid taken
        rw [mem_singleton.mp new] at this
        omega
  | flagged preemption =>
    exact ⟨good.ready, ⟨n, bound, next, pids, takenPids⟩, good.gone, good.nonzero, good.once⟩

/-- The reaper takes dead threads only, and not the current one. -/
theorem mem_reaped (mem : t ∈ reaped s) : ∃ i, i ≠ s.current ∧ s.threads[i]? = some t ∧ collectable t := by
  obtain ⟨⟨u, i⟩, kept, rfl⟩ := mem_map.mp mem
  obtain ⟨place, taken⟩ := mem_filter.mp kept
  obtain ⟨notCurrent, isDead⟩ := isReaped_iff.mp taken
  exact ⟨i, notCurrent, mem_zipIdx_iff_getElem?.mp place, isDead⟩

/-- What the reaper takes, it marks. -/
theorem reaped_of_mem (core : Core s) (mem : t ∈ reaped s) (after : t' ∈ (s.update (burying s)).threads)
    (same : t'.pid = t.pid) : t'.state = .reaped := by
  obtain ⟨i, notCurrent, present, isDead⟩ := mem_reaped mem
  obtain ⟨j, u, place, rfl⟩ := mem_mapIdx_iff.mp after
  have pid : (burying s j u).pid = u.pid := by
    unfold burying
    split <;> rfl
  obtain rfl : j = i := core.unique place present (pid.symm.trans same)
  cases present.symm.trans place
  rw [burying, if_pos (isReaped_iff.mpr ⟨notCurrent, isDead⟩)]
  rfl

theorem nodup_reaped (core : Core s) : ((reaped s).map Thread.pid).Nodup := by
  have sub : (reaped s).Sublist s.threads := by
    have kept : (reaped s).Sublist (s.threads.zipIdx.map Prod.fst) := filter_sublist.map Prod.fst
    rwa [zipIdx_map_fst] at kept
  exact core.distinct.sublist (sub.map Thread.pid)

/-- **Reaping** keeps the invariant: what it takes was not taken before. -/
theorem Good.reap (good : Good r) (here : r.statics.scheduler = some s) :
    Good ⟨r.statics.put (s.update (burying s)), r.created, r.taken ++ (reaped s).map Thread.pid⟩ := by
  have ready := good.ready s here
  obtain ⟨n, bound, next, pids, takenPids⟩ := good.numbered
  have pidOf : ∀ i t, (burying s i t).pid = t.pid := by
    intro i t
    unfold burying
    split <;> rfl
  have stateOf : ∀ p ∈ (reaped s).map Thread.pid, ∃ t ∈ s.threads, t.pid = p ∧
      collectable t := by
    intro p mem
    obtain ⟨t, isReaped, rfl⟩ := mem_map.mp mem
    obtain ⟨i, -, present, isDead⟩ := mem_reaped isReaped
    exact ⟨t, mem_of_getElem? present, rfl, isDead⟩
  refine ⟨?_, ⟨n, bound, next, ?_, ?_⟩, ?_, ?_, ?_⟩
  · rintro s' same
    cases same
    obtain ⟨m, equal, ready'⟩ := (ready.reaps r.statics).result
    have parts := some.inj (congrArg Statics.scheduler equal)
    rw [parts]
    exact ready'
  · rintro s' same t' mem
    cases same
    obtain ⟨i, t, present, rfl⟩ := mem_mapIdx_iff.mp mem
    rw [pidOf]
    exact pids s here t (mem_of_getElem? present)
  · intro p mem
    rcases mem_append.mp mem with before | new
    · exact takenPids p before
    · obtain ⟨t, isThread, rfl, -⟩ := stateOf p new
      exact pids s here t isThread
  · rintro s' same t' mem taken
    cases same
    rcases mem_append.mp taken with before | new
    · obtain ⟨i, t, present, rfl⟩ := mem_mapIdx_iff.mp mem
      rw [pidOf] at before
      have wasReaped := good.gone s here t (mem_of_getElem? present) before
      have step := (ready.reaps r.statics).updates.evolves i t present
      exact (wasReaped ▸ step.move).reaped
    · obtain ⟨t, isReaped, samePid⟩ := mem_map.mp new
      exact reaped_of_mem ready.toCore isReaped mem samePid.symm
  · intro zero
    rcases mem_append.mp zero with before | new
    · exact good.nonzero before
    · -- pid 0 is thread 0, which runs
      obtain ⟨t, isThread, pid, isDead⟩ := stateOf 0 new
      obtain ⟨i, present⟩ := mem_iff_getElem?.mp isThread
      obtain ⟨zeroth, present0, pid0, -, runs⟩ := ready.zero
      obtain rfl := ready.toCore.unique present present0 (pid.trans pid0.symm)
      cases present.symm.trans present0
      exact absurd (not_alive_of_collectable isDead) (by rw [runs]; decide)
  · refine nodup_append.mpr ⟨good.once, nodup_reaped ready.toCore, ?_⟩
    rintro p before q new rfl
    obtain ⟨t, isThread, rfl, isDead⟩ := stateOf p new
    have wasReaped := good.gone s here t isThread before
    rcases collectable_iff.mp isDead with dead | ⟨zombie, -⟩
    · exact absurd (wasReaped.symm.trans dead) (by decide)
    · exact absurd (wasReaped.symm.trans zombie) (by decide)

theorem ready_init (kernelCr3 : Frame) : Ready ⟨[bootThread], 0, kernelCr3⟩ where
  zero := ⟨bootThread, rfl, rfl, rfl, rfl⟩
  current := Nat.one_pos
  distinct := nodup_singleton _
  parents := by
    intro t mem hasParent
    rw [mem_singleton.mp mem] at hasParent
    exact absurd rfl hasParent
  running := ⟨bootThread, rfl, rfl⟩

theorem Good.init (good : Good r) (kernelCr3 : Frame) :
    Good ⟨init kernelCr3 r.statics, r.created + 1, r.taken⟩ := by
  obtain ⟨n, bound, next, pids, takenPids⟩ := good.numbered
  refine ⟨?_, ⟨n, Nat.le_succ_of_le bound, next, ?_, takenPids⟩, ?_, good.nonzero, good.once⟩
  · rintro s' same
    cases same
    exact ready_init kernelCr3
  · rintro s' same t mem
    cases same
    rw [mem_singleton.mp mem]
    exact Nat.zero_le n
  · rintro s' same t mem taken
    cases same
    rw [mem_singleton.mp mem] at taken
    exact absurd taken good.nonzero

theorem good_start : Good ⟨boot, 0, []⟩ where
  ready := fun _ same => nomatch same
  numbered := ⟨0, Nat.le_refl 0, rfl, (fun _ same => nomatch same),
    fun _ taken => absurd taken not_mem_nil⟩
  gone := fun _ same => nomatch same
  nonzero := not_mem_nil
  once := nodup_nil

theorem Good.step (good : Good r) (stepped : r.step call = some r') (few : r'.created < 2 ^ 32) : Good r' := by
  obtain ⟨allowed, w, ran, rfl⟩ := Run.step_eq_some stepped
  by_cases isInit : ∃ k, call = .init k
  · obtain ⟨k, rfl⟩ := isInit
    cases ran
    rw [show takes (.init k) r.statics = [] from rfl, append_nil]
    exact good.init k
  have notInit : ∀ k, call ≠ .init k := fun k same => isInit ⟨k, same⟩
  cases here : r.statics.scheduler with
  | none =>
    have untaken : takes call r.statics = [] := by
      unfold takes
      split
      · rw [here]; rfl
      · rfl
    obtain ⟨n, bound, next, -, takenPids⟩ := good.numbered
    rcases perform_uninitialized here notInit with panics | ⟨preemption, changed⟩
    · rw [ran] at panics
      exact nomatch panics
    · cases ran.symm.trans changed
      rw [untaken, append_nil]
      have empty : ∀ s, ({ r.statics with preemption } : Statics).scheduler ≠ some s :=
        fun s same => nomatch here.symm.trans same
      exact ⟨fun s same => absurd same (empty s),
        ⟨n, Nat.le_add_right_of_le bound, next, fun s same => absurd same (empty s), takenPids⟩,
        fun s same => absurd same (empty s), good.nonzero, good.once⟩
  | some s =>
    by_cases reaps : call = .reap true
    · subst reaps
      rw [perform, reap_eq here] at ran
      cases ran
      rw [takes, here]
      exact good.reap here
    · have untaken : takes call r.statics = [] := by
        unfold takes
        split
        · exact absurd rfl reaps
        · rfl
      rw [untaken, append_nil]
      rcases perform_effect (good.ready s here) here notInit allowed with overflow | ⟨w', ok, effect⟩
      · rw [ran] at overflow
        exact nomatch overflow
      · cases ran.symm.trans ok
        exact good.effect here effect few

/-- **Runs** keep the invariant while pids do not wrap around. -/
theorem good_of_reached (reached : schedulerRuns.Reached r) (few : r.created < 2 ^ 32) : Good r := by
  refine schedulerRuns.invariant (fun r => r.created < 2 ^ 32 → Good r) ?_ ?_ reached few
  · rintro s rfl _
    exact good_start
  · rintro r r' - ih ⟨call, stepped⟩ few
    obtain ⟨-, w, -, rfl⟩ := Run.step_eq_some stepped
    exact (ih (Nat.lt_of_le_of_lt (Nat.le_add_right _ _) few)).step stepped few

/-! ### The scheduler invariant -/

/-- **The scheduler invariant over all runs.** While fewer than `2 ^ 32` threads have been created:
thread 0 is runnable; `current` is the index of a runnable thread, so every switch went to one; pids are
distinct; parents other than 0 are alive; the reaper takes no thread twice, and next takes neither the
current nor a live thread; and no next call fails the assertion of `switch_to_next` or moves the state of
a thread in any other than the allowed ways. -/
theorem scheduler_invariant {r : Run} (reached : schedulerRuns.Reached r) (few : r.created < 2 ^ 32) :
    (∀ s, r.statics.scheduler = some s → (∃ t, s.threads[0]? = some t ∧ t.state = .runnable) ∧
      (∃ t, s.threads[s.current]? = some t ∧ t.state = .runnable) ∧ (s.threads.map Thread.pid).Nodup ∧
      (∀ t ∈ s.threads, t.parent ≠ 0 →
        ∃ u ∈ s.threads, u.pid = t.parent ∧ (u.state = .runnable ∨ u.state = .blocked)) ∧
      ∀ t ∈ reaped s, t.state ≠ .runnable ∧ t.state ≠ .blocked ∧ ∃ i, i ≠ s.current ∧ s.threads[i]? = some t) ∧
    r.taken.Nodup ∧ ∀ call, mayCall call r.statics = true → (∀ panic, perform call r.statics = .error panic →
        panic = .notInitialized ∧ r.statics.scheduler = none ∨ panic = .shiftOverflow) ∧
      ∀ w s s', perform call r.statics = .ok w → (∀ k, call ≠ .init k) →
        r.statics.scheduler = some s → w.scheduler = some s' → s.Moves s' := by
  have good := good_of_reached reached few
  have alive_iff : ∀ st, isAlive st = true → st = .runnable ∨ st = .blocked := by
    intro st
    cases st <;> decide
  refine ⟨fun s here => ?_, good.once, fun call allowed => ⟨fun panic panics => ?_, ?_⟩⟩
  · have ready := good.ready s here
    refine ⟨?_, ready.running, ready.distinct, fun t mem hasParent => ?_, fun t mem => ?_⟩
    · obtain ⟨t, present, -, -, runs⟩ := ready.zero
      exact ⟨t, present, runs⟩
    · obtain ⟨u, there, pid, alive⟩ := ready.parents t mem hasParent
      exact ⟨u, there, pid, alive_iff _ alive⟩
    · obtain ⟨i, notCurrent, present, isDead⟩ := mem_reaped mem
      have notAlive := not_alive_of_collectable isDead
      refine ⟨fun runs => ?_, fun blocked => ?_, i, notCurrent, present⟩
      · exact absurd notAlive (by rw [runs]; decide)
      · exact absurd notAlive (by rw [blocked]; decide)
  · by_cases isInit : ∃ k, call = .init k
    · obtain ⟨k, rfl⟩ := isInit
      exact nomatch panics
    have notInit : ∀ k, call ≠ .init k := fun k same => isInit ⟨k, same⟩
    cases here : r.statics.scheduler with
    | none =>
      rcases perform_uninitialized here notInit with failed | ⟨preemption, ok⟩
      · exact .inl ⟨Except.error.inj (panics.symm.trans failed), rfl⟩
      · exact nomatch panics.symm.trans ok
    | some s =>
      rcases perform_effect (good.ready s here) here notInit allowed with overflow | ⟨w', ok, -⟩
      · exact .inr (Except.error.inj (panics.symm.trans overflow))
      · exact nomatch panics.symm.trans ok
  · intro w s s' ran notInit here after
    rcases perform_effect (good.ready s here) here notInit allowed with overflow | ⟨w', ok, effect⟩
    · exact nomatch ran.symm.trans overflow
    · cases ran.symm.trans ok
      exact effect.moves here after

/-- A process forks, its child exits, the parent collects it and the reaper takes it. -/
def forkExitReap : List Call :=
  [.init 1, .addUserTask 7 100 20 0, .yieldNow, .addUserTask 8 200 21 0, .waitCurrent (-1),
    .exitCurrent 3, .yieldNow, .waitCurrent (-1), .yieldNow, .reap true]

def forked : Run :=
  (replay Run.step forkExitReap ⟨boot, 0, []⟩).getD ⟨boot, 0, []⟩

theorem scheduler_invariant_fork : forked.taken = [2] ∧ forked.created < 2 ^ 32 ∧ forked.taken.Nodup := by
  have reached : schedulerRuns.Reached forked :=
    System.Reached.replay (.start rfl)
      (show replay Run.step forkExitReap ⟨boot, 0, []⟩ = some forked from rfl)
  have few : forked.created < 2 ^ 32 := by decide
  exact ⟨rfl, few, (scheduler_invariant reached few).2.1⟩

/-! ### Fairness -/

/-- The index `d` places ahead of the current thread. -/
def Scheduler.ahead (s : Scheduler) (d : ℕ) : ℕ := (s.current + d) % s.threads.length

/-- A switch passes over no runnable thread. -/
theorem nextRunnable_ahead (positive : 0 < d) (small : d < s.threads.length)
    (present : s.threads[s.ahead d]? = some t) (runs : t.state = .runnable) :
    ∃ e, 0 < e ∧ e ≤ d ∧ nextRunnable s = some (s.ahead e) := by
  have hit : (s.threads[s.ahead d]?).any (·.state = .runnable) := by
    rw [present, any_some, decide_eq_true_eq]
    exact runs
  rw [nextRunnable, find?_map]
  cases found : find? _ (range' 1 (s.threads.length - 1)) with
  | none => exact absurd hit (find?_eq_none.mp found d (mem_range'_1.mpr (by omega)))
  | some e =>
    obtain ⟨-, mem, first⟩ := find?_range'_eq_some.mp found
    refine ⟨e, (mem_range'_1.mp mem).1, Nat.not_lt.mp fun before => ?_, rfl⟩
    exact absurd hit (by simpa [Scheduler.ahead] using first d positive before)

/-- **Nobody starves.** With preemption on, a runnable thread `d` places ahead has the CPU after at most `d`
ticks and yields, in any order. -/
theorem runnable_gets_cpu (reached : schedulerRuns.Reached r) (few : r.created < 2 ^ 32)
    (here : r.statics.scheduler = some s) (on : r.statics.preemption = true) (small : d < s.threads.length)
    (present : s.threads[s.ahead d]? = some t) (runs : t.state = .runnable) {calls : List Call}
    (switches : ∀ call ∈ calls, call = .onTimerTick ∨ call = .yieldNow) (long : d ≤ calls.length) :
    ∃ k ≤ d, replay Run.step (calls.take k) r =
      some { r with statics := r.statics.put { s with current := s.ahead d } } := by
  -- every switch on the way leaves the thread nearer
  induction d using Nat.strongRecOn generalizing r s calls with
  | ind d ih =>
    rcases Nat.eq_zero_or_pos d with rfl | positive
    · have inRange := ((good_of_reached reached few).ready s here).current
      refine ⟨0, le_rfl, ?_⟩
      rw [Scheduler.ahead, Nat.add_zero, Nat.mod_eq_of_lt inRange, Statics.put, ← here]
      rfl
    · obtain ⟨e, moves, near, found⟩ := nextRunnable_ahead positive small present runs
      obtain ⟨u, there, -⟩ := nextRunnable_some found
      obtain ⟨call, rest, rfl⟩ := exists_cons_of_length_pos (Nat.lt_of_lt_of_le positive long)
      let after : Scheduler := { s with current := s.ahead e }
      have place : after.ahead (d - e) = s.ahead d := by
        show (s.ahead e + (d - e)) % s.threads.length = s.ahead d
        rw [Scheduler.ahead, Nat.mod_add_mod, Nat.add_assoc, Nat.add_sub_cancel' near, Scheduler.ahead]
      have stepped : r.step call = some { r with statics := r.statics.put after } := by
        rcases switches call mem_cons_self with rfl | rfl
        all_goals simp [Run.step, perform, onTimerTick, yieldNow, on, switchToNext, here, mayCall, found,
          Scheduler.at_eq there, creates, takes, pure, bind, Except.pure, Except.bind, after]
      rw [length_cons] at long
      obtain ⟨k, soon, reaches⟩ := ih (d - e) (by omega) (reached.step ⟨_, stepped⟩) few rfl on
        (Nat.lt_of_le_of_lt (d.sub_le e) small) (place ▸ present) (fun c mem => switches c (mem_cons_of_mem _ mem))
        (by omega)
      refine ⟨k + 1, by omega, ?_⟩
      rw [take_succ_cons, replay, stepped, bind_some, reaches, place]
      rfl

/-- That run, with preemption on. -/
def preempted : Run := { forked with statics := startPreemption forked.statics }

/-- The parent is one place ahead. -/
theorem runnable_gets_cpu_parent : ∃ k ≤ 1,
    ((replay Run.step ([.yieldNow].take k) preempted).bind (·.statics.scheduler)).map (·.current) = some 1 := by
  have reached : schedulerRuns.Reached preempted :=
    System.Reached.replay (.start rfl)
      (show replay Run.step (forkExitReap ++ [.startPreemption]) ⟨boot, 0, []⟩ = some preempted from rfl)
  obtain ⟨k, soon, ends⟩ := runnable_gets_cpu reached (by decide) rfl rfl (d := 1) (by decide) rfl rfl
    (fun _ mem => .inr (mem_singleton.mp mem)) le_rfl
  exact ⟨k, soon, by rw [ends]; rfl⟩

end Ferros.Sched
