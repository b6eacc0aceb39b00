/-
**The calls of the scheduler, one by one.**

For each call, started where `Ready` holds: what it does to the thread vector as a pointwise update,
that it does not panic, and that `Ready` holds after it.

* `Ready.exits`, `Ready.blocks`, `Ready.wakes`, `Ready.reaps`, `Ready.push` — calls with one outcome.
* `Ready.signals`, `Ready.waits` — the outcomes `Signalled` and `Waited` of the two calls with several.
-/

import Ferros.Sched.Invariant

namespace Ferros.Sched

open Lib List Option
open Mm (Frame)

variable {s : Scheduler} {w : Statics} {pid idx target parent i : ℕ} {f : ℕ → Thread → Thread} {t cur : Thread}

/-! ### The calls -/

/-- A call that leaves every thread in its place, changed by `f`, and may have switched. -/
structure Acts (f : ℕ → Thread → Thread) (s : Scheduler) (w w' : Statics) : Prop where
  updates : Updates s f
  result : ∃ n, w' = w.put { s.update f with current := n } ∧
    Ready { s.update f with current := n }

section Calls

/-- Switching away after an update, the last action of every call that gives up the CPU. -/
theorem Updates.acts (updates : Updates s f) (w : Statics) :
    ∃ out w', switchToNext (w.put (s.update f)) = .ok (out, w') ∧ Acts f s w w' ∧
      (out = none → ∃ t, (s.update f).threads[s.current]? = some t ∧ t.state = .runnable) := by
  obtain ⟨out, n, switched, ready, stayed⟩ :=
    updates.core.switches (show (w.put (s.update f)).scheduler = some (s.update f) from rfl)
  refine ⟨out, _, switched, ⟨updates, n, rfl, ready⟩, fun no => ?_⟩
  have same : n = s.current := stayed no
  exact same ▸ ready.running

theorem Ready.acts (ready : Ready s) (updates : Updates s f)
    (keeps : ∀ i t, s.threads[i]? = some t → t.state = .runnable → (f i t).state = .runnable) (w : Statics) :
    Acts f s w (w.put (s.update f)) := by
  refine ⟨updates, s.current, rfl, updates.core, ?_⟩
  obtain ⟨t, present, runs⟩ := ready.running
  refine ⟨f s.current t, ?_, keeps _ t present runs⟩
  rw [s.getElem?_update, present, map_some]

theorem Core.update_self (core : Core s) : Updates s fun _ t => t :=
  core.update_alive (fun _ t _ => .refl t) (fun _ _ _ => rfl) fun _ _ _ alive => alive

/-- **yield_now** changes no thread. -/
theorem Ready.yields (ready : Ready s) (here : w.scheduler = some s) :
    ∃ w', yieldNow w = .ok w' ∧ Acts (fun _ t => t) s w w' := by
  obtain ⟨out, w', switched, acts, -⟩ := ready.toCore.update_self.acts w
  have same : w.put (s.update fun _ t => t) = w := by rw [s.update_self, Statics.put, ← here]
  rw [same] at switched
  exact ⟨w', by rw [yieldNow, switched]; rfl, acts⟩

/-- The pending bit that `signal` sets. -/
def marking (idx sig i : ℕ) (t : Thread) : Thread :=
  if i = idx then { t with pendingSignals := t.pendingSignals ||| (1#64 <<< (sig - 1)) } else t

/-- A signal whose default action is to terminate. -/
def killing (idx : ℕ) (victim : Thread) (sig i : ℕ) (t : Thread) : Thread :=
  ending idx (marking idx sig idx victim) (128 + sig) (some sig) i (marking idx sig i t)

theorem evolves_marking (idx sig i : ℕ) (t : Thread) : Evolves t (marking idx sig i t) := by
  unfold marking
  split
  · exact ⟨rfl, .stay _, fun kernel runs => ⟨kernel, runs⟩⟩
  · exact .refl t

@[simp] theorem marking_state (idx sig i : ℕ) (t : Thread) :
    (marking idx sig i t).state = t.state := by
  unfold marking
  split <;> rfl

@[simp] theorem marking_cr3 (idx sig i : ℕ) (t : Thread) :
    (marking idx sig i t).cr3 = t.cr3 := by
  unfold marking
  split <;> rfl

@[simp] theorem marking_parent (idx sig i : ℕ) (t : Thread) :
    (marking idx sig i t).parent = t.parent := by
  unfold marking
  split <;> rfl

theorem Core.after_marking (core : Core s) (idx sig : ℕ) : Updates s (marking idx sig) :=
  core.update_alive (fun i t _ => evolves_marking idx sig i t) (fun i t _ => marking_parent ..)
    fun i t _ alive => by rw [marking_state]; exact alive

theorem isTarget_iff : isTarget pid t ↔ t.pid = pid ∧ t.cr3 ≠ none ∧ isAlive t.state := by
  simp only [isTarget, Bool.and_eq_true, decide_eq_true_eq, isSome_iff_ne_none, and_assoc]

/-- The outcomes of `signal`. -/
inductive Signalled (target sig : ℕ) (s : Scheduler) (w : Statics) :
    Except Panic (SignalOutcome × Statics) → Prop
  | overflow (large : 64 < sig) : Signalled target sig s w (.error .shiftOverflow)
  | missed : Signalled target sig s w (.ok (.noSuchProcess, w))
  | checked : Signalled target sig s w (.ok (.delivered, w))
  | noted {idx : ℕ} {t : Thread} {w' : Statics} (present : s.threads[idx]? = some t)
      (isTarget : isTarget target t = true) (acts : Acts (marking idx sig) s w w') :
      Signalled target sig s w (.ok (.delivered, w'))
  | killed {idx : ℕ} {t : Thread} {w' : Statics} (deadly : sig ≠ 0 ∧ defaultTerminates sig = true)
      (present : s.threads[idx]? = some t) (isTarget : isTarget target t = true)
      (acts : Acts (killing idx t sig) s w w') : Signalled target sig s w (.ok (.delivered, w'))

/-- A kill keeps the invariant: the children of the victim are orphaned. -/
theorem Core.after_killing (core : Core s) (present : s.threads[idx]? = some t) (isTarget : isTarget target t)
    (sig : ℕ) : Updates s (killing idx t sig) := by
  obtain ⟨-, user, alive⟩ := isTarget_iff.mp isTarget
  have place : (s.update (marking idx sig)).threads[idx]? = some (marking idx sig idx t) := by
    rw [s.getElem?_update, present, map_some]
  have marked := core.after_marking idx sig
  have ended := marked.core.after_ending place (by rw [marking_state]; exact alive)
    (by rw [marking_cr3]; exact user) (128 + sig) (some sig)
  have core' := ended.core
  rw [s.update_update] at core'
  refine ⟨fun i u there => ?_, core'⟩
  have there' : (s.update (marking idx sig)).threads[i]? = some (marking idx sig i u) := by
    rw [s.getElem?_update, there, map_some]
  have step := ended.evolves i _ there'
  refine ⟨step.pid.trans (evolves_marking idx sig i u).pid, ?_, fun kernel runs =>
    step.kernel ((marking_cr3 ..).trans kernel) ((marking_state ..).trans runs)⟩
  exact marking_state idx sig i u ▸ step.move

def sleeping (cur : ℕ) (reason : BlockReason) (i : ℕ) (t : Thread) : Thread :=
  if i = cur then { t with state := .blocked, blockedOn := reason } else t

theorem block_eq (reason : BlockReason) (s : Scheduler) :
    block reason s = s.update (sleeping s.current reason) := by
  rw [block, modify_eq_mapIdx]
  rfl

/-- A running user thread falls asleep, the others stay. -/
theorem evolves_sleeping {cur : ℕ} (present : s.threads[cur]? = some t) (runs : t.state = .runnable)
    (user : t.cr3 ≠ none) (reason : BlockReason) (i : ℕ) (u : Thread) (place : s.threads[i]? = some u) :
    Evolves u (sleeping cur reason i u) := by
  unfold sleeping
  split
  · rename_i here
    subst here
    cases present.symm.trans place
    refine ⟨rfl, ?_, fun kernel => absurd kernel user⟩
    rw [runs]
    exact .sleep
  · exact .refl u

theorem Ready.after_sleeping (ready : Ready s) (present : s.threads[s.current]? = some t) (user : t.cr3 ≠ none)
    (reason : BlockReason) : Updates s (sleeping s.current reason) := by
  obtain ⟨t', present', runs⟩ := ready.running
  cases present.symm.trans present'
  refine ready.toCore.update_alive (evolves_sleeping present runs user reason) ?_ ?_
  · intro i u _
    unfold sleeping
    split <;> rfl
  · intro i u _ alive
    unfold sleeping
    split
    · rfl
    · exact alive

theorem isMine_iff {want : Option ℕ} : isMine parent want t ↔ t.parent = parent ∧ want.all (t.pid = ·) := by
  simp only [isMine, Bool.and_eq_true, decide_eq_true_eq]

def collecting (idx i : ℕ) (t : Thread) : Thread :=
  if i = idx then { t with state := .dead } else t

/-- The outcomes of one turn of `wait_current`. -/
inductive Waited (want : Option ℕ) (cur : Thread) (s : Scheduler) (w : Statics) :
    Option WaitResult → Statics → Prop
  | collected {idx : ℕ} {t : Thread} {w' : Statics} (present : s.threads[idx]? = some t)
      (mine : isMine cur.pid want t = true) (zombie : t.state = .zombie)
      (acts : Acts (collecting idx) s w w') (same : w' = w.put (s.update (collecting idx))) :
      Waited want cur s w (some (.collected t.pid (t.exitStatus.getD 0) t.termSignal)) w'
  | blocked {w' : Statics}
      (noZombie : ∀ t ∈ s.threads, isMine cur.pid want t = true → t.state ≠ .zombie)
      (child : ∃ t ∈ s.threads, isMine cur.pid want t = true ∧ isAlive t.state = true)
      (acts : Acts (sleeping s.current .child) s w w') : Waited want cur s w none w'
  | childless
      (noZombie : ∀ t ∈ s.threads, isMine cur.pid want t = true → t.state ≠ .zombie)
      (noChild : ∀ t ∈ s.threads, isMine cur.pid want t = true → isAlive t.state = false) :
      Waited want cur s w (some .noChildren) w

theorem Ready.after_collecting (ready : Ready s) (present : s.threads[idx]? = some t)
    (zombie : t.state = .zombie) (w : Statics) :
    Acts (collecting idx) s w (w.put (s.update (collecting idx))) := by
  have zombieAt : ∀ i u, s.threads[i]? = some u → i = idx → u.state = .zombie := by
    rintro i u place rfl
    cases present.symm.trans place
    exact zombie
  refine ready.acts (ready.toCore.update_alive ?_ ?_ ?_) ?_ w
  · intro i u place
    unfold collecting
    split
    · rename_i here
      have dead := zombieAt i u place here
      refine ⟨rfl, ?_, fun _ runs => absurd (dead.symm.trans runs) (by decide)⟩
      rw [dead]
      exact .collect
    · exact .refl u
  · intro i u _
    unfold collecting
    split <;> rfl
  · intro i u place alive
    unfold collecting
    split
    · rename_i here
      rw [zombieAt i u place here] at alive
      exact absurd alive (by decide)
    · exact alive
  · intro i u place runs
    unfold collecting
    split
    · rename_i here
      exact absurd ((zombieAt i u place here).symm.trans runs) (by decide)
    · exact runs

/-- What `wake_stdin_readers` and `wake_pipe_waiters` do to a thread. -/
def waking (reason : BlockReason) (_ : ℕ) (t : Thread) : Thread :=
  if isBlockedOn reason t then wake t else t

theorem isBlockedOn_iff {reason : BlockReason} :
    isBlockedOn reason t ↔ t.state = .blocked ∧ t.blockedOn = reason := by
  simp only [isBlockedOn, Bool.and_eq_true, decide_eq_true_eq]

theorem wakeAll_eq (here : w.scheduler = some s) (reason : BlockReason) :
    wakeAll reason w = w.put (s.update (waking reason)) := by
  rw [wakeAll, here, map_some, map_eq_mapIdx]
  rfl

section

variable (ready : Ready s) (here : w.scheduler = some s)
include ready here

/-- **exit** ends the current thread, orphans its children and wakes its parent. -/
theorem Ready.exits (present : s.threads[s.current]? = some t) (user : t.cr3 ≠ none) (status : ℤ)
    (signal : Option ℕ) : ∃ w', exitCurrentInner status signal w = .ok w' ∧
      Acts (ending s.current t status signal) s w w' := by
  obtain ⟨t', present', runs⟩ := ready.running
  cases present.symm.trans present'
  have updates := ready.toCore.after_ending present (by rw [runs]; rfl) user status signal
  obtain ⟨out, w', switched, acts, stayed⟩ := updates.acts w
  refine ⟨w', ?_, acts⟩
  have got : w.get = .ok s := by rw [Statics.get, here]
  simp only [exitCurrentInner, got, bind, Except.bind, terminate_eq ready.toCore present, switched]
  cases out with
  | some _ => rfl
  | none =>
    -- a dead thread is never chosen again
    obtain ⟨z, place, alive⟩ := stayed rfl
    rw [s.getElem?_update, present, map_some, some.injEq] at place
    rw [← place, ending_state_self] at alive
    exact State.noConfusion alive

/-- **kill** ends one thread, marks it or finds none; a signal above 64 panics. -/
theorem Ready.signals (target sig : ℕ) : Signalled target sig s w (signal target sig w) := by
  have got : w.get = .ok s := by rw [Statics.get, here]
  simp only [signal, got, bind, Except.bind]
  cases found : s.threads.findIdx? (isTarget target) with
  | none => exact .missed
  | some idx =>
    obtain ⟨inRange, isTarget, -⟩ := findIdx?_eq_some_iff_getElem.mp found
    have present : s.threads[idx]? = some s.threads[idx] := getElem?_eq_getElem inRange
    by_cases check : sig = 0
    · simp only [if_pos check]
      exact .checked
    by_cases large : 64 < sig
    · simp only [if_neg check, if_pos large]
      exact .overflow large
    have noted : ({ s with threads := s.threads.modify idx fun t => { t with
        pendingSignals := t.pendingSignals ||| (1#64 <<< (sig - 1)) } } : Scheduler) =
        s.update (marking idx sig) := by
      rw [modify_eq_mapIdx]
      rfl
    simp only [if_neg check, if_neg large, noted]
    by_cases terminates : defaultTerminates sig
    · have place : (s.update (marking idx sig)).threads[idx]? =
          some (marking idx sig idx s.threads[idx]) := by
        rw [s.getElem?_update, present, map_some]
      have updates := ready.toCore.after_killing present isTarget sig
      simp only [if_pos terminates,
        terminate_eq (ready.toCore.after_marking idx sig).core place, s.update_update]
      by_cases self : idx = s.current
      · obtain ⟨out, w', switched, acts, stayed⟩ := updates.acts w
        have switched' : switchToNext (w.put (s.update fun i t =>
            ending idx (marking idx sig idx s.threads[idx]) (128 + sig) (some sig) i
              (marking idx sig i t))) = .ok (out, w') := switched
        rw [if_pos (show idx = (s.update _).current from self), switched']
        cases out with
        | some _ => exact .killed ⟨check, terminates⟩ present isTarget acts
        | none =>
          obtain ⟨z, place, alive⟩ := stayed rfl
          rw [← self, s.getElem?_update, present, map_some, some.injEq] at place
          rw [← place, killing, ending_state_self] at alive
          exact State.noConfusion alive
      · rw [if_neg (show ¬ idx = (s.update _).current from self)]
        refine .killed ⟨check, terminates⟩ present isTarget ⟨updates, s.current, rfl, updates.core, ?_⟩
        -- the current thread is another one, and it is not blocked
        obtain ⟨cur, curPresent, runs⟩ := ready.running
        refine ⟨killing idx s.threads[idx] sig s.current cur, ?_, ?_⟩
        · rw [s.getElem?_update, curPresent, map_some]
        · rw [killing, ending_state_other _ _ _ _ (Ne.symm self), marking_state, runs]
          exact ite_self _
    · simp only [if_neg terminates]
      exact .noted present isTarget (ready.acts (ready.toCore.after_marking idx sig)
        (fun i t _ runs => by rw [marking_state]; exact runs) w)

/-- **block_current_on** puts the current thread to sleep. -/
theorem Ready.blocks (present : s.threads[s.current]? = some t) (user : t.cr3 ≠ none) (reason : BlockReason) :
    ∃ w', blockCurrentOn reason w = .ok w' ∧ Acts (sleeping s.current reason) s w w' := by
  obtain ⟨out, w', switched, acts, -⟩ := (ready.after_sleeping present user reason).acts w
  refine ⟨w', ?_, acts⟩
  have got : w.get = .ok s := by rw [Statics.get, here]
  simp only [blockCurrentOn, got, bind, Except.bind, Scheduler.at_eq present, block_eq, switched]
  rfl

/-- **wait4** collects a zombie child, sleeps or has no child. -/
theorem Ready.waits (present : s.threads[s.current]? = some cur) (wantPid : ℤ)
    (user : ∀ w', tryCollectOrBlock wantPid w = .ok (.wouldBlock, w') → cur.cr3 ≠ none) :
    ∃ out w', waitCurrent wantPid w = .ok (out, w') ∧ Waited (wanted wantPid) cur s w out w' := by
  have got : w.get = .ok s := by rw [Statics.get, here]
  cases found : s.threads.findIdx? fun t =>
      isMine cur.pid (wanted wantPid) t && decide (t.state = .zombie) with
  | some idx =>
    obtain ⟨inRange, both, -⟩ := findIdx?_eq_some_iff_getElem.mp found
    obtain ⟨mine, zombie⟩ := (Bool.and_eq_true _ _).mp both
    have zombie := of_decide_eq_true zombie
    have place : s.threads[idx]? = some s.threads[idx] := getElem?_eq_getElem inRange
    have taken : ({ s with threads := s.threads.set idx { s.threads[idx] with state := .dead } } :
        Scheduler) = s.update (collecting idx) := by
      rw [set_eq_mapIdx place fun t => { t with state := .dead }]
      rfl
    refine ⟨_, _, ?_, .collected place mine zombie (ready.after_collecting place zombie w) rfl⟩
    simp only [waitCurrent, tryCollectOrBlock, got, bind, Except.bind, Scheduler.at_eq present,
      found, Scheduler.at_eq place, taken]
    rfl
  | none =>
    have noZombie : ∀ t ∈ s.threads, isMine cur.pid (wanted wantPid) t →
        t.state ≠ .zombie := by
      intro t mem mine zombie
      have missed := findIdx?_eq_none_iff.mp found t mem
      rw [mine, Bool.true_and, decide_eq_false_iff_not] at missed
      exact missed zombie
    by_cases child : (s.threads.any fun t =>
        isMine cur.pid (wanted wantPid) t && isAlive t.state)
    · have tried : tryCollectOrBlock wantPid w =
          .ok (.wouldBlock, w.put (s.update (sleeping s.current .child))) := by
        simp only [tryCollectOrBlock, got, bind, Except.bind, Scheduler.at_eq present, found,
          if_pos child, block_eq]
        rfl
      obtain ⟨out, w', switched, acts, -⟩ := (ready.after_sleeping present (user _ tried) .child).acts w
      refine ⟨none, w', ?_, .blocked noZombie ?_ acts⟩
      · simp only [waitCurrent, tried, bind, Except.bind, switched]
        rfl
      · obtain ⟨t, mem, both⟩ := any_eq_true.mp child
        exact ⟨t, mem, (Bool.and_eq_true _ _).mp both⟩
    · refine ⟨_, w, ?_, .childless noZombie fun t mem mine => ?_⟩
      · simp only [waitCurrent, tryCollectOrBlock, got, bind, Except.bind,
          Scheduler.at_eq present, found, if_neg child]
        rfl
      · by_contra alive
        rw [Bool.not_eq_false] at alive
        exact child (any_eq_true.mpr ⟨t, mem, by rw [mine, alive]; rfl⟩)

/-- **wake_all** wakes those who sleep for the reason, no others. -/
theorem Ready.wakes (reason : BlockReason) : Acts (waking reason) s w (wakeAll reason w) := by
  rw [wakeAll_eq here]
  refine ready.acts (ready.toCore.update_alive ?_ ?_ ?_) ?_ w
  · intro i t _
    unfold waking
    split
    · rename_i asleep
      have blocked := (isBlockedOn_iff.mp asleep).1
      refine ⟨rfl, ?_, fun kernel runs => absurd (blocked.symm.trans runs) (by decide)⟩
      rw [blocked]
      exact .wake
    · exact .refl t
  · intro i t _
    unfold waking
    split <;> rfl
  · intro i t _ alive
    unfold waking
    split
    · rfl
    · exact alive
  · intro i t _ runs
    unfold waking
    split
    · rfl
    · exact runs

end

/-- What the first phase of `reap` does to thread `i`. -/
def burying (s : Scheduler) (i : ℕ) (t : Thread) : Thread :=
  if isReaped s i t then bury t else t

theorem collectable_iff : collectable t ↔ t.state = .dead ∨ t.state = .zombie ∧ t.parent = 0 := by
  simp only [collectable, Bool.or_eq_true, Bool.and_eq_true, decide_eq_true_eq]

theorem isReaped_iff : isReaped s i t ↔ i ≠ s.current ∧ collectable t := by
  simp only [isReaped, Bool.and_eq_true, decide_eq_true_eq]

theorem not_alive_of_collectable (taken : collectable t) : isAlive t.state = false := by
  rcases collectable_iff.mp taken with dead | ⟨zombie, -⟩
  · rw [dead]; rfl
  · rw [zombie]; rfl

section

variable (here : w.scheduler = some s)
include here

theorem reap_eq : reap true w = ((reaped s).map fun t => (t.cr3, t.stack), w.put (s.update (burying s))) := by
  unfold reap
  rw [here]
  rfl

omit here in
/-- **The reaper** buries what is collectable, never the current thread. -/
theorem Ready.reaps (ready : Ready s) (w : Statics) : Acts (burying s) s w (w.put (s.update (burying s))) := by
  refine ready.acts (ready.toCore.update_alive ?_ ?_ ?_) ?_ w
  · intro i t _
    unfold burying
    split
    · rename_i taken
      have isDead := (isReaped_iff.mp taken).2
      have notAlive := not_alive_of_collectable isDead
      refine ⟨rfl, ?_, fun _ runs => absurd notAlive (by rw [runs]; decide)⟩
      rcases collectable_iff.mp isDead with dead | ⟨zombie, -⟩
      · rw [dead]; exact .bury
      · rw [zombie]; exact .release
    · exact .refl t
  · intro i t _
    unfold burying
    split <;> rfl
  · intro i t _ alive
    unfold burying
    split
    · rename_i taken
      exact absurd alive (by rw [not_alive_of_collectable (isReaped_iff.mp taken).2]; decide)
    · exact alive
  · intro i t _ runs
    unfold burying
    split
    · rename_i taken
      exact absurd (not_alive_of_collectable (isReaped_iff.mp taken).2) (by rw [runs]; decide)
    · exact runs

omit here in
/-- **A new thread** with a fresh pid and a live parent. -/
theorem Ready.push (ready : Ready s) (fresh : ∀ u ∈ s.threads, u.pid ≠ t.pid)
    (parent : t.parent ≠ 0 → ∃ u ∈ s.threads, u.pid = t.parent ∧ isAlive u.state) :
    Ready { s with threads := s.threads ++ [t] } where
  zero := by
    obtain ⟨zero, present, rest⟩ := ready.zero
    exact ⟨zero, List.getElem?_append_left (List.getElem?_eq_some_iff.mp present).1 ▸ present, rest⟩
  current := by
    rw [length_append]
    exact Nat.lt_add_right _ ready.current
  distinct := by
    rw [map_append, map_singleton, ← concat_eq_append]
    refine Nodup.concat (fun again => ?_) ready.distinct
    obtain ⟨u, mem, same⟩ := mem_map.mp again
    exact fresh u mem same
  parents := by
    intro u mem hasParent
    rcases mem_append.mp mem with old | new
    · obtain ⟨v, there, pid, alive⟩ := ready.parents u old hasParent
      exact ⟨v, mem_append_left _ there, pid, alive⟩
    · obtain rfl := mem_singleton.mp new
      obtain ⟨v, there, pid, alive⟩ := parent hasParent
      exact ⟨v, mem_append_left _ there, pid, alive⟩
  running := by
    obtain ⟨cur, present, runs⟩ := ready.running
    exact ⟨cur, List.getElem?_append_left (List.getElem?_eq_some_iff.mp present).1 ▸ present, runs⟩

/-- The current thread's pid, read by `spawn` and `add_user_task`. -/
theorem currentPid_eq (present : s.threads[s.current]? = some cur) : currentPid w = .ok cur.pid := by
  simp only [currentPid, here, Scheduler.at_eq present]
  rfl

theorem pushThread_eq (t : Thread) : pushThread t w = .ok (w.put { s with threads := s.threads ++ [t] }) := by
  simp only [pushThread, Statics.get, here]
  rfl

/-- The thread that `spawn` creates. -/
def kernelThread (pid parent : ℕ) (stack : Stack) (top : ℕ) : Thread where
  pid := pid
  parent := parent
  exitStatus := none
  termSignal := none
  pendingSignals := 0
  stack := some stack
  cr3 := none
  kernelStackTop := top
  fsBase := 0
  state := .runnable
  blockedOn := .none

theorem spawn_eq (present : s.threads[s.current]? = some cur) (stack : Stack) (top : ℕ) :
    spawn stack top w = .ok ((fetchPid w).2.put
      { s with threads := s.threads ++ [kernelThread w.nextPid cur.pid stack top] }) := by
  have here' : (fetchPid w).2.scheduler = some s := here
  simp only [spawn, currentPid_eq here present, bind, Except.bind]
  exact pushThread_eq here' _

/-- The thread that `add_user_task` creates. -/
def userThread (pid parent : ℕ) (cr3 : Frame) (top : ℕ) (kstack : Stack) (fsBase : ℕ) : Thread where
  pid := pid
  parent := parent
  exitStatus := none
  termSignal := none
  pendingSignals := 0
  stack := some kstack
  cr3 := some cr3
  kernelStackTop := top
  fsBase := fsBase
  state := .runnable
  blockedOn := .none

theorem addUserTask_eq (present : s.threads[s.current]? = some cur) (cr3 : Frame) (top : ℕ) (kstack : Stack)
    (fsBase : ℕ) : addUserTask cr3 top kstack fsBase w = .ok (w.nextPid, (fetchPid w).2.put
      { s with threads := s.threads ++ [userThread w.nextPid cur.pid cr3 top kstack fsBase] }) := by
  have here' : (fetchPid w).2.scheduler = some s := here
  simp only [addUserTask, currentPid_eq here present, bind, Except.bind, pushThread_eq here']
  rfl

end

/-- What `exec_replace_cr3` does to thread `i`. -/
def replacing (cur : ℕ) (new : Frame) (i : ℕ) (t : Thread) : Thread :=
  if i = cur then { t with cr3 := some new, fsBase := 0 } else t

/-- **execve** changes the address space of the current thread only. -/
theorem Ready.replaces (ready : Ready s) (here : w.scheduler = some s)
    (present : s.threads[s.current]? = some cur) {old : Frame} (user : cur.cr3 = some old) (new : Frame) :
    execReplaceCr3 new w = .ok (old, w.put (s.update (replacing s.current new))) ∧
      Acts (replacing s.current new) s w (w.put (s.update (replacing s.current new))) := by
  have got : w.get = .ok s := by rw [Statics.get, here]
  have set : ({ s with threads := s.threads.set s.current { cur with
      cr3 := some new, fsBase := 0 } } : Scheduler) = s.update (replacing s.current new) := by
    rw [set_eq_mapIdx present fun t => { t with cr3 := some new, fsBase := 0 }]
    rfl
  refine ⟨?_, ready.acts (ready.toCore.update_alive ?_ ?_ ?_) ?_ w⟩
  · simp only [execReplaceCr3, got, bind, Except.bind, Scheduler.at_eq present, user, set]
    rfl
  · intro i t place
    unfold replacing
    split
    · rename_i isCurrent
      subst isCurrent
      cases present.symm.trans place
      exact ⟨rfl, .stay _, fun kernel => absurd (user.symm.trans kernel) (some_ne_none _)⟩
    · exact .refl t
  · intro i t _
    unfold replacing
    split <;> rfl
  · intro i t _ alive
    unfold replacing
    split <;> exact alive
  · intro i t _ runs
    unfold replacing
    split <;> exact runs

end Calls

end Ferros.Sched
