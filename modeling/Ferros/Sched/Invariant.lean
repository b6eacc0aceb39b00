/-
**The invariant of the thread vector.**

* `Core s` — thread 0 is a runnable kernel thread, `current` is an index, pids are distinct and every
  parent other than 0 is alive. `Ready s` adds that the current thread is runnable: it is what holds
  between two calls.
* `Evolves t t'` — what any operation may do to one thread; `Core.update` turns it into `Core` of the
  whole vector.
-/

import Ferros.Sched.Thread

namespace Ferros.Sched

open Lib List Option

/-! ### What may happen to one thread -/

/-- The moves of a thread's state. -/
inductive Move : State → State → Prop
  | stay (st : State) : Move st st
  | sleep : Move .runnable .blocked
  | wake : Move .blocked .runnable
  | die {st : State} (alive : isAlive st = true) : Move st .zombie
  | collect : Move .zombie .dead
  | release : Move .zombie .reaped
  | bury : Move .dead .reaped

/-- What an operation may do to a thread. -/
structure Evolves (t t' : Thread) : Prop where
  pid : t'.pid = t.pid
  move : Move t.state t'.state
  /-- A runnable thread of the kernel stays one. -/
  kernel : t.cr3 = none → t.state = .runnable → t'.cr3 = none ∧ t'.state = .runnable

theorem Evolves.refl (t : Thread) : Evolves t t :=
  ⟨rfl, .stay _, fun kernel runs => ⟨kernel, runs⟩⟩

/-! ### The invariant -/

structure Core (s : Scheduler) : Prop where
  zero : ∃ t, s.threads[0]? = some t ∧ t.pid = 0 ∧ t.cr3 = none ∧ t.state = .runnable
  current : s.current < s.threads.length
  distinct : (s.threads.map Thread.pid).Nodup
  parents : ∀ t ∈ s.threads, t.parent ≠ 0 →
    ∃ u ∈ s.threads, u.pid = t.parent ∧ isAlive u.state = true

/-- The current thread runs. -/
structure Ready (s : Scheduler) : Prop extends Core s where
  running : ∃ t, s.threads[s.current]? = some t ∧ t.state = .runnable

/-- Changes every thread in its place. -/
def Scheduler.update (s : Scheduler) (f : ℕ → Thread → Thread) : Scheduler :=
  { s with threads := s.threads.mapIdx f }

theorem Scheduler.getElem?_update (s : Scheduler) (f : ℕ → Thread → Thread) (i : ℕ) :
    (s.update f).threads[i]? = (s.threads[i]?).map (f i) :=
  getElem?_mapIdx

theorem Scheduler.update_update (s : Scheduler) (f g : ℕ → Thread → Thread) :
    (s.update g).update f = s.update fun i t => f i (g i t) := by
  simp only [Scheduler.update, mapIdx_mapIdx]
  rfl

theorem Scheduler.update_self (s : Scheduler) : (s.update fun _ t => t) = s := by
  rw [Scheduler.update, ← map_eq_mapIdx, List.map_id']

variable {s : Scheduler} {t victim u : Thread} {n c p : ℕ} {f : ℕ → Thread → Thread}

theorem Scheduler.at_eq {i : ℕ} (present : s.threads[i]? = some t) : s.at i = .ok t := by
  rw [Scheduler.at, present]

theorem Core.unique (core : Core s) {i j : ℕ} (first : s.threads[i]? = some t) (second : s.threads[j]? = some u)
    (same : t.pid = u.pid) : i = j := by
  have left : (s.threads.map Thread.pid)[i]? = some t.pid := by rw [getElem?_map, first]; rfl
  have right : (s.threads.map Thread.pid)[j]? = some t.pid := by
    rw [getElem?_map, second, same]; rfl
  obtain ⟨inRange, -⟩ := List.getElem?_eq_some_iff.mp left
  exact (getElem?_inj inRange core.distinct).mp (left.trans right.symm)

/-- A pointwise update of the vector that respects the invariant. -/
structure Updates (s : Scheduler) (f : ℕ → Thread → Thread) : Prop where
  evolves : ∀ i t, s.threads[i]? = some t → Evolves t (f i t)
  core : Core (s.update f)

/-- **A pointwise update keeps the invariant** if it evolves every thread and leaves every parent it
keeps alive. -/
theorem Core.update (core : Core s) (evolves : ∀ i t, s.threads[i]? = some t → Evolves t (f i t))
    (parents : ∀ i t, s.threads[i]? = some t → (f i t).parent ≠ 0 →
      ∃ j u, s.threads[j]? = some u ∧ u.pid = (f i t).parent ∧ isAlive (f j u).state) : Updates s f := by
  refine ⟨evolves, ?_, ?_, ?_, ?_⟩
  · obtain ⟨t, present, pid, kernel, runs⟩ := core.zero
    have step := evolves 0 t present
    obtain ⟨kernel', runs'⟩ := step.kernel kernel runs
    refine ⟨f 0 t, ?_, step.pid.trans pid, kernel', runs'⟩
    rw [s.getElem?_update, present, map_some]
  · rw [Scheduler.update, length_mapIdx]
    exact core.current
  · have pids : (s.threads.mapIdx f).map Thread.pid = s.threads.map Thread.pid := by
      refine ext_getElem? fun i => ?_
      rw [List.getElem?_map, List.getElem?_mapIdx, List.getElem?_map, Option.map_map]
      cases present : s.threads[i]? with
      | none => rfl
      | some t => exact congrArg some (evolves i t present).pid
    show ((s.threads.mapIdx f).map Thread.pid).Nodup
    rw [pids]
    exact core.distinct
  · intro t' mem hasParent
    obtain ⟨i, t, present, rfl⟩ := mem_mapIdx_iff.mp mem
    obtain ⟨j, u, parent, pid, alive⟩ := parents i t present hasParent
    exact ⟨f j u, mem_mapIdx_iff.mpr ⟨j, u, parent, rfl⟩, (evolves j u parent).pid.trans pid, alive⟩

/-- An update that keeps parents and keeps live threads alive. -/
theorem Core.update_alive (core : Core s) (evolves : ∀ i t, s.threads[i]? = some t → Evolves t (f i t))
    (parent : ∀ i t, s.threads[i]? = some t → (f i t).parent = t.parent)
    (alive : ∀ i t, s.threads[i]? = some t → isAlive t.state → isAlive (f i t).state) : Updates s f := by
  refine core.update evolves fun i t present hasParent => ?_
  rw [parent i t present] at hasParent ⊢
  obtain ⟨u, mem, pid, isLive⟩ := core.parents t (mem_of_getElem? present) hasParent
  obtain ⟨j, place⟩ := mem_iff_getElem?.mp mem
  exact ⟨j, u, place, pid, alive j u place isLive⟩

/-- Choosing another thread changes nothing else. -/
theorem Core.select (core : Core s) (inRange : n < s.threads.length) : Core { s with current := n } :=
  ⟨core.zero, inRange, core.distinct, core.parents⟩

/-! ### Switching -/

theorem nextRunnable_some (found : nextRunnable s = some n) :
    ∃ t, s.threads[n]? = some t ∧ t.state = .runnable := by
  have holds := List.find?_some found
  rw [Option.any_eq_true] at holds
  obtain ⟨t, present, runs⟩ := holds
  exact ⟨t, present, of_decide_eq_true runs⟩

theorem nextRunnable_none (inRange : s.current < s.threads.length) (missed : nextRunnable s = none)
    (present : s.threads[c]? = some t) (runs : t.state = .runnable) : c = s.current := by
  by_contra other
  obtain ⟨bound, -⟩ := List.getElem?_eq_some_iff.mp present
  have all := find?_eq_none.mp missed
  -- `c` is met after `(c - current) mod len` places
  have met : c ∈ (range' 1 (s.threads.length - 1)).map
      fun i => (s.current + i) % s.threads.length := by
    rw [List.mem_map]
    by_cases after : s.current < c
    · refine ⟨c - s.current, by rw [mem_range'_1]; omega, ?_⟩
      rw [Nat.add_sub_cancel' (by omega), Nat.mod_eq_of_lt bound]
    · refine ⟨c + s.threads.length - s.current, by rw [mem_range'_1]; omega, ?_⟩
      rw [Nat.add_sub_cancel' (by omega), Nat.add_mod_right, Nat.mod_eq_of_lt bound]
  refine all c met ?_
  rw [present, any_some, decide_eq_true_eq]
  exact runs

/-- **A switch always finds a runnable thread**, and changes only `current`. -/
theorem Core.switches (core : Core s) {w : Statics} (here : w.scheduler = some s) :
    ∃ out n, switchToNext w = .ok (out, w.put { s with current := n }) ∧
      Ready { s with current := n } ∧ (out = none → n = s.current) := by
  cases found : nextRunnable s with
  | some n =>
    obtain ⟨t, present, runs⟩ := nextRunnable_some found
    obtain ⟨inRange, -⟩ := List.getElem?_eq_some_iff.mp present
    refine ⟨some ⟨t.cr3.getD s.kernelCr3, t.kernelStackTop, t.fsBase⟩, n, ?_,
      ⟨core.select inRange, t, present, runs⟩, fun no => absurd no (some_ne_none _)⟩
    simp only [switchToNext, here, found, Scheduler.at_eq present]
    rfl
  | none =>
    obtain ⟨zero, present, -, -, runs⟩ := core.zero
    have isZero : 0 = s.current := nextRunnable_none core.current found present runs
    have present' : s.threads[s.current]? = some zero := isZero ▸ present
    refine ⟨none, s.current, ?_, ⟨core, zero, present', runs⟩, fun _ => rfl⟩
    have same : w.put s = w := by rw [Statics.put, ← here]
    simp only [switchToNext, here, found, Scheduler.at_eq present', same]
    exact if_pos runs

/-! ### Termination -/

/-- The pid that `terminate` reads as the victim's parent, after its loop over the children. -/
def parentAfter (victim : Thread) : ℕ :=
  (orphan victim.pid victim).parent

def ending (idx : ℕ) (victim : Thread) (status : ℤ) (signal : Option ℕ) (i : ℕ) (t : Thread) :
    Thread :=
  if i = idx then
    orphan victim.pid { t with exitStatus := some status, termSignal := signal, state := .zombie }
  else if parentAfter victim ≠ 0 ∧ waitsAs (parentAfter victim) t = true then
    wake (orphan victim.pid t)
  else orphan victim.pid t

@[simp] theorem orphan_pid (p : ℕ) (t : Thread) : (orphan p t).pid = t.pid := by
  unfold orphan
  split <;> rfl

@[simp] theorem orphan_state (p : ℕ) (t : Thread) : (orphan p t).state = t.state := by
  unfold orphan
  split <;> rfl

@[simp] theorem orphan_cr3 (p : ℕ) (t : Thread) : (orphan p t).cr3 = t.cr3 := by
  unfold orphan
  split <;> rfl

@[simp] theorem orphan_blockedOn (p : ℕ) (t : Thread) : (orphan p t).blockedOn = t.blockedOn := by
  unfold orphan
  split <;> rfl

@[simp] theorem waitsAs_orphan (p q : ℕ) (t : Thread) : waitsAs p (orphan q t) = waitsAs p t := by
  simp only [waitsAs, orphan_pid, orphan_state, orphan_blockedOn]

theorem orphan_parent (p : ℕ) (t : Thread) : (orphan p t).parent = if t.parent = p then 0 else t.parent := by
  unfold orphan
  split <;> rfl

theorem waitsAs_iff : waitsAs p t ↔ t.pid = p ∧ t.state = .blocked ∧ t.blockedOn = .child := by
  simp only [waitsAs, Bool.and_eq_true, decide_eq_true_eq, and_assoc]

section Ending

variable (idx : ℕ) (victim : Thread) (status : ℤ) (signal : Option ℕ) (i : ℕ) (t : Thread)

@[simp] theorem ending_pid : (ending idx victim status signal i t).pid = t.pid := by
  unfold ending
  split
  · rw [orphan_pid]
  · split <;> simp [wake]

@[simp] theorem ending_cr3 : (ending idx victim status signal i t).cr3 = t.cr3 := by
  unfold ending
  split
  · rw [orphan_cr3]
  · split <;> simp [wake]

theorem ending_parent : (ending idx victim status signal i t).parent =
      if t.parent = victim.pid then 0 else t.parent := by
  unfold ending
  split
  · rw [orphan_parent]
  · split
    · exact orphan_parent _ _
    · rw [orphan_parent]

@[simp] theorem ending_blockedOn :
    (ending idx victim status signal i t).blockedOn = t.blockedOn := by
  unfold ending
  split
  · rw [orphan_blockedOn]
  · split <;> simp [wake]

variable {idx i}

theorem ending_state_self : (ending idx victim status signal idx t).state = .zombie := by
  rw [ending, if_pos rfl, orphan_state]

theorem ending_state_other (other : i ≠ idx) : (ending idx victim status signal i t).state =
      if parentAfter victim ≠ 0 ∧ waitsAs (parentAfter victim) t then .runnable else t.state := by
  rw [ending, if_neg other]
  split
  · rfl
  · rw [orphan_state]

end Ending

/-- The source's three loops are one pointwise update. -/
theorem terminate_eq (core : Core s) {idx : ℕ} (present : s.threads[idx]? = some victim) (status : ℤ)
    (signal : Option ℕ) : terminate s idx status signal = .ok (s.update (ending idx victim status signal)) := by
  have marked := set_eq_mapIdx present fun t =>
    { t with exitStatus := some status, termSignal := signal, state := .zombie }
  have pids : (((s.threads.set idx { victim with
      exitStatus := some status, termSignal := signal, state := .zombie }).map
        (orphan victim.pid)).map Thread.pid).Nodup := by
    refine Eq.mp (congrArg List.Nodup ?_) core.distinct
    rw [marked]
    refine List.ext_getElem? fun i => ?_
    simp only [List.getElem?_map, List.getElem?_mapIdx, Option.map_map]
    congr 1
    funext t
    simp only [Function.comp_apply, orphan_pid]
    split <;> rfl
  rw [terminate, Scheduler.at_eq present]
  simp only [bind, Except.bind, pure, Except.pure]
  have parent : (orphan victim.pid { victim with
      exitStatus := some status, termSignal := signal, state := .zombie }).parent =
        parentAfter victim := by
    rw [parentAfter, orphan_parent, orphan_parent]
  rw [parent]
  split
  · rename_i hasParent
    rw [modifyFirst_eq_map wake pids fun t asParent => (waitsAs_iff.mp asParent).1, marked]
    refine congrArg (fun l => Except.ok { s with threads := l }) ?_
    refine List.ext_getElem? fun i => ?_
    simp only [List.getElem?_map, List.getElem?_mapIdx, Option.map_map]
    congr 1
    funext t
    simp only [Function.comp_apply, waitsAs_orphan, ending]
    by_cases here : i = idx
    · simp [here, waitsAs]
    · simp [here, hasParent]
  · rename_i noParent
    rw [marked]
    refine congrArg (fun l => Except.ok { s with threads := l }) ?_
    refine List.ext_getElem? fun i => ?_
    simp only [List.getElem?_map, List.getElem?_mapIdx, Option.map_map]
    congr 1
    funext t
    simp only [Function.comp_apply, ending]
    by_cases here : i = idx
    · simp [here]
    · simp [here, noParent]

theorem evolves_ending {idx : ℕ} (present : s.threads[idx]? = some victim) (alive : isAlive victim.state)
    (user : victim.cr3 ≠ none) (status : ℤ) (signal : Option ℕ) (i : ℕ) (t : Thread)
    (place : s.threads[i]? = some t) : Evolves t (ending idx victim status signal i t) := by
  by_cases here : i = idx
  · subst here
    cases present.symm.trans place
    refine ⟨ending_pid .., ?_, fun kernel => absurd kernel user⟩
    rw [ending_state_self]
    exact .die alive
  · refine ⟨ending_pid .., ?_, fun kernel runs => ⟨(ending_cr3 ..).trans kernel, ?_⟩⟩
    · rw [ending_state_other _ _ _ _ here]
      split
      · rename_i woken
        rw [(waitsAs_iff.mp woken.2).2.1]
        exact .wake
      · exact .stay _
    · rw [ending_state_other _ _ _ _ here]
      split
      · rfl
      · exact runs

/-- **Terminating a live user process keeps the invariant**, the current thread apart. -/
theorem Core.after_ending (core : Core s) {idx : ℕ} (present : s.threads[idx]? = some victim)
    (alive : isAlive victim.state) (user : victim.cr3 ≠ none) (status : ℤ) (signal : Option ℕ) :
    Updates s (ending idx victim status signal) := by
  refine core.update (evolves_ending present alive user status signal) fun i t place hasParent => ?_
  rw [ending_parent] at hasParent ⊢
  have notVictim : t.parent ≠ victim.pid := fun same => hasParent (if_pos same)
  rw [if_neg notVictim] at hasParent ⊢
  obtain ⟨u, mem, pid, isLive⟩ := core.parents t (mem_of_getElem? place) hasParent
  obtain ⟨j, there⟩ := mem_iff_getElem?.mp mem
  refine ⟨j, u, there, pid, ?_⟩
  -- the parent is not the victim, so it keeps its state or is woken
  have other : j ≠ idx := by
    rintro rfl
    cases present.symm.trans there
    exact notVictim pid.symm
  rw [ending_state_other _ _ _ _ other]
  split
  · rfl
  · exact isLive

end Ferros.Sched
