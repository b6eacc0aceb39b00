/-
**Who holds the write end?**

A reader sleeps on a pipe while its counter of writers is positive. The counter counts the write ends in the
tables of all processes, dead ones too, and those that the reaper has taken out of a table and not yet
dropped.

* `flight`, `counters_exact` — with the descriptors in flight the counters stay exact over all runs.
* `abandons` — the events that leave a write end behind: a fault or a deadly signal that hits a holder of
  one, and the reaper forgetting the table of a live process.
* `reader_has_writer` — in runs without such events, a sleeping reader has a live writer.

A reader that sleeps has a positive counter of writers (`starves_of_reached`), and the counters are exact, so
the write end is in a table or in flight. `Tended` says that it is in the table of a live process: `exit`
empties the table before the process dies (`writes_exit`), and the other ways to die are the events that
`abandons` tells, by the state before them.
-/

import Ferros.Files.Count
import Ferros.Kernel.Children
import Ferros.Kernel.Ownership
import Ferros.Kernel.Wakeups

namespace Ferros.Kernel

open Lib Drivers Files Mm Sched List Option

variable {k k' : Machine} {s : Scheduler} {threads threads' : List Thread} {e : Event}
  {r r' : Registry} {key f : Frame} {h : Multiset Fd} {op : Op} {outcome : Outcome} {t : Thread}

/-! ### Descriptors in flight -/

/-- The descriptor that a task will drop. -/
def Task.carried : Task → Multiset Fd
  | .dropFd slot => inSlot slot
  | _ => 0

/-- The descriptors that the reaper has taken out of tables and not yet dropped. -/
def flight (tasks : List Task) : Multiset Fd :=
  (tasks.map Task.carried).sum

theorem flight_cons (task : Task) (tasks : List Task) : flight (task :: tasks) = task.carried + flight tasks :=
  rfl

theorem flight_dropFds (fds : List (Option Fd)) (tasks : List Task) :
    flight (fds.map .dropFd ++ tasks) = held fds + flight tasks := by
  induction fds with
  | nil => exact (zero_add _).symm
  | cons slot fds ih =>
    rw [map_cons, cons_append, flight_cons, ih, held_cons, add_assoc]
    rfl

theorem flight_corpseTasks (corpses : List Corpse) : flight (corpseTasks corpses) = 0 := by
  induction corpses with
  | nil => rfl
  | cons corpse rest ih =>
    have head : flight (corpseTasks (corpse :: rest)) = flight (corpseTasks rest) := by
      obtain ⟨_ | pml4, stack⟩ := corpse
      · rfl
      · exact (zero_add _).trans (zero_add _)
    rw [head, ih]

theorem flight_next {task : Task} (tasks : List Task) (empty : task.carried = 0) :
    flight (task :: tasks) = flight tasks := by
  rw [flight_cons, empty, zero_add]

theorem accounted_calm (accounted : Accounted h r) : Accounted h (calm r) :=
  ⟨accounted.ends, accounted.pipes, accounted.strong, accounted.sockets, accounted.closed, accounted.known⟩

theorem accounted_performed (accounted : Accounted h r) (ran : perform op r = some (outcome, r')) :
    Accounted h (calm r') := by
  obtain ⟨outcome', r'', performed', accounted'⟩ := accounted.perform op
  cases ran.symm.trans performed'
  exact accounted_calm accounted'

/-- **Every step of the kernel keeps the counters exact.** -/
theorem accounted_of_stepped (accounted : Accounted (flight k.tasks) k.registry)
    (stepped : Stepped k s e k' threads) : Accounted (flight k'.tasks) k'.registry := by
  cases stepped with
  | tick | execFails | collects | waits | childless | ignores | notes | kills | faults | spawns =>
    exact accounted
  | file w current user mine ran => exact accounted_performed accounted ran
  | readReturns w current reads ran => exact accounted_performed accounted ran
  | readBlocks w current reads ran => exact accounted_performed accounted ran
  | brk w current user took own nodup ran => exact accounted_performed accounted ran
  | fork w current user built ran => exact accounted_performed accounted ran
  | exec w current user built all ran => exact accounted_performed accounted ran
  | exit w current user ran => exact accounted_performed accounted ran
  | readStdin current reads ran after =>
    obtain ⟨-, -, -, tasks, registry⟩ := after.kept
    rw [tasks, registry]
    exact accounted_performed accounted ran
  | resumeStdin current doing after =>
    obtain ⟨-, -, -, tasks, registry⟩ := after.kept
    rw [tasks, registry]
    exact accounted
  | feeds idle fed =>
    rw [idle] at accounted
    show Accounted (flight (if _ then _ else _)) k.registry
    split
    · rwa [flight_next [] rfl]
    · exact accounted
  | reaps w idle =>
    rw [idle] at accounted
    show Accounted (flight (corpseTasks _)) k.registry
    rw [flight_corpseTasks]
    exact accounted
  | wakesStdin w next | wakesPipes w next | destroys next =>
    rw [next, flight_next _ rfl] at accounted
    exact accounted
  | @forgets order pml4 tasks next =>
    rw [next, flight_next _ rfl] at accounted
    show Exact k.registry.shared (Registry.holds ⟨_, k.registry.shared⟩ (flight (_ ++ _)))
    have same : Registry.holds ⟨k.registry.processes.erase pml4, k.registry.shared⟩
        (held ((k.registry.processes.lookup pml4).elim [] ProcState.fds) + flight tasks) =
        k.registry.holds (flight tasks) := by
      rw [← holds_erase k.registry pml4 k.registry.shared, Registry.holds, Registry.holds, add_left_comm]
    rw [flight_dropFds, same]
    exact accounted
  | @drops order slot tasks shared next dropped =>
    rw [next, flight_cons, Accounted, Registry.holds, add_left_comm] at accounted
    obtain ⟨shared', dropped', exact⟩ := accounted.dropSlot
    cases dropped.symm.trans dropped'
    have same : flight (if shared.wake then .wakePipeWaiters :: tasks else tasks) = flight tasks := by
      split
      · exact flight_next tasks rfl
      · rfl
    show Accounted (flight (if _ then _ else _)) (calm { k.registry with shared })
    rw [same]
    exact accounted_calm exact

/-! ### Write ends in tables -/

def isWriteEnd : Fd → Bool
  | .pipeWrite _ => true
  | _ => false

/-- The table of the process with PML4 `f` holds a write end. -/
def writes (r : Registry) (f : Frame) : Bool :=
  ((r.processes.lookup f).elim [] ProcState.fds).any (Option.any isWriteEnd)

/-- The event leaves a write end without a live holder: a fault of a process that has one, a signal that
terminates such a process, or the forgetting of a table that a live process uses. -/
def abandons (e : Event) (k : Machine) : Bool :=
  match e with
  | .fault => k.current.any fun (_, t) => t.cr3.any (writes k.registry)
  | .call (.kill pid sig) =>
    sig ≠ 0 && defaultTerminates sig &&
      k.threads.any fun t => isTarget (pid % 2 ^ 32).toNat t && t.cr3.any (writes k.registry)
  | .task _ =>
    match k.tasks with
    | .forgetProcess pml4 :: _ => k.threads.any fun t => t.cr3 = some pml4 && isAlive t.state
    | _ => false
  | _ => false

/-- The process with PML4 `f` is alive. -/
def Lives (threads : List Thread) (f : Frame) : Prop :=
  ∃ t ∈ threads, t.cr3 = some f ∧ isAlive t.state = true

/-- Write ends are in tables of live processes only. -/
structure Tended (k : Machine) (threads : List Thread) : Prop where
  live : ∀ f, writes k.registry f = true → Lives threads f
  carried : ∀ fd ∈ flight k.tasks, isWriteEnd fd = false

section

variable (lives : Lives threads f)
include lives

theorem Lives.mapIdx {g : ℕ → Thread → Thread}
    (kept : ∀ (i : ℕ) (t : Thread), threads[i]? = some t → t.cr3 = some f → isAlive t.state = true →
      (g i t).cr3 = some f ∧ isAlive (g i t).state = true) : Lives (threads.mapIdx g) f := by
  obtain ⟨t, mem, cr3, alive⟩ := lives
  obtain ⟨i, present⟩ := mem_iff_getElem?.mp mem
  have place : (threads.mapIdx g)[i]? = some (g i t) := by rw [getElem?_mapIdx, present, map_some]
  exact ⟨g i t, mem_of_getElem? place, kept i t present cr3 alive⟩

theorem Lives.append (new : List Thread) : Lives (threads ++ new) f := by
  obtain ⟨t, mem, cr3, alive⟩ := lives
  exact ⟨t, mem_append_left new mem, cr3, alive⟩

theorem Lives.wakes (reason : BlockReason) : Lives (threads.mapIdx (waking reason)) f :=
  lives.mapIdx fun i t _ cr3 alive =>
    ⟨(waking_cr3 i t reason).trans cr3, (spared_waking reason i t).alive.trans alive⟩

theorem Lives.stirs (wake : Bool) : Lives (threads.mapIdx (stirring wake)) f :=
  lives.mapIdx fun i t _ cr3 alive =>
    ⟨(stirring_cr3 i t wake).trans cr3, (spared_stirring wake i t).alive.trans alive⟩

theorem Lives.sleeps (c : ℕ) (reason : BlockReason) : Lives (threads.mapIdx (sleeping c reason)) f := by
  refine lives.mapIdx fun i t _ cr3 alive => ⟨(sleeping_cr3 i t c reason).trans cr3, ?_⟩
  unfold sleeping
  split
  · rfl
  · exact alive

end

/-- A process other than the one that ends. -/
theorem Lives.ends (idx : ℕ) (lives : Lives threads f)
    (away : ∀ t, threads[idx]? = some t → t.cr3 ≠ some f) (victim : Thread) (status : ℤ) (signal : Option ℕ) :
    Lives (threads.mapIdx (ending idx victim status signal)) f := by
  refine lives.mapIdx fun i t present cr3 alive => ⟨(ending_cr3 ..).trans cr3, ?_⟩
  have other : i ≠ idx := by
    rintro rfl
    exact away t present cr3
  rw [ending_state_other _ _ _ _ other]
  split
  · rfl
  · exact alive

theorem Lives.buries (lives : Lives s.threads f) : Lives (s.threads.mapIdx (burying s)) f := by
  refine lives.mapIdx fun i t _ cr3 alive => ?_
  have keeps : burying s i t = t := by
    refine if_neg fun reaped => ?_
    exact nomatch alive.symm.trans (not_alive_of_collectable (isReaped_iff.mp reaped).2)
  rw [keeps]
  exact ⟨cr3, alive⟩

/-- The other processes keep their PML4s when one replaces its own. -/
theorem Lives.replaces {t : Thread} (lives : Lives s.threads f) (current : Current s t key) (pml4 : Frame)
    (away : f ≠ key) : Lives (s.threads.mapIdx (replacing s.current pml4)) f := by
  refine lives.mapIdx fun i u present cr3 alive => ?_
  have other : i ≠ s.current := by
    rintro rfl
    cases current.present.symm.trans present
    exact away (some.inj (cr3.symm.trans current.user))
  rw [replacing, if_neg other]
  exact ⟨cr3, alive⟩

theorem AfterStdin.lives {c count : ℕ} {copies : Bool} (stdin : AfterStdin c count copies k threads k' threads')
    (lives : Lives threads f) : Lives threads' f := by
  cases stdin with
  | nothing | returns => exact lives
  | sleeps => exact lives.sleeps c .stdin

theorem writes_congr {f : Frame} (same : r'.processes.lookup f = r.processes.lookup f) :
    writes r' f = writes r f := by
  rw [writes, same, writes]

/-- **`exit` leaves no write end in the table.** -/
theorem writes_exit (ran : perform (.exit key) r = some (outcome, r')) : writes r' key = false := by
  obtain ⟨⟨files, r''⟩, released, same⟩ := map_eq_some_iff.mp ran
  cases same
  unfold releaseCurrentProcessFds at released
  split at released
  · rename_i absent
    cases released
    rw [writes, absent]
    rfl
  · obtain ⟨shared, -, made⟩ := bind_eq_some_iff.mp released
    cases made
    rw [writes, Finmap.lookup_insert]
    rfl

theorem Current.lives (sane : Sane k.statics s) (current : Current s t key) : Lives s.threads key :=
  ⟨t, mem_of_getElem? current.present, current.user, by rw [sane.runs current]; rfl⟩

/-- A turn of reading changes no table but that of the reader. -/
theorem Reads.others {c : ℕ} {count : ℕ} {copies : Bool} (reads : Reads k c key e op count copies)
    (ran : perform op k.registry = some (outcome, r)) {f : Frame} (away : f ≠ key) :
    r.processes.lookup f = k.registry.processes.lookup f := by
  cases reads with
  | call fd count copies user => exact (lived_of_perform rfl ran).2 f away
  | resume buf count copies doing => rw [resume_processes ran]

/-- A step that changes at most the table of the current process. -/
theorem Tended.calls (tended : Tended k s.threads) (sane : Sane k.statics s) (current : Current s t key)
    (others : ∀ {f}, f ≠ key → k'.registry.processes.lookup f = k.registry.processes.lookup f)
    (lives : ∀ f, writes k'.registry f → Lives s.threads f → Lives threads f) (tasks : k'.tasks = k.tasks) :
    Tended k' threads := by
  refine ⟨fun f holds => lives f holds ?_, by rw [tasks]; exact tended.carried⟩
  by_cases mine : f = key
  · rw [mine]
    exact current.lives sane
  · rw [writes_congr (others mine)] at holds
    exact tended.live f holds

/-- A step that changes no table. -/
theorem Tended.keeps (tended : Tended k s.threads) (same : k'.registry.processes = k.registry.processes)
    (lives : ∀ f, writes k.registry f → Lives s.threads f → Lives threads f)
    (tasks : flight k'.tasks = flight k.tasks) : Tended k' threads := by
  refine ⟨fun f holds => ?_, by rw [tasks]; exact tended.carried⟩
  have unchanged : k'.registry.processes.lookup f = k.registry.processes.lookup f := by rw [same]
  rw [writes_congr unchanged] at holds
  exact lives f holds (tended.live f holds)

section Abandons

variable {tasks : List Task}

theorem no_write_end_of_fault (sane : Sane k.statics s) (current : Current s t key)
    (spares : abandons .fault k = false) : writes k.registry key = false := by
  simpa only [abandons, current_eq sane current.present, any_some, current.user] using spares

theorem no_write_end_of_kill {u : Thread} {pid : ℤ} {sig idx : ℕ} (sane : Sane k.statics s)
    (spares : abandons (.call (.kill pid sig)) k = false) (deadly : sig ≠ 0 ∧ defaultTerminates sig = true)
    (present : s.threads[idx]? = some u) (target : isTarget (pid % 2 ^ 32).toNat u = true)
    (cr3 : u.cr3 = some f) : writes k.registry f = false := by
  refine Bool.eq_false_iff.mpr fun holds => Bool.eq_false_iff.mp spares ?_
  have hit : (k.threads.any fun t => isTarget (pid % 2 ^ 32).toNat t && t.cr3.any (writes k.registry)) := by
    rw [sane.threads_eq]
    refine any_eq_true.mpr ⟨u, mem_of_getElem? present, ?_⟩
    rw [target, cr3, any_some, holds]
    rfl
  simp only [abandons, deadly.1, deadly.2, hit, ne_eq, not_false_eq_true, decide_true, Bool.and_self]

theorem not_lives_of_forget {order : List Frame} {pml4 : Frame} (sane : Sane k.statics s)
    (spares : abandons (.task order) k = false) (next : k.tasks = .forgetProcess pml4 :: tasks) :
    ¬ Lives s.threads pml4 := by
  rintro ⟨t, mem, cr3, alive⟩
  refine Bool.eq_false_iff.mp spares ?_
  simp only [abandons, next, sane.threads_eq]
  refine any_eq_true.mpr ⟨t, mem, ?_⟩
  rw [alive, decide_eq_true cr3]
  rfl

end Abandons

/-- **One step** that leaves no write end behind. -/
theorem tended_of_stepped (sane : Sane k.statics s) (tended : Tended k s.threads)
    (spares : abandons e k = false) (stepped : Stepped k s e k' threads) : Tended k' threads := by
  cases stepped with
  | tick | childless | ignores | execFails => exact tended.keeps rfl (fun _ _ lives => lives) rfl
  | file w current user mine ran =>
    exact tended.calls sane current (fun away => (lived_of_perform (caller_owner mine) ran).2 _ away)
      (fun _ _ lives => lives.stirs _) rfl
  | readReturns w current reads ran =>
    exact tended.calls sane current (fun away => reads.others ran away) (fun _ _ lives => lives.stirs _) rfl
  | readBlocks w current reads ran =>
    exact tended.calls sane current (fun away => reads.others ran away)
      (fun _ _ lives => (lives.stirs _).sleeps _ _) rfl
  | readStdin current reads ran after =>
    obtain ⟨-, -, -, tasks, registry⟩ := after.kept
    refine tended.calls sane current (fun away => ?_) (fun _ _ lives => after.lives (lives.stirs _)) tasks
    rw [registry]
    exact reads.others ran away
  | resumeStdin current doing after =>
    obtain ⟨-, -, -, tasks, registry⟩ := after.kept
    exact tended.keeps (by rw [registry]) (fun _ _ lives => after.lives lives) (by rw [tasks])
  | brk w current user took own nodup ran =>
    exact tended.calls sane current (fun away => (lived_of_perform rfl ran).2 _ away)
      (fun _ _ lives => lives.stirs _) rfl
  | @fork u key pml4 n top fsBase stack rest frames outcome r w current user built ran =>
    refine ⟨fun f holds => ?_, tended.carried⟩
    by_cases new : f = pml4
    · exact ⟨_, mem_append_right _ mem_cons_self, by rw [new]; rfl, rfl⟩
    · have before : writes k.registry f := (writes_congr (lookup_of_forked (fork_spec ran).1 new)).symm.trans holds
      exact ((tended.live f before).stirs _).append _
  | @exec u key pml4 n rest order frames outcome r w current user built all ran =>
    refine ⟨fun f holds => ?_, tended.carried⟩
    by_cases new : f = pml4
    · have place : ((s.threads.mapIdx (replacing s.current pml4)).mapIdx
          (stirring r.shared.wake))[s.current]? = some { u with cr3 := some pml4, fsBase := 0 } := by
        have runs := sane.runs current
        rw [getElem?_mapIdx, getElem?_mapIdx, current.present, map_some, map_some, replacing, if_pos rfl]
        exact congrArg some (stirring_of_runnable (t := { u with cr3 := some pml4, fsBase := 0 }) runs _ _)
      refine ⟨_, mem_of_getElem? place, by rw [new], ?_⟩
      show isAlive u.state
      rw [sane.runs current]
      rfl
    · have lookup := lookup_of_rekeyed (exec_spec ran).1 new
      have old : f ≠ key := by
        rintro rfl
        rw [if_pos rfl] at lookup
        have silent : writes r f = false := by rw [writes, lookup]; rfl
        exact Bool.false_ne_true (silent.symm.trans holds)
      rw [if_neg old] at lookup
      have before : writes k.registry f := (writes_congr lookup).symm.trans holds
      exact ((tended.live f before).replaces current pml4 old).stirs _
  | @exit t key status outcome r w current user ran =>
    refine tended.calls sane current (fun away => (lived_of_perform rfl ran).2 _ away)
      (fun f holds lives => (lives.stirs _).ends _ (fun u place cr3 => ?_) _ _ _) rfl
    -- the table of the process that exits is empty
    rw [getElem?_mapIdx, current.present, map_some, stirring_of_runnable (sane.runs current)] at place
    cases place
    cases current.user.symm.trans cr3
    exact Bool.false_ne_true ((writes_exit ran).symm.trans holds)
  | collects w current waits answered present mine zombie =>
    refine tended.keeps rfl (fun f _ lives => lives.mapIdx fun i t place cr3 alive => ?_) rfl
    refine ⟨(collecting_cr3 i t _).trans cr3, ?_⟩
    unfold collecting
    split
    · rename_i here
      subst here
      cases present.symm.trans place
      rw [zombie] at alive
      cases alive
    · exact alive
  | waits w current waits => exact tended.keeps rfl (fun _ _ lives => lives.sleeps _ _) rfl
  | notes =>
    exact tended.keeps rfl (fun _ _ lives => lives.mapIdx fun i t _ cr3 alive =>
      ⟨(marking_cr3 ..).trans cr3, by rw [marking_state]; exact alive⟩) rfl
  | @kills t u key pid sig idx w current user deadly present target =>
    refine tended.keeps rfl (fun f holds lives => ?_) rfl
    have marked : Lives (s.threads.mapIdx (marking idx sig)) f := lives.mapIdx fun i t _ cr3 alive =>
      ⟨(marking_cr3 ..).trans cr3, by rw [marking_state]; exact alive⟩
    have ended := marked.ends idx (fun v place cr3 => ?_) (marking idx sig idx u) (128 + sig) (some sig)
    · rwa [mapIdx_mapIdx] at ended
    · rw [getElem?_mapIdx, present, map_some] at place
      cases place
      rw [marking_cr3] at cr3
      have silent := no_write_end_of_kill sane spares deadly present target cr3
      exact Bool.false_ne_true (silent.symm.trans holds)
  | @faults t key w current user =>
    refine tended.keeps rfl (fun f holds lives => lives.ends _ (fun u place cr3 => ?_) _ _ _) rfl
    cases current.present.symm.trans place
    cases current.user.symm.trans cr3
    exact Bool.false_ne_true ((no_write_end_of_fault sane current spares).symm.trans holds)
  | feeds idle fed =>
    refine tended.keeps rfl (fun _ _ lives => lives) ?_
    rw [idle]
    show flight (if _ then _ else _) = _
    split
    · exact flight_next [] rfl
    · rfl
  | reaps w idle =>
    refine tended.keeps rfl (fun _ _ lives => lives.buries) ?_
    rw [idle]
    exact flight_corpseTasks _
  | spawns w idle built => exact tended.keeps rfl (fun _ _ lives => lives.append _) rfl
  | wakesStdin w next | wakesPipes w next =>
    refine tended.keeps rfl (fun _ _ lives => lives.wakes _) ?_
    rw [next]
    exact (flight_next _ rfl).symm
  | destroys next all =>
    refine tended.keeps rfl (fun _ _ lives => lives) ?_
    rw [next]
    exact (flight_next _ rfl).symm
  | @forgets order pml4 tasks next =>
    have silent : writes k.registry pml4 = false :=
      Bool.eq_false_iff.mpr fun holds => not_lives_of_forget sane spares next (tended.live pml4 holds)
    refine ⟨fun f holds => ?_, fun fd mem => ?_⟩
    · have away : f ≠ pml4 := by
        rintro rfl
        have gone : writes ⟨k.registry.processes.erase f, k.registry.shared⟩ f = false := by
          rw [writes, Finmap.lookup_erase]
          rfl
        exact Bool.false_ne_true (gone.symm.trans holds)
      exact tended.live f ((writes_congr (Finmap.lookup_erase_ne away)).symm.trans holds)
    · rw [flight_dropFds] at mem
      rcases Multiset.mem_add.mp mem with inTable | later
      · refine Bool.eq_false_iff.mpr fun isEnd => ?_
        refine Bool.eq_false_iff.mp silent (any_eq_true.mpr ⟨some fd, mem_held.mp inTable, ?_⟩)
        rwa [any_some]
      · refine tended.carried fd ?_
        rwa [next, flight_next tasks rfl]
  | @drops order slot tasks shared next dropped =>
    refine ⟨tended.live, fun fd mem => tended.carried fd ?_⟩
    rw [next, flight_cons]
    refine Multiset.mem_add.mpr (.inr ?_)
    revert mem
    show fd ∈ flight (if _ then _ else _) → _
    split
    · rw [flight_next tasks rfl]
      exact id
    · exact id

/-! ### Runs -/

theorem tended_boot (kernelCr3 : Frame) (memoryMap : MemoryMap) (next : ℕ) :
    Tended (.boot kernelCr3 memoryMap next) [bootThread] where
  live := fun _ holds => nomatch holds
  carried := fun _ mem => nomatch mem

/-- The runs in which no event leaves a write end behind. -/
def tendedRuns : System Machine :=
  .ofOps (fun k => ∃ kernelCr3 memoryMap next, k = .boot kernelCr3 memoryMap next)
    (guarded (fun e k => !abandons e k) Machine.step)

/-- **A run** that leaves no write end behind. -/
theorem tended_of_reached {k : Machine} (reached : tendedRuns.Reached k) :
    ∃ s, Sane k.statics s ∧ Accounted (flight k.tasks) k.registry ∧ Tended k s.threads := by
  refine tendedRuns.invariant (fun k => ∃ s, Sane k.statics s ∧ Accounted (flight k.tasks) k.registry ∧
    Tended k s.threads) ?_ ?_ reached
  · rintro k ⟨kernelCr3, memoryMap, next, rfl⟩
    exact ⟨_, sane_boot .., exact_empty, tended_boot ..⟩
  · rintro k k' - ⟨s, sane, accounted, tended⟩ ⟨e, ran⟩
    obtain ⟨spares, stepped⟩ := guarded_eq_some.mp ran
    obtain ⟨s', sane', outcome⟩ := Machine.stepped sane stepped
    exact ⟨s', sane', accounted_of_stepped accounted outcome,
      tended_of_stepped sane tended (Bool.not_eq_true' _ |>.mp spares) outcome⟩

/-- **A sleeping reader has a live writer**, in every run in which no fault and no deadly signal hits a
process that has a write end, and no table is forgotten that a live process uses. -/
theorem reader_has_writer {k : Machine} (reached : tendedRuns.Reached k)
    {s : Scheduler} (here : k.statics.scheduler = some s) {i : ℕ} {t : Thread}
    (present : s.threads[i]? = some t) (blocked : t.state = .blocked) (reads : t.blockedOn = .pipe)
    (pipesWoken : Task.wakePipeWaiters ∉ k.tasks) :
    ∃ buf count, k.doing i = .readingPipe buf count ∧ ∃ u ∈ s.threads, isAlive u.state = true ∧
      ∃ f p, u.cr3 = some f ∧ k.registry.processes.lookup f = some p ∧ some (.pipeWrite buf) ∈ p.fds := by
  obtain ⟨buf, count, b, doing, there, -, writers⟩ :=
    starves_of_reached reached.unguard here present blocked reads pipesWoken
  obtain ⟨s', sane, accounted, tended⟩ := tended_of_reached reached
  cases here.symm.trans sane.here
  have counted : b.writers = (k.registry.holds (flight k.tasks)).count (.pipeWrite buf) :=
    accounted.ends .write buf b there
  rw [counted] at writers
  rcases Multiset.mem_add.mp (Multiset.count_pos.mp writers) with inTables | inFlight
  · obtain ⟨f, p, found, inTable⟩ := mem_total inTables
    have holds : writes k.registry f = true := by
      rw [writes, found]
      exact any_eq_true.mpr ⟨_, mem_held.mp inTable, rfl⟩
    obtain ⟨u, mem, cr3, alive⟩ := tended.live f holds
    exact ⟨buf, count, doing, u, mem, alive, f, p, cr3, found, mem_held.mp inTable⟩
  · exact nomatch tended.carried _ inFlight

/-- A process makes a pipe and forks; the parent closes its write end and reads. -/
def readsFromChild : List Event :=
  [.spawnUser 0 0 0, .tick, .call (.file (.pipe 1 true)), .call (.fork 0 0 1 0),
    .call (.file (.close 1 4 fun _ => none)), .call (.read 3 10 true)]

/-- The child has the write end. -/
theorem reader_has_writer_child : ∃ buf u f p, u ∈ (smallRun readsFromChild).threads ∧ u.cr3 = some f ∧
    (smallRun readsFromChild).registry.processes.lookup f = some p ∧ some (.pipeWrite buf) ∈ p.fds := by
  have replayed : replay (guarded (fun e k => !abandons e k) Machine.step) readsFromChild smallKernel =
      some (smallRun readsFromChild) := rfl
  have reached : tendedRuns.Reached (smallRun readsFromChild) := .replay (.start ⟨_, _, _, rfl⟩) replayed
  obtain ⟨buf, count, -, u, mem, -, f, p, cr3, found, holds⟩ :=
    reader_has_writer reached rfl (i := 1) rfl rfl rfl nofun
  exact ⟨buf, u, f, p, mem, cr3, found, holds⟩

/-- **A reader asleep for good.** The child faults: it holds the write end until it is reaped, which it is not
before its parent, the reader, collects it. -/
theorem reader_has_no_writer : ∃ k s t, kernelRuns.Reached k ∧ k.statics.scheduler = some s ∧
    t ∈ s.threads ∧ t.state = .blocked ∧ t.blockedOn = .pipe ∧ k.tasks = [] ∧
    ∀ u ∈ s.threads, isAlive u.state = true → u.cr3.any (writes k.registry) = false := by
  have reached : kernelRuns.Reached (smallRun (readsFromChild ++ [.fault])) := reached_smallRun rfl
  refine ⟨_, _, _, reached, rfl, mem_of_getElem? (i := 1) rfl, rfl, rfl, rfl, ?_⟩
  decide

/-- **The counters are exact in every run**, with the descriptors that the reaper has yet to drop. -/
theorem counters_exact (reached : kernelRuns.Reached k) : Accounted (flight k.tasks) k.registry :=
  holds_of_reached (fun k _ => Accounted (flight k.tasks) k.registry) (fun _ _ _ => exact_empty)
    accounted_of_stepped reached

/-- A process makes a pipe and forks; the child dies by a fault and is collected, and the reaper has taken
its table. -/
def takesTable : List Event :=
  [.spawnUser 0 0 0, .tick, .call (.file (.pipe 1 true)), .call (.fork 0 0 1 0), .tick, .fault, .tick,
    .call (.wait4 (-1)), .tick, .reap, .task [], .task []]

/-- The ends of the child are in flight. -/
theorem counters_exact_child : let k := smallRun takesTable
    .pipeRead 0 ∈ flight k.tasks ∧ .pipeWrite 0 ∈ flight k.tasks ∧ Accounted (flight k.tasks) k.registry :=
  ⟨by decide, by decide, counters_exact (reached_smallRun rfl)⟩

end Ferros.Kernel
