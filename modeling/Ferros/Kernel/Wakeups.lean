/-
**No wake-up is lost.**

* `Justified` — why a blocked thread sleeps: its pipe is empty and has writers, the console has nothing
  ready, or it has a live child that it asked for and no zombie; or a wake-up is owed.
* `Awake` — every blocked thread is justified. One lemma for each part of a step: `Awake.update` for calls
  of the scheduler that put nobody to sleep, `Awake.ends` for the end of a process, `Awake.sleeps` for
  blocking, `Awake.views` for changes of buffers and tasks.
* `no_lost_wakeup` — over all runs of the kernel.
-/

import Ferros.Files.Recount
import Ferros.Kernel.Steps

namespace Ferros.Kernel

open Lib Drivers Files Mm Sched List Option Function

/-! ### Why a thread sleeps -/

/-- What sleeping threads depend on, the threads apart. -/
structure View where
  doing : ℕ → Doing
  shared : Shared
  ready : List UInt8
  tasks : List Task

variable {v v' : View} {threads threads' : List Thread} {f : ℕ → Thread → Thread} {t t' z victim cur : Thread}
  {pid idx i c count buf : ℕ} {wantPid : ℤ} {tasks : List Task} {reason : BlockReason} {k k' : Machine}
  {s : Scheduler} {copies : Bool} {e : Event} {op : Op} {r : Registry}

def Machine.view (k : Machine) : View :=
  ⟨k.doing, k.registry.shared, k.console.ready, k.tasks⟩

/-- `wake_pipe_waiters` is still to be called. -/
def View.owesPipes (v : View) : Prop :=
  Task.wakePipeWaiters ∈ v.tasks ∨ v.shared.wake = true

/-- `wake_stdin_readers` is still to be called. -/
def View.owesStdin (v : View) : Prop :=
  Task.wakeStdinReaders ∈ v.tasks

/-- Process `pid` has a live child that it asked for, and no zombie to collect. -/
structure Expects (threads : List Thread) (pid : ℕ) (wantPid : ℤ) : Prop where
  child : ∃ u ∈ threads, isMine pid (wanted wantPid) u = true ∧ isAlive u.state = true
  noZombie : ∀ u ∈ threads, isMine pid (wanted wantPid) u = true → u.state ≠ .zombie

inductive Justified (v : View) (threads : List Thread) (i : ℕ) (t : Thread) : Prop
  | pipe (reason : t.blockedOn = .pipe) (buf count : ℕ) (doing : v.doing i = .readingPipe buf count)
      (starved : v.owesPipes ∨ v.shared.starved buf)
  | stdin (reason : t.blockedOn = .stdin) (count : ℕ) (doing : v.doing i = .readingStdin count)
      (empty : v.owesStdin ∨ v.ready = [])
  | child (reason : t.blockedOn = .child) (wantPid : ℤ) (doing : v.doing i = .waiting wantPid)
      (expects : Expects threads t.pid wantPid)

def Awake (v : View) (threads : List Thread) : Prop :=
  ∀ (i : ℕ) (t : Thread), threads[i]? = some t → t.state = .blocked → Justified v threads i t

/-! ### Changes of the threads -/

/-- A change that puts nobody to sleep, kills nobody and makes no zombies. -/
structure Quiet (t t' : Thread) : Prop where
  pid : t'.pid = t.pid
  parent : t'.parent = t.parent
  asleep : t'.state = .blocked → t.state = .blocked ∧ t'.blockedOn = t.blockedOn
  alive : isAlive t.state = true → isAlive t'.state = true
  zombie : t'.state = .zombie → t.state = .zombie

theorem Quiet.refl (t : Thread) : Quiet t t :=
  ⟨rfl, rfl, fun blocked => ⟨blocked, rfl⟩, id, id⟩

section Threads

theorem isMine_congr (pid : t'.pid = t.pid) (parent : t'.parent = t.parent) (p : ℕ) (want : Option ℕ) :
    isMine p want t' = isMine p want t := by
  rw [isMine, isMine, pid, parent]

/-- Children that stay children, live ones alive, and no new zombies. -/
theorem Expects.update (expects : Expects threads pid wantPid)
    (kept : ∀ (i : ℕ) (u : Thread), threads[i]? = some u → isMine pid (wanted wantPid) u →
      isAlive u.state → isMine pid (wanted wantPid) (f i u) ∧ isAlive (f i u).state)
    (noNew : ∀ (i : ℕ) (u : Thread), threads[i]? = some u →
      isMine pid (wanted wantPid) (f i u) → (f i u).state = .zombie →
        isMine pid (wanted wantPid) u ∧ u.state = .zombie) : Expects (threads.mapIdx f) pid wantPid where
  child := by
    obtain ⟨u, mem, mine, alive⟩ := expects.child
    obtain ⟨i, place⟩ := mem_iff_getElem?.mp mem
    exact ⟨f i u, mem_mapIdx_iff.mpr ⟨i, u, place, rfl⟩, kept i u place mine alive⟩
  noZombie := by
    intro u' mem mine zombie
    obtain ⟨i, u, place, rfl⟩ := mem_mapIdx_iff.mp mem
    obtain ⟨mine, zombie⟩ := noNew i u place mine zombie
    exact expects.noZombie u (mem_of_getElem? place) mine zombie

/-- **A quiet change** of the threads. -/
theorem Awake.update (awake : Awake v threads)
    (quiet : ∀ (i : ℕ) (t : Thread), threads[i]? = some t → Quiet t (f i t)) : Awake v (threads.mapIdx f) := by
  intro i t' present blocked
  obtain ⟨t, place, rfl⟩ := map_eq_some_iff.mp (getElem?_mapIdx.symm.trans present)
  have step := quiet i t place
  obtain ⟨wasBlocked, sameReason⟩ := step.asleep blocked
  cases awake i t place wasBlocked with
  | pipe reason buf count doing starved =>
    exact .pipe (sameReason.trans reason) buf count doing starved
  | stdin reason count doing empty => exact .stdin (sameReason.trans reason) count doing empty
  | child reason wantPid doing expects =>
    refine .child (sameReason.trans reason) wantPid doing ?_
    rw [step.pid]
    refine expects.update (fun j u there mine alive => ?_) fun j u there mine zombie => ?_
    · have other := quiet j u there
      exact ⟨(isMine_congr other.pid other.parent _ _).trans mine, other.alive alive⟩
    · have other := quiet j u there
      exact ⟨(isMine_congr other.pid other.parent _ _).symm.trans mine, other.zombie zombie⟩

theorem quiet_marking (idx sig i : ℕ) (t : Thread) : Quiet t (marking idx sig i t) := by
  unfold marking
  split
  · exact ⟨rfl, rfl, fun blocked => ⟨blocked, rfl⟩, id, id⟩
  · exact .refl t

theorem quiet_replacing (cur : ℕ) (new : Frame) (i : ℕ) (t : Thread) : Quiet t (replacing cur new i t) := by
  unfold replacing
  split
  · exact ⟨rfl, rfl, fun blocked => ⟨blocked, rfl⟩, id, id⟩
  · exact .refl t

theorem quiet_waking (reason : BlockReason) (i : ℕ) (t : Thread) : Quiet t (waking reason i t) := by
  unfold waking
  split
  · exact ⟨rfl, rfl, nofun, fun _ => rfl, nofun⟩
  · exact .refl t

theorem quiet_burying (s : Scheduler) (i : ℕ) (t : Thread) : Quiet t (burying s i t) := by
  unfold burying
  split
  · rename_i taken
    have notAlive := not_alive_of_collectable (isReaped_iff.mp taken).2
    exact ⟨rfl, rfl, nofun, fun alive => absurd alive (by rw [notAlive]; decide), nofun⟩
  · exact .refl t

theorem quiet_collecting (present : threads[idx]? = some z) (zombie : z.state = .zombie) (i : ℕ) (t : Thread)
    (place : threads[i]? = some t) : Quiet t (collecting idx i t) := by
  unfold collecting
  split
  · rename_i here
    subst here
    cases present.symm.trans place
    exact ⟨rfl, rfl, nofun, fun alive => absurd alive (by rw [zombie]; decide), nofun⟩
  · exact .refl t

/-- After waking everyone who sleeps for a reason, nobody does. -/
theorem not_blocked_of_waking (blocked : (waking reason i t).state = .blocked) :
    (waking reason i t).blockedOn ≠ reason := by
  unfold waking at blocked ⊢
  split at blocked
  · exact nomatch blocked
  · rename_i other
    rw [if_neg other]
    exact fun same => other (isBlockedOn_iff.mpr ⟨blocked, same⟩)

/-- **The end of a process.** Its parent is woken if it waits, so no sleeper has lost a child. -/
theorem Awake.ends (awake : Awake v threads)
    (numbered : ∀ (i : ℕ) (t : Thread), threads[i]? = some t → t.pid = i)
    (zero : ∃ z, threads[0]? = some z ∧ z.state = .runnable) (present : threads[idx]? = some victim)
    (status : ℤ) (signal : Option ℕ) : Awake v (threads.mapIdx (ending idx victim status signal)) := by
  intro i t' place' blocked
  obtain ⟨t, place, rfl⟩ := map_eq_some_iff.mp (getElem?_mapIdx.symm.trans place')
  have other : i ≠ idx := by
    rintro rfl
    rw [ending_state_self] at blocked
    exact nomatch blocked
  rw [ending_state_other _ _ _ _ other] at blocked
  split at blocked
  · exact nomatch blocked
  rename_i notWoken
  cases awake i t place blocked with
  | pipe reason buf count doing starved =>
    exact .pipe ((ending_blockedOn ..).trans reason) buf count doing starved
  | stdin reason count doing empty =>
    exact .stdin ((ending_blockedOn ..).trans reason) count doing empty
  | child reason wantPid doing expects =>
    refine .child ((ending_blockedOn ..).trans reason) wantPid doing ?_
    rw [ending_pid]
    have index : t.pid = i := numbered i t place
    have notZero : t.pid ≠ 0 := by
      rw [index]
      rintro rfl
      obtain ⟨z, there, runs⟩ := zero
      cases there.symm.trans place
      exact nomatch runs.symm.trans blocked
    have notSelf : t.pid ≠ victim.pid := by
      rw [index, numbered idx victim present]
      exact other
    -- a parent of the victim that waits has been woken
    have notParent : victim.parent ≠ t.pid := by
      intro parent
      have after : parentAfter victim = t.pid := by
        rw [parentAfter, orphan_parent, parent, if_neg notSelf]
      refine notWoken ⟨by rw [after]; exact notZero, ?_⟩
      rw [after]
      exact waitsAs_iff.mpr ⟨rfl, blocked, reason⟩
    have notVictim : ∀ (j : ℕ) (u : Thread), threads[j]? = some u → u.parent = t.pid → j ≠ idx := by
      rintro j u there parent rfl
      cases present.symm.trans there
      exact notParent parent
    refine expects.update (fun j u there mine alive => ?_) fun j u there mine zombie => ?_
    · obtain ⟨parent, asked⟩ := isMine_iff.mp mine
      have away := notVictim j u there parent
      refine ⟨isMine_iff.mpr ⟨?_, by rw [ending_pid]; exact asked⟩, ?_⟩
      · rw [ending_parent, parent, if_neg notSelf]
      · rw [ending_state_other _ _ _ _ away]
        split
        · rfl
        · exact alive
    · obtain ⟨parent, asked⟩ := isMine_iff.mp mine
      rw [ending_parent] at parent
      split at parent
      · exact absurd parent.symm notZero
      · have away := notVictim j u there parent
        rw [ending_pid] at asked
        refine ⟨isMine_iff.mpr ⟨parent, asked⟩, ?_⟩
        rw [ending_state_other _ _ _ _ away] at zombie
        split at zombie
        · cases zombie
        · exact zombie

theorem Expects.sleeping (expects : Expects threads pid wantPid) :
    Expects (threads.mapIdx (sleeping c reason)) pid wantPid := by
  refine expects.update (fun j u there mine alive => ?_) fun j u there mine zombie => ?_
  · unfold Sched.sleeping
    split
    · exact ⟨mine, rfl⟩
    · exact ⟨mine, alive⟩
  · unfold Sched.sleeping at mine zombie
    split at zombie
    · exact nomatch zombie
    · rename_i other
      rw [if_neg other] at mine
      exact ⟨mine, zombie⟩

variable (awake : Awake v threads)
include awake

/-- **The current thread goes to sleep** for a reason that it has. -/
theorem Awake.sleeps (present : threads[c]? = some cur) {d : Doing}
    (justified : Justified { v with doing := Function.update v.doing c d }
      (threads.mapIdx (sleeping c reason)) c { cur with state := .blocked, blockedOn := reason }) :
    Awake { v with doing := Function.update v.doing c d }
      (threads.mapIdx (sleeping c reason)) := by
  intro i t' place' blocked
  obtain ⟨t, place, rfl⟩ := map_eq_some_iff.mp (getElem?_mapIdx.symm.trans place')
  by_cases here : i = c
  · subst here
    cases present.symm.trans place
    rwa [Sched.sleeping, if_pos rfl]
  · have same : Sched.sleeping c reason i t = t := if_neg here
    have doingSame : ∀ d', v.doing i = d' → Function.update v.doing c d i = d' := by
      intro d' doing
      rw [update_of_ne here, doing]
    rw [same] at blocked ⊢
    cases awake i t place blocked with
    | pipe reason buf count doing starved => exact .pipe reason buf count (doingSame _ doing) starved
    | stdin reason count doing empty => exact .stdin reason count (doingSame _ doing) empty
    | child reason wantPid doing expects =>
      exact .child reason wantPid (doingSame _ doing) expects.sleeping

/-- **A new thread**, which runs. -/
theorem Awake.pushes (runs : t.state = .runnable) : Awake v (threads ++ [t]) := by
  intro i u place blocked
  have old : i < threads.length := by
    by_contra new
    rw [getElem?_append_right (Nat.le_of_not_lt new)] at place
    obtain rfl := mem_singleton.mp (mem_of_getElem? place)
    exact nomatch runs.symm.trans blocked
  rw [getElem?_append_left old] at place
  cases awake i u place blocked with
  | pipe reason buf count doing starved => exact .pipe reason buf count doing starved
  | stdin reason count doing empty => exact .stdin reason count doing empty
  | child reason wantPid doing expects =>
    obtain ⟨child, mem, mine⟩ := expects.child
    refine .child reason wantPid doing ⟨⟨child, mem_append_left _ mem, mine⟩, ?_⟩
    intro z there mine zombie
    rcases mem_append.mp there with before | new
    · exact expects.noZombie z before mine zombie
    · rw [mem_singleton.mp new] at zombie
      exact nomatch runs.symm.trans zombie

/-- **Changes of buffers and tasks**, for those who sleep because of them. -/
theorem Awake.views
    (doing : ∀ (i : ℕ) (t : Thread), threads[i]? = some t → t.state = .blocked → v'.doing i = v.doing i)
    (pipes : ∀ (i : ℕ) (t : Thread), threads[i]? = some t → t.state = .blocked →
      t.blockedOn = .pipe → ∀ buf, v.owesPipes ∨ v.shared.starved buf → v'.owesPipes ∨ v'.shared.starved buf)
    (stdin : ∀ (i : ℕ) (t : Thread), threads[i]? = some t → t.state = .blocked →
      t.blockedOn = .stdin → v.owesStdin ∨ v.ready = [] → v'.owesStdin ∨ v'.ready = []) : Awake v' threads := by
  intro i t place blocked
  have same := doing i t place blocked
  cases awake i t place blocked with
  | pipe reason buf count doing starved =>
    exact .pipe reason buf count (same.trans doing) (pipes i t place blocked reason buf starved)
  | stdin reason count doing empty =>
    exact .stdin reason count (same.trans doing) (stdin i t place blocked reason empty)
  | child reason wantPid doing expects => exact .child reason wantPid (same.trans doing) expects

/-- **The running thread** may be anywhere. -/
theorem Awake.runs (present : threads[c]? = some cur) (runs : cur.state = .runnable) (d : Doing) :
    Awake { v with doing := Function.update v.doing c d } threads := by
  refine awake.views (fun i t place blocked => ?_) (fun _ _ _ _ _ _ => id) fun _ _ _ _ _ => id
  refine update_of_ne ?_ _ _
  rintro rfl
  cases present.symm.trans place
  exact nomatch runs.symm.trans blocked

/-- **Waking everyone who waits for a pipe**, after which no wake-up is owed. -/
theorem Awake.wakesPipes (doing : v'.doing = v.doing) (ready : v'.ready = v.ready)
    (stdin : v.owesStdin → v'.owesStdin) : Awake v' (threads.mapIdx (waking .pipe)) := by
  refine (awake.update fun i t _ => quiet_waking .pipe i t).views
    (fun _ _ _ _ => congrFun doing _) (fun i t place blocked reason => ?_) fun _ _ _ _ _ => ?_
  · obtain ⟨u, -, rfl⟩ := map_eq_some_iff.mp (getElem?_mapIdx.symm.trans place)
    exact absurd reason (not_blocked_of_waking blocked)
  · rw [ready]
    exact Or.imp_left stdin

/-- **Waking everyone who waits for the console.** -/
theorem Awake.wakesStdin (pipes : Task.wakePipeWaiters ∈ v.tasks → Task.wakePipeWaiters ∈ tasks) :
    Awake { v with tasks } (threads.mapIdx (waking .stdin)) := by
  refine (awake.update fun i t _ => quiet_waking .stdin i t).views (fun _ _ _ _ => rfl)
    (fun _ _ _ _ _ _ => Or.imp_left (Or.imp_left pipes)) fun i t place blocked reason => ?_
  obtain ⟨u, -, rfl⟩ := map_eq_some_iff.mp (getElem?_mapIdx.symm.trans place)
  exact absurd reason (not_blocked_of_waking blocked)

/-- **Other tasks**, among which every wake-up that is owed still is one. -/
theorem Awake.retasks (pipes : Task.wakePipeWaiters ∈ v.tasks → Task.wakePipeWaiters ∈ tasks)
    (stdin : Task.wakeStdinReaders ∈ v.tasks → Task.wakeStdinReaders ∈ tasks) :
    Awake { v with tasks } threads :=
  awake.views (fun _ _ _ _ => rfl) (fun _ _ _ _ _ _ => Or.imp_left (Or.imp_left pipes))
    fun _ _ _ _ _ => Or.imp_left stdin

/-- **A call on descriptors**, with its wake-ups. -/
theorem Awake.stirs {shared : Shared} (quiet : v.shared.wake = false) (keeps : Keeps v.shared shared) :
    Awake { v with shared := { shared with wake := false } } (threads.mapIdx (stirring shared.wake)) := by
  cases wakes : shared.wake with
  | true => exact awake.wakesPipes rfl rfl id
  | false =>
    show Awake _ (threads.mapIdx fun _ t => t)
    refine (awake.update fun _ t _ => .refl t).views (fun _ _ _ _ => rfl) ?_ fun _ _ _ _ _ => id
    rintro - - - - - buf (owed | starved)
    · refine owed.elim (fun task => .inl (.inl task)) fun raised => ?_
      exact nomatch quiet.symm.trans raised
    · rcases keeps.starved buf starved with raised | starved
      · exact nomatch wakes.symm.trans raised
      · exact .inr starved

/-- **A deadly signal** is noted, and then the process ends. -/
theorem Awake.kills (numbered : ∀ (i : ℕ) (t : Thread), threads[i]? = some t → t.pid = i)
    (zero : ∃ z, threads[0]? = some z ∧ z.state = .runnable) (present : threads[idx]? = some victim) (sig : ℕ) :
    Awake v (threads.mapIdx (killing idx victim sig)) := by
  have marked := awake.update fun i t _ => quiet_marking idx sig i t
  have present' : (threads.mapIdx (marking idx sig))[idx]? = some (marking idx sig idx victim) := by
    rw [getElem?_mapIdx, present, map_some]
  have numbered' := numbered_mapIdx (fun i t => (evolves_marking idx sig i t).pid) numbered
  have zero' : ∃ z, (threads.mapIdx (marking idx sig))[0]? = some z ∧ z.state = .runnable := by
    obtain ⟨z, place, runs⟩ := zero
    exact ⟨marking idx sig 0 z, by rw [getElem?_mapIdx, place, map_some], (marking_state ..).trans runs⟩
  have ended := marked.ends numbered' zero' present' (128 + sig) (some sig)
  rw [mapIdx_mapIdx] at ended
  exact ended

end Threads

/-! ### Steps of the kernel -/

/-- A turn of `read_stdin`: whoever goes to sleep found nothing ready. -/
theorem Awake.readsStdin (awake : Awake k.view threads) (present : threads[c]? = some cur)
    (runs : cur.state = .runnable) (after : AfterStdin c count copies k threads k' threads') :
    Awake k'.view threads' ∧ k'.registry = k.registry := by
  cases after with
  | nothing w zero => exact ⟨awake, rfl⟩
  | sleeps w asked turn =>
    obtain ⟨empty, rfl⟩ := readStdinTurn_none (Nat.pos_of_ne_zero asked) turn
    exact ⟨awake.sleeps present (.stdin rfl count (update_self ..) (.inr empty)), rfl⟩
  | @returns _ console w asked turn =>
    have stays : Awake { k.view with ready := console.ready } threads :=
      awake.views (fun _ _ _ _ => rfl) (fun _ _ _ _ _ _ => id) fun _ _ _ _ _ owed =>
        owed.imp_right fun empty => absurd empty (readStdinTurn_some turn)
    exact ⟨stays.runs present runs .user, rfl⟩

/-- A reader that a turn puts to sleep finds the pipe empty, with writers. -/
theorem Reads.starved {key : Frame} (reads : Reads k c key e op count copies)
    (ran : perform op k.registry = some (.read (.blocks buf), r)) : r.shared.starved buf := by
  cases reads with
  | call fd count copies _ =>
    obtain ⟨result, rfl⟩ := Prod.mk.inj (some.inj ran)
    exact starved_of_sysRead (Outcome.read.inj result)
  | resume buf' count copies _ =>
    obtain ⟨result, rfl⟩ := Prod.mk.inj (some.inj ran)
    obtain ⟨rfl, starved⟩ := starved_of_blocks (Outcome.read.inj result)
    exact starved

theorem Awake.performs (awake : Awake k.view s.threads) (quiet : k.registry.shared.wake = false)
    {outcome : Outcome} (ran : perform op k.registry = some (outcome, r)) :
    Awake { k.view with shared := (calm r).shared } (s.threads.mapIdx (stirring r.shared.wake)) :=
  awake.stirs quiet (keeps_of_perform ran)

/-- **One step.** Between two steps no call of `wake_pipe_waiters` is outstanding but those in the tasks. -/
theorem awake_of_stepped (sane : Sane k.statics s) (awake : Awake k.view s.threads)
    (quiet : k.registry.shared.wake = false) (stepped : Stepped k s e k' threads) :
    Awake k'.view threads ∧ k'.registry.shared.wake = false := by
  -- the current process, before and after the wake-ups of its call
  have running : ∀ {t : Thread} {key : Frame}, Current s t key → t.state = .runnable := sane.runs
  have stirred : ∀ {t : Thread} {key : Frame} (wake : Bool), Current s t key →
      (s.threads.mapIdx (stirring wake))[s.current]? = some t := by
    intro t key wake current
    rw [getElem?_mapIdx, current.present, map_some, stirring_of_runnable (running current)]
  have zero : ∃ z, s.threads[0]? = some z ∧ z.state = .runnable := by
    obtain ⟨z, present, -, -, runs⟩ := sane.ready.zero
    exact ⟨z, present, runs⟩
  cases stepped with
  | tick w => exact ⟨awake, quiet⟩
  | file w current user mine ran => exact ⟨awake.performs quiet ran, rfl⟩
  | readReturns w current reads ran =>
    exact ⟨(awake.performs quiet ran).runs (stirred _ current) (running current) .user, rfl⟩
  | readBlocks w current reads ran =>
    refine ⟨(awake.performs quiet ran).sleeps (stirred _ current) ?_, rfl⟩
    have starved := reads.starved ran
    exact .pipe rfl _ _ (update_self ..) (.inr starved)
  | @readStdin t key _ _ count copies r _ _ current reads ran after =>
    have awake' : Awake ({ k with registry := calm r } : Machine).view
        (s.threads.mapIdx (stirring r.shared.wake)) := awake.performs quiet ran
    obtain ⟨awake', same⟩ := awake'.readsStdin (stirred _ current) (running current) after
    exact ⟨awake', by rw [same]; rfl⟩
  | resumeStdin current doing after =>
    obtain ⟨awake', same⟩ := awake.readsStdin current.present (running current) after
    exact ⟨awake', by rw [same]; exact quiet⟩
  | brk w current user took own nodup ran =>
    exact ⟨awake.performs quiet ran, rfl⟩
  | fork w current user built ran =>
    exact ⟨(awake.performs quiet ran).pushes rfl, rfl⟩
  | execFails current user built all => exact ⟨awake, quiet⟩
  | @exec t key pml4 n rest order frames outcome r w current user built all ran =>
    have replaced := awake.update fun i t _ => quiet_replacing s.current pml4 i t
    exact ⟨replaced.stirs quiet (keeps_of_perform ran), rfl⟩
  | @exit t key status outcome r w current user ran =>
    have numbered := numbered_mapIdx (stirring_pid r.shared.wake) sane.numbered
    refine ⟨(awake.performs quiet ran).ends numbered ?_ (stirred _ current) _ _, rfl⟩
    obtain ⟨z, present, runs⟩ := zero
    refine ⟨z, ?_, runs⟩
    rw [getElem?_mapIdx, present, map_some, stirring_of_runnable runs]
  | @collects t z key e wantPid idx w current waits answered present mine zombie =>
    have other : s.current ≠ idx := by
      rintro rfl
      cases current.present.symm.trans present
      exact nomatch (running current).symm.trans zombie
    have there : (s.threads.mapIdx (collecting idx))[s.current]? = some t := by
      rw [getElem?_mapIdx, current.present, map_some, collecting, if_neg other]
    exact ⟨(awake.update (quiet_collecting present zombie)).runs there (running current) .user, quiet⟩
  | waits w current waits answered noZombie child =>
    refine ⟨awake.sleeps current.present ?_, quiet⟩
    exact .child rfl _ (update_self ..) (Expects.sleeping ⟨child, noZombie⟩)
  | childless w current waits answered noZombie noChild =>
    exact ⟨awake.runs current.present (running current) .user, quiet⟩
  | ignores current user => exact ⟨awake, quiet⟩
  | notes w current user present target =>
    exact ⟨awake.update fun i t _ => quiet_marking _ _ i t, quiet⟩
  | kills w current user deadly present target =>
    exact ⟨awake.kills sane.numbered zero present _, quiet⟩
  | faults w current user =>
    exact ⟨awake.ends sane.numbered zero current.present _ _, quiet⟩
  | @feeds c echo console idle fed =>
    have idle' : k.view.tasks = [] := idle
    have awake' : Awake { k.view with
        tasks := if echo = .newline then [.wakeStdinReaders] else [] } s.threads :=
      awake.retasks (by rw [idle']; exact nofun) (by rw [idle']; exact nofun)
    refine ⟨awake'.views (fun _ _ _ _ => rfl) (fun _ _ _ _ _ _ => id) ?_, quiet⟩
    intro _ _ _ _ _ owed
    by_cases line : echo = .newline
    · exact .inl (by rw [View.owesStdin, Machine.view, if_pos line]; exact mem_cons_self)
    · exact owed.imp_right fun empty => (feedChar_ready fed line).trans empty
  | reaps w idle =>
    have idle' : k.view.tasks = [] := idle
    have awake' := awake.update fun i t _ => quiet_burying s i t
    exact ⟨awake'.retasks (by rw [idle']; exact nofun) (by rw [idle']; exact nofun), quiet⟩
  | spawns w idle built => exact ⟨awake.pushes rfl, quiet⟩
  | @wakesStdin order tasks w next =>
    have next' : k.view.tasks = _ := next
    refine ⟨awake.wakesStdin fun task => ?_, quiet⟩
    rw [next'] at task
    exact (mem_cons.mp task).resolve_left nofun
  | @wakesPipes order tasks w next =>
    have next' : k.view.tasks = _ := next
    refine ⟨awake.wakesPipes rfl rfl fun task => ?_, quiet⟩
    rw [View.owesStdin, next'] at task
    exact (mem_cons.mp task).resolve_left nofun
  | @destroys order pml4 tasks next all =>
    have next' : k.view.tasks = _ := next
    refine ⟨awake.retasks (fun task => ?_) fun task => ?_, quiet⟩ <;>
    · rw [next'] at task
      exact (mem_cons.mp task).resolve_left nofun
  | @forgets order pml4 tasks next =>
    have next' : k.view.tasks = _ := next
    refine ⟨awake.retasks (fun task => ?_) fun task => ?_, quiet⟩ <;>
    · rw [next'] at task
      exact mem_append_right _ ((mem_cons.mp task).resolve_left nofun)
  | @drops order slot tasks shared next dropped =>
    have next' : k.view.tasks = _ := next
    have kept : ∀ {task : Task}, task ∈ k.view.tasks → task ≠ .dropFd slot →
        task ∈ if shared.wake then Task.wakePipeWaiters :: tasks else tasks := by
      intro task mem other
      rw [next'] at mem
      have later := (mem_cons.mp mem).resolve_left other
      split
      · exact mem_cons_of_mem _ later
      · exact later
    refine ⟨awake.views (fun _ _ _ _ => rfl) ?_ fun _ _ _ _ _ => ?_, rfl⟩
    · rintro - - - - - buf (owed | starved)
      · refine .inl (.inl ?_)
        exact kept (owed.resolve_right fun raised => nomatch quiet.symm.trans raised) nofun
      · rcases (recount_dropSlot dropped).keeps.starved buf starved with raised | starved
        · exact .inl (.inl (by rw [Machine.view, if_pos raised]; exact mem_cons_self))
        · exact .inr starved
    · exact Or.imp_left fun task => kept task nofun

/-! ### Runs -/

theorem awake_boot (kernelCr3 : Frame) (memoryMap : MemoryMap) (next : ℕ) :
    Awake (Machine.boot kernelCr3 memoryMap next).view [bootThread] := by
  intro i t present blocked
  obtain rfl := mem_singleton.mp (mem_of_getElem? present)
  exact nomatch blocked

theorem awake_of_reached (reached : kernelRuns.Reached k) :
    ∃ s, Sane k.statics s ∧ Awake k.view s.threads ∧ k.registry.shared.wake = false := by
  refine kernelRuns.invariant
    (fun k => ∃ s, Sane k.statics s ∧ Awake k.view s.threads ∧ k.registry.shared.wake = false)
    ?_ ?_ reached
  · rintro _ ⟨kernelCr3, memoryMap, next, rfl⟩
    exact ⟨_, sane_boot .., awake_boot _ _ _, rfl⟩
  · rintro k k' - ⟨s, sane, awake, quiet⟩ ⟨e, stepped⟩
    obtain ⟨s', sane', outcome⟩ := Machine.stepped sane stepped
    exact ⟨s', sane', awake_of_stepped sane awake quiet outcome⟩

/-- Whoever sleeps on a pipe reads one that is empty and has writers, unless a wake-up is owed. -/
theorem starves_of_reached (reached : kernelRuns.Reached k)
    (here : k.statics.scheduler = some s) (present : s.threads[i]? = some t)
    (blocked : t.state = .blocked) (reason : t.blockedOn = .pipe) (pipesWoken : Task.wakePipeWaiters ∉ k.tasks)
    : ∃ buf count b, k.doing i = .readingPipe buf count ∧ k.registry.shared.pipes[buf]? = some b ∧
      b.data = [] ∧ 0 < b.writers := by
  obtain ⟨s', sane, awake, quiet⟩ := awake_of_reached reached
  cases here.symm.trans sane.here
  cases awake i t present blocked with
  | pipe reason buf count doing starved =>
    have owesNothing : ¬ k.view.owesPipes := by
      rintro (task | raised)
      · exact pipesWoken task
      · exact Bool.false_ne_true (quiet.symm.trans raised)
    obtain ⟨empty, writers⟩ := starved.resolve_left owesNothing
    refine ⟨buf, count, ?_⟩
    cases there : k.registry.shared.pipes[buf]? with
    | none =>
      have noWriter : k.view.shared.writers buf = 0 := by
        show (k.registry.shared.pipes[buf]?).elim 0 PipeBuf.writers = 0
        rw [there]
        rfl
      exact absurd noWriter (Nat.ne_of_gt writers)
    | some b =>
      have there' : k.view.shared.pipes[buf]? = some b := there
      rw [Shared.data, there'] at empty
      rw [Shared.writers, there'] at writers
      exact ⟨b, doing, rfl, empty, writers⟩
  | stdin other | child other => cases other.symm.trans reason

/-- **No wake-up is lost.** In every reached state in which thread 0 owes no wake-up: whoever sleeps on a pipe
reads one that is empty and has writers, whoever sleeps on the console finds nothing ready, and whoever waits
for a child has a live one that it asked for and no zombie. -/
theorem no_lost_wakeup {k : Machine} (reached : kernelRuns.Reached k) {s : Scheduler}
    (here : k.statics.scheduler = some s) {i : ℕ} {t : Thread} (present : s.threads[i]? = some t)
    (blocked : t.state = .blocked) (pipesWoken : Task.wakePipeWaiters ∉ k.tasks)
    (stdinWoken : Task.wakeStdinReaders ∉ k.tasks) :
    (t.blockedOn = .pipe ∧ ∃ buf count b, k.doing i = .readingPipe buf count ∧
      k.registry.shared.pipes[buf]? = some b ∧ b.data = [] ∧ 0 < b.writers) ∨
    (t.blockedOn = .stdin ∧ k.console.ready = []) ∨
    (t.blockedOn = .child ∧ ∃ wantPid, k.doing i = .waiting wantPid ∧
      (∃ u ∈ s.threads, isMine t.pid (wanted wantPid) u = true ∧ isAlive u.state = true) ∧
      ∀ u ∈ s.threads, isMine t.pid (wanted wantPid) u = true → u.state ≠ .zombie) := by
  obtain ⟨s', sane, awake, quiet⟩ := awake_of_reached reached
  cases here.symm.trans sane.here
  cases awake i t present blocked with
  | pipe reason buf count doing starved =>
    exact .inl ⟨reason, starves_of_reached reached here present blocked reason pipesWoken⟩
  | stdin reason count doing empty => exact .inr (.inl ⟨reason, empty.resolve_left stdinWoken⟩)
  | child reason wantPid doing expects =>
    exact .inr (.inr ⟨reason, wantPid, doing, expects.child, expects.noZombie⟩)

/-- A process makes a pipe and reads from it. -/
def readerSleeps : List Event :=
  [.spawnUser 0 0 0, .tick, .call (.file (.pipe 1 true)), .call (.read 3 10 true)]

theorem no_lost_wakeup_reader : ∃ t b, (smallRun readerSleeps).statics.scheduler.any
      (fun s => s.threads[1]? = some t) = true ∧ t.blockedOn = .pipe ∧
    (smallRun readerSleeps).registry.shared.pipes[0]? = some b ∧ b.data = [] ∧ 0 < b.writers := by
  have reached : kernelRuns.Reached (smallRun readerSleeps) := reached_smallRun rfl
  have asleep := no_lost_wakeup reached rfl (i := 1) rfl rfl nofun nofun
  rcases asleep with ⟨onPipe, buf, count, b, doing, there, empty, writers⟩ | ⟨stdin, -⟩ | ⟨child, -⟩
  · obtain ⟨rfl, -⟩ := Doing.readingPipe.inj doing
    exact ⟨_, b, rfl, onPipe, there, empty, writers⟩
  · exact nomatch stdin
  · exact nomatch child

end Ferros.Kernel
