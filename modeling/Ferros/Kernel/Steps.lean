/-
**What a step of the kernel can do.**

`Stepped k s e k' threads` lists every outcome of event `e` in a kernel `k` whose scheduler is `s`: the
kernel after it, up to the statics of the scheduler, and the threads after it. `Machine.stepped` is the
inversion of `Machine.step`; each invariant of the kernel is a case analysis of `Stepped`.

* `calm`, `stirring` — the end of a call on descriptors: its wake-ups are made.
* `holds_of_reached` — the invariant rule for runs.
-/

import Ferros.Kernel.Invariant

namespace Ferros.Kernel

open Lib Drivers Files Mm Sched List Option Function

variable {k k' : Machine} {s s' : Scheduler} {count n top fsBase sig : ℕ} {wake copies : Bool}
  {key pml4 cr3 : Frame} {t cur : Thread} {e : Event} {reason : BlockReason} {threads : List Thread} {op : Op}
  {order : List Frame} {stack : Sched.Stack}

/-- The wake-ups of a call have been made. -/
def calm (r : Registry) : Registry :=
  { r with shared := { r.shared with wake := false } }

/-- What the wake-ups of a call on descriptors do to thread `i`. -/
def stirring (wake : Bool) (i : ℕ) (t : Thread) : Thread :=
  if wake then waking .pipe i t else t

theorem waking_of_runnable (runs : t.state = .runnable) (i : ℕ) :
    waking reason i t = t := by
  refine if_neg fun asleep => ?_
  rw [(isBlockedOn_iff.mp asleep).1] at runs
  exact nomatch runs

theorem stirring_of_runnable (runs : t.state = .runnable) (wake : Bool) (i : ℕ) :
    stirring wake i t = t := by
  unfold stirring
  split
  · exact waking_of_runnable runs i
  · rfl

theorem stirring_pid (wake : Bool) (i : ℕ) (t : Thread) : (stirring wake i t).pid = t.pid := by
  unfold stirring waking
  split
  · split <;> rfl
  · rfl

/-- A turn of reading a descriptor, the first one or one after a sleep: the operation, and how many bytes
are asked for. -/
inductive Reads (k : Machine) (c : ℕ) (key : Frame) : Event → Op → ℕ → Bool → Prop
  | call (fd count : ℕ) (copies : Bool) (user : k.doing c = .user) :
      Reads k c key (.call (.read fd count copies)) (.read key fd count copies) count copies
  | resume (buf count : ℕ) (copies : Bool) (doing : k.doing c = .readingPipe buf count) :
      Reads k c key (.resume copies) (.resume buf count copies) count copies

/-- A turn of `wait_current`. -/
inductive Waits (k : Machine) (c : ℕ) : Event → ℤ → Prop
  | call (wantPid : ℤ) (user : k.doing c = .user) : Waits k c (.call (.wait4 wantPid)) wantPid
  | resume (wantPid : ℤ) (copies : Bool) (doing : k.doing c = .waiting wantPid) :
      Waits k c (.resume copies) wantPid

/-- The outcomes of a turn of `read_stdin`. -/
inductive AfterStdin (c count : ℕ) (copies : Bool) (k : Machine) (threads : List Thread) :
    Machine → List Thread → Prop
  | nothing (w : Statics) (zero : count = 0) :
      AfterStdin c count copies k threads { k with statics := w } threads
  | sleeps {console : Console} (w : Statics) (asked : count ≠ 0)
      (turn : readStdinTurn count copies k.console = (none, console)) :
      AfterStdin c count copies k threads
        ({ k with statics := w, console }.setDoing c (.readingStdin count))
        (threads.mapIdx (sleeping c .stdin))
  | returns {bytes : List UInt8} {console : Console} (w : Statics) (asked : count ≠ 0)
      (turn : readStdinTurn count copies k.console = (some bytes, console)) :
      AfterStdin c count copies k threads ({ k with statics := w, console }.setDoing c .user) threads

theorem AfterStdin.ofStatics {c : ℕ} {w : Statics} {threads' : List Thread}
    (after : AfterStdin c count copies { k with statics := w } threads k' threads') :
    AfterStdin c count copies k threads k' threads' := by
  cases after with
  | nothing w zero => exact .nothing w zero
  | sleeps w asked turn => exact .sleeps w asked turn
  | returns w asked turn => exact .returns w asked turn

/-- The outcomes of an event. Where the current thread is a process, it is `t`, its PML4 is `key`, and the
events that need it to be in user mode say so. -/
inductive Stepped (k : Machine) (s : Scheduler) : Event → Machine → List Thread → Prop
  | tick (w : Statics) : Stepped k s .tick { k with statics := w } s.threads
  | file {t : Thread} {key : Frame} {op : Op} {outcome : Outcome} {r : Registry} (w : Statics)
      (current : Current s t key) (user : k.doing s.current = .user) (mine : caller op = some key)
      (ran : perform op k.registry = some (outcome, r)) :
      Stepped k s (.call (.file op)) { k with statics := w, registry := calm r }
        (s.threads.mapIdx (stirring r.shared.wake))
  | readReturns {t : Thread} {key : Frame} {e : Event} {op : Op} {count : ℕ} {copies : Bool} {value : ℤ}
      {bytes : List UInt8} {r : Registry} (w : Statics) (current : Current s t key)
      (reads : Reads k s.current key e op count copies)
      (ran : perform op k.registry = some (.read (.returned value bytes), r)) :
      Stepped k s e ({ k with statics := w, registry := calm r }.setDoing s.current .user)
        (s.threads.mapIdx (stirring r.shared.wake))
  | readBlocks {t : Thread} {key : Frame} {e : Event} {op : Op} {count buf : ℕ} {copies : Bool}
      {r : Registry} (w : Statics) (current : Current s t key)
      (reads : Reads k s.current key e op count copies)
      (ran : perform op k.registry = some (.read (.blocks buf), r)) :
      Stepped k s e
        ({ k with statics := w, registry := calm r }.setDoing s.current (.readingPipe buf count))
        ((s.threads.mapIdx (stirring r.shared.wake)).mapIdx (sleeping s.current .pipe))
  | readStdin {t : Thread} {key : Frame} {e : Event} {op : Op} {count : ℕ} {copies : Bool}
      {r : Registry} {k' : Machine} {threads : List Thread} (current : Current s t key)
      (reads : Reads k s.current key e op count copies)
      (ran : perform op k.registry = some (.read .stdin, r))
      (after : AfterStdin s.current count copies { k with registry := calm r }
        (s.threads.mapIdx (stirring r.shared.wake)) k' threads) : Stepped k s e k' threads
  | resumeStdin {t : Thread} {key : Frame} {count : ℕ} {copies : Bool} {k' : Machine}
      {threads : List Thread} (current : Current s t key)
      (doing : k.doing s.current = .readingStdin count)
      (after : AfterStdin s.current count copies k s.threads k' threads) :
      Stepped k s (.resume copies) k' threads
  | brk {t : Thread} {key : Frame} {addr take : ℕ} {maps : Bool} {taken release : List Frame}
      {frames : FrameAllocator} {outcome : Outcome} {r : Registry} (w : Statics)
      (current : Current s t key) (user : k.doing s.current = .user)
      (took : takeFrames take k.frames = some (taken, frames)) (own : release ⊆ taken ++ k.spaces key)
      (nodup : release.Nodup)
      (ran : perform (.brk key addr maps) k.registry = some (outcome, r)) :
      Stepped k s (.call (.brk addr maps take release))
        { k with
          statics := w
          registry := calm r
          frames := giveFrames release frames
          spaces := update k.spaces key ((taken ++ k.spaces key).diff release) }
        (s.threads.mapIdx (stirring r.shared.wake))
  | fork {t : Thread} {key pml4 : Frame} {n top fsBase : ℕ} {stack : Sched.Stack} {rest : List Frame}
      {frames : FrameAllocator} {outcome : Outcome} {r : Registry} (w : Statics)
      (current : Current s t key) (user : k.doing s.current = .user)
      (built : takeFrames (n + 1) k.frames = some (pml4 :: rest, frames))
      (ran : perform (.fork key pml4) k.registry = some (outcome, r)) :
      Stepped k s (.call (.fork n top stack fsBase))
        { k with
          statics := w
          registry := calm r
          frames
          spaces := update k.spaces pml4 rest }
        (s.threads.mapIdx (stirring r.shared.wake) ++
          [userThread s.threads.length s.current pml4 top stack fsBase])
  | execFails {t : Thread} {key pml4 : Frame} {n : ℕ} {rest order : List Frame}
      {frames : FrameAllocator} (current : Current s t key) (user : k.doing s.current = .user)
      (built : takeFrames (n + 1) k.frames = some (pml4 :: rest, frames)) (all : order.Perm rest) :
      Stepped k s (.call (.execve n false order))
        { k with
          frames := deallocateFrame pml4 (giveFrames order frames)
          spaces := update k.spaces pml4 [] } s.threads
  | exec {t : Thread} {key pml4 : Frame} {n : ℕ} {rest order : List Frame} {frames : FrameAllocator}
      {outcome : Outcome} {r : Registry} (w : Statics) (current : Current s t key)
      (user : k.doing s.current = .user)
      (built : takeFrames (n + 1) k.frames = some (pml4 :: rest, frames))
      (all : order.Perm (update k.spaces pml4 rest key))
      (ran : perform (.exec key pml4) k.registry = some (outcome, r)) :
      Stepped k s (.call (.execve n true order))
        { k with
          statics := w
          registry := calm r
          frames := deallocateFrame key (giveFrames order frames)
          spaces := update (update k.spaces pml4 rest) key [] }
        ((s.threads.mapIdx (replacing s.current pml4)).mapIdx (stirring r.shared.wake))
  | exit {t : Thread} {key : Frame} {status : ℤ} {outcome : Outcome} {r : Registry} (w : Statics)
      (current : Current s t key) (user : k.doing s.current = .user)
      (ran : perform (.exit key) k.registry = some (outcome, r)) :
      Stepped k s (.call (.exit status)) { k with statics := w, registry := calm r }
        ((s.threads.mapIdx (stirring r.shared.wake)).mapIdx (ending s.current t status none))
  | collects {t z : Thread} {key : Frame} {e : Event} {wantPid : ℤ} {idx : ℕ} (w : Statics)
      (current : Current s t key) (waits : Waits k s.current e wantPid)
      (answered : waitCurrent wantPid k.statics =
        .ok (some (.collected z.pid (z.exitStatus.getD 0) z.termSignal), w))
      (present : s.threads[idx]? = some z) (mine : isMine t.pid (wanted wantPid) z = true)
      (zombie : z.state = .zombie) :
      Stepped k s e ({ k with statics := w }.setDoing s.current .user)
        (s.threads.mapIdx (collecting idx))
  | waits {t : Thread} {key : Frame} {e : Event} {wantPid : ℤ} (w : Statics)
      (current : Current s t key) (waits : Waits k s.current e wantPid)
      (answered : waitCurrent wantPid k.statics = .ok (none, w))
      (noZombie : ∀ u ∈ s.threads, isMine t.pid (wanted wantPid) u = true → u.state ≠ .zombie)
      (child : ∃ u ∈ s.threads, isMine t.pid (wanted wantPid) u = true ∧ isAlive u.state = true) :
      Stepped k s e ({ k with statics := w }.setDoing s.current (.waiting wantPid))
        (s.threads.mapIdx (sleeping s.current .child))
  | childless {t : Thread} {key : Frame} {e : Event} {wantPid : ℤ} (w : Statics)
      (current : Current s t key) (waits : Waits k s.current e wantPid)
      (answered : waitCurrent wantPid k.statics = .ok (some .noChildren, w))
      (noZombie : ∀ u ∈ s.threads, isMine t.pid (wanted wantPid) u = true → u.state ≠ .zombie)
      (noChild : ∀ u ∈ s.threads, isMine t.pid (wanted wantPid) u = true →
        isAlive u.state = false) :
      Stepped k s e ({ k with statics := w }.setDoing s.current .user) s.threads
  /-- A signal that is refused, only checked, or sent to nobody. -/
  | ignores {t : Thread} {key : Frame} {pid : ℤ} {sig : ℕ} (current : Current s t key)
      (user : k.doing s.current = .user) : Stepped k s (.call (.kill pid sig)) k s.threads
  | notes {t u : Thread} {key : Frame} {pid : ℤ} {sig idx : ℕ} (w : Statics)
      (current : Current s t key) (user : k.doing s.current = .user)
      (present : s.threads[idx]? = some u)
      (target : isTarget (pid % 2 ^ 32).toNat u = true) :
      Stepped k s (.call (.kill pid sig)) { k with statics := w } (s.threads.mapIdx (marking idx sig))
  | kills {t u : Thread} {key : Frame} {pid : ℤ} {sig idx : ℕ} (w : Statics)
      (current : Current s t key) (user : k.doing s.current = .user)
      (deadly : sig ≠ 0 ∧ defaultTerminates sig = true) (present : s.threads[idx]? = some u)
      (target : isTarget (pid % 2 ^ 32).toNat u = true) :
      Stepped k s (.call (.kill pid sig)) { k with statics := w }
        (s.threads.mapIdx (killing idx u sig))
  | faults {t : Thread} {key : Frame} (w : Statics) (current : Current s t key)
      (user : k.doing s.current = .user) :
      Stepped k s .fault { k with statics := w }
        (s.threads.mapIdx (ending s.current t (128 + sigSegv) (some sigSegv)))
  | feeds {c : Char} {echo : Echo} {console : Console} (idle : k.tasks = [])
      (fed : feedChar c k.console = (echo, console)) :
      Stepped k s (.feed c)
        { k with console, tasks := if echo = .newline then [.wakeStdinReaders] else [] } s.threads
  | reaps (w : Statics) (idle : k.tasks = []) :
      Stepped k s .reap
        { k with statics := w, tasks := corpseTasks ((reaped s).map fun t => (t.cr3, t.stack)) }
        (s.threads.mapIdx (burying s))
  | spawns {n top : ℕ} {stack : Sched.Stack} {pml4 : Frame} {rest : List Frame}
      {frames : FrameAllocator} (w : Statics) (idle : k.tasks = [])
      (built : takeFrames (n + 1) k.frames = some (pml4 :: rest, frames)) :
      Stepped k s (.spawnUser n top stack)
        { k with statics := w, frames, spaces := update k.spaces pml4 rest }
        (s.threads ++ [userThread s.threads.length s.current pml4 top stack 0])
  | wakesStdin {order : List Frame} {tasks : List Task} (w : Statics)
      (next : k.tasks = .wakeStdinReaders :: tasks) :
      Stepped k s (.task order) { k with statics := w, tasks } (s.threads.mapIdx (waking .stdin))
  | wakesPipes {order : List Frame} {tasks : List Task} (w : Statics)
      (next : k.tasks = .wakePipeWaiters :: tasks) :
      Stepped k s (.task order) { k with statics := w, tasks } (s.threads.mapIdx (waking .pipe))
  | destroys {order : List Frame} {pml4 : Frame} {tasks : List Task}
      (next : k.tasks = .destroy pml4 :: tasks) (all : order.Perm (k.spaces pml4)) :
      Stepped k s (.task order)
        { k with
          frames := deallocateFrame pml4 (giveFrames order k.frames)
          spaces := update k.spaces pml4 []
          tasks } s.threads
  | forgets {order : List Frame} {pml4 : Frame} {tasks : List Task}
      (next : k.tasks = .forgetProcess pml4 :: tasks) :
      Stepped k s (.task order)
        { k with
          registry := { k.registry with processes := k.registry.processes.erase pml4 }
          tasks := ((k.registry.processes.lookup pml4).elim [] ProcState.fds).map .dropFd ++ tasks }
        s.threads
  | drops {order : List Frame} {slot : Option Fd} {tasks : List Task} {shared : Shared}
      (next : k.tasks = .dropFd slot :: tasks) (dropped : dropSlot slot k.registry.shared = some shared) :
      Stepped k s (.task order)
        { k with
          registry := { k.registry with shared := { shared with wake := false } }
          tasks := if shared.wake then .wakePipeWaiters :: tasks else tasks } s.threads

/-! ### The inversion -/

section

/-- A scheduler call changes the scheduler's statics only. -/
theorem sched_eq_some {call : Statics → Except Panic Statics} (made : k.sched call = some k') :
    ∃ w, call k.statics = .ok w ∧ k' = { k with statics := w } := by
  unfold Machine.sched at made
  split at made
  · rename_i w called
    exact ⟨w, called, (some.inj made).symm⟩
  · exact nomatch made

theorem calm_of_quiet {r : Registry} (quiet : r.shared.wake = false) : calm r = r := by
  cases r with
  | mk processes shared =>
    cases shared
    cases quiet
    rfl

/-- The scheduler after the wake-ups of a call on descriptors. -/
theorem file_eq_some {outcome : Outcome} (filed : k.file op = some (outcome, k'))
    (sane : Sane k.statics s) : ∃ r w s', perform op k.registry = some (outcome, r) ∧
      k' = { k with statics := w, registry := calm r } ∧ Sane w s' ∧
      s'.threads = s.threads.mapIdx (stirring r.shared.wake) ∧ s'.current = s.current := by
  obtain ⟨⟨outcome, r⟩, ran, same⟩ := map_eq_some_iff.mp filed
  cases same
  by_cases wakes : r.shared.wake
  · refine ⟨r, _, _, ran, ?_, sane.wakes .pipe, ?_, rfl⟩
    · rw [Machine.flush, if_pos wakes]
      rfl
    · rw [wakes]
      rfl
  · have quiet : r.shared.wake = false := Bool.eq_false_iff.mpr wakes
    refine ⟨r, k.statics, s, ran, ?_, sane, ?_, rfl⟩
    · rw [Machine.flush, if_neg wakes, calm_of_quiet quiet]
    · rw [quiet]
      exact congrArg Scheduler.threads s.update_self.symm

/-- The current process is still there after the wake-ups of its call. -/
theorem Current.stirs (current : Current s t key) (runs : t.state = .runnable)
    (threads : s'.threads = s.threads.mapIdx (stirring wake)) (same : s'.current = s.current) :
    Current s' t key := by
  refine ⟨?_, current.user⟩
  rw [threads, same, getElem?_mapIdx, current.present, map_some, stirring_of_runnable runs]

theorem Sane.runs (sane : Sane k.statics s) (current : Current s t key) : t.state = .runnable := by
  obtain ⟨t', present, runs⟩ := sane.ready.running
  cases current.present.symm.trans present
  exact runs

theorem block_eq_some {d : Doing} (blocked : k.block s.current reason d = some k')
    (sane : Sane k.statics s) (current : Current s t key) :
    ∃ w s', k' = { k with statics := w }.setDoing s.current d ∧ Sane w s' ∧
      s'.threads = s.threads.mapIdx (sleeping s.current reason) := by
  obtain ⟨between, made, rfl⟩ := map_eq_some_iff.mp blocked
  obtain ⟨w, called, rfl⟩ := sched_eq_some made
  obtain ⟨s', sane', threads⟩ := sane.blocks current called
  exact ⟨w, s', rfl, sane', threads⟩

theorem readStdin_eq_some (read : k.readStdin s.current count copies = some k') (sane : Sane k.statics s)
    (current : Current s t key) :
    ∃ s', Sane k'.statics s' ∧ AfterStdin s.current count copies k s.threads k' s'.threads := by
  unfold Machine.readStdin at read
  split at read
  · rename_i zero
    cases read
    exact ⟨s, sane, .nothing k.statics zero⟩
  · rename_i asked
    split at read
    · rename_i console turn
      obtain ⟨w, s', rfl, sane', threads⟩ := block_eq_some read sane current
      refine ⟨s', sane', ?_⟩
      rw [threads]
      exact .sleeps w asked turn
    · rename_i bytes console turn
      cases read
      exact ⟨s, sane, .returns k.statics asked turn⟩

theorem build_eq_some (built : k.build n = some (pml4, k')) :
    ∃ rest frames, takeFrames (n + 1) k.frames = some (pml4 :: rest, frames) ∧
      k' = { k with frames, spaces := update k.spaces pml4 rest } := by
  unfold Machine.build at built
  split at built
  · rename_i pml4 rest frames took
    cases built
    exact ⟨rest, frames, took, rfl⟩
  · exact nomatch built

/-- Teardown gives back the tables and pages of the space, in some order. -/
theorem destroy_eq_some (destroyed : k.destroy pml4 order = some k') :
    order.Perm (k.spaces pml4) ∧ k' = { k with
      frames := deallocateFrame pml4 (giveFrames order k.frames)
      spaces := update k.spaces pml4 [] } := by
  unfold Machine.destroy at destroyed
  split at destroyed
  · rename_i all
    exact ⟨all, (some.inj destroyed).symm⟩
  · exact nomatch destroyed

theorem addUserTask_eq_some (added : k.addUserTask cr3 top stack fsBase = some k')
    (sane : Sane k.statics s) (present : s.threads[s.current]? = some cur) :
    ∃ w s', k' = { k with statics := w } ∧ Sane w s' ∧ s'.threads =
      s.threads ++ [userThread s.threads.length s.current cr3 top stack fsBase] := by
  unfold Machine.addUserTask at added
  rw [sane.here, elim_some] at added
  split at added
  · rename_i room
    obtain ⟨w, called, rfl⟩ := sched_eq_some added
    obtain ⟨s', sane', threads⟩ := sane.pushes present room called
    exact ⟨w, s', rfl, sane', threads⟩
  · exact nomatch added

/-- The scheduler after a step, and what the step did. -/
def Advances (k : Machine) (s : Scheduler) (e : Event) (k' : Machine) : Prop :=
  ∃ s', Sane k'.statics s' ∧ Stepped k s e k' s'.threads

theorem Becomes.advances (becomes : Becomes k'.statics threads)
    (stepped : Stepped k s e k' threads) : Advances k s e k' := by
  obtain ⟨s', sane, rfl⟩ := becomes
  exact ⟨s', sane, stepped⟩

section Advances

variable (sane : Sane k.statics s)
include sane

section

variable (current : Current s t key)
include current

theorem Sane.reads (reads : Reads k s.current key e op count copies)
    (read : (k.file op).bind (Machine.afterRead s.current count copies) = some k') : Advances k s e k' := by
  obtain ⟨⟨outcome, k₁⟩, filed, after⟩ := bind_eq_some_iff.mp read
  obtain ⟨r, w, s₁, ran, rfl, sane₁, threads₁, same⟩ := file_eq_some filed sane
  have current₁ := current.stirs (sane.runs current) threads₁ same
  unfold Machine.afterRead at after
  split at after
  · rename_i value bytes k₁ pair
    cases pair
    cases after
    refine ⟨s₁, sane₁, ?_⟩
    rw [threads₁]
    exact .readReturns w current reads ran
  · rename_i k₁ pair
    cases pair
    rw [← same] at after
    obtain ⟨s', sane', turn⟩ := readStdin_eq_some after sane₁ current₁
    rw [same, threads₁] at turn
    exact ⟨s', sane', .readStdin current reads ran turn.ofStatics⟩
  · rename_i buf k₁ pair
    cases pair
    rw [← same] at after
    obtain ⟨w', s', rfl, sane', threads⟩ := block_eq_some after sane₁ current₁
    refine ⟨s', sane', ?_⟩
    rw [threads, same, threads₁]
    exact .readBlocks w' current reads ran
  · exact nomatch after

theorem Sane.waits {wantPid : ℤ} (waits : Waits k s.current e wantPid)
    (waited : k.wait s.current wantPid = some k') : Advances k s e k' := by
  obtain ⟨out, w, answered, outcome⟩ :=
    sane.ready.waits sane.here current.present wantPid fun _ _ => current.notKernel
  simp only [Machine.wait, answered] at waited
  cases outcome with
  | collected present mine zombie acts _ =>
    cases waited
    exact (sane.acts acts).advances (.collects w current waits answered present mine zombie)
  | blocked noZombie child acts =>
    cases waited
    exact (sane.acts acts).advances (.waits w current waits answered noZombie child)
  | childless noZombie noChild =>
    cases waited
    exact ⟨s, sane, .childless k.statics current waits answered noZombie noChild⟩

section

variable (user : k.doing s.current = .user)
include user

theorem Sane.kills {pid : ℤ}
    (sent : k.sched (fun w => (signal (pid % 2 ^ 32).toNat sig w).map Prod.snd) = some k') :
    Advances k s (.call (.kill pid sig)) k' := by
  obtain ⟨w, called, rfl⟩ := sched_eq_some sent
  have outcome := sane.ready.signals sane.here (pid % 2 ^ 32).toNat sig
  revert called
  generalize signal (pid % 2 ^ 32).toNat sig k.statics = result at outcome
  intro called
  cases outcome with
  | overflow large => exact nomatch called
  | missed =>
    cases called
    exact ⟨s, sane, .ignores current user⟩
  | checked =>
    cases called
    exact ⟨s, sane, .ignores current user⟩
  | noted present target acts =>
    cases called
    exact (sane.acts acts).advances (.notes _ current user present target)
  | killed deadly present target acts =>
    cases called
    exact (sane.acts acts).advances (.kills _ current user deadly present target)

theorem Sane.forks (forked : k.call s.current key (.fork n top stack fsBase) = some k') :
    Advances k s (.call (.fork n top stack fsBase)) k' := by
  obtain ⟨⟨pml4, k₁⟩, built, forked⟩ := bind_eq_some_iff.mp forked
  obtain ⟨⟨outcome, k₂⟩, filed, added⟩ := bind_eq_some_iff.mp forked
  obtain ⟨rest, frames, took, rfl⟩ := build_eq_some built
  obtain ⟨r, w, s₁, ran, rfl, sane₁, threads₁, same⟩ := file_eq_some filed sane
  have present := (current.stirs (sane.runs current) threads₁ same).present
  obtain ⟨w', s', rfl, sane', threads⟩ := addUserTask_eq_some added sane₁ present
  refine ⟨s', sane', ?_⟩
  rw [threads, threads₁, same, length_mapIdx]
  exact .fork w' current user took ran

theorem Sane.execs {loaded : Bool} (made : k.call s.current key (.execve n loaded order) = some k') :
    Advances k s (.call (.execve n loaded order)) k' := by
  obtain ⟨⟨pml4, k₁⟩, built, made⟩ := bind_eq_some_iff.mp made
  obtain ⟨rest, frames, took, rfl⟩ := build_eq_some built
  cases loaded with
  | false =>
    obtain ⟨all, rfl⟩ := destroy_eq_some made
    refine ⟨s, sane, ?_⟩
    simp only [update_self] at all
    simp only [update_idem]
    exact .execFails current user took all
  | true =>
    obtain ⟨k₂, replaced, made⟩ := bind_eq_some_iff.mp made
    obtain ⟨k₃, destroyed, made⟩ := bind_eq_some_iff.mp made
    obtain ⟨⟨outcome, k₄⟩, filed, made⟩ := bind_eq_some_iff.mp made
    cases made
    obtain ⟨w, called, rfl⟩ := sched_eq_some replaced
    obtain ⟨all, rfl⟩ := destroy_eq_some destroyed
    obtain ⟨rfl, sane₁⟩ := sane.replaces current called
    obtain ⟨r, w', s', ran, rfl, sane', threads, -⟩ := file_eq_some filed sane₁
    refine ⟨s', sane', ?_⟩
    rw [threads]
    exact .exec w' current user took all ran

/-- **The system calls.** -/
theorem Sane.calls {call : Syscall} (made : k.call s.current key call = some k') :
    Advances k s (.call call) k' := by
  cases call with
  | file op =>
    simp only [Machine.call] at made
    split at made
    · rename_i mine
      obtain ⟨⟨outcome, k₁⟩, filed, rfl⟩ := map_eq_some_iff.mp made
      obtain ⟨r, w, s', ran, rfl, sane', threads, -⟩ := file_eq_some filed sane
      refine ⟨s', sane', ?_⟩
      rw [threads]
      exact .file w current user mine ran
    · exact nomatch made
  | read fd count copies => exact sane.reads current (.call fd count copies user) made
  | brk addr maps take release =>
    obtain ⟨⟨taken, frames⟩, took, made⟩ := bind_eq_some_iff.mp made
    simp only at made
    split at made
    · rename_i given
      obtain ⟨⟨outcome, k₁⟩, filed, made⟩ := bind_eq_some_iff.mp made
      cases made
      obtain ⟨r, w, s', ran, rfl, sane', threads, -⟩ := file_eq_some filed sane
      refine ⟨s', sane', ?_⟩
      rw [threads]
      exact .brk w current user took given.1 given.2 ran
    · exact nomatch made
  | fork n top stack fsBase => exact sane.forks current user made
  | execve n loaded order => exact sane.execs current user made
  | exit status =>
    obtain ⟨⟨outcome, k₁⟩, filed, exited⟩ := bind_eq_some_iff.mp made
    obtain ⟨r, w, s₁, ran, rfl, sane₁, threads₁, same⟩ := file_eq_some filed sane
    have current₁ := current.stirs (sane.runs current) threads₁ same
    obtain ⟨w', called, rfl⟩ := sched_eq_some exited
    obtain ⟨s', sane', threads⟩ := sane₁.exits current₁ called
    refine ⟨s', sane', ?_⟩
    rw [threads, threads₁, same]
    exact .exit w' current user ran
  | wait4 wantPid => exact sane.waits current (.call wantPid user) made
  | kill pid sig =>
    simp only [Machine.call] at made
    split at made
    · cases made
      exact ⟨s, sane, .ignores current user⟩
    · exact sane.kills current user made

end

/-- A sleeper that was woken looks again. -/
theorem Sane.resumes (resumed : k.resume s.current copies = some k') : Advances k s (.resume copies) k' := by
  unfold Machine.resume at resumed
  split at resumed
  · exact nomatch resumed
  · rename_i wantPid doing
    exact sane.waits current (.resume wantPid copies doing) resumed
  · rename_i count doing
    obtain ⟨s', sane', after⟩ := readStdin_eq_some resumed sane current
    exact ⟨s', sane', .resumeStdin current doing after⟩
  · rename_i buf count doing
    exact sane.reads current (.resume buf count copies doing) resumed

end

theorem Sane.tasks (done : k.task order = some k') : Advances k s (.task order) k' := by
  simp only [Machine.task] at done
  split at done
  · exact nomatch done
  · rename_i tasks next
    cases done
    exact ⟨_, sane.wakes .stdin, .wakesStdin _ next⟩
  · rename_i tasks next
    cases done
    exact ⟨_, sane.wakes .pipe, .wakesPipes _ next⟩
  · rename_i pml4 tasks next
    obtain ⟨all, rfl⟩ := destroy_eq_some done
    exact ⟨s, sane, .destroys next all⟩
  · rename_i pml4 tasks next
    cases done
    exact ⟨s, sane, .forgets next⟩
  · rename_i slot tasks next
    obtain ⟨shared, dropped, done⟩ := bind_eq_some_iff.mp done
    cases done
    exact ⟨s, sane, .drops next dropped⟩

theorem Sane.tickSteps (ticked : k.sched onTimerTick = some k') : Advances k s .tick k' := by
  obtain ⟨w, called, rfl⟩ := sched_eq_some ticked
  exact (sane.ticks called).advances (.tick w)

/-- **One step of the kernel's own thread.** -/
theorem Sane.zeroSteps (stepped : k.stepZero e = some k') : Advances k s e k' := by
  cases e with
  | tick => exact sane.tickSteps stepped
  | task order => exact sane.tasks stepped
  | feed c =>
    simp only [Machine.stepZero] at stepped
    split at stepped
    · rename_i idle
      cases stepped
      exact ⟨s, sane, .feeds idle rfl⟩
    · exact nomatch stepped
  | reap =>
    simp only [Machine.stepZero] at stepped
    split at stepped
    · rename_i idle
      cases stepped
      obtain ⟨s', sane', threads⟩ := sane.reaps
      refine ⟨s', sane', ?_⟩
      rw [threads, congrArg Prod.fst (reap_eq sane.here)]
      exact .reaps _ idle
    · exact nomatch stepped
  | spawnUser n top stack =>
    simp only [Machine.stepZero] at stepped
    split at stepped
    · rename_i idle
      obtain ⟨⟨pml4, k₁⟩, built, added⟩ := bind_eq_some_iff.mp stepped
      obtain ⟨rest, frames, took, rfl⟩ := build_eq_some built
      obtain ⟨cur, present, -⟩ := sane.ready.running
      obtain ⟨w, s', rfl, sane', threads⟩ := addUserTask_eq_some added sane present
      refine ⟨s', sane', ?_⟩
      rw [threads]
      exact .spawns w idle took
    · exact nomatch stepped
  | _ => exact nomatch stepped

/-- **One step of a user thread.** -/
theorem Sane.userSteps (current : Current s t key) (stepped : k.stepUser s.current key e = some k') :
    Advances k s e k' := by
  unfold Machine.stepUser at stepped
  split at stepped
  · exact sane.tickSteps stepped
  · rename_i call user
    exact sane.calls current user stepped
  · rename_i user
    obtain ⟨w, called, rfl⟩ := sched_eq_some stepped
    exact (sane.exits current called).advances (.faults w current user)
  · exact nomatch stepped
  · exact sane.resumes current stepped
  · exact nomatch stepped

theorem current_eq (present : s.threads[s.current]? = some t) : k.current = some (s.current, t) := by
  simp only [Machine.current, sane.here, bind, Option.bind, present]
  rfl

end Advances

/-- **The inversion of a step.** -/
theorem Machine.stepped (sane : Sane k.statics s) (stepped : k.step e = some k') :
    ∃ s', Sane k'.statics s' ∧ Stepped k s e k' s'.threads := by
  obtain ⟨t, present, -⟩ := sane.ready.running
  simp only [Machine.step, current_eq sane present] at stepped
  split at stepped
  · exact sane.zeroSteps stepped
  · rename_i key user
    exact sane.userSteps ⟨present, user⟩ stepped

/-- **Every reached kernel is sane.** -/
theorem sane_of_reached (reached : kernelRuns.Reached k) : ∃ s, Sane k.statics s := by
  refine kernelRuns.invariant (fun k => ∃ s, Sane k.statics s) ?_ ?_ reached
  · rintro k ⟨kernelCr3, memoryMap, next, rfl⟩
    exact ⟨_, sane_boot ..⟩
  · rintro k k' - ⟨s, sane⟩ ⟨e, stepped⟩
    obtain ⟨s', sane', -⟩ := Machine.stepped sane stepped
    exact ⟨s', sane'⟩

/-- **The invariant rule for runs of the kernel**: what holds after boot and what every step keeps. -/
theorem holds_of_reached (inv : Machine → List Thread → Prop)
    (boot : ∀ kernelCr3 memoryMap next, inv (.boot kernelCr3 memoryMap next) [bootThread])
    (steps : ∀ {k s e k' threads}, inv k s.threads → Stepped k s e k' threads → inv k' threads)
    (reached : kernelRuns.Reached k) : inv k k.threads := by
  obtain ⟨s, sane, holds⟩ : ∃ s, Sane k.statics s ∧ inv k s.threads := by
    refine kernelRuns.invariant (fun k => ∃ s, Sane k.statics s ∧ inv k s.threads) ?_ ?_ reached
    · rintro k ⟨kernelCr3, memoryMap, next, rfl⟩
      exact ⟨_, sane_boot .., boot ..⟩
    · rintro k k' - ⟨s, sane, holds⟩ ⟨e, stepped⟩
      obtain ⟨s', sane', outcome⟩ := Machine.stepped sane stepped
      exact ⟨s', sane', steps holds outcome⟩
  rw [sane.threads_eq]
  exact holds

end

end Ferros.Kernel
