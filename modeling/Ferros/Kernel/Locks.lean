/-
**Spin locks and preemption.**

Thread 0 reaps with interrupts enabled: it holds the lock of the frame allocator while it asks whether there
is one and while it destroys an address space, and the lock of the registry while it forgets a process and
drops its descriptors. A system call that needs a lock spins with interrupts disabled, so on one processor a
lock that the preempted thread 0 holds is never released.

* `Guarded` — the kernel with the lock that thread 0 holds, and the lock that the current process spins on.
* `never_spins` — in masked runs nobody spins; `fork_spins` — a run in which a fork does.

The invariant (`Guarded.Calm`): a lock is held only while thread 0 is current. It is when it takes one, and a
masked timer does not switch away from it (`calm_of_step`). So while a process is current there is no lock to
spin on (`Calm.not_held`).
-/

import Ferros.Kernel.Steps

namespace Ferros.Kernel

open Lib Drivers Files Mm Sched List Option

inductive Lock
  | frameAlloc
  | processes
  deriving DecidableEq, Repr

/-- The lock under which thread 0 does a task. -/
def Task.lock : Task → Option Lock
  | .destroy _ => some .frameAlloc
  | .forgetProcess _ | .dropFd _ => some .processes
  | .wakeStdinReaders | .wakePipeWaiters => none

/-- The locks that a system call of the process with PML4 `key` takes, in the order it takes them first. -/
def Syscall.locks (key : Frame) : Syscall → List Lock
  | .file op => if caller op = some key then [.processes] else []
  | .read _ _ _ | .exit _ => [.processes]
  | .brk _ _ _ _ => [.processes, .frameAlloc]
  | .fork _ _ _ _ => [.frameAlloc, .processes]
  | .execve _ _ _ => [.processes, .frameAlloc]
  | .wait4 _ | .kill _ _ => []

/-- A lock in the hands of thread 0. -/
structure Hold where
  lock : Lock
  /-- It is released when so many tasks are left. -/
  left : ℕ
  deriving DecidableEq, Repr

structure Guarded where
  machine : Machine
  held : Option Hold
  /-- `reap` has found the frame allocator installed. -/
  installed : Bool
  /-- The lock on which the current process spins. -/
  spinning : Option Lock

/-- What thread 0 does apart from events: it takes the lock that comes next, and gives it back. -/
inductive Move
  | acquire
  | release
  | event (e : Event)

/-- Thread 0 takes the lock for the next task, or at the start of `reap` for `global_installed`. -/
def Guarded.acquire (g : Guarded) : Option Guarded :=
  match g.held, g.machine.tasks with
  | some _, _ => none
  | none, [] => some { g with held := some ⟨.frameAlloc, 0⟩, installed := true }
  | none, task :: rest => task.lock.map fun lock => { g with held := some ⟨lock, rest.length⟩ }

def Guarded.release (g : Guarded) : Option Guarded :=
  match g.held with
  | none => none
  | some hold => if g.machine.tasks.length = hold.left then some { g with held := none } else none

/-- May thread 0 do this, as far as its locks go? -/
def Guarded.permits (g : Guarded) : Event → Bool
  | .tick => true
  | .task _ => g.machine.tasks.head?.all fun task => task.lock.all fun lock => g.held.any (·.lock = lock)
  | .reap => g.held.isNone && g.installed
  | _ => g.held.isNone

/-- An event of thread 0. -/
def Guarded.zeroEvent (e : Event) (g : Guarded) : Option Guarded :=
  if g.permits e then
    (g.machine.step e).map fun machine => { g with machine, installed := g.installed && e matches .tick }
  else none

/-- The lock on which an event of process `c` with PML4 `key` would spin: the first that it does not get. -/
def Guarded.wanted (c : ℕ) (key : Frame) (e : Event) (g : Guarded) : Option Lock :=
  match g.machine.doing c, e with
  | .user, .call call => (call.locks key).find? fun lock => g.held.any (·.lock = lock)
  | _, _ => none

def Guarded.userEvent (c : ℕ) (key : Frame) (e : Event) (g : Guarded) : Option Guarded :=
  match g.wanted c key e with
  | some lock => some { g with spinning := some lock }
  | none => (g.machine.step e).map fun machine => { g with machine }

/-- Whoever spins does so with interrupts disabled, forever. -/
def Guarded.step (m : Move) (g : Guarded) : Option Guarded :=
  match g.spinning, g.machine.current with
  | none, some (c, t) =>
    match t.cr3, m with
    | none, .acquire => if c = 0 then g.acquire else none
    | none, .release => if c = 0 then g.release else none
    | none, .event e => g.zeroEvent e
    | some key, .event e => g.userEvent c key e
    | some _, _ => none
  | _, _ => none

def guardedRuns : System Guarded :=
  .ofOps (fun g => ∃ kernelCr3 memoryMap next,
    g = ⟨.boot kernelCr3 memoryMap next, none, false, none⟩) Guarded.step

/-! ### Masked runs -/

/-- The index of the current thread. -/
def Machine.index (k : Machine) : Option ℕ :=
  k.statics.scheduler.map Scheduler.current

/-- The timer does not switch away from a thread 0 that holds a lock. -/
def Masked (g g' : Guarded) : Prop :=
  g.held.isSome = true → g'.machine.index = g.machine.index

instance : DecidableRel Masked := fun g g' =>
  inferInstanceAs (Decidable (g.held.isSome → g'.machine.index = g.machine.index))

/-- Locks are in the hands of the current thread 0, and nobody spins. -/
structure Guarded.Calm (g : Guarded) : Prop where
  reached : kernelRuns.Reached g.machine
  zero : g.held.isSome = true → g.machine.index = some 0
  spins : g.spinning = none

variable {g g' : Guarded} {t : Thread} {c : ℕ}

/-- While thread 0 holds a lock, no user process is current. -/
theorem Guarded.Calm.not_held (calm : g.Calm) {key : Frame} (current : g.machine.current = some (c, t))
    (user : t.cr3 = some key) : g.held = none := by
  obtain ⟨s, sane⟩ := sane_of_reached calm.reached
  obtain ⟨t', present, -⟩ := sane.ready.running
  cases (current_eq sane present).symm.trans current
  by_contra held
  have isZero := calm.zero (isSome_iff_ne_none.mpr held)
  rw [Machine.index, sane.here] at isZero
  obtain ⟨zero, first, -, kernel, -⟩ := sane.ready.zero
  rw [some.inj isZero] at present
  cases first.symm.trans present
  exact nomatch kernel.symm.trans user

theorem index_of_current {k : Machine} (current : k.current = some (c, t)) : k.index = some c := by
  obtain ⟨s, here, current⟩ := bind_eq_some_iff.mp current
  obtain ⟨t', -, same⟩ := bind_eq_some_iff.mp current
  rw [Machine.index, here, ← (Prod.mk.inj (some.inj same)).1]
  rfl

theorem acquire_eq_some (taken : g.acquire = some g') : ∃ held installed, g' = { g with held, installed } := by
  unfold Guarded.acquire at taken
  split at taken
  · exact nomatch taken
  · exact ⟨_, _, (some.inj taken).symm⟩
  · obtain ⟨lock, -, rfl⟩ := map_eq_some_iff.mp taken
    exact ⟨_, g.installed, rfl⟩

theorem release_eq_some (taken : g.release = some g') : g' = { g with held := none } := by
  unfold Guarded.release at taken
  split at taken
  · exact nomatch taken
  · split at taken
    · exact (some.inj taken).symm
    · exact nomatch taken

theorem zeroEvent_eq_some {e : Event} (taken : g.zeroEvent e = some g') :
    ∃ machine installed, g.machine.step e = some machine ∧ g' = { g with machine, installed } := by
  unfold Guarded.zeroEvent at taken
  split at taken
  · obtain ⟨machine, stepped, rfl⟩ := map_eq_some_iff.mp taken
    exact ⟨machine, _, stepped, rfl⟩
  · exact nomatch taken

theorem wanted_of_free (free : g.held = none) (c : ℕ) (key : Frame) (e : Event) : g.wanted c key e = none := by
  unfold Guarded.wanted
  split
  · rw [free]
    exact find?_eq_none.mpr fun _ _ => nofun
  · rfl

/-- **One move** of a masked run. -/
theorem calm_of_step (calm : g.Calm) (masked : Masked g g') {m : Move} (taken : g.step m = some g') :
    g'.Calm := by
  unfold Guarded.step at taken
  split at taken
  · rename_i c t _ current
    split at taken
    · rename_i kernel
      split at taken
      · rename_i isZero
        obtain ⟨held, installed, rfl⟩ := acquire_eq_some taken
        exact ⟨calm.reached, fun _ => isZero ▸ index_of_current current, calm.spins⟩
      · exact nomatch taken
    · split at taken
      · obtain rfl := release_eq_some taken
        exact ⟨calm.reached, nofun, calm.spins⟩
      · exact nomatch taken
    · rename_i e kernel
      obtain ⟨machine, installed, stepped, rfl⟩ := zeroEvent_eq_some taken
      exact ⟨calm.reached.step ⟨e, stepped⟩, fun held => (masked held).trans (calm.zero held), calm.spins⟩
    · rename_i key e user
      have free := calm.not_held current user
      rw [Guarded.userEvent, wanted_of_free free] at taken
      obtain ⟨machine, stepped, rfl⟩ := map_eq_some_iff.mp taken
      refine ⟨calm.reached.step ⟨e, stepped⟩, fun held => ?_, calm.spins⟩
      rw [show g.held = none from free] at held
      exact nomatch held
    · exact nomatch taken
  · exact nomatch taken

/-- **Nobody spins** on a lock that thread 0 holds, in every run in which the timer does not switch away from a
thread 0 that holds one. -/
theorem never_spins (reached : (guardedRuns.restrict Masked).Reached g) : g.spinning = none := by
  have calm : g.Calm := by
    refine System.invariant _ Guarded.Calm ?_ ?_ reached
    · rintro g ⟨kernelCr3, memoryMap, next, rfl⟩
      exact ⟨.start ⟨_, _, _, rfl⟩, nofun, rfl⟩
    · rintro g g' - calm ⟨⟨m, taken⟩, masked⟩
      exact calm_of_step calm masked taken
  exact calm.spins

def smallGuarded : Guarded := ⟨smallKernel, none, false, none⟩

/-- A process forks; the child ends and is collected, and thread 0 begins to reap it. -/
def beginsToReap : List Move :=
  ([.spawnUser 0 0 0, .tick, .call (.fork 0 0 1 0), .tick, .call (.exit 0), .tick, .call (.wait4 (-1)),
    .tick] : List Event).map .event ++ [.acquire, .release, .event .reap, .acquire]

/-- The small kernel after some moves. -/
def smallGuard (moves : List Move) : Guarded :=
  (replay Guarded.step moves smallGuarded).getD smallGuarded

/-- Thread 0 finishes with the lock of the frame allocator before the timer switches to the process, which
forks. -/
theorem never_spins_forks : (smallGuard (beginsToReap ++ [.event (.task []), .release, .event .tick,
      .event (.call (.fork 0 0 2 0))])).spinning = none := by
  have replayed : replay (checked Masked Guarded.step) (beginsToReap ++ [.event (.task []), .release,
      .event .tick, .event (.call (.fork 0 0 2 0))]) smallGuarded = some (smallGuard (beginsToReap ++
      [.event (.task []), .release, .event .tick, .event (.call (.fork 0 0 2 0))])) := rfl
  refine never_spins ?_
  rw [guardedRuns, System.restrict_ofOps]
  exact .replay (.start ⟨_, _, _, rfl⟩) replayed

/-- **A fork that spins forever.** The timer interrupts thread 0 while it destroys the address space of the
child; the parent forks and waits for the frame allocator. -/
theorem fork_spins : ∃ g hold, guardedRuns.Reached g ∧ g.held = some hold ∧ g.spinning = some hold.lock := by
  have replayed : replay Guarded.step (beginsToReap ++ [.event .tick, .event (.call (.fork 0 0 2 0))])
      smallGuarded = some (smallGuard (beginsToReap ++
        [.event .tick, .event (.call (.fork 0 0 2 0))])) := rfl
  exact ⟨_, ⟨.frameAlloc, 1⟩, .replay (.start ⟨_, _, _, rfl⟩) replayed, rfl, rfl⟩

end Ferros.Kernel
