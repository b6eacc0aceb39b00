/-
**The kernel as a machine.**

User processes, thread 0 and the timer on one processor. A system call runs with interrupts disabled: it
is one step, up to where it blocks; a blocked call that is woken continues with one more step. Thread 0
feeds the console and reaps dead processes with interrupts enabled: whatever it still has to do is a list
of tasks, and the timer may switch away between any two of them.

* `Machine.task` — the next task of thread 0. A wake-up that a buffer update owes is a task of its own.
* `kernelRuns` — all runs.

The key of a process in the registry is the frame of its PML4. Of an address space only its frames are kept
here: how many a call takes, and the order in which `destroy` gives them back, are free. A process that
needs the lock of the registry while thread 0 is preempted with it would spin forever; here it goes on, so
there are more runs here than there.
-/

import Ferros.Drivers.Console
import Ferros.Files.Calls
import Ferros.Mm.Frames
import Ferros.Sched.Thread
import Mathlib.Logic.Function.Basic

namespace Ferros.Kernel

open Lib Drivers Files Mm Option
open Sched (Thread Statics Scheduler Panic)

/-- Where a thread is in the kernel when it is switched to: in user mode, or in the loop of a call that
blocked. -/
inductive Doing
  | user
  | waiting (wantPid : ℤ)
  | readingStdin (count : ℕ)
  | readingPipe (buf count : ℕ)
  deriving DecidableEq, Repr

/-- What thread 0 has still to do. -/
inductive Task
  | wakeStdinReaders
  | wakePipeWaiters
  | destroy (pml4 : Frame)
  | forgetProcess (pml4 : Frame)
  | dropFd (slot : Option Fd)
  deriving DecidableEq, Repr

structure Machine where
  statics : Statics
  registry : Registry
  console : Console
  frames : FrameAllocator
  /-- The frames of an address space other than its PML4. -/
  spaces : Frame → List Frame
  doing : ℕ → Doing
  tasks : List Task

/-- The size of the kernel's heap in bytes. The vector of threads lives there and never shrinks, so there
are never more threads than that. -/
def heapSize : ℕ := 1024 * 1024

/-! ### Parts of the kernel -/

/-- A call of the scheduler; one that panics has no result. -/
def Machine.sched (call : Statics → Except Panic Statics) (k : Machine) : Option Machine :=
  match call k.statics with
  | .ok statics => some { k with statics }
  | .error _ => none

/-- The calls of `wake_pipe_waiters` made since the flag was last cleared. -/
def Machine.flush (k : Machine) : Machine :=
  if k.registry.shared.wake then
    { k with
      statics := Sched.wakePipeWaiters k.statics
      registry := { k.registry with shared := { k.registry.shared with wake := false } } }
  else k

/-- A call on descriptors, with the wake-ups it makes. -/
def Machine.file (op : Op) (k : Machine) : Option (Outcome × Machine) :=
  (perform op k.registry).map fun (outcome, registry) => (outcome, { k with registry }.flush)

def Machine.setDoing (i : ℕ) (d : Doing) (k : Machine) : Machine :=
  { k with doing := Function.update k.doing i d }

/-- A new address space of `n + 1` frames; the first is the PML4. -/
def Machine.build (n : ℕ) (k : Machine) : Option (Frame × Machine) :=
  match takeFrames (n + 1) k.frames with
  | some (pml4 :: rest, frames) =>
    some (pml4, { k with frames, spaces := Function.update k.spaces pml4 rest })
  | _ => none

/-- `AddressSpace::destroy`: the PML4 goes back last. `order` is the order in which the other frames are
met. -/
def Machine.destroy (pml4 : Frame) (order : List Frame) (k : Machine) : Option Machine :=
  if order.Perm (k.spaces pml4) then
    some { k with
      frames := deallocateFrame pml4 (giveFrames order k.frames)
      spaces := Function.update k.spaces pml4 [] }
  else none

/-- `add_user_task`, while the heap has room for the thread. -/
def Machine.addUserTask (cr3 : Frame) (top : ℕ) (stack : Sched.Stack) (fsBase : ℕ) (k : Machine) :
    Option Machine :=
  if (k.statics.scheduler.elim 0 (·.threads.length)) < heapSize then
    k.sched fun w => (Sched.addUserTask cr3 top stack fsBase w).map Prod.snd
  else none

/-! ### System calls -/

inductive Syscall
  /-- A call on the state of the process that neither blocks nor takes memory. -/
  | file (op : Op)
  | read (fd count : ℕ) (copies : Bool)
  /-- `take` frames are mapped, and then `release` are given back. -/
  | brk (addr : ℕ) (maps : Bool) (take : ℕ) (release : List Frame)
  | fork (n top : ℕ) (stack : Sched.Stack) (fsBase : ℕ)
  /-- `loaded` says whether the file is a program whose arguments fit. -/
  | execve (n : ℕ) (loaded : Bool) (order : List Frame)
  | exit (status : ℤ)
  | wait4 (wantPid : ℤ)
  | kill (pid : ℤ) (sig : ℕ)

/-- The process for which `Syscall.file` makes a call. -/
def caller : Op → Option Key
  | .openFile key _ | .pipe key _ | .socket key _ _ _ | .dup2 key _ _ | .fcntl key _ _ _
  | .close key _ _ | .write key _ _ | .lseek key _ _ _ | .chdir key _ _ | .touch key => some key
  | _ => none

/-- The current process blocks, in the loop of the call that `d` stands for. -/
def Machine.block (c : ℕ) (reason : Sched.BlockReason) (d : Doing) (k : Machine) : Option Machine :=
  (k.sched (Sched.blockCurrentOn reason)).map (Machine.setDoing c d)

def Machine.readStdin (c count : ℕ) (copies : Bool) (k : Machine) : Option Machine :=
  if count = 0 then some k
  else
    match readStdinTurn count copies k.console with
    | (none, console) => { k with console }.block c .stdin (.readingStdin count)
    | (some _, console) => some ({ k with console }.setDoing c .user)

/-- One turn of `wait_current`. -/
def Machine.wait (c : ℕ) (wantPid : ℤ) (k : Machine) : Option Machine :=
  match Sched.waitCurrent wantPid k.statics with
  | .ok (none, statics) => some ({ k with statics }.setDoing c (.waiting wantPid))
  | .ok (some _, statics) => some ({ k with statics }.setDoing c .user)
  | .error _ => none

/-- What follows a turn of reading a descriptor. -/
def Machine.afterRead (c count : ℕ) (copies : Bool) : Outcome × Machine → Option Machine
  | (.read (.returned _ _), k) => some (k.setDoing c .user)
  | (.read .stdin, k) => k.readStdin c count copies
  | (.read (.blocks buf), k) => k.block c .pipe (.readingPipe buf count)
  | _ => none

/-- The largest signal number, `SIG_MAX`. -/
def sigMax : ℕ := 64

/-- A system call of the current process `c` with PML4 `key`. -/
def Machine.call (c : ℕ) (key : Frame) (k : Machine) : Syscall → Option Machine
  | .file op => if caller op = some key then (k.file op).map Prod.snd else none
  | .read fd count copies => (k.file (.read key fd count copies)).bind (Machine.afterRead c count copies)
  | .brk addr maps take release => do
      let (taken, frames) ← takeFrames take k.frames
      let owned := taken ++ k.spaces key
      if release ⊆ owned ∧ release.Nodup then
        let k := { k with
          frames := giveFrames release frames
          spaces := Function.update k.spaces key (owned.diff release) }
        return (← k.file (.brk key addr maps)).2
      else none
  | .fork n top stack fsBase => do
      let (pml4, k) ← k.build n
      let (_, k) ← k.file (.fork key pml4)
      k.addUserTask pml4 top stack fsBase
  | .execve n loaded order => do
      let (pml4, k) ← k.build n
      if loaded then
        let k ← k.sched fun w => (Sched.execReplaceCr3 pml4 w).map Prod.snd
        let k ← k.destroy key order
        return (← k.file (.exec key pml4)).2
      else k.destroy pml4 order
  | .exit status => do
      let (_, k) ← k.file (.exit key)
      k.sched (Sched.exitCurrent status)
  | .wait4 wantPid => k.wait c wantPid
  | .kill pid sig =>
    if sigMax < sig ∨ pid ≤ 0 then some k
    else k.sched fun w => (Sched.signal (pid % 2 ^ 32).toNat sig w).map Prod.snd

/-- The next turn of the call in which process `c` blocked. -/
def Machine.resume (c : ℕ) (copies : Bool) (k : Machine) : Option Machine :=
  match k.doing c with
  | .user => none
  | .waiting wantPid => k.wait c wantPid
  | .readingStdin count => k.readStdin c count copies
  | .readingPipe buf count => (k.file (.resume buf count copies)).bind (Machine.afterRead c count copies)

/-! ### Thread 0 -/

/-- The tasks of the second phase of `reap`. -/
def corpseTasks : List Sched.Corpse → List Task :=
  List.flatMap fun (cr3, _) => cr3.elim [] fun pml4 => [.destroy pml4, .forgetProcess pml4]

/-- The next task of thread 0. -/
def Machine.task (order : List Frame) (k : Machine) : Option Machine :=
  match k.tasks with
  | [] => none
  | .wakeStdinReaders :: tasks =>
    some { k with statics := Sched.wakeStdinReaders k.statics, tasks }
  | .wakePipeWaiters :: tasks =>
    some { k with statics := Sched.wakePipeWaiters k.statics, tasks }
  | .destroy pml4 :: tasks => { k with tasks }.destroy pml4 order
  | .forgetProcess pml4 :: tasks =>
    let fds := (k.registry.processes.lookup pml4).elim [] ProcState.fds
    some { k with
      registry := { k.registry with processes := k.registry.processes.erase pml4 }
      tasks := fds.map .dropFd ++ tasks }
  | .dropFd slot :: tasks => do
      let shared ← Files.dropSlot slot k.registry.shared
      -- the counter is decremented; whether to wake is found out after that
      return { k with
        registry := { k.registry with shared := { shared with wake := false } }
        tasks := if shared.wake then .wakePipeWaiters :: tasks else tasks }

/-! ### Runs -/

inductive Event
  /-- The timer interrupts the current thread. -/
  | tick
  /-- The current process makes a system call. -/
  | call (call : Syscall)
  /-- The current process goes on in a call that blocked. -/
  | resume (copies : Bool)
  /-- The current process faults in user mode. -/
  | fault
  | feed (c : Char)
  | reap
  | spawnUser (n top : ℕ) (stack : Sched.Stack)
  | task (order : List Frame)

def Machine.current (k : Machine) : Option (ℕ × Thread) := do
  let s ← k.statics.scheduler
  let t ← s.threads[s.current]?
  return (s.current, t)

/-- Events of thread 0, by whether it has tasks left. -/
def Machine.stepZero (k : Machine) : Event → Option Machine
  | .tick => k.sched Sched.onTimerTick
  | .task order => k.task order
  | .feed c =>
    if k.tasks = [] then
      let (echo, console) := feedChar c k.console
      some { k with console, tasks := if echo = .newline then [.wakeStdinReaders] else [] }
    else none
  | .reap =>
    if k.tasks = [] then
      let (corpses, statics) := Sched.reap true k.statics
      some { k with statics, tasks := corpseTasks corpses }
    else none
  | .spawnUser n top stack =>
    if k.tasks = [] then do
      let (pml4, k) ← k.build n
      k.addUserTask pml4 top stack 0
    else none
  | _ => none

/-- `SIGSEGV` -/
def sigSegv : ℕ := 11

/-- Events of a user process: in user mode, or in a call that blocked. -/
def Machine.stepUser (c : ℕ) (key : Frame) (k : Machine) (e : Event) : Option Machine :=
  match k.doing c, e with
  | .user, .tick => k.sched Sched.onTimerTick
  | .user, .call call => k.call c key call
  | .user, .fault => k.sched (Sched.exitCurrentKilled sigSegv)
  | .user, _ => none
  | _, .resume copies => k.resume c copies
  | _, _ => none

def Machine.step (e : Event) (k : Machine) : Option Machine :=
  match k.current with
  | none => none
  | some (c, t) =>
    match t.cr3 with
    | none => k.stepZero e
    | some key => k.stepUser c key e

/-- After boot: the scheduler is initialised and preemptive, nothing runs but thread 0, and frames have
been handed out by the cursor only. -/
def Machine.boot (kernelCr3 : Frame) (memoryMap : MemoryMap) (next : ℕ) : Machine where
  statics := { Sched.init kernelCr3 Sched.boot with preemption := true }
  registry := .empty
  console := ⟨[], []⟩
  frames := ⟨memoryMap, next, []⟩
  spaces := fun _ => []
  doing := fun _ => .user
  tasks := []

def kernelRuns : System Machine :=
  .ofOps (fun k => ∃ kernelCr3 memoryMap next, k = .boot kernelCr3 memoryMap next) Machine.step

/-! ### A small kernel -/

/-- A kernel with eight frames, just booted. -/
def smallKernel : Machine :=
  .boot 0 ⟨[1, 2, 3, 4, 5, 6, 7, 8], by decide, by decide⟩ 0

/-- The small kernel after some events. -/
def smallRun (events : List Event) : Machine :=
  (replay Machine.step events smallKernel).getD smallKernel

theorem reached_smallRun {events : List Event} (runs : (replay Machine.step events smallKernel).isSome) :
    kernelRuns.Reached (smallRun events) := by
  obtain ⟨k, replayed⟩ := isSome_iff_exists.mp runs
  have ends : smallRun events = k := by rw [smallRun, replayed, getD_some]
  rw [ends]
  exact System.Reached.replay (.start ⟨_, _, _, rfl⟩) replayed

end Ferros.Kernel
