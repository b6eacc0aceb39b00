/-
**The scheduler: threads and the operations on them.**

The thread vector, the round-robin choice of the next thread, termination with reparenting, signals,
`wait`, blocking and waking, and the collection of dead threads, as the kernel computes them. The
statics of the module are the fields of `Statics`. Every `expect`, `assert!`, `unreachable!` and
out-of-range index of the source is a `Panic`.

The saved stack pointer and FPU area of a thread are left out: only the assembly of the context
switch reads them.
-/

import Ferros.Lib.Update
import Ferros.Mm.Frames
import Mathlib.Algebra.Ring.Int.Defs
import Mathlib.Algebra.Ring.Nat
import Mathlib.Data.Int.Notation

namespace Ferros.Sched

open Lib
open Mm (Frame)

/-- The memory of a kernel stack, by identity. -/
abbrev Stack := ℕ

inductive State
  | runnable
  | blocked
  | zombie
  | dead
  | reaped
  deriving DecidableEq, Repr

inductive BlockReason
  | none
  | child
  | stdin
  | pipe
  deriving DecidableEq, Repr

structure Thread where
  /-- Process number, a `u32`. -/
  pid : ℕ
  parent : ℕ
  exitStatus : Option ℤ
  termSignal : Option ℕ
  pendingSignals : BitVec 64
  stack : Option Stack
  /-- The root of the address space; `none` for a thread of the kernel. -/
  cr3 : Option Frame
  kernelStackTop : ℕ
  fsBase : ℕ
  state : State
  blockedOn : BlockReason
  deriving DecidableEq, Repr

structure Scheduler where
  threads : List Thread
  current : ℕ
  kernelCr3 : Frame
  deriving DecidableEq, Repr

inductive Panic
  /-- `expect("scheduler not initialized")` -/
  | notInitialized
  | indexOutOfBounds
  /-- `assert!(…, "no runnable task to switch to")` -/
  | noRunnable
  /-- `unreachable!` after a dead task switched away -/
  | returnedToDead
  /-- `1u64 << (sig - 1)` with overflow checks -/
  | shiftOverflow
  /-- `expect("exec on a kernel thread (no address space)")` -/
  | execOnKernelThread
  deriving DecidableEq, Repr

/-- The statics `SCHEDULER`, `NEXT_PID` and `PREEMPTION_ENABLED`. -/
structure Statics where
  scheduler : Option Scheduler
  nextPid : ℕ
  preemption : Bool
  deriving DecidableEq, Repr

/-- Before `init`. -/
def boot : Statics :=
  ⟨none, 1, false⟩

/-- `guard.as_mut().expect("scheduler not initialized")` -/
def Statics.get (w : Statics) : Except Panic Scheduler :=
  match w.scheduler with
  | some s => .ok s
  | none => .error .notInitialized

def Statics.put (w : Statics) (s : Scheduler) : Statics :=
  { w with scheduler := some s }

/-- `sched.threads[i]` -/
def Scheduler.at (s : Scheduler) (i : ℕ) : Except Panic Thread :=
  match s.threads[i]? with
  | some t => .ok t
  | none => .error .indexOutOfBounds

/-! ### Creating threads -/

def bootThread : Thread where
  pid := 0
  parent := 0
  exitStatus := none
  termSignal := none
  pendingSignals := 0
  stack := none
  cr3 := none
  kernelStackTop := 0
  fsBase := 0
  state := .runnable
  blockedOn := .none

def init (kernelCr3 : Frame) (w : Statics) : Statics :=
  w.put ⟨[bootThread], 0, kernelCr3⟩

/-- The pid of the current thread, 0 before `init`. -/
def currentPid (w : Statics) : Except Panic ℕ :=
  match w.scheduler with
  | some s => (s.at s.current).map Thread.pid
  | none => .ok 0

/-- `NEXT_PID.fetch_add(1)`: the counter wraps around. -/
def fetchPid (w : Statics) : ℕ × Statics :=
  (w.nextPid, { w with nextPid := (w.nextPid + 1) % 2 ^ 32 })

def pushThread (t : Thread) (w : Statics) : Except Panic Statics := do
  let s ← w.get
  return w.put { s with threads := s.threads ++ [t] }

/-- Starts a kernel thread on a stack of its own with the given top. -/
def spawn (stack : Stack) (top : ℕ) (w : Statics) : Except Panic Statics := do
  let parent ← currentPid w
  let (pid, w) := fetchPid w
  pushThread
    { pid, parent, exitStatus := none, termSignal := none, pendingSignals := 0
      stack := some stack, cr3 := none, kernelStackTop := top, fsBase := 0
      state := .runnable, blockedOn := .none } w

/-- Registers a user process and returns its pid. -/
def addUserTask (cr3 : Frame) (kernelStackTop : ℕ) (kstack : Stack) (fsBase : ℕ) (w : Statics) :
    Except Panic (ℕ × Statics) := do
  let parent ← currentPid w
  let (pid, w) := fetchPid w
  let w ← pushThread
    { pid, parent, exitStatus := none, termSignal := none, pendingSignals := 0
      stack := some kstack, cr3 := some cr3, kernelStackTop, fsBase
      state := .runnable, blockedOn := .none } w
  return (pid, w)

/-- Replaces the address space of the current process and returns the old one. -/
def execReplaceCr3 (new : Frame) (w : Statics) : Except Panic (Frame × Statics) := do
  let s ← w.get
  let t ← s.at s.current
  match t.cr3 with
  | none => throw .execOnKernelThread
  | some old =>
    let threads := s.threads.set s.current { t with cr3 := some new, fsBase := 0 }
    return (old, w.put { s with threads })

/-! ### Switching -/

/-- What `switch_task` loads for the thread it switches to. -/
structure Switch where
  cr3 : Frame
  rsp0 : ℕ
  fsBase : ℕ
  deriving DecidableEq, Repr

/-- The first runnable thread after the current one, in round-robin order. -/
def nextRunnable (s : Scheduler) : Option ℕ :=
  let len := s.threads.length
  ((List.range' 1 (len - 1)).map fun i => (s.current + i) % len).find? fun c =>
    (s.threads[c]?).any (·.state = .runnable)

/-- `true` in the source is a switch here; without a scheduler nothing happens. -/
def switchToNext (w : Statics) : Except Panic (Option Switch × Statics) :=
  match w.scheduler with
  | none => .ok (none, w)
  | some s =>
    match nextRunnable s with
    | some n => do
        let t ← s.at n
        return (some ⟨t.cr3.getD s.kernelCr3, t.kernelStackTop, t.fsBase⟩,
          w.put { s with current := n })
    | none => do
        let t ← s.at s.current
        if t.state = .runnable then return (none, w) else throw .noRunnable

def startPreemption (w : Statics) : Statics :=
  { w with preemption := true }

def stopPreemption (w : Statics) : Statics :=
  { w with preemption := false }

def onTimerTick (w : Statics) : Except Panic Statics :=
  if w.preemption then return (← switchToNext w).2 else return w

def yieldNow (w : Statics) : Except Panic Statics := do
  return (← switchToNext w).2

/-! ### Termination and signals -/

def isAlive : State → Bool
  | .runnable | .blocked => true
  | _ => false

/-- Blocked in `wait`, as process `pid`. -/
def waitsAs (pid : ℕ) (t : Thread) : Bool :=
  t.pid = pid && t.state = .blocked && t.blockedOn = .child

def orphan (pid : ℕ) (t : Thread) : Thread :=
  if t.parent = pid then { t with parent := 0 } else t

def wake (t : Thread) : Thread :=
  { t with state := .runnable }

/-- Makes thread `idx` a zombie, orphans its children and wakes its waiting parent. -/
def terminate (s : Scheduler) (idx : ℕ) (status : ℤ) (signal : Option ℕ) :
    Except Panic Scheduler := do
  let t ← s.at idx
  let t' := { t with exitStatus := some status, termSignal := signal, state := .zombie }
  let threads := (s.threads.set idx t').map (orphan t.pid)
  -- the parent is read after the loop over the children
  let parentPid := (orphan t.pid t').parent
  if parentPid ≠ 0 then
    return { s with threads := modifyFirst (waitsAs parentPid) wake threads }
  else
    return { s with threads }

def exitCurrentInner (status : ℤ) (signal : Option ℕ) (w : Statics) : Except Panic Statics := do
  let s ← w.get
  let s ← terminate s s.current status signal
  match ← switchToNext (w.put s) with
  | (some _, w) => return w
  | (none, _) => throw .returnedToDead

def exitCurrent (status : ℤ) (w : Statics) : Except Panic Statics :=
  exitCurrentInner status none w

def exitCurrentKilled (sig : ℕ) (w : Statics) : Except Panic Statics :=
  exitCurrentInner (128 + sig) (some sig) w

def defaultTerminates (sig : ℕ) : Bool :=
  sig ∉ [17, 18, 19, 20, 21, 22, 23, 28]

inductive SignalOutcome
  | delivered
  | noSuchProcess
  deriving DecidableEq, Repr

/-- A live user process with the given pid. -/
def isTarget (pid : ℕ) (t : Thread) : Bool :=
  t.pid = pid && t.cr3.isSome && isAlive t.state

/-- Sends signal `sig`, a `u8`, to process `targetPid`. -/
def signal (targetPid sig : ℕ) (w : Statics) : Except Panic (SignalOutcome × Statics) := do
  let s ← w.get
  match s.threads.findIdx? (isTarget targetPid) with
  | none => return (.noSuchProcess, w)
  | some idx =>
    if sig = 0 then return (.delivered, w)
    else if 64 < sig then throw .shiftOverflow
    else
      let s := { s with threads := s.threads.modify idx fun t =>
        { t with pendingSignals := t.pendingSignals ||| (1#64 <<< (sig - 1)) } }
      if defaultTerminates sig then
        let s ← terminate s idx (128 + sig) (some sig)
        if idx = s.current then
          match ← switchToNext (w.put s) with
          | (some _, w) => return (.delivered, w)
          | (none, _) => throw .returnedToDead
        else return (.delivered, w.put s)
      else return (.delivered, w.put s)

/-! ### Waiting, blocking and waking -/

inductive WaitResult
  | collected (pid : ℕ) (status : ℤ) (signal : Option ℕ)
  | wouldBlock
  | noChildren
  deriving DecidableEq, Repr

/-- `want_pid > 0` asks for one child, cast to `u32`; any other value asks for any child. -/
def wanted (wantPid : ℤ) : Option ℕ :=
  if 0 < wantPid then some (wantPid % 2 ^ 32).toNat else none

/-- A child of `parent` that the call asks for. -/
def isMine (parent : ℕ) (want : Option ℕ) (t : Thread) : Bool :=
  t.parent = parent && want.all (t.pid = ·)

/-- The current thread is put to sleep; whoever calls this switches away next. -/
def block (reason : BlockReason) (s : Scheduler) : Scheduler :=
  { s with threads := s.threads.modify s.current fun t =>
      { t with state := .blocked, blockedOn := reason } }

def tryCollectOrBlock (wantPid : ℤ) (w : Statics) : Except Panic (WaitResult × Statics) := do
  let s ← w.get
  let cur ← s.at s.current
  let mine := isMine cur.pid (wanted wantPid)
  match s.threads.findIdx? fun t => mine t && t.state = .zombie with
  | some i =>
    let t ← s.at i
    let s := { s with threads := s.threads.set i { t with state := .dead } }
    return (.collected t.pid (t.exitStatus.getD 0) t.termSignal, w.put s)
  | none =>
    if s.threads.any fun t => mine t && isAlive t.state then
      return (.wouldBlock, w.put (block .child s))
    else
      return (.noChildren, w)

/-- One turn of the loop of `wait_current`: the answer, or `none` after giving the CPU away. -/
def waitCurrent (wantPid : ℤ) (w : Statics) : Except Panic (Option WaitResult × Statics) := do
  match ← tryCollectOrBlock wantPid w with
  | (.wouldBlock, w) => return (none, (← switchToNext w).2)
  | (answer, w) => return (some answer, w)

/-- The common body of `block_current_on_stdin` and `block_current_on_pipe`. -/
def blockCurrentOn (reason : BlockReason) (w : Statics) : Except Panic Statics := do
  let s ← w.get
  let _ ← s.at s.current
  return (← switchToNext (w.put (block reason s))).2

def blockCurrentOnStdin (w : Statics) : Except Panic Statics :=
  blockCurrentOn .stdin w

def blockCurrentOnPipe (w : Statics) : Except Panic Statics :=
  blockCurrentOn .pipe w

def isBlockedOn (reason : BlockReason) (t : Thread) : Bool :=
  t.state = .blocked && t.blockedOn = reason

/-- The common body of `wake_stdin_readers` and `wake_pipe_waiters`: wakes everyone. -/
def wakeAll (reason : BlockReason) (w : Statics) : Statics :=
  { w with scheduler := w.scheduler.map fun s =>
      { s with threads := s.threads.map fun t => if isBlockedOn reason t then wake t else t } }

def wakeStdinReaders (w : Statics) : Statics :=
  wakeAll .stdin w

def wakePipeWaiters (w : Statics) : Statics :=
  wakeAll .pipe w

/-! ### Reaping -/

/-- What the reaper takes from a dead thread. -/
abbrev Corpse := Option Frame × Option Stack

def collectable (t : Thread) : Bool :=
  t.state = .dead || (t.state = .zombie && t.parent = 0)

def isReaped (s : Scheduler) (i : ℕ) (t : Thread) : Bool :=
  i ≠ s.current && collectable t

def bury (t : Thread) : Thread :=
  { t with cr3 := none, stack := none, state := .reaped }

/-- The dead threads that a call of `reap` collects. -/
def reaped (s : Scheduler) : List Thread :=
  (s.threads.zipIdx.filter fun (t, i) => isReaped s i t).map Prod.fst

/-- The first phase of `reap`, under the lock; nothing happens before the frame allocator is
installed or the scheduler initialised. -/
def reap (installed : Bool) (w : Statics) : List Corpse × Statics :=
  match installed, w.scheduler with
  | true, some s =>
    ((reaped s).map fun t => (t.cr3, t.stack),
      w.put { s with threads := s.threads.mapIdx fun i t => if isReaped s i t then bury t else t })
  | _, _ => ([], w)

end Ferros.Sched
