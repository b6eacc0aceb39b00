/-
**Runs of the descriptor calls.**

`Op` lists the calls that change descriptor tables or what descriptors share; `perform` makes one and
`registryRuns` are all sequences of them, by any processes, with a log of what they answered. A call by a
process names it by the key of its table, so that nothing here depends on how keys are chosen.

Before them stand the calls on the state of a process that share nothing with other processes: `chdir` with the
paths it resolves, `brk`, `lseek`, and accesses that only create the entry. What the file system answers, and
whether the heap can grow, comes in as arguments.
-/

import Ferros.Files.Descriptor
import Ferros.Lib.System
import Mathlib.Algebra.Ring.Int.Defs

namespace Ferros.Files

open Lib

def ENOENT : ℤ := 2
def ESPIPE : ℤ := 29

/-- `USER_HEAP_MAX` -/
def userHeapMax : ℕ := userHeapBase + 0x40000000

/-! ### Paths -/

def slash : UInt8 := 0x2F

/-- The loop of `normalize`: empty components and dots vanish, two dots take the last one away. -/
def collapse (parts : List (List UInt8)) : List (List UInt8) :=
  parts.foldl (fun comps part =>
    if part = [] ∨ part = [0x2E] then comps
    else if part = [0x2E, 0x2E] then comps.dropLast
    else comps ++ [part]) []

def normalize (path : List UInt8) : List UInt8 :=
  slash :: List.intercalate [slash] (collapse (path.splitOn slash))

/-- `combined` of `resolve_path`: a relative path behind the working directory. -/
def combine (cwd path : List UInt8) : List UInt8 :=
  (if cwd.getLast? = some slash then cwd else cwd ++ [slash]) ++ path

/-- The resolved path; for a relative one the working directory is read. -/
def resolvePath (key : Key) (path : List UInt8) (r : Registry) : List UInt8 × Registry :=
  if path.head? = some slash then (normalize path, r)
  else (normalize (combine (r.proc key).cwd path), r.put key (r.proc key))

/-! ### The calls -/

/-- `path` is what can be read from user memory, or an errno; `lookup` is the errno reported for a path
that is not a directory. -/
def sysChdir (key : Key) (path : Except ℤ (List UInt8)) (lookup : List UInt8 → Option ℤ)
    (r : Registry) : ℤ × Registry :=
  match path with
  | .error e => (-e, r)
  | .ok [] => (-ENOENT, r)
  | .ok path =>
    let (resolved, r) := resolvePath key path r
    match lookup resolved with
    | some e => (-e, r)
    | none => (0, r.put key { r.proc key with cwd := resolved })

/-- The break of a process; `maps` says whether the pages of a growing heap could be mapped. -/
def sysBrk (key : Key) (addr : ℕ) (maps : Bool) (r : Registry) : ℤ × Registry :=
  let p := r.proc key
  if addr < userHeapBase ∨ userHeapMax < addr then (p.brk, r.put key p)
  else if p.brk < addr ∧ maps = false then (p.brk, r.put key p)
  else (addr, r.put key { p with brk := addr })

inductive Whence
  | set
  | cur
  | fromEnd
  | other
  deriving DecidableEq, Repr

/-- Where `lseek` counts from. -/
def seekBase (f : OpenFile) : Whence → Option ℤ
  | .set => some 0
  | .cur => some f.offset
  | .fromEnd => some f.data.length
  | .other => none

def sysLseek (key : Key) (fd : ℕ) (offset : ℤ) (whence : Whence) (r : Registry) : ℤ × Registry :=
  let p := r.proc key
  match slotAt p.fds fd with
  | none => (-EBADF, r.put key p)
  | some (.file f) =>
    match seekBase f whence with
    | none => (-EINVAL, r.put key p)
    | some base =>
      let pos := base + offset
      -- `checked_add` on `i64`
      if 0 ≤ pos ∧ pos < 2 ^ 63 then
        (pos, r.put key { p with
          fds := p.fds.set fd (some (.file { f with offset := pos.toNat })) })
      else (-EINVAL, r.put key p)
  | some _ => (-ESPIPE, r.put key p)

/-! ### All calls -/

/-- The calls that change descriptor tables or what descriptors share, by the process they are made
for. `resume` is a further turn of the loop of a `read` that blocked on a pipe; `touch` is any call that
looks at the state of a process and leaves it as it is. -/
inductive Op
  | openFile (key : Key) (f : OpenFile)
  | pipe (key : Key) (copies : Bool)
  | socket (key : Key) (inet : Bool) (sockType : SockType) (made : Except ℤ ℕ)
  | fork (parent child : Key)
  | dup2 (key : Key) (oldfd newfd : ℕ)
  | fcntl (key : Key) (fd : ℕ) (cmd : FcntlCmd) (arg : ℕ)
  | close (key : Key) (fd : ℕ) (writeFile : OpenFile → Option ℤ)
  | exec (oldCr3 newCr3 : Key)
  | exit (key : Key)
  | forget (key : Key)
  | read (key : Key) (fd count : ℕ) (copies : Bool)
  | resume (buf count : ℕ) (copies : Bool)
  | write (key : Key) (fd : ℕ) (user : UserBytes)
  | lseek (key : Key) (fd : ℕ) (offset : ℤ) (whence : Whence)
  | chdir (key : Key) (path : Except ℤ (List UInt8)) (lookup : List UInt8 → Option ℤ)
  | brk (key : Key) (addr : ℕ) (maps : Bool)
  | touch (key : Key)

inductive Outcome
  | value (v : ℤ)
  | read (result : ReadResult)
  | done
  deriving DecidableEq, Repr

def perform (op : Op) (r : Registry) : Option (Outcome × Registry) :=
  match op with
  | .openFile key f => (allocCurrent key (.file f) r).map fun (v, r) => (.value v, r)
  | .pipe key copies => (sysPipe key copies r).map fun (v, r) => (.value v, r)
  | .socket key inet sockType made =>
    (sysSocket key inet sockType made r).map fun (v, r) => (.value v, r)
  | .fork parent child => (forkFds parent child r).map fun r => (.done, r)
  | .dup2 key oldfd newfd => (sysDup2 key oldfd newfd r).map fun (v, r) => (.value v, r)
  | .fcntl key fd cmd arg => (sysFcntl key fd cmd arg r).map fun (v, r) => (.value v, r)
  | .close key fd writeFile => (sysClose key fd writeFile r).map fun (v, r) => (.value v, r)
  | .exec oldCr3 newCr3 => (rekeyProcess oldCr3 newCr3 r).map fun r => (.done, r)
  | .exit key => (releaseCurrentProcessFds key r).map fun (_, r) => (.done, r)
  | .forget key => (forgetProcess key r).map fun r => (.done, r)
  | .read key fd count copies =>
    let (result, r) := sysRead key fd count copies r
    some (.read result, r)
  | .resume buf count copies =>
    let (result, shared) := readPipeTurn buf count copies r.shared
    some (.read result, { r with shared })
  | .write key fd user =>
    let (v, r) := sysWrite key fd user r
    some (.value v, r)
  | .lseek key fd offset whence =>
    let (v, r) := sysLseek key fd offset whence r
    some (.value v, r)
  | .chdir key path lookup =>
    let (v, r) := sysChdir key path lookup r
    some (.value v, r)
  | .brk key addr maps =>
    let (v, r) := sysBrk key addr maps r
    some (.value v, r)
  | .touch key => some (.done, r.put key (r.proc key))

/-! ### Runs -/

/-- The pipe that a call reads from or writes to. -/
def pipeOf (op : Op) (r : Registry) : Option ℕ :=
  match op with
  | .read key fd _ _ =>
    match slotAt (r.proc key).fds fd with
    | some (.pipeRead buf) => some buf
    | _ => none
  | .resume buf _ _ => some buf
  | .write key fd _ =>
    match slotAt (r.proc key).fds fd with
    | some (.pipeWrite buf) => some buf
    | _ => none
  | _ => none

/-- A call that was made: the pipe it used, if any, and what it answered. -/
structure Entry where
  op : Op
  pipe : Option ℕ
  outcome : Outcome

/-- A registry with the calls made so far. -/
structure Logged where
  registry : Registry
  log : List Entry

def Logged.step (op : Op) (l : Logged) : Option Logged :=
  (perform op l.registry).map fun (outcome, r) =>
    ⟨r, l.log ++ [⟨op, pipeOf op l.registry, outcome⟩]⟩

/-- Every sequence of calls by any processes, from the empty registry on. -/
def registryRuns : System Logged :=
  .ofOps (· = ⟨.empty, []⟩) Logged.step

theorem Logged.step_eq_some {op : Op} {l l' : Logged} (stepped : l.step op = some l') :
    ∃ outcome r, perform op l.registry = some (outcome, r) ∧
      l' = ⟨r, l.log ++ [⟨op, pipeOf op l.registry, outcome⟩]⟩ := by
  obtain ⟨⟨outcome, r⟩, ran, rfl⟩ := Option.map_eq_some_iff.mp stepped
  exact ⟨outcome, r, ran, rfl⟩

end Ferros.Files
