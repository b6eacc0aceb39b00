/-
**Descriptor tables and what descriptors share.**

The registry `PROCESSES` maps the address space of a process to its descriptor table, working directory
and break. Descriptors of several tables share pipe buffers and sockets; `Clone` and `Drop` of a
descriptor keep their counters, and are explicit calls here: `cloneFd` where the source clones, `dropFd`
where a value goes out of scope or is overwritten.

A counter decremented below zero panics; then `dropFd` has no result. A call of `wake_pipe_waiters` by
`Drop` or by `write` is recorded in the flag `wake`, a call of `close_socket` in the list `closed`.

What the calls read from and write to user memory, and what the file system and the network stack
answer, comes in as arguments.
-/

import Ferros.Lib.Holdings
import Mathlib.Data.Int.Notation

namespace Ferros.Files

open Lib

/-! ### Error numbers and limits -/

def EPIPE : ℤ := 32
def EBADF : ℤ := 9
def EFAULT : ℤ := 14
def EINVAL : ℤ := 22
def EMFILE : ℤ := 24
def EISDIR : ℤ := 21
def EPROTONOSUPPORT : ℤ := 93
def EAFNOSUPPORT : ℤ := 97

def maxFds : ℕ := 16

/-- `USER_HEAP_BASE` -/
def userHeapBase : ℕ := 0x7F8020000000

/-! ### Descriptors -/

/-- The physical address of a PML4. -/
abbrev Key := ℕ

structure OpenFile where
  name : List UInt8
  data : List UInt8
  offset : ℕ
  writable : Bool
  dirty : Bool
  isDir : Bool
  deriving DecidableEq, Repr

inductive SockKind
  | udp
  | tcp
  deriving DecidableEq, Repr

/-- A socket in a table: the handle in the network stack and the identity of the shared `Arc`. -/
structure SocketEnd where
  handle : ℕ
  kind : SockKind
  refs : ℕ
  deriving DecidableEq, Repr

/-- The two ends of a pipe. -/
inductive Side
  | read
  | write
  deriving DecidableEq, Repr

/-- What a descriptor points to; an end of a pipe names the shared buffer. -/
inductive Fd
  | console
  | vga
  | serial
  | file (f : OpenFile)
  | pipe (side : Side) (buf : ℕ)
  | socket (e : SocketEnd)
  deriving DecidableEq, Repr

@[match_pattern] abbrev Fd.pipeRead (buf : ℕ) : Fd := .pipe .read buf

@[match_pattern] abbrev Fd.pipeWrite (buf : ℕ) : Fd := .pipe .write buf

structure PipeBuf where
  data : List UInt8
  readers : ℕ
  writers : ℕ
  deriving DecidableEq, Repr

/-- The counter of one side. -/
def PipeBuf.ends (b : PipeBuf) : Side → ℕ
  | .read => b.readers
  | .write => b.writers

def PipeBuf.setEnds (b : PipeBuf) (side : Side) (n : ℕ) : PipeBuf :=
  match side with
  | .read => { b with readers := n }
  | .write => { b with writers := n }

/-- A socket of the network stack with the strong count of its `Arc`. -/
structure Socket where
  handle : ℕ
  strong : ℕ
  deriving DecidableEq, Repr

structure ProcState where
  fds : List (Option Fd)
  cwd : List UInt8
  brk : ℕ
  deriving DecidableEq, Repr

/-- `ProcState::default()`: the standard streams, the root directory and an empty heap. -/
def ProcState.initial : ProcState :=
  ⟨[some .console, some .vga, some .serial], [0x2F], userHeapBase⟩

/-- What descriptors share: pipe buffers and sockets by identity, with the calls made so far to
`close_socket` and the flag that `wake_pipe_waiters` is to be called. -/
structure Shared where
  pipes : List PipeBuf
  sockets : List Socket
  closed : List (ℕ × ℕ)
  wake : Bool
  deriving DecidableEq, Repr

/-- `PROCESSES` and the backings its tables share. -/
structure Registry where
  processes : Finmap fun _ : Key => ProcState
  shared : Shared

def Registry.empty : Registry :=
  ⟨∅, [], [], [], false⟩

/-! ### Clone and Drop -/

def clonePipe (side : Side) (p : ℕ) (s : Shared) : Shared :=
  { s with pipes := s.pipes.modify p fun b => b.setEnds side (b.ends side + 1) }

def cloneSocket (e : SocketEnd) (s : Shared) : Shared :=
  { s with sockets := s.sockets.modify e.refs fun k => { k with strong := k.strong + 1 } }

def cloneFd (fd : Fd) (s : Shared) : Shared :=
  match fd with
  | .pipeRead p => clonePipe .read p s
  | .pipeWrite p => clonePipe .write p s
  | .socket e => cloneSocket e s
  | _ => s

def dropPipe (side : Side) (p : ℕ) (s : Shared) : Option Shared := do
  let b ← s.pipes[p]?
  if b.ends side = 0 then none
  else some { s with
    pipes := s.pipes.set p (b.setEnds side (b.ends side - 1))
    wake := s.wake || b.ends side - 1 = 0 }

/-- `Drop for SocketEnd`, and then of its `Arc` -/
def dropSocket (e : SocketEnd) (s : Shared) : Option Shared := do
  let k ← s.sockets[e.refs]?
  if k.strong = 0 then none
  else some { s with
    sockets := s.sockets.set e.refs { k with strong := k.strong - 1 }
    closed := if k.strong = 1 then s.closed ++ [(e.refs, e.handle)] else s.closed }

def dropFd (fd : Fd) (s : Shared) : Option Shared :=
  match fd with
  | .pipeRead p => dropPipe .read p s
  | .pipeWrite p => dropPipe .write p s
  | .socket e => dropSocket e s
  | _ => some s

def dropSlot (slot : Option Fd) (s : Shared) : Option Shared :=
  match slot with
  | some fd => dropFd fd s
  | none => some s

/-- Dropping a table, slot after slot. -/
def dropAll : List (Option Fd) → Shared → Option Shared
  | [], s => some s
  | slot :: rest, s => (dropSlot slot s).bind (dropAll rest)

/-- Cloning a table. -/
def cloneAll : List (Option Fd) → Shared → Shared
  | [], s => s
  | some fd :: rest, s => cloneAll rest (cloneFd fd s)
  | none :: rest, s => cloneAll rest s

/-! ### The registry -/

/-- The state that `with_current_proc` works on, the default one at the first access. -/
def Registry.proc (r : Registry) (key : Key) : ProcState :=
  (r.processes.lookup key).getD .initial

/-- What `with_current_proc` leaves behind. -/
def Registry.put (r : Registry) (key : Key) (p : ProcState) : Registry :=
  { r with processes := r.processes.insert key p }

/-- `BTreeMap::insert`: a displaced state is dropped. -/
def insertProc (key : Key) (p : ProcState) (r : Registry) : Option Registry := do
  let shared ← dropAll ((r.processes.lookup key).elim [] ProcState.fds) r.shared
  return ⟨r.processes.insert key p, shared⟩

def forgetProcess (key : Key) (r : Registry) : Option Registry := do
  let shared ← dropAll ((r.processes.lookup key).elim [] ProcState.fds) r.shared
  return ⟨r.processes.erase key, shared⟩

/-- The files that are written back to disk when a table is released. -/
def writeBacks (fds : List (Option Fd)) : List OpenFile :=
  fds.filterMap fun
    | some (.file f) => if f.writable && f.dirty then some f else none
    | _ => none

def releaseCurrentProcessFds (key : Key) (r : Registry) : Option (List OpenFile × Registry) :=
  match r.processes.lookup key with
  | none => some ([], r)
  | some p => do
      let shared ← dropAll p.fds r.shared
      return (writeBacks p.fds, ⟨r.processes.insert key { p with fds := [] }, shared⟩)

def rekeyProcess (oldCr3 newCr3 : Key) (r : Registry) : Option Registry :=
  match r.processes.lookup oldCr3 with
  | none => some r
  | some p =>
    insertProc newCr3 { p with brk := userHeapBase }
      { r with processes := r.processes.erase oldCr3 }

def forkFds (parentCr3 childCr3 : Key) (r : Registry) : Option Registry :=
  match r.processes.lookup parentCr3 with
  | none => some r
  | some p => insertProc childCr3 p { r with shared := cloneAll p.fds r.shared }

/-! ### Calls on descriptors -/

/-- `fds.get(fd).and_then(|s| s.as_ref())` -/
def slotAt (fds : List (Option Fd)) (fd : ℕ) : Option Fd :=
  (fds[fd]?).join

/-- The slot that `alloc_fd` fills and the table after it; `none` is `-EMFILE`. -/
def allocFd (fds : List (Option Fd)) (entry : Fd) : Option (ℕ × List (Option Fd)) :=
  match fds.findIdx? Option.isNone with
  | some i => some (i, fds.set i (some entry))
  | none => if fds.length < maxFds then some (fds.length, fds ++ [some entry]) else none

/-- `with_current_fds(|fds| alloc_fd(fds, entry))`: a rejected entry is dropped. -/
def allocCurrent (key : Key) (entry : Fd) (r : Registry) : Option (ℤ × Registry) :=
  let p := r.proc key
  match allocFd p.fds entry with
  | some (fd, fds) => some (fd, r.put key { p with fds })
  | none => do
      let shared ← dropFd entry r.shared
      return (-EMFILE, { r.put key p with shared })

/-- `while fds.len() < n { fds.push(None) }` -/
def padTo (n : ℕ) (fds : List (Option Fd)) : List (Option Fd) :=
  fds ++ List.replicate (n - fds.length) none

/-- What `close` returns for the descriptor it took out of the table; `writeFile` is the errno that
writing a dirty file back reports, if any. -/
def closeValue (writeFile : OpenFile → Option ℤ) : Fd → ℤ
  | .file f => if f.writable && f.dirty then -(writeFile f).getD 0 else 0
  | _ => 0

def sysClose (key : Key) (fd : ℕ) (writeFile : OpenFile → Option ℤ) (r : Registry) :
    Option (ℤ × Registry) :=
  let p := r.proc key
  match slotAt p.fds fd with
  | none => some (-EBADF, r.put key p)
  | some entry => do
      let shared ← dropFd entry r.shared
      return (closeValue writeFile entry, { r.put key { p with fds := p.fds.set fd none } with shared })

def sysDup2 (key : Key) (oldfd newfd : ℕ) (r : Registry) : Option (ℤ × Registry) :=
  if maxFds ≤ newfd then some (-EBADF, r)
  else
    let p := r.proc key
    match slotAt p.fds oldfd with
    | none => some (-EBADF, r.put key p)
    | some backing =>
      if oldfd = newfd then some (newfd, r.put key p)
      else do
        let fds := padTo (newfd + 1) p.fds
        let shared ← dropSlot (slotAt fds newfd) (cloneFd backing r.shared)
        return (newfd, { r.put key { p with fds := fds.set newfd (some backing) } with shared })

inductive FcntlCmd
  | dupFd
  | getFd
  | setFd
  | getFl
  | setFl
  | other
  deriving DecidableEq, Repr

/-- The access mode that `F_GETFL` reports: `O_RDONLY`, `O_WRONLY` or `O_RDWR`. -/
def accessMode : Fd → ℤ
  | .console | .pipeRead _ => 0
  | .vga | .serial | .pipeWrite _ => 1
  | .socket _ => 2
  | .file f => if f.writable then 2 else 0

/-- The lowest free descriptor from `start` on, `maxFds` if there is none. -/
def firstFree (start : ℕ) (fds : List (Option Fd)) : ℕ :=
  ((List.range' start (maxFds - start)).find? fun i => (slotAt fds i).isNone).getD maxFds

def sysFcntl (key : Key) (fd : ℕ) (cmd : FcntlCmd) (arg : ℕ) (r : Registry) :
    Option (ℤ × Registry) :=
  match cmd with
  | .dupFd =>
    if maxFds ≤ arg then some (-EINVAL, r)
    else
      let p := r.proc key
      match slotAt p.fds fd with
      | none => some (-EBADF, r.put key p)
      | some backing =>
        let shared := cloneFd backing r.shared
        let idx := firstFree arg p.fds
        if maxFds ≤ idx then do
          let shared ← dropFd backing shared
          return (-EMFILE, { r.put key p with shared })
        else
          let fds := (padTo (idx + 1) p.fds).set idx (some backing)
          some (idx, { r.put key { p with fds } with shared })
  | .getFd | .setFd | .setFl =>
    let p := r.proc key
    some (if (slotAt p.fds fd).isSome then 0 else -EBADF, r.put key p)
  | .getFl =>
    let p := r.proc key
    some ((slotAt p.fds fd).elim (-EBADF) accessMode, r.put key p)
  | .other => some (-EINVAL, r)

/-- `copies` says whether the pair of descriptors can be written to user memory. -/
def sysPipe (key : Key) (copies : Bool) (r : Registry) : Option (ℤ × Registry) :=
  let buf := r.shared.pipes.length
  let shared := { r.shared with pipes := r.shared.pipes ++ [⟨[], 1, 1⟩] }
  let p := r.proc key
  match allocFd p.fds (.pipeRead buf) with
  | none => do
      -- `alloc_fd` drops the read end, leaving the closure drops the write end
      let shared ← (dropFd (.pipeRead buf) shared).bind (dropFd (.pipeWrite buf))
      return (-EMFILE, { r.put key p with shared })
  | some (rfd, fds) =>
    match allocFd fds (.pipeWrite buf) with
    | none => do
        let shared ← (dropFd (.pipeWrite buf) shared).bind (dropSlot (slotAt fds rfd))
        return (-EMFILE, { r.put key { p with fds := fds.set rfd none } with shared })
    | some (_, fds) =>
      some (if copies then 0 else -EFAULT, { r.put key { p with fds } with shared })

inductive SockType
  | dgram
  | stream
  | other
  deriving DecidableEq, Repr

/-- `made` is what the network stack answers: a handle or an errno. -/
def sysSocket (key : Key) (inet : Bool) (sockType : SockType) (made : Except ℤ ℕ) (r : Registry) :
    Option (ℤ × Registry) :=
  if inet then
    match sockType, made with
    | .other, _ => some (-EPROTONOSUPPORT, r)
    | _, .error e => some (-e, r)
    | sockType, .ok handle =>
      let kind := if sockType = .dgram then .udp else .tcp
      let shared := { r.shared with sockets := r.shared.sockets ++ [⟨handle, 1⟩] }
      allocCurrent key (.socket ⟨handle, kind, r.shared.sockets.length⟩) { r with shared }
  else some (-EAFNOSUPPORT, r)

/-! ### Reading and writing -/

/-- The outcome of a `read` or of one turn of its loop. -/
inductive ReadResult
  /-- The value returned, with the bytes that reached the user. -/
  | returned (value : ℤ) (bytes : List UInt8)
  /-- The console serves the call. -/
  | stdin
  /-- The process waits for the pipe. -/
  | blocks (buf : ℕ)
  deriving DecidableEq, Repr

/-- One turn of the loop of `read_pipe` for `0 < count`; `copies` says whether the bytes taken can be
written to user memory. -/
def readPipeTurn (buf count : ℕ) (copies : Bool) (s : Shared) : ReadResult × Shared :=
  match s.pipes[buf]? with
  | none => (.returned (-EBADF) [], s)
  | some b =>
    if b.data ≠ [] then
      let taken := b.data.take count
      let s := { s with pipes := s.pipes.set buf { b with data := b.data.drop count } }
      if copies then (.returned taken.length taken, s) else (.returned (-EFAULT) [], s)
    else if b.writers = 0 then (.returned 0 [], s)
    else (.blocks buf, s)

def readFile (f : OpenFile) (count : ℕ) (copies : Bool) : ReadResult × OpenFile :=
  if f.isDir then (.returned (-EISDIR) [], f)
  else
    let bytes := (f.data.drop (min f.offset f.data.length)).take count
    if copies then (.returned bytes.length bytes, { f with offset := f.offset + bytes.length })
    else (.returned (-EFAULT) [], f)

def sysRead (key : Key) (fd count : ℕ) (copies : Bool) (r : Registry) : ReadResult × Registry :=
  let p := r.proc key
  let r := r.put key p
  match slotAt p.fds fd with
  | some .console => (.stdin, r)
  | some (.pipeRead buf) =>
    if count = 0 then (.returned 0 [], r)
    else
      let (result, shared) := readPipeTurn buf count copies r.shared
      (result, { r with shared })
  | some (.file f) =>
    let (result, f) := readFile f count copies
    (result, r.put key { p with fds := p.fds.set fd (some (.file f)) })
  | _ => (.returned (-EBADF) [], r)

/-- A user buffer to write from: its bytes, or its length if it is not accessible. -/
inductive UserBytes
  | bytes (l : List UInt8)
  | fault (count : ℕ)
  deriving DecidableEq, Repr

def UserBytes.count : UserBytes → ℕ
  | .bytes l => l.length
  | .fault count => count

def writePipe (buf : ℕ) (user : UserBytes) (s : Shared) : ℤ × Shared :=
  if user.count = 0 then (0, s)
  else
    match user, s.pipes[buf]? with
    | .bytes l, some b =>
      if b.readers = 0 then (-EPIPE, s)
      else (l.length, { s with
        pipes := s.pipes.set buf { b with data := b.data ++ l }
        wake := true })
    | .bytes _, none => (-EBADF, s)
    | .fault _, _ => (-EFAULT, s)

/-- `write` to a regular file: the buffer grows with zeros up to the position. -/
def writeFile (f : OpenFile) (l : List UInt8) : OpenFile :=
  let stop := f.offset + l.length
  let data := f.data ++ List.replicate (stop - f.data.length) 0
  { f with data := data.take f.offset ++ l ++ data.drop stop, offset := stop, dirty := true }

def sysWrite (key : Key) (fd : ℕ) (user : UserBytes) (r : Registry) : ℤ × Registry :=
  let p := r.proc key
  let r := r.put key p
  let device := match user with
    | .bytes l => (l.length : ℤ)
    | .fault _ => -EFAULT
  match slotAt p.fds fd with
  | some .vga | some .serial => (device, r)
  | some (.pipeWrite buf) =>
    let (value, shared) := writePipe buf user r.shared
    (value, { r with shared })
  | some (.file f) =>
    if f.writable && !f.isDir then
      match user with
      | .bytes l => (l.length, r.put key { p with fds := p.fds.set fd (some (.file (writeFile f l))) })
      | .fault _ => (-EFAULT, r)
    else (-EBADF, r)
  | _ => (-EBADF, r)

end Ferros.Files
