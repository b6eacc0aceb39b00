/-
**`writev` against one `write`.**

`writev` writes its buffers by separate writes and stops at the first that fails. A file and a pipe take what is
written piece by piece as well as at once, so that nothing shows where the data was split.

* `absorbs_file`, `absorbs_pipe` — files and pipes are such sinks.

The loop is followed once, over any such sink: by induction on the buffers, from any state and any total
(`Absorbs.writevLoop`).
-/

import Ferros.Files.Position
import Ferros.Files.Reading
import Ferros.Lib.Writing
import Ferros.Syscall.Uaccess

namespace Ferros.Syscall

open Lib Mm Files List Option

/-! ### The call -/

/-- The buffer of an entry. -/
def fetch (space : Space) (bus : Bus) (base len : ℕ) : UserBytes :=
  match view space bus base len id with
  | .ok l => .bytes l
  | .error _ => .fault len

/-- The entries of the array. A call of `writev` does not change user memory, so that they can be read ahead. -/
def iovecs (space : Space) (bus : Bus) (iov iovcnt : ℕ) : List (Except ℤ UserBytes) :=
  (range iovcnt).map fun i => (readIovec space bus iov i).map fun entry => fetch space bus entry.1 entry.2

/-- `write`; no value is the panic of `resize`. -/
def writeUser (key : Key) (fd : ℕ) (user : UserBytes) (r : Registry) : Option (ℤ × Registry) :=
  match fileAt key fd r, user with
  | some f, .bytes l =>
    if f.writable && !f.isDir && resizePanics f (f.offset + l.length) then none
    else some (sysWrite key fd user r)
  | _, _ => some (sysWrite key fd user r)

theorem eq_of_writeUser {key : Key} {fd : ℕ} {user : UserBytes} {r : Registry} {answer : ℤ × Registry}
    (done : writeUser key fd user r = some answer) : answer = sysWrite key fd user r := by
  unfold writeUser at done
  split at done
  · split at done
    · cases done
    · exact (some.inj done).symm
  · exact (some.inj done).symm

def writevLoop {σ : Type} (write : UserBytes → σ → Option (ℤ × σ)) :
    List (Except ℤ UserBytes) → ℤ → σ → Option (ℤ × σ)
  | [], total, s => some (total, s)
  | .error e :: _, total, s => some (if total = 0 then -e else total, s)
  | .ok user :: rest, total, s =>
    if user.count = 0 then writevLoop write rest total s
    else (write user s).bind fun (written, s) =>
      if written < 0 then some (if total = 0 then written else total, s)
      else if written < user.count then some (total + written, s)
      else writevLoop write rest (total + written) s

def sysWritev (space : Space) (bus : Bus) (key : Key) (fd iov iovcnt : ℕ) (r : Registry) :
    Option (ℤ × Registry) :=
  if iovMax < iovcnt then some (-EINVAL, r) else writevLoop (writeUser key fd) (iovecs space bus iov iovcnt) 0 r

variable {space : Space} {σ : Type} {rest : List (Except ℤ UserBytes)} {total : ℤ} {key : Key} {fd : ℕ}
  {r : Registry} {write : UserBytes → σ → Option (ℤ × σ)} {put : List UInt8 → σ → σ} {room : σ → ℕ → Prop}
  {s s' : σ}

theorem fetch_allowed {bus : Bus} {base len : ℕ} (allowed : Allowed space false base len) :
    fetch space bus base len = .bytes (bus.bytesAt space base len) := by
  rw [fetch, (view_eq space bus base len id).1 allowed]
  rfl

theorem fetch_refused {bus : Bus} {base len : ℕ} (wrong : ¬Allowed space false base len) :
    fetch space bus base len = .fault len := by
  rw [fetch, (view_eq space bus base len id).2 wrong]

/-! ### The data -/

/-- The data before the first buffer that is not empty and not accessible. -/
def gather : List UserBytes → List UInt8
  | [] => []
  | .bytes l :: rest => l ++ gather rest
  | .fault count :: rest => if count = 0 then gather rest else []

/-- The buffer is not empty and not accessible. -/
def unfit : UserBytes → Bool
  | .bytes _ => false
  | .fault count => count ≠ 0

def faulty (bufs : List UserBytes) : Bool := bufs.any unfit

/-! ### Sinks -/

/-- **A sink that takes pieces as it takes the whole**, as long as there is room. -/
structure Absorbs {σ : Type} (write : UserBytes → σ → Option (ℤ × σ)) (put : List UInt8 → σ → σ)
    (room : σ → ℕ → Prop) : Prop where
  takes : ∀ {s : σ} {l : List UInt8}, room s l.length → l ≠ [] →
    write (.bytes l) s = some ((l.length : ℤ), put l s)
  faults : ∀ {s : σ} {n count : ℕ}, room s n → count ≠ 0 → write (.fault count) s = some (-EFAULT, s)
  less : ∀ {s : σ} {m n : ℕ}, room s n → m ≤ n → room s m
  after : ∀ {s : σ} {l : List UInt8} {n : ℕ}, room s (l.length + n) → room (put l s) n
  append : ∀ {s : σ} {l m : List UInt8}, room s (l.length + m.length) → put m (put l s) = put (l ++ m) s

theorem writevLoop_skip {user : UserBytes} (empty : user.count = 0) :
    writevLoop write (.ok user :: rest) total s = writevLoop write rest total s := by
  rw [writevLoop, if_pos empty]

theorem writevLoop_fault {count : ℕ} (counted : count ≠ 0) (answer : write (.fault count) s = some (-EFAULT, s)) :
    writevLoop write (.ok (.fault count) :: rest) total s = some (if total = 0 then -EFAULT else total, s) := by
  rw [writevLoop, if_neg (show (UserBytes.fault count).count ≠ 0 from counted), answer]
  rfl

theorem writevLoop_take {l : List UInt8} (counted : l ≠ [])
    (answer : write (.bytes l) s = some ((l.length : ℤ), s')) :
    writevLoop write (.ok (.bytes l) :: rest) total s = writevLoop write rest (total + l.length) s' := by
  have counts : (UserBytes.bytes l).count ≠ 0 := fun zero => counted (eq_nil_of_length_eq_zero zero)
  rw [writevLoop, if_neg counts, answer, bind_some]
  exact (if_neg (not_lt.mpr (Int.natCast_nonneg _))).trans (if_neg (lt_irrefl _))

/-- **The loop over a sink**: the data arrives as by one write. -/
theorem Absorbs.writevLoop (absorbs : Absorbs write put room) (bufs : List UserBytes) (start : 0 ≤ total)
    (enough : room s (gather bufs).length) : Syscall.writevLoop write (bufs.map .ok) total s =
      if gather bufs = [] then some (if total = 0 ∧ faulty bufs then -EFAULT else total, s)
      else some (total + (gather bufs).length, put (gather bufs) s) := by
  induction bufs generalizing total s with
  | nil =>
    rw [gather, if_pos rfl, if_neg fun both => Bool.noConfusion both.2]
    rfl
  | cons buf bufs ih =>
    rw [map_cons]
    cases buf with
    | fault count =>
      by_cases empty : count = 0
      · have same : gather (.fault count :: bufs) = gather bufs := if_pos empty
        have alike : faulty (.fault count :: bufs) = faulty bufs := by
          rw [faulty, any_cons, unfit, decide_eq_false (not_not.mpr empty), Bool.false_or, faulty]
        rw [same] at enough
        rw [writevLoop_skip (show (UserBytes.fault count).count = 0 from empty), ih start enough, same, alike]
      · have nothing : gather (.fault count :: bufs) = [] := if_neg empty
        have stops : faulty (.fault count :: bufs) := by
          rw [faulty, any_cons, unfit, decide_eq_true empty, Bool.true_or]
        rw [writevLoop_fault empty (absorbs.faults enough empty), nothing, if_pos rfl, stops]
        simp only [and_true]
    | bytes l =>
      have alike : faulty (.bytes l :: bufs) = faulty bufs := rfl
      by_cases empty : l = []
      · subst empty
        exact (writevLoop_skip rfl).trans (ih start enough)
      · have split : gather (.bytes l :: bufs) = l ++ gather bufs := rfl
        rw [split, length_append] at enough
        have positive := length_pos_iff.mpr empty
        rw [writevLoop_take empty (absorbs.takes (absorbs.less enough (Nat.le_add_right _ _)) empty),
          ih (by omega) (absorbs.after enough), split, if_neg (append_ne_nil_of_left_ne_nil empty _)]
        by_cases last : gather bufs = []
        · rw [if_pos last, if_neg fun both => absurd both.1 (by omega), last, append_nil]
        · rw [if_neg last, absorbs.append enough, length_append, Int.natCast_add, add_assoc]

/-! ### Files -/

/-- A buffer with zeros behind it, up to a length. -/
def padded (data : List UInt8) (n : ℕ) : List UInt8 := data ++ replicate (n - data.length) 0

theorem length_padded (data : List UInt8) (n : ℕ) : (padded data n).length = max data.length n := by
  rw [padded, length_append, length_replicate]
  omega

theorem writeFile_eq (f : OpenFile) (l : List UInt8) : writeFile f l = { f with
      data := overwrite (padded f.data (f.offset + l.length)) f.offset l
      offset := f.offset + l.length
      dirty := true } := by
  rw [writeFile, overwrite, ← append_assoc]
  rfl

/-- **Two writes to a file are one.** -/
theorem writeFile_append (f : OpenFile) (l m : List UInt8) :
    writeFile (writeFile f l) m = writeFile f (l ++ m) := by
  have fits : f.offset + l.length ≤ (padded f.data (f.offset + l.length)).length := by
    rw [length_padded]
    exact Nat.le_max_right _ _
  have grown : padded (overwrite (padded f.data (f.offset + l.length)) f.offset l)
      (f.offset + l.length + m.length) =
        overwrite (padded f.data (f.offset + (l.length + m.length))) f.offset l := by
    rw [padded, Lib.length_overwrite fits, ← overwrite_append_right fits, length_padded]
    congr 1
    rw [padded, padded, append_assoc, replicate_append_replicate]
    congr 2
    omega
  rw [writeFile_eq, writeFile_eq, writeFile_eq, length_append]
  simp only
  rw [grown, overwrite_append (by rw [length_padded]; omega), Nat.add_assoc]

/-! ### The registry -/

/-- A process with a descriptor that it was not born with has an entry. -/
theorem put_proc_self {entry : Fd} (slot : slotAt (r.proc key).fds fd = some entry)
    (foreign : entry ∉ [Fd.console, .vga, .serial]) : r.put key (r.proc key) = r := by
  cases found : r.processes.lookup key with
  | none =>
    have born : r.proc key = .initial := by rw [Registry.proc, found]; rfl
    rw [born] at slot
    have mem := mem_of_getElem? (slotAt_eq_some.mp slot)
    refine absurd ?_ foreign
    simpa only [ProcState.initial, mem_cons, some.injEq, not_mem_nil] using mem
  | some p =>
    have isP : r.proc key = p := by rw [Registry.proc, found]; rfl
    have same : r.processes.insert key p = r.processes := by
      refine Finmap.ext_lookup fun other => ?_
      by_cases here : other = key
      · rw [here, Finmap.lookup_insert, found]
      · rw [Finmap.lookup_insert_of_ne _ here]
    rw [isP, Registry.put, same]

/-- What a write of data leaves. -/
def putBytes (key : Key) (fd : ℕ) (l : List UInt8) (r : Registry) : Registry := (sysWrite key fd (.bytes l) r).2

/-- A writable regular file, with room for `n` bytes from its position on. -/
def FileRoom (key : Key) (fd : ℕ) (r : Registry) (n : ℕ) : Prop :=
  ∃ f, fileAt key fd r = some f ∧ f.writable = true ∧ f.isDir = false ∧ f.offset + n ≤ isizeMax

/-- The write end of a pipe that has readers; it takes any number of bytes. -/
def PipeRoom (key : Key) (fd : ℕ) (r : Registry) (_ : ℕ) : Prop :=
  ∃ buf b, slotAt (r.proc key).fds fd = some (.pipeWrite buf) ∧ r.shared.pipes[buf]? = some b ∧ b.readers ≠ 0

theorem sysWrite_bytes {f : OpenFile} (isOpen : fileAt key fd r = some f) (writable : f.writable)
    (notDir : f.isDir = false) (l : List UInt8) : sysWrite key fd (.bytes l) r = ((l.length : ℤ), r.put key
        { r.proc key with fds := (r.proc key).fds.set fd (some (.file (writeFile f l))) }) := by
  have slot := fileAt_eq_some.mp isOpen
  unfold sysWrite
  simp only [slot, writable, notDir, put_put]
  rfl

theorem writeUser_file {f : OpenFile} {l : List UInt8} (isOpen : fileAt key fd r = some f)
    (fits : f.offset + l.length ≤ isizeMax) :
    writeUser key fd (.bytes l) r = some (sysWrite key fd (.bytes l) r) := by
  have calm : resizePanics f (f.offset + l.length) = false := by
    rw [resizePanics, decide_eq_false_iff_not]
    omega
  simp only [writeUser, isOpen, calm, Bool.and_false]
  rfl

/-- **A file takes pieces as it takes the whole.** -/
theorem absorbs_file : Absorbs (writeUser key fd) (putBytes key fd) (FileRoom key fd) where
  takes := by
    rintro r l ⟨f, isOpen, writable, notDir, fits⟩ -
    rw [writeUser_file isOpen fits, putBytes, sysWrite_bytes isOpen writable notDir]
  faults := by
    rintro r n count ⟨f, isOpen, writable, notDir, -⟩ -
    have slot := fileAt_eq_some.mp isOpen
    have same : r.put key (r.proc key) = r := put_proc_self slot (by simp)
    simp only [writeUser, isOpen, sysWrite, slot, writable, notDir, same]
    rfl
  less := by
    rintro r m n ⟨f, isOpen, writable, notDir, fits⟩ less
    exact ⟨f, isOpen, writable, notDir, by omega⟩
  after := by
    rintro r l n ⟨f, isOpen, writable, notDir, fits⟩
    refine ⟨writeFile f l, (sysWrite_file isOpen writable notDir l).2, writable, notDir, ?_⟩
    rw [writeFile_eq]
    simp only
    omega
  append := by
    rintro r l m ⟨f, isOpen, writable, notDir, -⟩
    have written := (sysWrite_file isOpen writable notDir l).2
    rw [putBytes, putBytes, sysWrite_bytes written writable notDir, putBytes,
      sysWrite_bytes isOpen writable notDir, sysWrite_bytes isOpen writable notDir, writeFile_append]
    simp only [put_put, proc_put, set_set]

/-- The registry with more data in a pipe. -/
def extended (buf : ℕ) (b : PipeBuf) (l : List UInt8) (r : Registry) : Registry :=
  { r with shared := { r.shared with
    pipes := r.shared.pipes.set buf { b with data := b.data ++ l }
    wake := true } }

theorem sysWrite_pipe {buf : ℕ} {b : PipeBuf} {l : List UInt8}
    (slot : slotAt (r.proc key).fds fd = some (.pipeWrite buf)) (pipe : r.shared.pipes[buf]? = some b)
    (read : b.readers ≠ 0) (nonempty : l ≠ []) :
    sysWrite key fd (.bytes l) r = ((l.length : ℤ), extended buf b l r) := by
  have same : r.put key (r.proc key) = r := put_proc_self slot (by simp)
  have counted : (UserBytes.bytes l).count ≠ 0 := fun zero => nonempty (eq_nil_of_length_eq_zero zero)
  simp only [sysWrite, slot, same, writePipe, if_neg counted, pipe, if_neg read, extended]

theorem pipe_extended {buf : ℕ} {b : PipeBuf} (pipe : r.shared.pipes[buf]? = some b) (l : List UInt8) :
    (extended buf b l r).shared.pipes[buf]? = some { b with data := b.data ++ l } :=
  getElem?_set_self (List.getElem?_eq_some_iff.mp pipe).1

theorem putBytes_pipe_nil {buf : ℕ} (slot : slotAt (r.proc key).fds fd = some (.pipeWrite buf)) :
    putBytes key fd [] r = r := by
  have same : r.put key (r.proc key) = r := put_proc_self slot (by simp)
  simp only [putBytes, sysWrite, slot, same, writePipe]
  rfl

/-- **A pipe takes pieces as it takes the whole.** -/
theorem absorbs_pipe : Absorbs (writeUser key fd) (putBytes key fd) (PipeRoom key fd) where
  takes := by
    rintro r l ⟨buf, b, slot, pipe, read⟩ nonempty
    have notFile : fileAt key fd r = none := by rw [fileAt, slot]
    simp only [writeUser, notFile, putBytes, sysWrite_pipe slot pipe read nonempty]
  faults := by
    rintro r n count ⟨buf, b, slot, pipe, read⟩ nonempty
    have notFile : fileAt key fd r = none := by rw [fileAt, slot]
    have same : r.put key (r.proc key) = r := put_proc_self slot (by simp)
    have counted : (UserBytes.fault count).count ≠ 0 := nonempty
    simp only [writeUser, notFile, sysWrite, slot, same, writePipe, if_neg counted]
  less := fun room _ => room
  after := by
    rintro r l n ⟨buf, b, slot, pipe, read⟩
    by_cases empty : l = []
    · rw [empty, putBytes_pipe_nil slot]
      exact ⟨buf, b, slot, pipe, read⟩
    · rw [putBytes, sysWrite_pipe slot pipe read empty]
      exact ⟨buf, { b with data := b.data ++ l }, slot, pipe_extended pipe l, read⟩
  append := by
    rintro r l m ⟨buf, b, slot, pipe, read⟩
    by_cases first : l = []
    · rw [first, putBytes_pipe_nil slot, nil_append]
    · by_cases second : m = []
      · rw [second, append_nil, putBytes, putBytes, sysWrite_pipe slot pipe read first]
        exact putBytes_pipe_nil slot
      · have both : l ++ m ≠ [] := append_ne_nil_of_left_ne_nil first m
        rw [putBytes, putBytes, putBytes, sysWrite_pipe slot pipe read first, sysWrite_pipe slot pipe read both,
          sysWrite_pipe (r := extended buf b l r) slot (pipe_extended pipe l) read second]
        simp only [extended, set_set, append_assoc]

/-! ### The result -/

def buffers (space : Space) (bus : Bus) (iovcnt : ℕ) (entry : ℕ → ℕ × ℕ) : List UserBytes :=
  (range iovcnt).map fun i => fetch space bus (entry i).1 (entry i).2

theorem iovecs_eq {bus : Bus} {iov iovcnt : ℕ} {entry : ℕ → ℕ × ℕ}
    (readable : ∀ i < iovcnt, readIovec space bus iov i = .ok (entry i)) :
    iovecs space bus iov iovcnt = (buffers space bus iovcnt entry).map .ok := by
  rw [iovecs, buffers, List.map_map]
  refine map_congr_left fun i inside => ?_
  rw [readable i (mem_range.mp inside)]
  rfl

/-- **`writev` is one `write`**, of the data before the first buffer that is not accessible; if there is none,
it changes nothing. -/
theorem writev_is_one_write (space : Space) (bus : Bus) (key : Key) (fd iov iovcnt : ℕ) (entry : ℕ → ℕ × ℕ)
    (r : Registry) (few : iovcnt ≤ iovMax) (readable : ∀ i < iovcnt, readIovec space bus iov i = .ok (entry i))
    (sink : FileRoom key fd r (gather (buffers space bus iovcnt entry)).length ∨
      PipeRoom key fd r (gather (buffers space bus iovcnt entry)).length) :
    sysWritev space bus key fd iov iovcnt r = if gather (buffers space bus iovcnt entry) = [] then
        some (if faulty (buffers space bus iovcnt entry) then -EFAULT else 0, r)
      else some (sysWrite key fd (.bytes (gather (buffers space bus iovcnt entry))) r) := by
  obtain ⟨room, absorbs, enough⟩ : ∃ room, Absorbs (writeUser key fd) (putBytes key fd) room ∧
      room r (gather (buffers space bus iovcnt entry)).length :=
    sink.elim (fun enough => ⟨_, absorbs_file, enough⟩) fun enough => ⟨_, absorbs_pipe, enough⟩
  rw [sysWritev, if_neg (Nat.not_lt.mpr few), iovecs_eq readable, absorbs.writevLoop _ (le_refl 0) enough]
  simp only [true_and, zero_add]
  by_cases empty : gather (buffers space bus iovcnt entry) = []
  · rw [if_pos empty, if_pos empty]
  · rw [if_neg empty, if_neg empty, ← eq_of_writeUser (absorbs.takes enough empty)]

/-- A page whose first bytes are two entries: a byte of the page itself, and one that is not mapped. -/
def onePageBus : Bus := ⟨fun pa => [0, 16, 0, 0, 0, 0, 0, 0, 1, 0, 0, 0, 0, 0, 0, 0,
  0, 32, 0, 0, 0, 0, 0, 0, 1, 0, 0, 0, 0, 0, 0, 0].getD pa 0, []⟩

theorem not_allowed_onePage : ¬Allowed onePage false 8192 1 := by
  intro allowed
  obtain ⟨leaf, found, -⟩ := allowed.pages 2 ⟨8192, by decide, by decide, by decide⟩
  cases found

theorem writev_before_hole : sysWritev onePage onePageBus 7 0 4096 2 oneFile =
    some (sysWrite 7 0 (.bytes [0]) oneFile) := by
  have present : buffers onePage onePageBus 2 (fun i => (4096 * (i + 1), 1)) = [.bytes [0], .fault 1] := by
    have first := @fetch_allowed onePage onePageBus 4096 1 (allowed_onePage (by decide) (by decide))
    have second := @fetch_refused onePage onePageBus 8192 1 not_allowed_onePage
    exact congrArg₂ cons first (congrArg₂ cons second rfl)
  have readable : ∀ i < 2, readIovec onePage onePageBus 4096 i = .ok (4096 * (i + 1), 1) := by
    intro i inside
    have fits : fitting 64 (4096 + i * 16) = some (4096 + i * 16) := fitting_of_lt (by omega)
    rw [readIovec, fits]
    simp only
    rw [(view_eq onePage onePageBus (4096 + i * 16) 16 _).1 (allowed_onePage (by omega) (by omega))]
    rcases (show i = 0 ∨ i = 1 by omega) with rfl | rfl
    · rfl
    · rfl
  have room : FileRoom 7 0 oneFile
      (gather (buffers onePage onePageBus 2 fun i => (4096 * (i + 1), 1))).length := by
    rw [present]
    exact ⟨⟨[0x2F, 0x41], [], 0, true, false, false⟩, rfl, rfl, rfl, by decide +kernel⟩
  have whole := writev_is_one_write onePage onePageBus 7 0 4096 2 _ oneFile (by decide) readable (.inl room)
  rw [present] at whole
  exact whole

end Ferros.Syscall
