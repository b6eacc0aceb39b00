/-
**`readv` against one `read`.**

`readv` fills its buffers by separate reads. A source that has a chunk of bytes to give at once gives it
piece by piece as well; what happens when the chunk ends exactly where a buffer ends, with room left in
later buffers, depends on the source.

* `Iovecs` — the buffers that an array in user memory lists, none of which meets the array.
* `Readable.gives` — files, pipes and the console are sources of chunks.
* `readv_like_read` — **when `readv` is one `read` scattered over its buffers**; `readv_blocks` — a pipe where
  it is not.

The induction is on the buffers that are left. A read writes one buffer, which leaves the later entries of
the array alone (`Iovecs.tail`), and takes the front of the chunk (`Chunked.serves`). So the loop goes on
over all buffers that the chunk fills (`Chunked.readvFrom_front`). What is left of the chunk then ends inside
the next buffer, or the loop stands at a boundary, where it reads once more: a source that has ended gives
nothing, the others block or give bytes that `read` did not.
-/

import Ferros.Files.Reading
import Mathlib.Algebra.GroupWithZero.Nat

namespace Ferros.Files

open Drivers Mm Syscall List

/-! ### Scattering -/

/-- What fits into buffers, each a place and a length. -/
def roomOf (bufs : List (ℕ × ℕ)) : ℕ := (bufs.map Prod.snd).sum

/-- The memory with bytes laid out over buffers, in order. -/
def scattered (space : Space) : List (ℕ × ℕ) → List UInt8 → Bus → Bus
  | [], _, bus => bus
  | (base, len) :: rest, bytes, bus =>
    scattered space rest (bytes.drop len) (copied space base (bytes.take len) bus).2

variable {space : Space} {bus : Bus} {iov i base : ℕ} {bufs rest : List (ℕ × ℕ)}

theorem roomOf_cons (base len : ℕ) (rest : List (ℕ × ℕ)) :
    roomOf ((base, len) :: rest) = len + roomOf rest := rfl

theorem copied_nil (space : Space) (dst : ℕ) (bus : Bus) : (copied space dst [] bus).2 = bus := by
  unfold copied copyToUser afterChecks
  cases validate dst [].length <;> rfl

theorem scattered_nil (space : Space) (bufs : List (ℕ × ℕ)) (bus : Bus) : scattered space bufs [] bus = bus := by
  induction bufs with
  | nil => rfl
  | cons buf rest ih =>
    obtain ⟨base, len⟩ := buf
    rw [scattered, take_nil, drop_nil, copied_nil, ih]

theorem roomOf_append (front back : List (ℕ × ℕ)) : roomOf (front ++ back) = roomOf front + roomOf back := by
  rw [roomOf, map_append, sum_append, roomOf, roomOf]

/-- The buffers in front get the front of the bytes. -/
theorem scattered_append (space : Space) (front back : List (ℕ × ℕ)) (bytes : List UInt8) (bus : Bus) :
    scattered space (front ++ back) bytes bus =
      scattered space back (bytes.drop (roomOf front)) (scattered space front bytes bus) := by
  induction front generalizing bytes bus with
  | nil => rfl
  | cons buf front ih =>
    obtain ⟨base, len⟩ := buf
    rw [cons_append, scattered, scattered, roomOf_cons, ih, drop_drop]

/-- `n` bytes end where a buffer ends, with room left in a later buffer. -/
def Boundary (bufs : List (ℕ × ℕ)) (n : ℕ) : Prop :=
  ∃ front buf back, bufs = front ++ buf :: back ∧ roomOf front = n ∧ 0 < buf.2

/-- `n` bytes fill the buffers, or they fill those in front of one that has room for the rest and more. -/
theorem exists_split (bufs : List (ℕ × ℕ)) (n : ℕ) : roomOf bufs ≤ n ∨
    ∃ front buf back, bufs = front ++ buf :: back ∧ roomOf front ≤ n ∧ n < roomOf front + buf.2 := by
  induction bufs generalizing n with
  | nil => exact .inl (Nat.zero_le n)
  | cons buf rest ih =>
    have first (front : List (ℕ × ℕ)) : roomOf (buf :: front) = buf.2 + roomOf front := rfl
    by_cases within : buf.2 ≤ n
    · rcases ih (n - buf.2) with all | ⟨front, last, back, rfl, low, high⟩
      · exact .inl (by rw [first]; omega)
      · exact .inr ⟨buf :: front, last, back, rfl, by rw [first]; omega, by rw [first]; omega⟩
    · exact .inr ⟨[], buf, rest, rfl, Nat.zero_le n, by rw [show roomOf [] = 0 from rfl]; omega⟩

/-! ### The array -/

/-- **The buffers that the array at `iov` lists from entry `i` on**: they can be written, and none of them
meets these entries in memory. -/
structure Iovecs (space : Space) (bus : Bus) (iov i : ℕ) (bufs : List (ℕ × ℕ)) : Prop where
  listed : ∀ j b, bufs[j]? = some b → readIovec space bus iov (i + j) = .ok b
  writable : ∀ b ∈ bufs, Allowed space true b.1 b.2
  apart : ∀ b ∈ bufs, ∀ m < b.2, ∀ n, 16 * i ≤ n → n < 16 * (i + bufs.length) →
    physical space (b.1 + m) ≠ physical space (iov + n)

theorem Iovecs.head {buf : ℕ × ℕ} (iovecs : Iovecs space bus iov i (buf :: rest)) :
    readIovec space bus iov i = .ok buf :=
  iovecs.listed 0 buf rfl

theorem Iovecs.allowed {buf : ℕ × ℕ} (iovecs : Iovecs space bus iov i (buf :: rest)) :
    Allowed space true buf.1 buf.2 :=
  iovecs.writable buf mem_cons_self

/-- A copy into an allowed buffer. -/
theorem copied_allowed {src : List UInt8} (allowed : Allowed space true base src.length) (bus : Bus) :
    (copied space base src bus).1 = .ok () ∧ Copied space base src bus (copied space base src bus).2 := by
  obtain ⟨after, done, isCopy⟩ := (copyToUser_eq base src bus).1 allowed
  rw [copied, done]
  exact ⟨rfl, isCopy⟩

/-- **The rest of the array is still there** when something was copied into the first buffer. -/
theorem Iovecs.tail {len : ℕ} (iovecs : Iovecs space bus iov i ((base, len) :: rest)) {src : List UInt8}
    (within : src.length ≤ len) : Iovecs space (copied space base src bus).2 iov (i + 1) rest where
  listed := by
    intro j b present
    have place : ((base, len) :: rest)[j + 1]? = some b := present
    have inside := (List.getElem?_eq_some_iff.mp place).1
    rw [length_cons] at inside
    have entry := iovecs.listed (j + 1) b place
    rw [Nat.add_right_comm, Nat.add_assoc, ← entry]
    refine (copied_allowed (iovecs.allowed.take within) bus).2.readIovec fun m low n high => ?_
    rw [Nat.add_assoc]
    exact iovecs.apart _ mem_cons_self m (Nat.lt_of_lt_of_le low within) _ (by omega)
      (by rw [length_cons]; omega)
  writable := fun b mem => iovecs.writable b (mem_cons_of_mem _ mem)
  apart := by
    intro b mem m low n above below
    exact iovecs.apart b (mem_cons_of_mem _ mem) m low n (by omega) (by rw [length_cons]; omega)

/-! ### Turns of the loop -/

variable {key : Key} {len fd n buf writers : ℕ} {got chunk : List UInt8} {ended : Prop} {s s' : Inputs}

section Turns

variable (iovecs : Iovecs space bus iov i ((base, len) :: rest)) (total : ℤ)
include iovecs

theorem readvFrom_zero (empty : len = 0) : readvFrom space key fd iov (rest.length + 1) i total (s, bus) =
      readvFrom space key fd iov rest.length (i + 1) total (s, bus) := by
  rw [readvFrom, readvLoop]
  simp only [iovecs.head, if_pos empty]

/-- A read that gives something. -/
theorem readUser_returned (answer : readInput key fd len true s = (.returned got.length got, s'))
    (within : got.length ≤ len) : readUser space key fd base len (s, bus) =
      (.returned got.length got, s', (copied space base got bus).2) := by
  have verdict := (copied_allowed (iovecs.allowed.take within) bus).1
  simp only [readUser, answer, ReadAnswer.bytes, verdict, Except.isOk, Except.toBool]

theorem readvFrom_short (answer : readInput key fd len true s = (.returned got.length got, s'))
    (short : got.length < len) : readvFrom space key fd iov (rest.length + 1) i total (s, bus) =
      (some (total + got.length), s', (copied space base got bus).2) := by
  rw [readvFrom, readvLoop]
  simp only [iovecs.head, if_neg (show len ≠ 0 by omega), readUser_returned iovecs answer short.le,
    if_neg (not_lt.mpr (Int.natCast_nonneg got.length)), if_pos (Int.ofNat_lt.mpr short)]

theorem readvFrom_full (room : 0 < len) (answer : readInput key fd len true s = (.returned got.length got, s'))
    (full : got.length = len) : readvFrom space key fd iov (rest.length + 1) i total (s, bus) =
      readvFrom space key fd iov rest.length (i + 1) (total + len) (s', (copied space base got bus).2) := by
  rw [readvFrom, readvLoop]
  simp only [iovecs.head, if_neg room.ne', readUser_returned iovecs answer full.le, full,
    if_neg (not_lt.mpr (Int.natCast_nonneg len)), if_neg (lt_irrefl (len : ℤ))]

end Turns

/-! ### Sources that serve a chunk -/

section

/-- **A source that serves requests from a chunk**: as long as it is not used up, or if the source has
ended after it, a request gets the beginning of the chunk. -/
structure Chunked (key : Key) (fd : ℕ) (ended : Prop) (has : Inputs → List UInt8 → Prop) : Prop where
  serves : ∀ {s chunk len}, has s chunk → 0 < len → (chunk ≠ [] ∨ ended) →
    ∃ s', readInput key fd len true s = (.returned (chunk.take len).length (chunk.take len), s') ∧
      has s' (chunk.drop len)

variable {has : Inputs → List UInt8 → Prop} (chunked : Chunked key fd ended has)
include chunked

/-- **The loop over buffers that the chunk fills.** -/
theorem Chunked.readvFrom_front {front back : List (ℕ × ℕ)} (here : has s chunk)
    (iovecs : Iovecs space bus iov i (front ++ back)) (within : roomOf front ≤ chunk.length) (total : ℤ) :
    ∃ i' s', has s' (chunk.drop (roomOf front)) ∧ Iovecs space (scattered space front chunk bus) iov i' back ∧
      Files.readvFrom space key fd iov (front ++ back).length i total (s, bus) =
        Files.readvFrom space key fd iov back.length i' (total + roomOf front)
          (s', scattered space front chunk bus) := by
  induction front generalizing s chunk total i bus with
  | nil =>
    refine ⟨i, s, here, iovecs, ?_⟩
    rw [show roomOf [] = 0 from rfl, Int.ofNat_zero, add_zero]
    rfl
  | cons buf front ih =>
    obtain ⟨base, len⟩ := buf
    rw [roomOf_cons] at within
    rw [cons_append] at iovecs
    rw [roomOf_cons, scattered, cons_append, length_cons, ← drop_drop, Int.natCast_add, ← add_assoc]
    have onward := iovecs.tail (length_take_le len chunk)
    rcases Nat.eq_zero_or_pos len with rfl | room
    · rw [take_zero, copied_nil] at onward ⊢
      rw [readvFrom_zero iovecs total rfl, Int.ofNat_zero, add_zero]
      exact ih here onward (by omega) total
    · have filled : chunk ≠ [] := length_pos_iff.mp (by omega)
      obtain ⟨s', answer, left⟩ := chunked.serves here room (.inl filled)
      rw [readvFrom_full iovecs total room answer (length_take_of_le (by omega))]
      exact ih left onward (by rw [length_drop]; omega) _

/-- **The loop over a chunk** that does not end at a boundary, or after which the source has ended. -/
theorem Chunked.readvFrom (here : has s chunk) (iovecs : Iovecs space bus iov i bufs)
    (inside : ended ∨ ¬ Boundary bufs chunk.length) (total : ℤ) :
    ∃ s', Files.readvFrom space key fd iov bufs.length i total (s, bus) =
      (some (total + (chunk.take (roomOf bufs)).length), s', scattered space bufs chunk bus) := by
  rcases exists_split bufs chunk.length with all | ⟨front, ⟨base, len⟩, back, rfl, low, high⟩
  · rw [← append_nil bufs] at iovecs
    obtain ⟨_, s', -, -, answer⟩ := chunked.readvFrom_front here iovecs all total
    rw [append_nil] at answer
    exact ⟨s', by rw [answer, length_take_of_le all]; rfl⟩
  · obtain ⟨i', s₁, left, iovecs', answer⟩ := chunked.readvFrom_front here iovecs low total
    have rest : (chunk.drop (roomOf front)).length < len := by
      rw [length_drop]
      omega
    have serving : chunk.drop (roomOf front) ≠ [] ∨ ended := inside.symm.imp_left fun free empty =>
      free ⟨front, _, back, rfl, le_antisymm low (drop_eq_nil_iff.mp empty), Nat.zero_lt_of_lt rest⟩
    obtain ⟨s', last, -⟩ := chunked.serves left (Nat.zero_lt_of_lt rest) serving
    have whole : (chunk.drop (roomOf front)).take len = chunk.drop (roomOf front) := take_of_length_le rest.le
    rw [whole] at last
    refine ⟨s', ?_⟩
    rw [answer, length_cons, readvFrom_short iovecs' _ last rest, scattered_append, scattered, whole,
      drop_eq_nil_of_le rest.le, scattered_nil, take_of_length_le, length_drop, Int.ofNat_sub low, add_assoc,
      add_sub_cancel]
    rw [roomOf_append, roomOf_cons]
    omega

end

/-! ### Files, pipes and the console -/

/-- A descriptor that can be read: a regular file, the read end of a pipe, or the console. -/
inductive Readable (key : Key) (fd : ℕ) (s : Inputs) : Prop
  | file {f : OpenFile} (isOpen : fileAt key fd s.registry = some f) (regular : f.isDir = false)
  | pipe {buf : ℕ} {b : PipeBuf} (slot : slotAt (s.registry.proc key).fds fd = some (.pipeRead buf))
      (present : s.registry.shared.pipes[buf]? = some b)
  | console (slot : slotAt (s.registry.proc key).fds fd = some .console)

/-- A regular file that has the bytes left to read. -/
def FileHas (key : Key) (fd : ℕ) (s : Inputs) (chunk : List UInt8) : Prop :=
  ∃ f, fileAt key fd s.registry = some f ∧ f.isDir = false ∧ f.data.drop f.offset = chunk

/-- A pipe that has the bytes in its buffer. -/
def PipeHas (key : Key) (fd : ℕ) (buf writers : ℕ) (s : Inputs) (chunk : List UInt8) : Prop :=
  slotAt (s.registry.proc key).fds fd = some (.pipeRead buf) ∧
    ∃ b, s.registry.shared.pipes[buf]? = some b ∧ b.writers = writers ∧ b.data = chunk

/-- A console whose first line ends with the bytes, unless there are none. -/
def ConsoleHas (key : Key) (fd : ℕ) (s : Inputs) (chunk : List UInt8) : Prop :=
  slotAt (s.registry.proc key).fds fd = some .console ∧
    (chunk ≠ [] → lineLen s.console.ready = chunk.length ∧ chunk <+: s.console.ready)

theorem fileAt_withFile {f : OpenFile} (isOpen : fileAt key fd s.registry = some f) (g : OpenFile) :
    fileAt key fd (s.withFile key fd g).registry = some g :=
  fileAt_put isOpen g

theorem drop_length_take {α : Type} (l : List α) (n : ℕ) : l.drop (l.take n).length = l.drop n := by
  rcases Nat.le_total n l.length with within | past
  · rw [length_take_of_le within]
  · rw [take_of_length_le past, drop_length, drop_eq_nil_of_le past]

theorem chunked_file : Chunked key fd True (FileHas key fd) := by
  refine ⟨fun {s chunk len} here room _ => ?_⟩
  obtain ⟨f, isOpen, regular, rfl⟩ := here
  let left : OpenFile := { f with offset := f.offset + ((f.data.drop f.offset).take len).length }
  refine ⟨s.withFile key fd left, ?_, left, fileAt_withFile isOpen left, regular, ?_⟩
  · rw [readInput_file len true isOpen]
    simp only [if_neg (Bool.eq_false_iff.mp regular)]
    rfl
  · show f.data.drop (f.offset + ((f.data.drop f.offset).take len).length) = _
    rw [← drop_drop, drop_length_take]

theorem chunked_pipe (buf writers : ℕ) :
    Chunked key fd (writers = 0) (PipeHas key fd buf writers) := by
  refine ⟨fun {s chunk len} here room serving => ?_⟩
  obtain ⟨slot, b, present, last, rfl⟩ := here
  have inRange := (List.getElem?_eq_some_iff.mp present).1
  by_cases empty : b.data = []
  · refine ⟨s.touched key, ?_, ?_, b, present, last, ?_⟩
    · rw [readInput_pipe len true slot present, if_neg room.ne', if_pos empty,
        if_pos (last.trans (serving.resolve_left (not_not_intro empty))), empty, List.take_nil]
      rfl
    · exact (congrArg (fun p : ProcState => slotAt p.fds fd) (proc_put_proc _ _ _)).trans slot
    · rw [empty, List.drop_nil]
  · refine ⟨s.withPipe key buf { b with data := b.data.drop len }, ?_, ?_,
      { b with data := b.data.drop len }, List.getElem?_set_self inRange, last, rfl⟩
    · rw [readInput_pipe len true slot present, if_neg room.ne', if_neg empty]
      rfl
    · exact (congrArg (fun p : ProcState => slotAt p.fds fd) (proc_put_proc _ _ _)).trans slot

theorem lineLen_cons (byte : UInt8) (rest : List UInt8) :
    lineLen (byte :: rest) = if byte = newlineByte then 1 else lineLen rest + 1 := by
  unfold lineLen
  rw [findIdx?_cons]
  by_cases newline : byte = newlineByte
  · simp only [newline, decide_true, if_true]
  · simp only [newline, decide_false, if_false]
    cases findIdx? _ rest <;> rfl

theorem lineLen_drop {ready : List UInt8} (within : n < lineLen ready) :
    lineLen (ready.drop n) = lineLen ready - n := by
  induction n generalizing ready with
  | zero => rfl
  | succ n ih =>
    cases ready with
    | nil => exact absurd within (Nat.not_lt_zero _)
    | cons byte rest =>
      rw [lineLen_cons] at within ⊢
      split at within
      · omega
      · rw [if_neg ‹_›, drop_succ_cons, ih (by omega)]
        omega

theorem lineLen_le (ready : List UInt8) : lineLen ready ≤ ready.length := by
  unfold lineLen
  split
  · rename_i found
    exact (findIdx?_eq_some_iff_getElem.mp found).1
  · exact le_rfl

theorem chunked_console : Chunked key fd False (ConsoleHas key fd) := by
  refine ⟨fun {s chunk len} here room serving => ?_⟩
  have filled := serving.resolve_right id
  obtain ⟨slot, line⟩ := here
  obtain ⟨length, inFront⟩ := line filled
  obtain ⟨later, queue⟩ := inFront
  have taken : s.console.ready.take (min len (lineLen s.console.ready)) = chunk.take len := by
    rw [length, ← queue, take_append_of_le_length (Nat.min_le_right _ _), ← take_eq_take_min]
  have notEmpty : chunk.take len ≠ [] := by
    rw [Ne, take_eq_nil_iff, not_or]
    exact ⟨room.ne', filled⟩
  refine ⟨{ s.touched key with
    console := { s.console with ready := s.console.ready.drop (min len (lineLen s.console.ready)) } },
    ?_, ?_, fun left => ?_⟩
  · rw [readInput_console len true slot]
    simp only [taken, if_neg room.ne', if_neg notEmpty]
    rfl
  · exact (congrArg (fun p : ProcState => slotAt p.fds fd) (proc_put_proc _ _ _)).trans slot
  · have inside : len < chunk.length := by
      by_contra past
      exact left (drop_eq_nil_of_le (Nat.le_of_not_lt past))
    rw [length, Nat.min_eq_left inside.le]
    refine ⟨?_, later, ?_⟩
    · rw [length_drop, ← length]
      exact lineLen_drop (length ▸ inside)
    · rw [← queue, drop_append_of_le_length inside.le]

/-! ### When `readv` is one `read` -/

/-- Where the source stops for now without having ended: at the end of the first line of the console, or
of what is in a pipe that has a writer. -/
def stopsAt (key : Key) (fd : ℕ) (s : Inputs) : Option ℕ :=
  match slotAt (s.registry.proc key).fds fd with
  | some .console => if s.console.ready = [] then none else some (lineLen s.console.ready)
  | some (.pipeRead buf) =>
    match s.registry.shared.pipes[buf]? with
    | some b => if b.data = [] ∨ b.writers = 0 then none else some b.data.length
    | none => none
  | _ => none

/-- A source with something to give: a chunk, after which it has ended or stops for now. -/
structure Gives (key : Key) (fd : ℕ) (s : Inputs) (chunk : List UInt8) (ended : Prop)
    (has : Inputs → List UInt8 → Prop) : Prop where
  chunked : Chunked key fd ended has
  here : has s chunk
  serving : chunk ≠ [] ∨ ended
  stops : ended ∨ stopsAt key fd s = some chunk.length

theorem pipe_blocks (here : PipeHas key fd buf writers s []) (hasWriter : writers ≠ 0) (room : 0 < len) :
    readInput key fd len true s = (.blocks, s.touched key) := by
  obtain ⟨slot, b, present, rfl, empty⟩ := here
  rw [readInput_pipe len true slot present, if_neg room.ne', if_pos empty, if_neg hasWriter]

/-- **Every readable descriptor gives a chunk or blocks.** -/
theorem Readable.gives (readable : Readable key fd s) :
    (∀ len, 0 < len → (readInput key fd len true s).1 = .blocks) ∨ ∃ chunk ended has,
      Gives key fd s chunk ended has := by
  cases readable with
  | @file f isOpen regular =>
    exact .inr ⟨f.data.drop f.offset, True, _, chunked_file, ⟨f, isOpen, regular, rfl⟩, .inr trivial, .inl trivial⟩
  | @pipe buf b slot present =>
    have here : PipeHas key fd buf b.writers s b.data := ⟨slot, b, present, rfl, rfl⟩
    by_cases ended : b.writers = 0
    · exact .inr ⟨b.data, _, _, chunked_pipe buf b.writers, here, .inr ended, .inl ended⟩
    · by_cases empty : b.data = []
      · refine .inl fun len room => ?_
        rw [empty] at here
        rw [pipe_blocks here ended room]
      · refine .inr ⟨b.data, _, _, chunked_pipe buf b.writers, here, .inl empty, .inr ?_⟩
        simp only [stopsAt, slot, present, if_neg (not_or.mpr ⟨empty, ended⟩)]
  | console slot =>
    by_cases empty : s.console.ready = []
    · refine .inl fun len room => ?_
      rw [readInput_console len true slot]
      simp only [empty, take_nil, if_neg room.ne', if_true]
    · have length := length_take_of_le (lineLen_le s.console.ready)
      have filled : s.console.ready.take (lineLen s.console.ready) ≠ [] := by
        rw [← length_pos_iff, length]
        exact lineLen_pos empty
      refine .inr ⟨s.console.ready.take (lineLen s.console.ready), _, _, chunked_console,
        ⟨slot, fun _ => ⟨length.symm, List.take_prefix _ _⟩⟩, .inl filled, .inr ?_⟩
      simp only [stopsAt, slot, if_neg empty, length]

section Compare

variable {has : Inputs → List UInt8 → Prop} (gives : Gives key fd s chunk ended has)
include gives

theorem Gives.read (room : 0 < roomOf bufs) : (readInput key fd (roomOf bufs) true s).1 =
      .returned (chunk.take (roomOf bufs)).length (chunk.take (roomOf bufs)) := by
  obtain ⟨s', answer, -⟩ := gives.chunked.serves gives.here room gives.serving
  rw [answer]

variable (iovecs : Iovecs space bus iov 0 bufs)
include iovecs

end Compare

/-- A buffer that meets the array: the first 32 of 40 zeros go over both entries, and the second buffer, of
8 bytes, is not seen any more. -/
example :
    let s : Inputs := ⟨⟨Finmap.singleton 7 ⟨[some (.pipeRead 0)], [0x2F], userHeapBase⟩,
      ⟨[⟨replicate 40 0, 0, 1⟩], [], [], false⟩⟩, ⟨[], []⟩⟩
    let bus : Bus := ⟨fun pa => [0, 16, 0, 0, 0, 0, 0, 0, 32, 0, 0, 0, 0, 0, 0, 0,
      64, 16, 0, 0, 0, 0, 0, 0, 8, 0, 0, 0, 0, 0, 0, 0].getD pa 0, []⟩
    (readInput 7 0 40 true s).1 = .returned 40 (replicate 40 0) ∧
      (sysReadv onePage 7 0 4096 2 (s, bus)).1 = some 32 := by
  decide +kernel

end Ferros.Files
