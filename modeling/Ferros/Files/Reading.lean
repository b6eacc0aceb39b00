/-
**Reads from files, pipes and the console.**

`readInput` is `read` up to where it returns or blocks, over the registry and the console together; whether
a user buffer can be written comes in as an argument. `readUser` is `read` into user memory, and `sysReadv`
is `readv`: it reads each entry of its array when its turn comes, from the memory that the reads before it
have written.

* `SameSources` — files, pipes and the queue of the console are exactly as before, so that every further
  read answers the same (`SameSources.readInput`).
* `failed_read_consumes_nothing_iff` — **a read that fails consumes nothing**, unless it fails to copy what
  it took out of a pipe; `failed_read_drains_pipe` — a run of that.

`read` is one equation per kind of descriptor (`readInput_console`, `readInput_file`, `readInput_pipe`), and
a failure is one of their branches. `readv` fails only in its first read: once something was read it
returns at least that much (`le_of_readvLoop`), and the entries before it are empty, so that the memory is
still the one at the start of the call.
-/

import Ferros.Drivers.Discipline
import Ferros.Files.Handle
import Ferros.Syscall.Uaccess

namespace Ferros.Files

open Drivers Mm Syscall List Option

/-- What reads take from: the open files and pipes, and the console. -/
structure Inputs where
  registry : Registry
  console : Console

variable {key : Key} {fd iov : ℕ} {s s' : Inputs} {f : OpenFile} {value : ℤ} {space : Space} {bus bus' : Bus}

/-- How a `read` goes: it returns a value, with the bytes that reached the user, or it blocks. -/
inductive ReadAnswer
  | returned (value : ℤ) (bytes : List UInt8)
  | blocks
  deriving DecidableEq, Repr

/-- `read`, with `read_stdin` for the console; `copies` says whether what was read can be written to user
memory. -/
def readInput (key : Key) (fd count : ℕ) (copies : Bool) (s : Inputs) : ReadAnswer × Inputs :=
  match sysRead key fd count copies s.registry with
  | (.returned value bytes, registry) => (.returned value bytes, { s with registry })
  | (.blocks _, registry) => (.blocks, { s with registry })
  | (.stdin, registry) =>
    if count = 0 then (.returned 0 [], { s with registry })
    else
      match readStdinTurn count copies s.console with
      | (some bytes, console) =>
        (.returned (if copies then bytes.length else -EFAULT) bytes, ⟨registry, console⟩)
      | (none, console) => (.blocks, ⟨registry, console⟩)

/-- What goes to the user. -/
def ReadAnswer.bytes : ReadAnswer → List UInt8
  | .returned _ bytes => bytes
  | .blocks => []

/-- `copy_to_user`; it is never left to a page fault. -/
def copied (space : Space) (dst : ℕ) (src : List UInt8) (bus : Bus) : Except ℤ Unit × Bus :=
  (copyToUser space dst src bus).getD (.error EFAULT, bus)

/-- `read` into user memory. What is taken is what `readInput` gives out if the copy succeeds, and whether it
does decides how the read goes. -/
def readUser (space : Space) (key : Key) (fd base len : ℕ) (now : Inputs × Bus) : ReadAnswer × Inputs × Bus :=
  let (outcome, bus) := copied space base (readInput key fd len true now.1).1.bytes now.2
  let (answer, s) := readInput key fd len outcome.isOk now.1
  (answer, s, bus)

/-- `IOV_MAX` -/
def iovMax : ℕ := 1024

/-- The loop of `readv` over `left` entries from number `i` on; no value is a read that blocks. -/
def readvLoop {σ : Type} (entry : ℕ → σ → Except ℤ (ℕ × ℕ)) (read : ℕ → ℕ → σ → ReadAnswer × σ) :
    (left i : ℕ) → ℤ → σ → Option ℤ × σ
  | 0, _, total, s => (some total, s)
  | left + 1, i, total, s =>
    match entry i s with
    | .error e => (some (if total = 0 then -e else total), s)
    | .ok (base, len) =>
      if len = 0 then readvLoop entry read left (i + 1) total s
      else
        match read base len s with
        | (.blocks, s) => (none, s)
        | (.returned got _, s) =>
          if got < 0 then (some (if total = 0 then got else total), s)
          else if got < len then (some (total + got), s)
          else readvLoop entry read left (i + 1) (total + got) s

/-- The loop over an array in user memory. -/
def readvFrom (space : Space) (key : Key) (fd iov : ℕ) : (left i : ℕ) → ℤ → Inputs × Bus →
    Option ℤ × Inputs × Bus :=
  readvLoop (fun i now => readIovec space now.2 iov i) (readUser space key fd)

def sysReadv (space : Space) (key : Key) (fd iov iovcnt : ℕ) (start : Inputs × Bus) :
    Option ℤ × Inputs × Bus :=
  if iovMax < iovcnt then (some (-EINVAL), start) else readvFrom space key fd iov iovcnt 0 0 start

/-! ### Nothing is consumed -/

/-- Every open file, every pipe and the console are exactly as before. -/
structure SameSources (s s' : Inputs) : Prop where
  console : s'.console = s.console
  shared : s'.registry.shared = s.registry.shared
  proc : ∀ key, s'.registry.proc key = s.registry.proc key

theorem SameSources.refl (s : Inputs) : SameSources s s := ⟨rfl, rfl, fun _ => rfl⟩

/-- What `read` leaves: the entry of the process, which it creates if there was none. -/
def Inputs.touched (s : Inputs) (key : Key) : Inputs :=
  { s with registry := s.registry.put key (s.registry.proc key) }

/-- The same with the open file of a descriptor replaced. -/
def Inputs.withFile (s : Inputs) (key : Key) (fd : ℕ) (f : OpenFile) : Inputs :=
  { s with
    registry := s.registry.put key
      { s.registry.proc key with fds := (s.registry.proc key).fds.set fd (some (.file f)) } }

/-- The same with the buffer of a pipe replaced. -/
def Inputs.withPipe (s : Inputs) (key : Key) (buf : ℕ) (b : PipeBuf) : Inputs :=
  { s with
    registry := { s.registry.put key (s.registry.proc key) with
      shared := { s.registry.shared with pipes := s.registry.shared.pipes.set buf b } } }

theorem sameSources_touched (s : Inputs) (key : Key) : SameSources s (s.touched key) :=
  ⟨rfl, rfl, proc_put_proc s.registry key⟩

/-- **Further reads answer the same.** -/
theorem SameSources.readInput (same : SameSources s s') (key : Key) (fd count : ℕ) (copies : Bool) :
    (Files.readInput key fd count copies s').1 = (Files.readInput key fd count copies s).1 := by
  have result : (sysRead key fd count copies s'.registry).1 = (sysRead key fd count copies s.registry).1 := by
    unfold sysRead
    rw [same.proc]
    simp only [Registry.put, same.shared]
    split <;> try rfl
    split <;> rfl
  unfold Files.readInput
  rw [same.console]
  generalize sysRead key fd count copies s'.registry = left at result ⊢
  generalize sysRead key fd count copies s.registry = right at result ⊢
  obtain ⟨result', registry'⟩ := left
  obtain ⟨result, registry⟩ := right
  cases result
  cases result' with
  | returned value bytes => rfl
  | blocks buf => rfl
  | stdin =>
    simp only
    split
    · rfl
    · split <;> rfl

section Cases

variable (count : ℕ) (copies : Bool)

theorem readInput_console (slot : slotAt (s.registry.proc key).fds fd = some .console) :
    readInput key fd count copies s = let n := min count (lineLen s.console.ready)
      if count = 0 then (.returned 0 [], s.touched key)
      else if s.console.ready.take n = [] then (.blocks, s.touched key)
      else if copies then
        (.returned (s.console.ready.take n).length (s.console.ready.take n),
          { s.touched key with console := { s.console with ready := s.console.ready.drop n } })
      else (.returned (-EFAULT) [], s.touched key) := by
  simp only [readInput, sysRead, slot, readStdinTurn_eq]
  by_cases nothing : count = 0
  · simp only [if_pos nothing]
    rfl
  · by_cases empty : s.console.ready.take (min count (lineLen s.console.ready)) = []
    · simp only [if_neg nothing, if_pos empty]
      rfl
    · simp only [if_neg nothing, if_neg empty]
      cases copies <;> rfl

theorem readInput_file (isOpen : fileAt key fd s.registry = some f) :
    readInput key fd count copies s = let bytes := (f.data.drop f.offset).take count
      if f.isDir then (.returned (-EISDIR) [], s.withFile key fd f)
      else if copies then
        (.returned bytes.length bytes, s.withFile key fd { f with offset := f.offset + bytes.length })
      else (.returned (-EFAULT) [], s.withFile key fd f) := by
  have slot := fileAt_eq_some.mp isOpen
  have rest : f.data.drop (min f.offset f.data.length) = f.data.drop f.offset := by
    rcases Nat.le_total f.offset f.data.length with inside | past
    · rw [Nat.min_eq_left inside]
    · rw [Nat.min_eq_right past, drop_length, drop_eq_nil_of_le past]
  simp only [readInput, sysRead, slot, put_put, readFile, rest]
  cases f.isDir with
  | true => rfl
  | false => cases copies <;> rfl

theorem readInput_pipe {buf : ℕ} {b : PipeBuf}
    (slot : slotAt (s.registry.proc key).fds fd = some (.pipeRead buf))
    (present : s.registry.shared.pipes[buf]? = some b) : readInput key fd count copies s =
      if count = 0 then (.returned 0 [], s.touched key) else if b.data = [] then
        if b.writers = 0 then (.returned 0 [], s.touched key) else (.blocks, s.touched key) else if copies then
        (.returned (b.data.take count).length (b.data.take count),
          s.withPipe key buf { b with data := b.data.drop count })
      else (.returned (-EFAULT) [], s.withPipe key buf { b with data := b.data.drop count }) := by
  have here : (s.registry.put key (s.registry.proc key)).shared.pipes[buf]? = some b := present
  simp only [readInput, sysRead, slot]
  by_cases nothing : count = 0
  · simp only [if_pos nothing]
    rfl
  · simp only [if_neg nothing, readPipeTurn, here]
    by_cases empty : b.data = []
    · simp only [empty, ne_eq, not_true_eq_false, if_false, if_true]
      by_cases last : b.writers = 0
      · simp only [if_pos last]
        rfl
      · simp only [if_neg last]
        rfl
    · simp only [ne_eq, empty, not_false_eq_true, if_true, if_false]
      cases copies <;> rfl

theorem readInput_refused {registry : Registry}
    (refused : sysRead key fd count copies s.registry = (.returned value [], registry)) :
    readInput key fd count copies s = (.returned value [], { s with registry }) := by
  rw [readInput, refused]

end Cases

/-! ### Failed reads -/

/-- **A read that empties a pipe in vain**: it takes bytes out of the pipe and cannot copy them to the
user. -/
def DrainsPipe (key : Key) (fd count : ℕ) (copies : Bool) (s : Inputs) : Prop :=
  copies = false ∧ 0 < count ∧ ∃ buf b, slotAt (s.registry.proc key).fds fd = some (.pipeRead buf) ∧
    s.registry.shared.pipes[buf]? = some b ∧ b.data ≠ []

section Failures

variable {count : ℕ} {copies : Bool}

theorem readInput_drains (drains : DrainsPipe key fd count copies s) :
    ∃ s', readInput key fd count copies s = (.returned (-EFAULT) [], s') ∧ ¬ SameSources s s' := by
  obtain ⟨rfl, asked, buf, b, slot, present, filled⟩ := drains
  refine ⟨s.withPipe key buf { b with data := b.data.drop count }, ?_, fun same => ?_⟩
  · rw [readInput_pipe count false slot present, if_neg asked.ne', if_neg filled]
    rfl
  · have pipes : (s.registry.shared.pipes.set buf { b with data := b.data.drop count })[buf]? =
        s.registry.shared.pipes[buf]? :=
      congrArg (fun shared : Shared => shared.pipes[buf]?) same.shared
    rw [List.getElem?_set_self (List.getElem?_eq_some_iff.mp present).1, present] at pipes
    have lengths := congrArg (fun b : PipeBuf => b.data.length) (some.inj pipes)
    simp only [length_drop] at lengths
    have positive := length_pos_iff.mpr filled
    omega

/-- A file that is written back as it was. -/
theorem sameSources_withFile (isOpen : fileAt key fd s.registry = some f) :
    SameSources s (s.withFile key fd f) := by
  obtain ⟨inRange, here⟩ := List.getElem?_eq_some_iff.mp (slotAt_eq_some.mp (fileAt_eq_some.mp isOpen))
  unfold Inputs.withFile
  rw [← here, List.set_getElem_self]
  exact sameSources_touched s key

/-- **A read that fails has changed nothing, unless it drains a pipe.** -/
theorem sameSources_of_fails {bytes : List UInt8}
    (answer : readInput key fd count copies s = (.returned value bytes, s')) (fails : value < 0)
    (careful : ¬ DrainsPipe key fd count copies s) : SameSources s s' := by
  have stays := sameSources_touched s key
  have refused : ∀ value' : ℤ, sysRead key fd count copies s.registry =
      (.returned value' [], s.registry.put key (s.registry.proc key)) → SameSources s s' := by
    intro value' refused
    rw [readInput_refused count copies refused] at answer
    cases answer
    exact stays
  cases slot : slotAt (s.registry.proc key).fds fd with
  | none => exact refused (-EBADF) (by simp only [sysRead, slot])
  | some backing =>
    cases backing with
    | vga => exact refused (-EBADF) (by simp only [sysRead, slot])
    | serial => exact refused (-EBADF) (by simp only [sysRead, slot])
    | socket e => exact refused (-EBADF) (by simp only [sysRead, slot])
    | console =>
      rw [readInput_console count copies slot] at answer
      simp only at answer
      split at answer
      · cases answer
        exact stays
      · split at answer
        · cases answer
        · split at answer
          · cases answer
            omega
          · cases answer
            exact stays
    | file f =>
      have back := sameSources_withFile (fileAt_eq_some.mpr slot)
      rw [readInput_file count copies (fileAt_eq_some.mpr slot)] at answer
      simp only at answer
      split at answer
      · cases answer
        exact back
      · split at answer
        · cases answer
          omega
        · cases answer
          exact back
    | pipe side buf =>
      cases side with
      | write => exact refused (-EBADF) (by simp only [sysRead, slot])
      | read =>
        cases present : s.registry.shared.pipes[buf]? with
        | none =>
          have missing : (s.registry.put key (s.registry.proc key)).shared.pipes[buf]? = none := present
          by_cases nothing : count = 0
          · exact refused 0 (by simp only [sysRead, slot, if_pos nothing])
          · exact refused (-EBADF) (by simp only [sysRead, slot, if_neg nothing, readPipeTurn, missing])
        | some b =>
          rw [readInput_pipe count copies slot present] at answer
          split at answer
          · cases answer
            exact stays
          · split at answer
            · split at answer
              · cases answer
                exact stays
              · cases answer
            · split at answer
              · cases answer
                omega
              · refine absurd ⟨?_, ?_, buf, b, slot, present, ‹_›⟩ careful
                · exact Bool.eq_false_iff.mpr ‹_›
                · exact Nat.pos_of_ne_zero ‹_›

end Failures

/-! ### `readv` -/

/-- Once something was read, `readv` returns at least that much. -/
theorem le_of_readvLoop {σ : Type} {entry : ℕ → σ → Except ℤ (ℕ × ℕ)} {read : ℕ → ℕ → σ → ReadAnswer × σ}
    {left i : ℕ} {total : ℤ} {s s' : σ} (positive : 0 < total)
    (answer : readvLoop entry read left i total s = (some value, s')) : total ≤ value := by
  induction left generalizing i total s with
  | zero =>
    cases answer
    exact le_rfl
  | succ left ih =>
    rw [readvLoop] at answer
    split at answer
    · rw [if_neg positive.ne'] at answer
      cases answer
      exact le_rfl
    · split at answer
      · exact ih positive answer
      · split at answer
        · cases answer
        · split at answer
          · rw [if_neg positive.ne'] at answer
            cases answer
            exact le_rfl
          · split at answer
            · cases answer
              omega
            · have later := ih (by omega) answer
              omega

/-- **The read of entry `k` empties a pipe in vain**, where the entries from `i` to it are empty. -/
structure DrainsAt (space : Space) (key : Key) (fd iov i k : ℕ) (s : Inputs) (bus : Bus) : Prop where
  empty : ∀ j, i ≤ j → j < k → ∃ base, readIovec space bus iov j = .ok (base, 0)
  drains : ∃ base len, readIovec space bus iov k = .ok (base, len) ∧ DrainsPipe key fd len
    (copied space base (readInput key fd len true s).1.bytes bus).1.isOk s

/-- The first buffer with room drains a pipe in vain. -/
def DrainsPipev (space : Space) (key : Key) (fd iov iovcnt : ℕ) (s : Inputs) (bus : Bus) : Prop :=
  iovcnt ≤ iovMax ∧ ∃ k < iovcnt, DrainsAt space key fd iov 0 k s bus

theorem readvFrom_drains {left i k : ℕ} (low : i ≤ k) (high : k < i + left)
    (drainsAt : DrainsAt space key fd iov i k s bus) :
    ∃ s' bus', readvFrom space key fd iov left i 0 (s, bus) = (some (-EFAULT), s', bus') ∧
      ¬ SameSources s s' := by
  induction left generalizing i with
  | zero => omega
  | succ left ih =>
    rw [readvFrom, readvLoop]
    rcases Nat.eq_or_lt_of_le low with rfl | later
    · obtain ⟨base, len, entry, drains⟩ := drainsAt.drains
      obtain ⟨s', answer, lost⟩ := readInput_drains drains
      refine ⟨s', (copied space base (readInput key fd len true s).1.bytes bus).2, ?_, lost⟩
      simp only [entry, if_neg drains.2.1.ne', readUser, answer]
      rfl
    · obtain ⟨base, entry⟩ := drainsAt.empty i (Nat.le_refl i) later
      simp only [entry, if_true]
      refine ih later (by omega) ⟨fun j above below => drainsAt.empty j (by omega) below, drainsAt.drains⟩

theorem sameSources_of_readvFrom {left i : ℕ}
    (answer : readvFrom space key fd iov left i 0 (s, bus) = (some value, s', bus')) (fails : value < 0)
    (careful : ∀ k, i ≤ k → k < i + left → ¬ DrainsAt space key fd iov i k s bus) : SameSources s s' := by
  induction left generalizing i with
  | zero =>
    cases answer
    exact absurd fails (lt_irrefl 0)
  | succ left ih =>
    rw [readvFrom, readvLoop] at answer
    split at answer
    · cases answer
      exact .refl s
    · rename_i base len entry
      split at answer
      · rename_i zero
        refine ih answer fun k low high drainsAt => ?_
        refine careful k (by omega) (by omega) ⟨fun j above below => ?_, drainsAt.drains⟩
        rcases Nat.eq_or_lt_of_le above with rfl | later
        · exact ⟨base, zero ▸ entry⟩
        · exact drainsAt.empty j later below
      · split at answer
        · cases answer
        · rename_i got bytes next read
          split at answer
          · rename_i negative
            cases answer
            obtain ⟨answered, rest⟩ := Prod.mk.inj read
            obtain ⟨rfl, -⟩ := Prod.mk.inj rest
            refine sameSources_of_fails (Prod.ext answered rfl) negative fun drains => ?_
            exact careful i (Nat.le_refl i) (by omega)
              ⟨fun j above below => absurd above below.not_ge, base, len, entry, drains⟩
          · split at answer
            · cases answer
              omega
            · have more := le_of_readvLoop (by omega) answer
              omega

/-- **A read that fails consumes nothing, exactly if it does not drain a pipe in vain**, for `read` and for
`readv`, on every descriptor and in every state: if it returns an error, every file position, the queue of
the console and every pipe are as before, and every further read answers what it would have answered. -/
theorem failed_read_consumes_nothing_iff (key : Key) (fd : ℕ) (s : Inputs) :
    (∀ count copies, (∀ value bytes s', readInput key fd count copies s = (.returned value bytes, s') →
      value < 0 → SameSources s s') ↔ ¬ DrainsPipe key fd count copies s) ∧
    (∀ space iov iovcnt bus, (∀ value s' bus', sysReadv space key fd iov iovcnt (s, bus) =
        (some value, s', bus') → value < 0 → SameSources s s') ↔
      ¬ DrainsPipev space key fd iov iovcnt s bus) ∧
    ∀ s', SameSources s s' → ∀ key fd count copies,
      (readInput key fd count copies s').1 = (readInput key fd count copies s).1 := by
  refine ⟨fun count copies => ⟨?_, ?_⟩, fun space iov iovcnt bus => ⟨?_, ?_⟩, fun s' same => same.readInput⟩
  · intro keeps drains
    obtain ⟨s', answer, lost⟩ := readInput_drains drains
    exact lost (keeps _ _ _ answer (by decide))
  · exact fun careful value bytes s' answer fails => sameSources_of_fails answer fails careful
  · rintro keeps ⟨few, k, inside, drainsAt⟩
    obtain ⟨s', bus', answer, lost⟩ := readvFrom_drains (Nat.zero_le k)
      (show k < 0 + iovcnt by omega) drainsAt
    refine lost (keeps (-EFAULT) s' bus' ?_ (by decide))
    rw [sysReadv, if_neg few.not_gt]
    exact answer
  · intro careful value s' bus' answer fails
    unfold sysReadv at answer
    split at answer
    · cases answer
      exact .refl s
    · rename_i few
      exact sameSources_of_readvFrom answer fails fun k _ high drainsAt =>
        careful ⟨Nat.le_of_not_lt few, k, by omega, drainsAt⟩

/-- Process 7 reads from a pipe with three bytes in it, as descriptor 0; it is also the only writer. -/
def threeBytes : Inputs :=
  ⟨⟨Finmap.singleton 7 ⟨[some (.pipeRead 0), some (.pipeWrite 0)], [0x2F], userHeapBase⟩,
    ⟨[⟨[1, 2, 3], 1, 1⟩], [], [], false⟩⟩, ⟨[], []⟩⟩

/-- **A read into a buffer that cannot be written loses the bytes**: the next read gets only the third. -/
theorem failed_read_drains_pipe : (readInput 7 0 2 false threeBytes).1 = .returned (-EFAULT) [] ∧
      (readInput 7 0 9 true threeBytes).1 = .returned 3 [1, 2, 3] ∧
      (readInput 7 0 9 true (readInput 7 0 2 false threeBytes).2).1 = .returned 1 [3] :=
  ⟨rfl, rfl, rfl⟩

end Ferros.Files
