/-
**Pipes are byte streams.**

The log of a run tells what went into a pipe and what came out of it: `sent p e` are the bytes that the
call `e` wrote to pipe `p`, `delivered p e` the bytes that it returned from it.

* `pipes_are_streams` — with the ends of the stream: when a read reports the end of the file, and when a
  write reports a broken pipe.
-/

import Ferros.Files.Count

namespace Ferros.Files

open Lib List Option

/-- The bytes that a successful read returns. -/
def ReadResult.bytes : ReadResult → List UInt8
  | .returned value bytes => if 0 ≤ value then bytes else []
  | _ => []

/-- The bytes that a write of `value` as its result has sent. -/
def UserBytes.sent (user : UserBytes) (value : ℤ) : List UInt8 :=
  match user with
  | .bytes l => if 0 ≤ value then l else []
  | .fault _ => []

/-- The bytes that a call returned from pipe `p`. -/
def delivered (p : ℕ) (e : Entry) : List UInt8 :=
  if e.pipe = some p then
    match e.outcome with
    | .read result => result.bytes
    | _ => []
  else []

/-- The bytes that a call wrote to pipe `p`. -/
def sent (p : ℕ) (e : Entry) : List UInt8 :=
  if e.pipe = some p then
    match e.op.gives, e.outcome with
    | some user, .value value => user.sent value
    | _, _ => []
  else []

/-- The buffer of a read can be written; other calls have none. -/
def Op.writable (op : Op) : Bool :=
  op.asks.all Prod.snd

/-! ### One call -/

section

variable {s : Shared} {buf p : ℕ} {b b' : PipeBuf}

theorem data_set {wake : Bool} (present : s.pipes[buf]? = some b) (p : ℕ) :
    Shared.data { s with pipes := s.pipes.set buf b', wake } p = if buf = p then b'.data else s.data p := by
  unfold Shared.data
  rw [getElem?_set]
  split
  · rename_i here
    subst here
    rw [if_pos (List.getElem?_eq_some_iff.mp present).1]
    rfl
  · rfl

theorem data_of_present (present : s.pipes[buf]? = some b) : s.data buf = b.data := by
  rw [Shared.data, present]
  rfl

/-- **One turn of reading** takes what it returns off the front of the buffer. -/
theorem readPipeTurn_data (count : ℕ) :
    (readPipeTurn buf count true s).1.bytes ++ (readPipeTurn buf count true s).2.data buf = s.data buf := by
  cases present : s.pipes[buf]? with
  | none => simp only [readPipeTurn, present]; rfl
  | some b =>
    by_cases nonempty : b.data ≠ []
    · simp only [readPipeTurn, present, if_pos nonempty, if_true]
      rw [data_set present, if_pos rfl, data_of_present present, ReadResult.bytes,
        if_pos (Int.natCast_nonneg _), take_append_drop]
    · simp only [readPipeTurn, present, if_neg nonempty]
      split <;> rfl

theorem readPipeTurn_other (count : ℕ) (copies : Bool) (other : buf ≠ p) :
    (readPipeTurn buf count copies s).2.data p = s.data p := by
  cases present : s.pipes[buf]? with
  | none => simp only [readPipeTurn, present]
  | some b =>
    by_cases nonempty : b.data ≠ []
    · simp only [readPipeTurn, present, if_pos nonempty]
      split <;> rw [data_set present, if_neg other]
    · simp only [readPipeTurn, present, if_neg nonempty]
      split <;> rfl

/-- **One write** appends what it sends. -/
theorem writePipe_data (user : UserBytes) :
    (writePipe buf user s).2.data buf = s.data buf ++ user.sent (writePipe buf user s).1 := by
  by_cases nothing : user.count = 0
  · simp only [writePipe, if_pos nothing]
    cases user with
    | fault _ => exact (append_nil _).symm
    | bytes l =>
      rw [eq_nil_of_length_eq_zero nothing]
      exact (append_nil _).symm
  cases user with
  | fault _ =>
    simp only [writePipe, if_neg nothing]
    exact (append_nil _).symm
  | bytes l =>
    cases present : s.pipes[buf]? with
    | none =>
      simp only [writePipe, if_neg nothing, present]
      exact (append_nil _).symm
    | some b =>
      simp only [writePipe, if_neg nothing, present]
      split
      · exact (append_nil _).symm
      · rw [data_set present, if_pos rfl, data_of_present present, UserBytes.sent,
          if_pos (Int.natCast_nonneg _)]

theorem writePipe_other (user : UserBytes) (other : buf ≠ p) : (writePipe buf user s).2.data p = s.data p := by
  unfold writePipe
  split
  · rfl
  · split
    · rename_i present _
      split
      · rfl
      · rw [data_set present, if_neg other]
    · rfl
    · rfl

end

/-! ### What the log says -/

section

variable {p : ℕ} {op : Op} {pipe : Option ℕ} {outcome : Outcome}

theorem delivered_other (other : pipe ≠ some p) : delivered p ⟨op, pipe, outcome⟩ = [] :=
  if_neg other

theorem sent_other (other : pipe ≠ some p) : sent p ⟨op, pipe, outcome⟩ = [] :=
  if_neg other

theorem delivered_read (result : ReadResult) : delivered p ⟨op, some p, .read result⟩ = result.bytes :=
  if_pos rfl

theorem delivered_value (value : ℤ) : delivered p ⟨op, pipe, .value value⟩ = [] :=
  ite_self []

theorem sent_read (result : ReadResult) : sent p ⟨op, pipe, .read result⟩ = [] := by
  unfold sent
  split
  · cases op.gives <;> rfl
  · rfl

theorem sent_write {user : UserBytes} (gives : op.gives = some user) (value : ℤ) :
    sent p ⟨op, some p, .value value⟩ = user.sent value := by
  unfold sent
  rw [if_pos rfl, gives]

end

/-- **One call.** What it delivers and the buffer after it are the buffer before it and what it sends. -/
theorem stream_step {op : Op} {r r' : Registry} {outcome : Outcome} {p : ℕ}
    (ran : perform op r = some (outcome, r')) (writable : pipeOf op r = some p → op.writable) :
    delivered p ⟨op, pipeOf op r, outcome⟩ ++ r'.shared.data p =
      r.shared.data p ++ sent p ⟨op, pipeOf op r, outcome⟩ := by
  have elsewhere : pipeOf op r ≠ some p → r'.shared.data p = r.shared.data p →
      delivered p ⟨op, pipeOf op r, outcome⟩ ++ r'.shared.data p =
        r.shared.data p ++ sent p ⟨op, pipeOf op r, outcome⟩ := by
    intro other same
    rw [delivered_other other, sent_other other, append_nil, nil_append, same]
  cases onPipes_of_perform ran with
  | recount aside recounts => exact elsewhere (by rw [aside]; nofun) (recounts.data p)
  | empty buf copies pipe asks result same =>
    by_cases here : buf = p
    · subst here
      rw [result, pipe, delivered_read, sent_read, append_nil, same]
      rfl
    · exact elsewhere (by rw [pipe]; exact fun same => here (some.inj same)) (by rw [same])
  | read buf count copies pipe asks result turned =>
    by_cases here : buf = p
    · subst here
      obtain rfl : copies := by
        have all := writable pipe
        rwa [Op.writable, asks] at all
      rw [result, pipe, delivered_read, sent_read, append_nil, turned]
      exact readPipeTurn_data count
    · refine elsewhere (by rw [pipe]; exact fun same => here (some.inj same)) ?_
      rw [turned]
      exact readPipeTurn_other count copies here
  | write buf user pipe gives result written =>
    by_cases here : buf = p
    · subst here
      rw [result, pipe, delivered_value, sent_write gives, nil_append, written]
      exact writePipe_data user
    · refine elsewhere (by rw [pipe]; exact fun same => here (some.inj same)) ?_
      rw [written]
      exact writePipe_other user here

/-! ### Runs -/

/-- **The run.** Everything delivered and then the buffer are everything sent. -/
theorem stream_of_reached {l : Logged} {p : ℕ} (reached : registryRuns.Reached l)
    (writable : ∀ e ∈ l.log, e.pipe = some p → e.op.writable) :
    l.log.flatMap (delivered p) ++ l.registry.shared.data p = l.log.flatMap (sent p) := by
  refine registryRuns.invariant (fun l => (∀ e ∈ l.log, e.pipe = some p → e.op.writable) →
    l.log.flatMap (delivered p) ++ l.registry.shared.data p = l.log.flatMap (sent p)) ?_ ?_ reached
    writable
  · rintro l rfl -
    rfl
  · rintro l l' - accounted ⟨op, stepped⟩ writable
    obtain ⟨outcome, r, ran, rfl⟩ := Logged.step_eq_some stepped
    have before := accounted fun e mem => writable e (mem_append_left _ mem)
    have step := stream_step ran (writable _ mem_concat_self)
    rw [flatMap_append, flatMap_append, flatMap_singleton, flatMap_singleton,
      append_assoc, step, ← append_assoc, before]

/-- The end of the file is reported for an empty buffer without writers. -/
theorem readPipeTurn_eof {s : Shared} {buf count : ℕ} {copies : Bool} {bytes : List UInt8} (asked : 0 < count)
    (result : (readPipeTurn buf count copies s).1 = .returned 0 bytes) :
    ∃ b, s.pipes[buf]? = some b ∧ b.data = [] ∧ b.writers = 0 := by
  cases present : s.pipes[buf]? with
  | none =>
    simp only [readPipeTurn, present] at result
    exact absurd (ReadResult.returned.inj result).1 (by decide)
  | some b =>
    refine ⟨b, rfl, ?_⟩
    by_cases nonempty : b.data ≠ []
    · -- at least one byte is taken
      simp only [readPipeTurn, present, if_pos nonempty] at result
      cases copies with
      | false => exact absurd (ReadResult.returned.inj result).1 (by decide)
      | true =>
        obtain ⟨taken, -⟩ := ReadResult.returned.inj result
        have nothing := eq_nil_of_length_eq_zero (Int.natCast_eq_zero.mp taken)
        rcases take_eq_nil_iff.mp nothing with zero | empty
        · exact absurd zero asked.ne'
        · exact absurd empty nonempty
    · simp only [readPipeTurn, present, if_neg nonempty] at result
      split at result
      · rename_i last
        exact ⟨not_not.mp nonempty, last⟩
      · cases result

/-- A broken pipe is reported for a pipe without readers. -/
theorem writePipe_epipe {s : Shared} {buf : ℕ} {b : PipeBuf} {l : List UInt8} (present : s.pipes[buf]? = some b)
    (nonempty : l ≠ []) : (writePipe buf (.bytes l) s).1 = -EPIPE ↔ b.readers = 0 := by
  have count : ¬ (UserBytes.bytes l).count = 0 := fun zero =>
    nonempty (eq_nil_of_length_eq_zero zero)
  simp only [writePipe, if_neg count, present]
  split
  · exact iff_of_true rfl (by assumption)
  · refine iff_of_false (fun same => ?_) (by assumption)
    have nonneg : (0 : ℤ) ≤ -EPIPE := by
      rw [← same]
      exact Int.natCast_nonneg _
    exact absurd nonneg (by decide)

/-- **Pipes are FIFO byte streams**, in every state that calls of any processes reach, as long as the
buffers that pipe `p` was read into were writable. Everything that reads returned, in order, and then the
buffer is everything that successful writes wrote, in order; the bytes of one write stand together in it.
A read of at least one byte that reports the end of the file found the buffer empty and no write end in any
table; a write of at least one accessible byte reports a broken pipe exactly when no table has a read
end. -/
theorem pipes_are_streams {l : Logged} {p : ℕ} (reached : registryRuns.Reached l)
    (writable : ∀ e ∈ l.log, e.pipe = some p → e.op.writable = true) :
    l.log.flatMap (delivered p) ++ l.registry.shared.data p = l.log.flatMap (sent p) ∧
    (∀ before e after, l.log = before ++ e :: after → l.log.flatMap (delivered p) ++ l.registry.shared.data p =
        before.flatMap (sent p) ++ (sent p e ++ after.flatMap (sent p))) ∧
    (∀ op count copies bytes r', pipeOf op l.registry = some p → op.asks = some (count, copies) →
      0 < count → perform op l.registry = some (.read (.returned 0 bytes), r') →
      l.registry.shared.data p = [] ∧ l.registry.held.count (.pipeWrite p) = 0) ∧
    ∀ key fd bytes, slotAt (l.registry.proc key).fds fd = some (.pipeWrite p) → bytes ≠ [] →
      ((sysWrite key fd (.bytes bytes) l.registry).1 = -EPIPE ↔ l.registry.held.count (.pipeRead p) = 0) := by
  have sound := sound_of_reached reached
  have stream := stream_of_reached reached writable
  refine ⟨stream, ?_, ?_, ?_⟩
  · intro before e after split
    rw [stream, split, flatMap_append, flatMap_cons]
  · intro op count copies bytes r' pipe asks asked ran
    have finished : ∃ b, l.registry.shared.pipes[p]? = some b ∧ b.data = [] ∧ b.writers = 0 := by
      cases onPipes_of_perform ran with
      | recount aside _ => exact nomatch aside.symm.trans pipe
      | empty buf copies' _ asks' _ _ =>
        cases asks'.symm.trans asks
        exact absurd asked (lt_irrefl 0)
      | read buf count' copies' pipe' asks' result _ =>
        cases asks'.symm.trans asks
        cases pipe'.symm.trans pipe
        exact readPipeTurn_eof asked (Outcome.read.inj result).symm
      | write _ _ _ _ result _ => exact nomatch result
    obtain ⟨b, present, empty, last⟩ := finished
    exact ⟨(data_of_present present).trans empty, (sound.ends .write p b present).symm.trans last⟩
  · intro key fd bytes isOpen nonempty
    have known : p < l.registry.shared.pipes.length :=
      ((sound_iff_accounted.mp sound).touch key).pipes .write p (mem_touch isOpen)
    have present := getElem?_eq_getElem known
    have called : (sysWrite key fd (.bytes bytes) l.registry).1 =
        (writePipe p (.bytes bytes) l.registry.shared).1 := by
      simp only [sysWrite, isOpen]
      rfl
    rw [called, writePipe_epipe present nonempty, ← sound.ends .read p _ present]
    rfl

/-- A process makes a pipe and forks; both write, and the child reads across the two writes; then the child
closes its read end and the parent writes in vain. -/
def streamRun : List Op :=
  [.pipe 7 true, .fork 7 8, .write 7 4 (.bytes [1, 2, 3]), .write 8 4 (.bytes [4, 5]), .read 8 3 4 true,
    .close 7 3 fun _ => none, .close 8 3 fun _ => none, .write 7 4 (.bytes [6])]

def streamed (n : ℕ) : Logged :=
  (replay Logged.step (streamRun.take n) ⟨.empty, []⟩).getD ⟨.empty, []⟩

theorem pipes_are_streams_fork : (streamed 8).log.flatMap (delivered 0) = [1, 2, 3, 4] ∧
      (streamed 8).registry.shared.data 0 = [5] ∧ (streamed 8).log.flatMap (sent 0) = [1, 2, 3, 4, 5] ∧
      (streamed 8).registry.held.count (.pipeRead 0) = 0 := by
  have reached : registryRuns.Reached (streamed 8) :=
    System.Reached.replay (.start rfl)
      (show replay Logged.step (streamRun.take 8) ⟨.empty, []⟩ = some (streamed 8) from rfl)
  have writable : ∀ e ∈ (streamed 8).log, e.pipe = some 0 → e.op.writable = true := by
    have all : (streamed 8).log.all (fun e => e.op.writable) = true := rfl
    exact fun e mem _ => all_eq_true.mp all e mem
  have streams := pipes_are_streams reached writable
  exact ⟨rfl, rfl, streams.1.symm, (streams.2.2.2 7 4 [6] rfl (by decide)).mp rfl⟩

end Ferros.Files
