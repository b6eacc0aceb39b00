/-
**Receiving frames.**

Eight buffers go round: the driver gives a descriptor to the device, the device fills the buffer and gives it
back, `recv` copies the frame and gives the descriptor to the device again.

* `Rx.perform` — `recv` step by step, with the device fetching, filling and giving back descriptors in between,
  in whatever order.
* `receive_conserves` — over all runs.

The invariant (`Balanced`) names what the driver does not keep: all descriptors posted, how many the device has
fetched, how many frames were taken. Each operation rearranges the owners of the buffers (`Owners`).
-/

import Ferros.Drivers.Virtq
import Ferros.Lib.System
import Mathlib.Data.List.Perm.Lattice

namespace Ferros.Drivers

open Lib List Option Function

variable {mem mem' : ℕ → UInt8} {len id buf t size start count a head offset outLen : ℕ}
  {fetched done posts : List ℕ} {vq : Virtq}

/-! ### The driver and the device -/

def rxBufStride : ℕ := 2048

def rxBufCount : ℕ := 8

/-- `VIRTQ_DESC_F_WRITE`: the device writes the buffer. -/
def descFWrite : ℕ := 2

/-- The descriptor of a buffer. -/
def rxDesc (buf id : ℕ) : Desc := ⟨buf + id * rxBufStride, rxBufStride, descFWrite, 0⟩

/-- Where `recv` is. -/
inductive RxPlace
  | idle
  /-- It has taken an entry of `used`. -/
  | took (id len outLen : ℕ)
  | copied (id : ℕ)
  /-- The descriptor is written again. -/
  | described (id : ℕ)
  deriving DecidableEq, Repr

/-- A frame that the device has given back: the buffer, the length it told and what it left in the buffer. -/
structure Completion where
  id : ℕ
  len : ℕ
  contents : List UInt8

/-- What `recv` returned: the length of the caller's buffer, the first address it read, and the bytes. -/
structure Received where
  outLen : ℕ
  start : ℕ
  bytes : List UInt8

structure Rx where
  vq : Virtq
  mem : ℕ → UInt8
  place : RxPlace
  /-- How far the device has read the ring, and the descriptors that it has. -/
  seen : ℕ
  fetched : List ℕ
  completions : List Completion
  received : List Received

inductive RxOp
  | recv (outLen : ℕ)
  | copy
  | describe
  | push
  /-- The device reads an entry of the ring. -/
  | fetch
  /-- It writes a byte into a buffer that it has. -/
  | fill (id offset : ℕ) (byte : UInt8)
  /-- It gives a buffer back. -/
  | complete (id len : ℕ)
  deriving DecidableEq, Repr

/-- A buffer as the device gives it back. -/
def Rx.completion (id len : ℕ) (s : Rx) : Completion :=
  ⟨id, len, window s.mem (s.vq.desc id).addr (s.vq.desc id).len⟩

def Rx.perform (buf : ℕ) (op : RxOp) (s : Rx) : Option Rx :=
  match op, s.place with
  | .recv outLen, .idle => some <| match s.vq.takeUsed with
      | none => s
      | some ((id, len), vq) =>
        if rxBufCount ≤ id then { s with vq } else { s with vq, place := .took id len outLen }
  | .copy, .took id len outLen =>
    let total := min len rxBufStride
    let frameLen := total - netHdrLen
    let n := min frameLen outLen
    let src := buf + (id * rxBufStride + netHdrLen)
    some { s with received := s.received ++ [⟨outLen, src, window s.mem src n⟩], place := .copied id }
  | .describe, .copied id => some { s with vq := s.vq.writeDesc id (rxDesc buf id), place := .described id }
  | .push, .described id => some { s with vq := (s.vq.pushAvail id).2, place := .idle }
  | .fetch, _ => (s.vq.nextAvail s.seen).map fun head =>
    { s with seen := (s.seen + 1) % 2 ^ 16, fetched := s.fetched ++ [head] }
  | .fill id offset byte, _ =>
    if id ∈ s.fetched ∧ offset < (s.vq.desc id).len then
      some { s with mem := update s.mem ((s.vq.desc id).addr + offset) byte }
    else none
  | .complete id len, _ =>
    if id ∈ s.fetched then
      some { s with
        vq := s.vq.pushUsed (id, len)
        fetched := s.fetched.erase id
        completions := s.completions ++ [s.completion id len] }
    else none
  | _, _ => none

/-- The loop of `init`: all buffers are given to the device. -/
def postAll (buf : ℕ) (vq : Virtq) : Virtq :=
  (range rxBufCount).foldl (fun vq i => ((vq.writeDesc i (rxDesc buf i)).pushAvail i).2) vq

def Rx.init (buf queueSize : ℕ) (mem : ℕ → UInt8) : Rx :=
  ⟨postAll buf (.setup queueSize), mem, .idle, 0, [], [], []⟩

/-- The card is ready: its queue has a power of two of slots, at least eight, and anything is in memory. -/
def Rx.Ready (buf : ℕ) (s : Rx) : Prop := ∃ k mem, 3 ≤ k ∧ k < 16 ∧ s = .init buf (2 ^ k) mem

/-- All runs of the driver and the device. -/
def rxRuns (buf : ℕ) : System Rx := System.ofOps (Rx.Ready buf) (Rx.perform buf)

/-! ### What is to hold -/

/-- The descriptors that wait in the ring for the device. -/
def Rx.waiting (s : Rx) : List ℕ := s.vq.avail.pending 16 s.vq.queueSize s.seen

/-- The entries that the device has given back and `recv` has not taken. -/
def Rx.untaken (s : Rx) : List (ℕ × ℕ) := s.vq.used.pending 16 s.vq.queueSize s.vq.lastUsedIdx

/-- The buffer that `recv` works on. -/
def RxPlace.held : RxPlace → List ℕ
  | .idle => []
  | .took id _ _ | .copied id | .described id => [id]

/-- The frame without the header. -/
def Completion.payload (c : Completion) : List UInt8 := (c.contents.take (min c.len rxBufStride)).drop netHdrLen

/-- A frame is returned, cut to the caller's buffer, and read from its own buffer. -/
structure Delivers (buf : ℕ) (c : Completion) (r : Received) : Prop where
  bytes : r.bytes = c.payload.take r.outLen
  low : buf + c.id * rxBufStride ≤ r.start
  high : r.start + r.bytes.length ≤ buf + (c.id + 1) * rxBufStride

/-! ### Windows of memory -/

theorem take_window (k : ℕ) : (window mem start len).take k = window mem start (min k len) := by
  refine ext_getElem (by rw [length_take, length_window, length_window]) fun i inside inside' => ?_
  rw [getElem_take, getElem_window, getElem_window]

theorem drop_window (k : ℕ) : (window mem start len).drop k = window mem (start + k) (len - k) := by
  refine ext_getElem (by rw [length_drop, length_window, length_window]) fun i inside inside' => ?_
  rw [getElem_drop, getElem_window, getElem_window, Nat.add_assoc]

theorem window_update {addr : ℕ} (byte : UInt8) (outside : addr < start ∨ start + len ≤ addr) :
    window (update mem addr byte) start len = window mem start len := by
  refine ext_getElem (by rw [length_window, length_window]) fun i inside inside' => ?_
  rw [length_window] at inside
  rw [getElem_window, getElem_window, update_of_ne (by omega)]

/-! ### Owners -/

/-- **Every buffer has one owner**: it waits in the ring, the device has it, it is given back, or `recv` has
it. -/
def Owners (waiting fetched done held : List ℕ) : Prop :=
  (waiting ++ fetched ++ done ++ held).Perm (range rxBufCount)

section Owners

variable {waiting held : List ℕ}

theorem owners_iff : Owners waiting fetched done held ↔
    ∀ i : ℕ, waiting.count i + fetched.count i + done.count i + held.count i = (range rxBufCount).count i := by
  rw [Owners, perm_iff_count]
  simp only [count_append]

theorem Owners.fetch (owners : Owners (id :: waiting) fetched done held) :
    Owners waiting (fetched ++ [id]) done held := by
  refine owners_iff.mpr fun i => ?_
  have count := owners_iff.mp owners i
  rw [count_cons] at count
  rw [count_append, count_singleton]
  omega

section

variable (owners : Owners waiting fetched done held)
include owners

theorem Owners.complete (has : id ∈ fetched) : Owners waiting (fetched.erase id) (done ++ [id]) held := by
  refine owners_iff.mpr fun i => ?_
  have count := owners_iff.mp owners i
  rw [(perm_cons_erase has).count_eq i, count_cons] at count
  rw [count_append, count_singleton]
  omega

omit owners in
theorem Owners.take (owners : Owners waiting fetched (id :: done) []) : Owners waiting fetched done [id] := by
  refine owners_iff.mpr fun i => ?_
  have count := owners_iff.mp owners i
  rw [count_cons, count_nil] at count
  rw [count_singleton]
  omega

omit owners in
theorem Owners.push (owners : Owners waiting fetched done [id]) : Owners (waiting ++ [id]) fetched done [] := by
  refine owners_iff.mpr fun i => ?_
  have count := owners_iff.mp owners i
  rw [count_singleton] at count
  rw [count_append, count_singleton, count_nil]
  omega

theorem Owners.total : waiting.length + fetched.length + done.length + held.length = rxBufCount := by
  have length := owners.length_eq
  rw [length_append, length_append, length_append, length_range] at length
  exact length

theorem Owners.known (isDone : id ∈ done) : id < rxBufCount :=
  mem_range.mp (owners.mem_iff.mp (mem_append_left _ (mem_append_right _ isDone)))

/-- Nobody else has a buffer that the device has. -/
theorem Owners.alone (has : id ∈ fetched) : id < rxBufCount ∧ id ∉ done ∧ id ∉ held := by
  have one : (range rxBufCount).count id ≤ 1 := nodup_iff_count_le_one.mp nodup_range id
  have mine : 0 < fetched.count id := count_pos_iff.mpr has
  have count := owners_iff.mp owners id
  refine ⟨mem_range.mp (count_pos_iff.mp (by omega)), fun other => ?_, fun other => ?_⟩
  · have theirs := count_pos_iff.mpr other
    omega
  · have theirs := count_pos_iff.mpr other
    omega

end

end Owners

/-! ### The invariant -/

/-- What the device puts into the ring. -/
def Completion.entry (c : Completion) : ℕ × ℕ := (c.id, c.len)

/-- How many entries `recv` has taken: those it has returned, and the one it works on. -/
inductive Current (buf : ℕ) (completions : List Completion) (count t : ℕ) (mem : ℕ → UInt8) : RxPlace → Prop
  | took {outLen : ℕ} {c : Completion} (first : completions[count]? = some c) (taken : t = count + 1)
      (contents : window mem (buf + c.id * rxBufStride) rxBufStride = c.contents) :
      Current buf completions count t mem (.took c.id c.len outLen)
  | between {place : RxPlace} (other : ∀ id len outLen, place ≠ .took id len outLen) (taken : t = count) :
      Current buf completions count t mem place

section Current

variable {completions : List Completion} {place : RxPlace}

variable (current : Current buf completions count t mem place)
include current

theorem Current.grow (c : Completion) : Current buf (completions ++ [c]) count t mem place := by
  cases current with
  | took first taken contents =>
    refine .took ?_ taken contents
    rw [List.getElem?_append_left (List.getElem?_eq_some_iff.mp first).1]
    exact first
  | between other taken => exact .between other taken

theorem Current.rewrite
    (same : ∀ j ∈ place.held, window mem' (buf + j * rxBufStride) rxBufStride =
      window mem (buf + j * rxBufStride) rxBufStride) : Current buf completions count t mem' place := by
  cases current with
  | took first taken contents => exact .took first taken ((same _ mem_cons_self).trans contents)
  | between other taken => exact .between other taken

theorem Current.le : count ≤ t := by
  cases current with
  | took first taken contents => omega
  | between other taken => omega

end Current

/-- Of the descriptors given to the device, `posts` in order, the device has fetched `a`; of the frames given
back `recv` has taken `t`. -/
structure Balanced (buf size : ℕ) (posts : List ℕ) (a t : ℕ) (s : Rx) : Prop where
  divides : size ∣ 2 ^ 16
  small : size < 2 ^ 16
  enough : rxBufCount ≤ size
  queueSize : s.vq.queueSize = size
  avail : Carries 16 size s.vq.avail posts a
  seen : s.seen = a % 2 ^ 16
  used : Carries 16 size s.vq.used (s.completions.map Completion.entry) t
  last : s.vq.lastUsedIdx = t % 2 ^ 16
  owners : Owners (posts.drop a) s.fetched ((s.completions.drop t).map Completion.id) s.place.held
  descs : ∀ i < rxBufCount, s.vq.desc i = rxDesc buf i
  contents : ∀ c ∈ s.completions.drop t, window s.mem (buf + c.id * rxBufStride) rxBufStride = c.contents
  received : List.Forall₂ (Delivers buf) (s.completions.take s.received.length) s.received
  current : Current buf s.completions s.received.length t s.mem s.place

/-! ### Steps -/

section

variable {op : RxOp} {s s' : Rx}

/-! ### The device's steps -/

section

variable (good : Balanced buf size posts a t s)
include good

theorem Balanced.fetch (next : s.vq.nextAvail s.seen = some head) : Balanced buf size posts (a + 1) t
      { s with seen := (s.seen + 1) % 2 ^ 16, fetched := s.fetched ++ [head] } := by
  rw [Virtq.nextAvail, good.queueSize, good.seen, good.avail.peek good.divides good.small] at next
  obtain ⟨more, isHead⟩ := List.getElem?_eq_some_iff.mp next
  have owners := good.owners
  rw [drop_eq_getElem_cons more, isHead] at owners
  exact { good with
    avail := good.avail.next more
    seen := by rw [good.seen, Nat.mod_add_mod]
    owners := owners.fetch }

theorem Balanced.fill (has : id ∈ s.fetched) (inside : offset < (s.vq.desc id).len) (byte : UInt8) :
    Balanced buf size posts a t { s with mem := update s.mem ((s.vq.desc id).addr + offset) byte } := by
  obtain ⟨known, untaken, unheld⟩ := good.owners.alone has
  have outside {j : ℕ} (other : id ≠ j) :
      window (update s.mem ((s.vq.desc id).addr + offset) byte) (buf + j * rxBufStride) rxBufStride =
        window s.mem (buf + j * rxBufStride) rxBufStride := by
    refine window_update byte ?_
    rw [good.descs id known] at inside ⊢
    simp only [rxDesc, rxBufStride] at inside ⊢
    omega
  refine { good with contents := fun c member => ?_, current := ?_ }
  · rw [outside fun same => untaken (mem_map.mpr ⟨c, member, same.symm⟩)]
    exact good.contents c member
  · exact good.current.rewrite fun j member => outside fun same => unheld (same ▸ member)

theorem Balanced.complete (has : id ∈ s.fetched) (len : ℕ) : Balanced buf size posts a t { s with
      vq := s.vq.pushUsed (id, len)
      fetched := s.fetched.erase id
      completions := s.completions ++ [s.completion id len] } := by
  obtain ⟨known, -, -⟩ := good.owners.alone has
  have total := good.owners.total
  have positive := length_pos_of_mem has
  have enough := good.enough
  have taken := good.used.taken
  rw [length_map] at taken
  simp only [length_map, length_drop] at total
  have same : s.completion id len = ⟨id, len, window s.mem (buf + id * rxBufStride) rxBufStride⟩ := by
    rw [Rx.completion, good.descs id known, rxDesc]
  have later : (s.completions ++ [s.completion id len]).drop t =
      s.completions.drop t ++ [s.completion id len] := drop_append_of_le_length taken
  have pushed := good.used.push good.divides (by rw [length_map]; omega) (id, len)
  refine { good with
    used := ?_, owners := ?_, contents := fun c member => ?_, received := ?_, current := good.current.grow _ }
  · rw [map_append]
    exact good.queueSize ▸ pushed
  · show Owners _ _ (((s.completions ++ [s.completion id len]).drop t).map Completion.id) _
    rw [later, map_append]
    exact good.owners.complete has
  · rcases mem_append.mp (later ▸ member) with before | new
    · exact good.contents c before
    · rw [mem_singleton.mp new, same]
  · show Forall₂ _ ((s.completions ++ [s.completion id len]).take s.received.length) _
    rw [take_append_of_le_length (Nat.le_trans good.current.le taken)]
    exact good.received

/-! ### The driver's steps -/

/-- **`recv` takes the next frame**, if there is one. -/
theorem Balanced.recv (here : s.place = .idle) (outLen : ℕ) : s.perform buf (.recv outLen) =
    some ((s.completions[t]?).elim s fun c => { s with
      vq := { s.vq with lastUsedIdx := (t + 1) % 2 ^ 16 }
      place := .took c.id c.len outLen }) := by
  have peeked : s.vq.used.peek s.vq.queueSize s.vq.lastUsedIdx = (s.completions.map Completion.entry)[t]? := by
    rw [good.queueSize, good.last, good.used.peek good.divides good.small]
  have taken : s.vq.takeUsed = (s.completions[t]?).map fun c =>
      (c.entry, { s.vq with lastUsedIdx := (t + 1) % 2 ^ 16 }) := by
    rw [Virtq.takeUsed, peeked, good.last, getElem?_map, Option.map_map, Nat.mod_add_mod]
    rfl
  unfold Rx.perform
  rw [here, taken]
  cases first : s.completions[t]? with
  | none => rfl
  | some c =>
    obtain ⟨more, isNext⟩ := List.getElem?_eq_some_iff.mp first
    have untaken : c ∈ s.completions.drop t := by
      rw [drop_eq_getElem_cons more, isNext]
      exact mem_cons_self
    exact congrArg some (if_neg (Nat.not_le.mpr (good.owners.known (mem_map_of_mem untaken))))

theorem Balanced.take (here : s.place = .idle) {c : Completion} (first : s.completions[t]? = some c)
    (outLen : ℕ) : Balanced buf size posts a (t + 1) { s with
        vq := { s.vq with lastUsedIdx := (t + 1) % 2 ^ 16 }
        place := .took c.id c.len outLen } := by
  obtain ⟨more, isNext⟩ := List.getElem?_eq_some_iff.mp first
  have split : s.completions.drop t = c :: s.completions.drop (t + 1) := by
    rw [drop_eq_getElem_cons more, isNext]
  have owners := good.owners
  have contents := good.contents
  have current := good.current
  rw [split, here] at owners
  rw [split] at contents
  rw [here] at current
  cases current with
  | between _ taken =>
    refine { good with
      used := good.used.next (by rw [length_map]; exact more)
      last := rfl
      owners := owners.take
      contents := fun later member => contents later (mem_cons_of_mem _ member)
      current := .took (taken ▸ first) (by rw [taken]) (contents c mem_cons_self) }

end

/-- **What `recv` copies** from a buffer that is as the device has left it. -/
theorem delivers_of_contents {c : Completion}
    (contents : window mem (buf + c.id * rxBufStride) rxBufStride = c.contents) (outLen : ℕ) :
    Delivers buf c ⟨outLen, buf + (c.id * rxBufStride + netHdrLen), window mem
      (buf + (c.id * rxBufStride + netHdrLen)) (min (min c.len rxBufStride - netHdrLen) outLen)⟩ where
  bytes := by
    rw [Completion.payload, ← contents, take_window, drop_window, take_window, Nat.min_assoc, Nat.min_self,
      Nat.min_comm outLen, Nat.add_assoc]
  low := Nat.add_le_add_left (Nat.le_add_right _ _) buf
  high := by
    rw [length_window]
    simp only [rxBufStride, netHdrLen]
    omega

variable (good : Balanced buf size posts a t s)
include good

theorem Balanced.copy (here : s.place = .took id len outLen) : Balanced buf size posts a t { s with
      received := s.received ++ [⟨outLen, buf + (id * rxBufStride + netHdrLen),
        window s.mem (buf + (id * rxBufStride + netHdrLen)) (min (min len rxBufStride - netHdrLen) outLen)⟩]
      place := .copied id } := by
  have current := good.current
  have owners := good.owners
  rw [here] at current owners
  cases current with
  | between other _ => exact absurd rfl (other _ _ _)
  | @took _ c first taken contents =>
    obtain ⟨more, isNext⟩ := List.getElem?_eq_some_iff.mp first
    refine { good with owners := owners, received := ?_, current := .between ?_ ?_ }
    · rw [length_append, length_singleton, take_succ_eq_append_getElem more, isNext]
      exact rel_append good.received (.cons (delivers_of_contents contents outLen) .nil)
    · intro _ _ _ wrong
      cases wrong
    · rw [length_append, length_singleton, taken]

theorem Balanced.describe (here : s.place = .copied id) :
    Balanced buf size posts a t { s with vq := s.vq.writeDesc id (rxDesc buf id), place := .described id } := by
  have current := good.current
  have owners := good.owners
  rw [here] at current owners
  cases current with
  | between _ taken =>
    refine { good with descs := fun i known => ?_, owners := owners, current := .between ?_ taken }
    · by_cases same : i = id
      · rw [same]
        exact Virtq.desc_writeDesc id _ _
      · show update s.vq.desc id _ i = _
        rw [update_of_ne same]
        exact good.descs i known
    · intro _ _ _ wrong
      cases wrong

theorem Balanced.push (here : s.place = .described id) :
    Balanced buf size (posts ++ [id]) a t { s with vq := (s.vq.pushAvail id).2, place := .idle } := by
  have current := good.current
  have owners := good.owners
  rw [here] at current owners
  have total := owners.total
  have fetched := good.avail.taken
  have enough := good.enough
  simp only [length_drop, RxPlace.held, length_singleton] at total
  have later : (posts ++ [id]).drop a = posts.drop a ++ [id] := drop_append_of_le_length fetched
  cases current with
  | between _ taken =>
    refine { good with
      avail := good.queueSize ▸ good.avail.push good.divides (by omega) id
      owners := ?_
      current := .between ?_ taken }
    · rw [later]
      exact owners.push
    · intro _ _ _ wrong
      cases wrong

/-- **One step**, of the driver or of the device. -/
theorem Balanced.perform (performed : s.perform buf op = some s') :
    ∃ posts a t, Balanced buf size posts a t s' := by
  have called := performed
  unfold Rx.perform at performed
  split at performed
  · rename_i outLen here
    rw [good.recv here, some.injEq] at called
    rw [← called]
    cases first : s.completions[t]? with
    | none => exact ⟨_, _, _, good⟩
    | some c => exact ⟨_, _, _, good.take here first outLen⟩
  · rename_i id len outLen here
    exact some.inj performed ▸ ⟨_, _, _, good.copy here⟩
  · rename_i id here
    exact some.inj performed ▸ ⟨_, _, _, good.describe here⟩
  · rename_i id here
    exact some.inj performed ▸ ⟨_, _, _, good.push here⟩
  · obtain ⟨head, next, rfl⟩ := map_eq_some_iff.mp performed
    exact ⟨_, _, _, good.fetch next⟩
  · split at performed
    · rename_i allowed
      exact some.inj performed ▸ ⟨_, _, _, good.fill allowed.1 allowed.2 _⟩
    · cases performed
  · split at performed
    · rename_i has
      exact some.inj performed ▸ ⟨_, _, _, good.complete has _⟩
    · cases performed
  · cases performed

end

/-! ### The start -/

/-- The first `n` buffers are given to the device. -/
structure Posted (buf size n : ℕ) (vq : Virtq) : Prop where
  queueSize : vq.queueSize = size
  avail : Carries 16 size vq.avail (range n) 0
  used : Carries 16 size vq.used [] 0
  last : vq.lastUsedIdx = 0
  descs : ∀ i < n, vq.desc i = rxDesc buf i

theorem Posted.next {n : ℕ} (posted : Posted buf size n vq) (divides : size ∣ 2 ^ 16)
    (room : n < size) : Posted buf size (n + 1) ((vq.writeDesc n (rxDesc buf n)).pushAvail n).2 where
  queueSize := posted.queueSize
  avail := by
    rw [range_succ]
    exact posted.queueSize ▸ posted.avail.push divides (by rw [length_range]; omega) n
  used := posted.used
  last := posted.last
  descs := by
    intro i inside
    show update vq.desc n _ i = _
    by_cases same : i = n
    · rw [same, update_self]
    · rw [update_of_ne same]
      exact posted.descs i (by omega)

theorem posted_postAll (buf : ℕ) (divides : size ∣ 2 ^ 16) (enough : rxBufCount ≤ size) :
    Posted buf size rxBufCount (postAll buf (.setup size)) := by
  have first (n : ℕ) (few : n ≤ rxBufCount) : Posted buf size n ((range n).foldl
      (fun vq i => ((vq.writeDesc i (rxDesc buf i)).pushAvail i).2) (.setup size)) := by
    induction n with
    | zero =>
      exact ⟨rfl, carries_nil _ _ _, carries_nil _ _ _, rfl, fun i wrong => absurd wrong (Nat.not_lt_zero i)⟩
    | succ n ih =>
      rw [range_succ, foldl_append]
      exact (ih (Nat.le_of_succ_le few)).next divides (Nat.lt_of_lt_of_le few enough)
  exact first rxBufCount (Nat.le_refl _)

theorem balanced_init (buf : ℕ) (divides : size ∣ 2 ^ 16) (small : size < 2 ^ 16) (enough : rxBufCount ≤ size)
    (mem : ℕ → UInt8) :
    Balanced buf size (range rxBufCount) 0 0 (.init buf size mem) := by
  have posted := posted_postAll buf divides enough
  refine ⟨divides, small, enough, posted.queueSize, posted.avail, rfl, posted.used, posted.last, ?_, posted.descs,
    ?_, .nil, .between ?_ rfl⟩
  · exact perm_append_comm.trans (.refl _)
  · intro c member
    cases member
  · intro _ _ _ wrong
    cases wrong

/-! ### The result -/

theorem Balanced.waiting {s : Rx} (good : Balanced buf size posts a t s) : s.waiting = posts.drop a := by
  rw [Rx.waiting, good.queueSize, good.seen, good.avail.pending good.divides good.small]

theorem Balanced.untaken {s : Rx} (good : Balanced buf size posts a t s) :
    s.untaken = (s.completions.drop t).map Completion.entry := by
  rw [Rx.untaken, good.queueSize, good.last, good.used.pending good.divides good.small, map_drop]

/-- **Every reached state is balanced.** -/
theorem balanced_of_reached {s : Rx} (reached : (rxRuns buf).Reached s) :
    ∃ size posts a t, Balanced buf size posts a t s := by
  induction reached with
  | start first =>
    obtain ⟨k, mem, low, high, rfl⟩ := first
    exact ⟨2 ^ k, _, _, _, balanced_init buf (Nat.pow_dvd_pow 2 (Nat.le_of_lt high))
      (Nat.pow_lt_pow_right (by decide) high) (Nat.pow_le_pow_right (by decide) low : 2 ^ 3 ≤ 2 ^ k) mem⟩
  | step before next ih =>
    obtain ⟨size, posts, a, t, good⟩ := ih
    obtain ⟨op, performed⟩ := next
    exact ⟨size, good.perform performed⟩

/-- **Buffers and frames are conserved.** Every buffer has one owner; `recv` has returned the frames in the
order in which they were given back, and a call of it takes the next one. -/
theorem receive_conserves (buf : ℕ) {s : Rx} (reached : (rxRuns buf).Reached s) :
    Owners s.waiting s.fetched (s.untaken.map Prod.fst) s.place.held ∧
      List.Forall₂ (Delivers buf) (s.completions.take s.received.length) s.received ∧
      (s.place = .idle → s.untaken = (s.completions.drop s.received.length).map Completion.entry ∧
        ∀ outLen, (s.perform buf (.recv outLen)).map (fun s' => (s'.place, s'.untaken)) =
          some (s.untaken.head?.elim .idle fun e => .took e.1 e.2 outLen, s.untaken.tail)) := by
  obtain ⟨size, posts, a, t, good⟩ := balanced_of_reached reached
  have untaken := good.untaken
  refine ⟨?_, good.received, fun here => ?_⟩
  · rw [good.waiting, untaken, List.map_map]
    exact good.owners
  · have current := good.current
    rw [here] at current
    cases current with
    | between _ taken =>
      refine ⟨taken ▸ untaken, fun outLen => ?_⟩
      rw [good.recv here, untaken, ← map_tail, tail_drop, head?_map, head?_drop]
      cases first : s.completions[t]? with
      | none =>
        have past := List.getElem?_eq_none_iff.mp first
        rw [drop_eq_nil_of_le past] at untaken
        rw [drop_eq_nil_of_le (Nat.le_succ_of_le past)]
        exact congrArg some (Prod.ext here untaken)
      | some c => exact congrArg some (Prod.ext rfl (good.take here first outLen).untaken)

/-- A frame of one byte goes through the first buffer. -/
theorem receive_conserves_one : ∃ s, (rxRuns 0).Reached s ∧ s.received.map Received.bytes = [[7]] ∧
    Owners s.waiting s.fetched (s.untaken.map Prod.fst) s.place.held := by
  have start : (rxRuns 0).Reached (.init 0 8 fun _ => 0) := .start ⟨3, fun _ => 0, by decide, by decide, rfl⟩
  obtain ⟨t, run, received⟩ : ∃ t, replay (Rx.perform 0)
      [.fetch, .fill 0 10 7, .complete 0 11, .recv 5, .copy, .describe, .push] (.init 0 8 fun _ => 0) = some t ∧
        t.received.map Received.bytes = [[7]] := ⟨_, rfl, rfl⟩
  exact ⟨t, start.replay run, received, (receive_conserves 0 (start.replay run)).1⟩

end Ferros.Drivers
