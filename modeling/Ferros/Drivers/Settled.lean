/-
**Sends that wait for the ones before.**

If no send begins before the device has given back every descriptor, there is never more than one entry in the
ring that the device has not read, and the buffer holds its frame until it does.

* `Rings`, `Deliveries`, `Placed` — the counters of the two rings, the sends that the entries belong to, and
  where `send` is; `Account` — all three.
* `sent_exactly_once` — over all such runs.
-/

import Ferros.Drivers.Transmit
import Mathlib.Data.List.Nodup

namespace Ferros.Drivers

open Lib List Option Function

variable {buf t u n d seen owed count head len spins target : ℕ} {s s' : Tx} {entries rest : List ℕ}
  {vq vq' : Virtq} {sends wire : List (List UInt8)} {results : List Bool} {frame : List UInt8} {mem : ℕ → UInt8}
  {elem : ℕ × ℕ}

/-- A send begins only if the device has answered all sends before it. -/
def settled (op : TxOp) (s : Tx) : Bool :=
  match op with
  | .send _ => s.vq.used.idx = s.vq.avail.idx
  | _ => true

/-! ### The rings -/

/-- Of `n` entries the device has read `d` and answered `u`, and the driver has seen `t` of the answers. -/
structure Rings (n d u t : ℕ) (vq : Virtq) (seen owed : ℕ) : Prop where
  avail : vq.avail.idx = n % 2 ^ 16
  heads : ∀ i : ℕ, vq.avail.slots i = 0
  seen : seen = d % 2 ^ 16
  used : vq.used.idx = u % 2 ^ 16
  last : vq.lastUsedIdx = t % 2 ^ 16
  owed : u + owed = d
  taken : t ≤ u
  read : d ≤ n
  single : n ≤ u + 1
  near : n ≤ t + 2

section Rings

section

variable (rings : Rings n d u t vq seen owed)
include rings

theorem Rings.push (answered : n = u) (near : n ≤ t + 1) :
    Rings (n + 1) d u t (vq.pushAvail 0).2 seen owed := by
  refine { rings with
    avail := ?_, heads := fun i => ?_, read := Nat.le_succ_of_le rings.read, single := ?_, near := ?_ }
  · show (vq.avail.idx + 1) % 2 ^ 16 = _
    rw [rings.avail, Nat.mod_add_mod]
  · show update vq.avail.slots (vq.avail.idx % vq.queueSize) 0 i = 0
    rw [update_apply]
    split
    · rfl
    · exact rings.heads i
  · omega
  · omega

/-- The device finds an entry exactly if there is one. -/
theorem Rings.next (found : vq.nextAvail seen = some head) : d < n ∧ head = 0 := by
  obtain ⟨more, isHead⟩ := Ring.peek_eq_some found
  refine ⟨Nat.lt_of_le_of_ne rings.read fun all => more ?_, isHead.symm.trans (rings.heads _)⟩
  rw [rings.avail, rings.seen, all]

theorem Rings.consume (more : d < n) : Rings n (d + 1) u t vq ((seen + 1) % 2 ^ 16) (owed + 1) :=
  { rings with
    seen := by rw [rings.seen, Nat.mod_add_mod]
    owed := by rw [← Nat.add_assoc, rings.owed]
    read := more }

omit rings in
theorem Rings.complete (rings : Rings n d u t vq seen (owed + 1)) (elem : ℕ × ℕ) :
    Rings n d (u + 1) t (vq.pushUsed elem) seen owed :=
  { rings with
    used := by
      show (vq.used.idx + 1) % 2 ^ 16 = _
      rw [rings.used, Nat.mod_add_mod]
    owed := by
      have owed := rings.owed
      omega
    taken := Nat.le_succ_of_le rings.taken
    single := Nat.le_succ_of_le rings.single }

theorem Rings.drain (found : vq.takeUsed = some (elem, vq')) :
    Rings n d u (t + 1) vq' seen owed := by
  obtain ⟨elem, peeked, same⟩ := map_eq_some_iff.mp found
  obtain ⟨more, -⟩ := Ring.peek_eq_some peeked
  have behind : t < u := by
    refine Nat.lt_of_le_of_ne rings.taken fun all => more ?_
    rw [rings.used, rings.last, all]
  cases same
  exact { rings with
    last := by rw [rings.last, Nat.mod_add_mod]
    taken := behind
    near := Nat.le_succ_of_le rings.near }

theorem Rings.drained (nothing : vq.takeUsed = none) : u = t := by
  have same := Ring.peek_eq_none.mp (map_eq_none_iff.mp nothing)
  have bound := rings.owed
  have read := rings.read
  have near := rings.near
  rw [rings.used, rings.last] at same
  exact (mod_eq_mod_iff rings.taken (by omega)).mp same

end

end Rings

/-! ### The frames -/

/-- The entries belong to these sends. What the device would read now is `next`. -/
structure Deliveries (entries : List ℕ) (sends : List (List UInt8)) (results : List Bool)
    (wire : List (List UInt8)) (next : List UInt8) : Prop where
  nodup : entries.Nodup
  known : ∀ i ∈ entries, i < sends.length
  carried : wire.map some = (entries.take wire.length).map (sends[·]?)
  returned : ∀ i : ℕ, results[i]? = some true → i ∈ entries.take wire.length
  /-- The buffer holds the frame of an entry that the device has not read. -/
  buffer : ∀ i : ℕ, entries[wire.length]? = some i → sends[i]? = some next

section Deliveries

variable {next : List UInt8}

variable (good : Deliveries entries sends results wire next)
include good

theorem Deliveries.call (frame : List UInt8) : Deliveries entries (sends ++ [frame]) results wire next :=
  { good with
    known := fun i member => by
      rw [length_append]
      exact Nat.lt_add_right _ (good.known i member)
    carried := good.carried.trans (map_congr_left fun i member =>
      (getElem?_append_left (good.known i (mem_of_mem_take member))).symm)
    buffer := fun i outstanding => by
      rw [getElem?_append_left (good.known i (mem_of_getElem? outstanding))]
      exact good.buffer i outstanding }

/-- A call returns; if it returns `true`, the device has read its entry. -/
theorem Deliveries.returns {result : Bool} (delivered : result → results.length ∈ entries.take wire.length) :
    Deliveries entries sends (results ++ [result]) wire next := by
  refine { good with returned := fun i success => ?_ }
  by_cases last : i = results.length
  · rw [last, getElem?_concat_length] at success
    rw [last]
    exact delivered (some.inj success)
  · refine good.returned i (getElem?_append_left ?_ ▸ success)
    have bound := (List.getElem?_eq_some_iff.mp success).1
    rw [length_append, length_singleton] at bound
    omega

/-- While nothing is outstanding the buffer may change. -/
theorem Deliveries.rewrite (all : entries.length ≤ wire.length) (next' : List UInt8) :
    Deliveries entries sends results wire next' :=
  { good with
    buffer := fun i outstanding => by
      rw [getElem?_eq_none all] at outstanding
      cases outstanding }

theorem Deliveries.push (all : entries.length = wire.length) {i : ℕ} (new : i ∉ entries)
    (frame : sends[i]? = some next) : Deliveries (entries ++ [i]) sends results wire next where
  nodup := by
    refine nodup_append.mpr ⟨good.nodup, nodup_singleton i, fun j member k last => ?_⟩
    rw [mem_singleton.mp last]
    exact fun same => new (same ▸ member)
  known := by
    intro j member
    rcases mem_append.mp member with before | last
    · exact good.known j before
    · rw [mem_singleton.mp last]
      exact (List.getElem?_eq_some_iff.mp frame).1
  carried := by
    rw [take_append_of_le_length (Nat.le_of_eq all.symm)]
    exact good.carried
  returned := fun j success => by
    rw [take_append_of_le_length (Nat.le_of_eq all.symm)]
    exact good.returned j success
  buffer := fun j outstanding => by
    rw [← all, getElem?_concat_length] at outstanding
    rw [← some.inj outstanding]
    exact frame

theorem Deliveries.consume (single : entries.length = wire.length + 1) :
    Deliveries entries sends results (wire ++ [next]) next := by
  have more : wire.length < entries.length := by omega
  have outstanding := getElem?_eq_getElem more
  have longer : entries.take (wire ++ [next]).length = entries.take wire.length ++ [entries[wire.length]] := by
    rw [length_append, length_singleton, take_succ_eq_append_getElem more]
  refine { good with carried := ?_, returned := fun i success => ?_, buffer := fun i later => ?_ }
  · rw [longer, map_append, map_append, good.carried, map_singleton, map_singleton, good.buffer _ outstanding]
  · rw [longer]
    exact mem_append_left _ (good.returned i success)
  · rw [length_append, length_singleton, ← single, getElem?_eq_none (Nat.le_refl _)] at later
    cases later

end Deliveries

/-! ### The driver -/

/-- A call that has not pushed its entry yet: the device has answered all entries before. -/
structure Fresh (entries : List ℕ) (u t : ℕ) (sends : List (List UInt8)) (results : List Bool)
    (frame : List UInt8) : Prop where
  answered : entries.length = u
  near : entries.length ≤ t + 1
  calls : sends.length = results.length + 1
  frame : sends[results.length]? = some frame
  other : results.length ∉ entries

/-- Where `send` is. -/
inductive Placed (buf : ℕ) (entries : List ℕ) (u t : ℕ) (sends : List (List UInt8)) (results : List Bool)
    (mem : ℕ → UInt8) (next : List UInt8) : TxPlace → Prop
  | idle (near : entries.length ≤ t + 1) (calls : sends.length = results.length) :
      Placed buf entries u t sends results mem next .idle
  | writing {frame : List UInt8} {count : ℕ} (fresh : Fresh entries u t sends results frame)
      (bytes : ∀ (i : ℕ) (byte : UInt8), i < count → (packet frame)[i]? = some byte → mem (buf + i) = byte) :
      Placed buf entries u t sends results mem next (.writing frame count)
  | described (fresh : Fresh entries u t sends results next) :
      Placed buf entries u t sends results mem next .described
  | waiting {spins : ℕ} (mine : results.length ∈ entries) (calls : sends.length = results.length + 1) :
      Placed buf entries u t sends results mem next (.waiting (entries.length % 2 ^ 16) spins)

structure Account (buf : ℕ) (entries : List ℕ) (u t : ℕ) (s : Tx) : Prop where
  rings : Rings entries.length s.wire.length u t s.vq s.seen s.owed.length
  deliveries : Deliveries entries s.sends s.results s.wire (s.read (s.vq.desc 0))
  placed : Placed buf entries u t s.sends s.results s.mem (s.read (s.vq.desc 0)) s.place

section Steps

/-- A frame that fills the buffer is what the device reads. -/
theorem read_packet (bytes : ∀ (i : ℕ) (byte : UInt8), (packet frame)[i]? = some byte → mem (buf + i) = byte) :
    (window mem buf (netHdrLen + frame.length)).drop netHdrLen = frame := by
  have whole : window mem buf (netHdrLen + frame.length) = packet frame := by
    have length : (packet frame).length = netHdrLen + frame.length := by
      rw [packet, length_append, length_replicate]
    refine ext_getElem (by rw [length_window, length]) fun i inside inside' => ?_
    rw [getElem_window]
    exact bytes i _ (getElem?_eq_getElem inside')
  rw [whole, packet, drop_left' length_replicate]

section

variable (account : Account buf entries u t s)
include account

theorem Account.placedAt {place : TxPlace} (here : s.place = place) :
    Placed buf entries u t s.sends s.results s.mem (s.read (s.vq.desc 0)) place :=
  here ▸ account.placed

theorem Account.tooLong (here : s.place = .idle) :
    Account buf entries u t ({ s with sends := s.sends ++ [frame] }.returns false) := by
  cases account.placedAt here with
  | idle near calls =>
    have same : (s.sends ++ [frame]).length = (s.results ++ [false]).length := by
      rw [length_append, length_append, calls, length_singleton, length_singleton]
    exact ⟨account.rings, (account.deliveries.call frame).returns fun wrong => Bool.noConfusion wrong,
      .idle near same⟩

/-- **A call begins**: by the condition every entry is answered. -/
theorem Account.send (here : s.place = .idle) (calm : s.vq.used.idx = s.vq.avail.idx) :
    Account buf entries u t { s with sends := s.sends ++ [frame], place := .writing frame 0 } := by
  cases account.placedAt here with
  | idle near calls =>
    have rings := account.rings
    have answered : entries.length = u := by
      have owed := rings.owed
      have read := rings.read
      have single := rings.single
      rw [rings.used, rings.avail] at calm
      exact (mod_eq_mod_iff (by omega) (by omega)).mp calm.symm
    refine ⟨rings, account.deliveries.call frame, .writing ⟨answered, near, ?_, ?_, ?_⟩ ?_⟩
    · rw [length_append, length_singleton, calls]
    · rw [← calls, getElem?_concat_length]
    · exact fun member => Nat.lt_irrefl _ (calls ▸ account.deliveries.known _ member)
    · exact fun i byte wrong => absurd wrong (Nat.not_lt_zero i)

theorem Account.write {byte : UInt8} (here : s.place = .writing frame count)
    (next : (packet frame)[count]? = some byte) : Account buf entries u t
      { s with mem := update s.mem (buf + count) byte, place := .writing frame (count + 1) } := by
  cases account.placedAt here with
  | writing fresh bytes =>
    have owed := account.rings.owed
    have answered := fresh.answered
    refine ⟨account.rings, account.deliveries.rewrite (by omega) _,
      .writing fresh fun i other before found => ?_⟩
    show update s.mem (buf + count) byte (buf + i) = other
    by_cases last : i = count
    · subst last
      rw [update_self]
      exact some.inj (next.symm.trans found)
    · rw [update_of_ne (by omega)]
      exact bytes i other (by omega) found

theorem Account.describe (here : s.place = .writing frame (packet frame).length) : Account buf entries u t
      { s with vq := s.vq.writeDesc 0 ⟨buf, netHdrLen + frame.length, 0, 0⟩, place := .described } := by
  cases account.placedAt here with
  | writing fresh bytes =>
    have owed := account.rings.owed
    have answered := fresh.answered
    have ready := @read_packet buf frame s.mem fun i byte found =>
      bytes i byte (List.getElem?_eq_some_iff.mp found).1 found
    refine ⟨{ account.rings with }, account.deliveries.rewrite (by omega) _, .described ?_⟩
    have reads : Tx.read ((s.vq.writeDesc 0 ⟨buf, netHdrLen + frame.length, 0, 0⟩).desc 0) s = frame := by
      rw [Virtq.desc_writeDesc]
      exact ready
    exact reads.symm ▸ fresh

theorem Account.push (here : s.place = .described) : Account buf (entries ++ [s.results.length]) u t
      { s with vq := (s.vq.pushAvail 0).2, place := .waiting (s.vq.pushAvail 0).1 0 } := by
  cases account.placedAt here with
  | described fresh =>
    have owed := account.rings.owed
    have read := account.rings.read
    have answered := fresh.answered
    have rings := account.rings.push answered fresh.near
    have length : (entries ++ [s.results.length]).length = entries.length + 1 := by
      rw [length_append, length_singleton]
    have target : (s.vq.pushAvail 0).1 = (entries ++ [s.results.length]).length % 2 ^ 16 := by
      rw [length, ← rings.avail]
      rfl
    refine ⟨length ▸ rings, account.deliveries.push (by omega) fresh.other fresh.frame, ?_⟩
    rw [target]
    exact .waiting (mem_append_right _ mem_cons_self) fresh.calls

end

section

variable (account : Account buf entries u t s) (here : s.place = .waiting target spins)
include account here

/-- **A call returns `true`** only after the device has read its entry. -/
theorem Account.finish (done : s.vq.lastUsedIdx = target) : Account buf entries u t (s.returns true) := by
  have rings := account.rings
  cases account.placedAt here with
  | waiting mine calls =>
    have owed := rings.owed
    have read := rings.read
    have taken := rings.taken
    have near := rings.near
    rw [rings.last] at done
    have all : entries.length = t := (mod_eq_mod_iff (by omega) (by omega)).mp done.symm
    have same : s.sends.length = (s.results ++ [true]).length := by
      rw [length_append, length_singleton, calls]
    refine ⟨rings, account.deliveries.returns fun _ => ?_, .idle (by omega) same⟩
    rw [take_of_length_le (by omega)]
    exact mine

theorem Account.drain (taken : s.vq.takeUsed = some (elem, vq)) :
    Account buf entries u (t + 1) { s with vq } := by
  have rings := account.rings.drain taken
  obtain ⟨found, -, same⟩ := map_eq_some_iff.mp taken
  cases same
  cases account.placedAt here with
  | waiting mine calls =>
    refine ⟨rings, account.deliveries, ?_⟩
    rw [here]
    exact .waiting mine calls

theorem Account.giveUp (nothing : s.vq.takeUsed = none) : Account buf entries u t (s.returns false) := by
  have rings := account.rings
  cases account.placedAt here with
  | waiting mine calls =>
    have seen := rings.drained nothing
    have single := rings.single
    have same : s.sends.length = (s.results ++ [false]).length := by
      rw [length_append, length_singleton, calls]
    exact ⟨rings, account.deliveries.returns fun wrong => Bool.noConfusion wrong, .idle (by omega) same⟩

theorem Account.spin : Account buf entries u t { s with place := .waiting target (spins + 1) } := by
  cases account.placedAt here with
  | waiting mine calls => exact ⟨account.rings, account.deliveries, .waiting mine calls⟩

end

/-- **The device reads an entry**: the buffer still holds its frame. -/
theorem Account.consume (account : Account buf entries u t s)
    (next : s.vq.nextAvail s.seen = some head) : Account buf entries u t { s with
      seen := (s.seen + 1) % 2 ^ 16
      owed := s.owed ++ [head]
      wire := s.wire ++ [s.read (s.vq.desc head)] } := by
  obtain ⟨more, rfl⟩ := account.rings.next next
  have owed := account.rings.owed
  have single := account.rings.single
  have rings := account.rings.consume more
  have wires : (s.wire ++ [s.read (s.vq.desc 0)]).length = s.wire.length + 1 := by
    rw [length_append, length_singleton]
  have owes : (s.owed ++ [0]).length = s.owed.length + 1 := by rw [length_append, length_singleton]
  refine ⟨?_, account.deliveries.consume (by omega), account.placed⟩
  rw [← wires, ← owes] at rings
  exact rings

/-- An answer comes only if something was not answered. -/
theorem Placed.answer {next : List UInt8} {place : TxPlace}
    (placed : Placed buf entries u t sends results mem next place) (waiting : u < entries.length) :
    Placed buf entries (u + 1) t sends results mem next place := by
  cases placed with
  | idle near calls => exact .idle near calls
  | waiting mine calls => exact .waiting mine calls
  | writing fresh _ => exact absurd fresh.answered (Nat.ne_of_gt waiting)
  | described fresh => exact absurd fresh.answered (Nat.ne_of_gt waiting)

theorem Account.complete (account : Account buf entries u t s) (owed : s.owed = head :: rest) :
    Account buf entries (u + 1) t { s with vq := s.vq.pushUsed (head, len), owed := rest } := by
  have rings := account.rings
  rw [owed, length_cons] at rings
  have total := rings.owed
  have read := rings.read
  exact ⟨rings.complete _, account.deliveries, account.placed.answer (by omega)⟩

theorem Account.perform {op : TxOp} (account : Account buf entries u t s) (calm : settled op s)
    (ran : s.perform buf op = some s') : ∃ entries u t, Account buf entries u t s' := by
  unfold Tx.perform at ran
  split at ran
  · rename_i frame here
    simp only at ran
    split at ran
    · exact some.inj ran ▸ ⟨_, _, _, account.tooLong here⟩
    · exact some.inj ran ▸ ⟨_, _, _, account.send here (of_decide_eq_true calm)⟩
  · rename_i frame count here
    obtain ⟨byte, next, rfl⟩ := map_eq_some_iff.mp ran
    exact ⟨_, _, _, account.write here next⟩
  · rename_i frame count here
    split at ran
    · rename_i full
      exact some.inj ran ▸ ⟨_, _, _, account.describe (full ▸ here)⟩
    · cases ran
  · rename_i here
    exact some.inj ran ▸ ⟨_, _, _, account.push here⟩
  · rename_i target spins here
    split at ran
    · rename_i done
      exact some.inj ran ▸ ⟨_, _, _, account.finish here done⟩
    · split at ran
      · rename_i elem vq taken
        exact some.inj ran ▸ ⟨_, _, _, account.drain here taken⟩
      · rename_i nothing
        split at ran
        · exact some.inj ran ▸ ⟨_, _, _, account.giveUp here nothing⟩
        · exact some.inj ran ▸ ⟨_, _, _, account.spin here⟩
  · obtain ⟨head, next, rfl⟩ := map_eq_some_iff.mp ran
    exact ⟨_, _, _, account.consume next⟩
  · obtain ⟨head, first, rfl⟩ := map_eq_some_iff.mp ran
    obtain ⟨rest, owed⟩ := head?_eq_some_iff.mp first
    rw [owed]
    exact ⟨_, _, _, account.complete owed⟩
  · cases ran

end Steps

theorem account_fresh (buf queueSize : ℕ) (mem : ℕ → UInt8) : Account buf [] 0 0 (.fresh queueSize mem) where
  rings := ⟨rfl, fun _ => rfl, rfl, rfl, rfl, rfl, Nat.le_refl _, Nat.le_refl _, Nat.zero_le _, Nat.zero_le _⟩
  deliveries := ⟨.nil, (fun _ wrong => by cases wrong), rfl, (fun _ wrong => by cases wrong),
    fun _ wrong => by cases wrong⟩
  placed := .idle (Nat.zero_le _) rfl

/-- The runs in which no send begins before the device has answered all sends before it. -/
def settledRuns (buf : ℕ) : System Tx := System.ofOps Tx.Ready (guarded settled (Tx.perform buf))

/-- **Frames are sent exactly once** if no send begins before the device has answered all sends before it. -/
theorem sent_exactly_once (buf : ℕ) {s : Tx} (reached : (settledRuns buf).Reached s) : ExactlyOnce s := by
  have account : ∃ entries u t, Account buf entries u t s := by
    refine (settledRuns buf).invariant (fun s => ∃ entries u t, Account buf entries u t s) ?_ ?_ reached
    · rintro s ⟨queueSize, mem, -, rfl⟩
      exact ⟨_, _, _, account_fresh buf queueSize mem⟩
    · rintro s s' - ⟨entries, u, t, account⟩ ⟨op, performed⟩
      obtain ⟨calm, performed⟩ := guarded_eq_some.mp performed
      exact account.perform calm performed
  obtain ⟨entries, u, t, account⟩ := account
  have deliveries := account.deliveries
  exact ⟨entries.take s.wire.length, deliveries.nodup.sublist (take_sublist _ _), deliveries.carried,
    deliveries.returned⟩

/-- Two sends, each answered before the next. -/
theorem sent_exactly_once_twice : ∃ s, (settledRuns 0).Reached s ∧ s.results = [true, true] ∧
    s.wire = [[1], [2]] ∧ ExactlyOnce s := by
  have fresh : (settledRuns 0).Reached (.fresh 8 fun _ => 0) := .start ⟨8, fun _ => 0, by decide, rfl⟩
  obtain ⟨t, run, results, wire⟩ : ∃ t, replay (guarded settled (Tx.perform 0))
      (sendOps [1] ++ [.poll, .consume, .complete 0, .poll, .poll] ++
        sendOps [2] ++ [.consume, .poll, .complete 0, .poll, .poll]) (.fresh 8 fun _ => 0) = some t ∧
        t.results = [true, true] ∧ t.wire = [[1], [2]] := ⟨_, rfl, rfl, rfl⟩
  exact ⟨t, fresh.replay run, results, wire, sent_exactly_once 0 (fresh.replay run)⟩

end Ferros.Drivers
