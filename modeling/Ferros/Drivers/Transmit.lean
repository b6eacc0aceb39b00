/-
**Sending frames.**

All sends use one descriptor and one buffer. A send that gives up leaves its entry in the ring, and the device,
if it reads it later, finds the buffer of the next send.

* `Tx.perform` — `send` step by step, with the device reading and answering in between.
* `ExactlyOnce` — what the wire carries; `frame_sent_twice` — it fails after a send that gave up.
-/

import Ferros.Drivers.Virtq
import Ferros.Lib.System

namespace Ferros.Drivers

open Lib List Option

/-! ### The driver and the device -/

def txBufSize : ℕ := 4096

def spinLimit : ℕ := 100000000

/-- Where `send` is. -/
inductive TxPlace
  | idle
  /-- So many bytes of the header and the frame are in the buffer. -/
  | writing (frame : List UInt8) (count : ℕ)
  /-- The descriptor is written. -/
  | described
  /-- In the loop that waits until `last_used_idx` reaches the target. -/
  | waiting (target spins : ℕ)
  deriving DecidableEq, Repr

structure Tx where
  vq : Virtq
  mem : ℕ → UInt8
  place : TxPlace
  /-- How far the device has read the ring, and the descriptors it has not given back. -/
  seen : ℕ
  owed : List ℕ
  /-- The frames on the wire. -/
  wire : List (List UInt8)
  /-- The frames of the calls of `send`, and what the calls returned. -/
  sends : List (List UInt8)
  results : List Bool

/-- The contents of the buffer for a frame. -/
def packet (frame : List UInt8) : List UInt8 := replicate netHdrLen 0 ++ frame

/-- What the device sends for a descriptor. -/
def Tx.read (d : Desc) (s : Tx) : List UInt8 := (window s.mem d.addr d.len).drop netHdrLen

inductive TxOp
  | send (frame : List UInt8)
  | write
  | describe
  | push
  /-- A turn of the loop. -/
  | poll
  /-- The device reads an entry of the ring, with its descriptor and its buffer. -/
  | consume
  /-- It gives the descriptor back. -/
  | complete (len : ℕ)
  deriving DecidableEq, Repr

/-- The call of `send` returns. -/
def Tx.returns (result : Bool) (s : Tx) : Tx := { s with results := s.results ++ [result], place := .idle }

def Tx.perform (buf : ℕ) (op : TxOp) (s : Tx) : Option Tx :=
  match op, s.place with
  | .send frame, .idle =>
    let s := { s with sends := s.sends ++ [frame] }
    some (if txBufSize - netHdrLen < frame.length then s.returns false
      else { s with place := .writing frame 0 })
  | .write, .writing frame count => (packet frame)[count]?.map fun byte =>
    { s with mem := Function.update s.mem (buf + count) byte, place := .writing frame (count + 1) }
  | .describe, .writing frame count =>
    if count = (packet frame).length then
      some { s with vq := s.vq.writeDesc 0 ⟨buf, netHdrLen + frame.length, 0, 0⟩, place := .described }
    else none
  | .push, .described =>
    let (target, vq) := s.vq.pushAvail 0
    some { s with vq, place := .waiting target 0 }
  | .poll, .waiting target spins =>
    if s.vq.lastUsedIdx = target then some (s.returns true)
    else match s.vq.takeUsed with
      | some (_, vq) => some { s with vq }
      | none =>
        some (if spinLimit < spins + 1 then s.returns false
          else { s with place := .waiting target (spins + 1) })
  | .consume, _ => (s.vq.nextAvail s.seen).map fun head => { s with
      seen := (s.seen + 1) % 2 ^ 16
      owed := s.owed ++ [head]
      wire := s.wire ++ [s.read (s.vq.desc head)] }
  | .complete len, _ => s.owed.head?.map fun head =>
    { s with vq := s.vq.pushUsed (head, len), owed := s.owed.tail }
  | _, _ => none

/-- The card after `init`. -/
def Tx.fresh (queueSize : ℕ) (mem : ℕ → UInt8) : Tx := ⟨.setup queueSize, mem, .idle, 0, [], [], [], []⟩

/-- The card is ready: it has any queue, and anything in memory. -/
def Tx.Ready (s : Tx) : Prop := ∃ queueSize mem, 0 < queueSize ∧ s = .fresh queueSize mem

/-- All runs of the driver and the device. -/
def txRuns (buf : ℕ) : System Tx := System.ofOps Tx.Ready (Tx.perform buf)

/-- **Frames are sent exactly once**: what is on the wire are the frames of some of the sends, each of them
once, and of all that returned `true`. -/
def ExactlyOnce (s : Tx) : Prop :=
  ∃ delivered : List ℕ, delivered.Nodup ∧ s.wire.map some = delivered.map (s.sends[·]?) ∧
    ∀ i : ℕ, s.results[i]? = some true → i ∈ delivered

/-! ### A send that gave up -/

/-- The steps of `send` up to the loop. -/
def sendOps (frame : List UInt8) : List TxOp :=
  .send frame :: replicate (packet frame).length .write ++ [.describe, .push]

/-- Bytes written one after the other. -/
def written (start : ℕ) : List UInt8 → (ℕ → UInt8) → ℕ → UInt8
  | [], mem => mem
  | byte :: rest, mem => written (start + 1) rest (Function.update mem start byte)

/-- A first send waits for the device. -/
def stalled (spins : ℕ) : Tx where
  vq := (((Virtq.setup 8).writeDesc 0 ⟨0, 11, 0, 0⟩).pushAvail 0).2
  mem := written 0 (packet [1]) fun _ => 0
  place := .waiting 1 spins
  seen := 0
  owed := []
  wire := []
  sends := [[1]]
  results := []

theorem stalled_reached {spins : ℕ} (patient : spins ≤ spinLimit) : (txRuns 0).Reached (stalled spins) := by
  induction spins with
  | zero =>
    have fresh : (txRuns 0).Reached (.fresh 8 fun _ => 0) := .start ⟨8, fun _ => 0, by decide, rfl⟩
    exact fresh.replay (show replay _ (sendOps [1]) _ = some (stalled 0) from rfl)
  | succ spins ih =>
    refine (ih (Nat.le_of_succ_le patient)).step ⟨.poll, ?_⟩
    show some (if spinLimit < spins + 1 then _ else _) = some (stalled (spins + 1))
    rw [if_neg (Nat.not_lt.mpr patient)]
    rfl

/-- Only the second of two sends had this frame. -/
theorem second_only {i : ℕ} (found : ([[1], [2]] : List (List UInt8))[i]? = some [2]) : i = 1 := by
  rcases i with - | - | i
  · cases found
  · rfl
  · cases found

/-- **The frame of the second send is sent twice**: once for the entry that the first send left. -/
theorem frame_sent_twice : ∃ s, (txRuns 0).Reached s ∧ s.sends = [[1], [2]] ∧ s.results = [false, true] ∧
    s.wire = [[2], [2]] ∧ ¬ExactlyOnce s := by
  have gaveUp : (txRuns 0).Reached ((stalled spinLimit).returns false) := by
    refine (stalled_reached (Nat.le_refl spinLimit)).step ⟨.poll, ?_⟩
    show some (if spinLimit < spinLimit + 1 then _ else _) = _
    rw [if_pos (Nat.lt_succ_self spinLimit)]
  obtain ⟨t, run, sends, results, wire⟩ : ∃ t, replay (Tx.perform 0)
      (sendOps [2] ++ [.consume, .complete 0, .consume, .complete 0, .poll, .poll, .poll])
      ((stalled spinLimit).returns false) = some t ∧ t.sends = [[1], [2]] ∧ t.results = [false, true] ∧
        t.wire = [[2], [2]] := ⟨_, rfl, rfl, rfl, rfl⟩
  refine ⟨t, gaveUp.replay run, sends, results, wire, ?_⟩
  rintro ⟨delivered, nodup, onWire, -⟩
  rw [wire, sends] at onWire
  rcases delivered with - | ⟨i, - | ⟨j, rest⟩⟩
  · cases onWire
  · cases congrArg length onWire
  · obtain ⟨first, others⟩ := cons_eq_cons.mp onWire
    obtain ⟨second, -⟩ := cons_eq_cons.mp others
    rw [second_only first.symm, second_only second.symm] at nodup
    exact (nodup_cons.mp nodup).1 mem_cons_self

end Ferros.Drivers
