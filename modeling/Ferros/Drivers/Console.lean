/-
**The console: a line discipline between the keyboard and standard input.**

Typed characters collect in a line that can still be edited; Enter moves the line to the queue that reads
take from. The model starts after `init`: before it input is dropped and reads find nothing.
-/

import Mathlib.Data.Nat.Notation

namespace Ferros.Drivers

open List

structure Console where
  line : List UInt8
  ready : List UInt8
  deriving DecidableEq, Repr

/-- What is shown on the screen after a character; a new line also wakes the readers. -/
inductive Echo
  | char (byte : UInt8)
  | newline
  | backspace
  | nothing
  deriving DecidableEq, Repr

def newlineByte : UInt8 := 0x0A

/-- The part of `feed_char` under the lock of the console, for one ASCII byte. -/
def feedByte (byte : UInt8) (con : Console) : Echo × Console :=
  if byte = newlineByte ∨ byte = 0x0D then
    (.newline, ⟨[], con.ready ++ (con.line ++ [newlineByte])⟩)
  else if byte = 0x08 ∨ byte = 0x7F then
    if con.line = [] then (.nothing, con) else (.backspace, { con with line := con.line.dropLast })
  else if 0x20 ≤ byte ∧ byte ≤ 0x7E then
    (.char byte, { con with line := con.line ++ [byte] })
  else (.nothing, con)

def feedChar (c : Char) (con : Console) : Echo × Console :=
  if c.toNat < 128 then feedByte (UInt8.ofNat c.toNat) con else (.nothing, con)

/-- The length of the first line, or of the whole queue if there is no line. -/
def lineLen (ready : List UInt8) : ℕ :=
  match ready.findIdx? (· = newlineByte) with
  | some i => i + 1
  | none => ready.length

/-- At most `max` bytes, and at most the first line. -/
def takeReady (max : ℕ) (con : Console) : List UInt8 × Console :=
  let n := min max (lineLen con.ready)
  (con.ready.take n, { con with ready := con.ready.drop n })

/-- Puts bytes back in front of the queue. -/
def unread (bytes : List UInt8) (con : Console) : Console :=
  { con with ready := bytes ++ con.ready }

/-- One turn of the loop of `read_stdin` for `0 < count`: the bytes that were taken, if there were any;
those that cannot be copied to the user go back. -/
def readStdinTurn (count : ℕ) (copies : Bool) (con : Console) : Option (List UInt8) × Console :=
  match takeReady count con with
  | ([], con) => (none, con)
  | (bytes, con) => if copies then (some bytes, con) else (some [], unread bytes con)

theorem lineLen_pos {ready : List UInt8} (nonempty : ready ≠ []) : 0 < lineLen ready := by
  unfold lineLen
  split
  · exact Nat.succ_pos _
  · exact length_pos_iff.mpr nonempty

variable {con con' : Console} {count : ℕ} {copies : Bool}

theorem takeReady_of_empty (empty : con.ready = []) (count : ℕ) : takeReady count con = ([], con) := by
  cases con
  cases empty
  simp only [takeReady, take_nil, drop_nil]

/-- A reader sleeps on an empty queue only, and leaves it as it is. -/
theorem readStdinTurn_none (asked : 0 < count) (slept : readStdinTurn count copies con = (none, con')) :
    con.ready = [] ∧ con' = con := by
  by_cases empty : con.ready = []
  · simp only [readStdinTurn, takeReady_of_empty empty] at slept
    exact ⟨empty, (Prod.mk.inj slept).2.symm⟩
  · -- at least one byte is taken
    have taken : (takeReady count con).1 ≠ [] := by
      intro nothing
      rcases take_eq_nil_iff.mp nothing with zero | nothing
      · exact Nat.ne_of_gt (Nat.lt_min.mpr ⟨asked, lineLen_pos empty⟩) zero
      · exact empty nothing
    unfold readStdinTurn at slept
    split at slept
    · rename_i nothing
      exact absurd (congrArg Prod.fst nothing) taken
    · split at slept <;> exact nomatch slept

/-- A reader that gets something found the queue not empty. -/
theorem readStdinTurn_some {bytes : List UInt8} (read : readStdinTurn count copies con = (some bytes, con')) :
    con.ready ≠ [] := by
  intro empty
  simp only [readStdinTurn, takeReady_of_empty empty] at read
  exact nomatch read

/-- Only a completed line changes the queue. -/
theorem feedChar_ready {c : Char} {echo : Echo} (fed : feedChar c con = (echo, con')) (noLine : echo ≠ .newline)
    : con'.ready = con.ready := by
  unfold feedChar feedByte at fed
  split at fed
  · split at fed
    · exact absurd (Prod.mk.inj fed).1.symm noLine
    · split at fed
      · split at fed <;> (obtain ⟨-, rfl⟩ := Prod.mk.inj fed; rfl)
      · split at fed <;> (obtain ⟨-, rfl⟩ := Prod.mk.inj fed; rfl)
  · cases fed
    rfl

end Ferros.Drivers
