/-
**The line discipline.**

Characters are typed and processes read, in any order. What the reads deliver, and then the queue, are the
lines that were completed so far.

* `lineOf`, `completedLines` — the specification: the typed characters are cut at every Enter, and each
  piece but the last one is a line, with what was erased left out.
* `feedChar_con` — what one character does to the console; `readStdinTurn_eq` — what one read does.
* `console_delivers_lines` — **the run.**

A system call runs with interrupts off, so a read that takes bytes and has to put them back is one step
here.
-/

import Ferros.Drivers.Console
import Ferros.Lib.System

namespace Ferros.Drivers

open Lib List

/-! ### Lines -/

def isEnter (c : Char) : Bool := c.toNat == 0x0A || c.toNat == 0x0D

/-- Backspace and Delete. -/
def isErase (c : Char) : Bool := c.toNat == 0x08 || c.toNat == 0x7F

/-- Printable ASCII. -/
def isPrintable (c : Char) : Bool := 0x20 ≤ c.toNat && c.toNat ≤ 0x7E

/-- What a character other than Enter makes of a line. -/
def edit (line : List UInt8) (c : Char) : List UInt8 :=
  if isErase c then line.dropLast
  else if isPrintable c then line ++ [UInt8.ofNat c.toNat]
  else line

/-- What is left of the characters typed on one line. -/
def lineOf (chars : List Char) : List UInt8 := chars.foldl edit []

/-- **The lines completed by Enter**, each with its newline. -/
def completedLines (typed : List Char) : List (List UInt8) :=
  (typed.splitOnP isEnter).dropLast.map fun chars => lineOf chars ++ [newlineByte]

/-! ### One character -/

theorem ofNat_eq_iff {n : ℕ} {byte : UInt8} (small : n < 128) : UInt8.ofNat n = byte ↔ n = byte.toNat := by
  have value : (UInt8.ofNat n).toNat = n := by
    rw [UInt8.toNat_ofNat']
    omega
  rw [← UInt8.toNat_inj, value]

/-- **One character**: Enter completes the line, every other character edits it. -/
theorem feedChar_con (c : Char) (con : Console) : (feedChar c con).2 =
      if isEnter c then ⟨[], con.ready ++ (con.line ++ [newlineByte])⟩
      else { con with line := edit con.line c } := by
  unfold feedChar
  by_cases ascii : c.toNat < 128
  · rw [if_pos ascii]
    have enters : (UInt8.ofNat c.toNat = newlineByte ∨ UInt8.ofNat c.toNat = 0x0D) ↔
        isEnter c := by
      rw [ofNat_eq_iff ascii, ofNat_eq_iff ascii, isEnter, Bool.or_eq_true, beq_iff_eq, beq_iff_eq]
      rfl
    have erases : (UInt8.ofNat c.toNat = 0x08 ∨ UInt8.ofNat c.toNat = 0x7F) ↔ isErase c := by
      rw [ofNat_eq_iff ascii, ofNat_eq_iff ascii, isErase, Bool.or_eq_true, beq_iff_eq, beq_iff_eq]
      rfl
    have prints : (0x20 ≤ UInt8.ofNat c.toNat ∧ UInt8.ofNat c.toNat ≤ 0x7E) ↔
        isPrintable c := by
      have value : (UInt8.ofNat c.toNat).toNat = c.toNat := ((ofNat_eq_iff ascii).mp rfl).symm
      rw [UInt8.le_iff_toNat_le, UInt8.le_iff_toNat_le, value, isPrintable, Bool.and_eq_true,
        decide_eq_true_iff, decide_eq_true_iff]
      rfl
    unfold feedByte edit
    simp only [enters, erases, prints]
    split
    · rfl
    · split
      · split
        · rename_i empty
          rw [empty]
          cases con
          cases empty
          rfl
        · rfl
      · split <;> rfl
  · -- a character outside ASCII belongs to no class
    rw [if_neg ascii]
    have notEnter : isEnter c = false := by
      rw [isEnter, Bool.or_eq_false_iff, beq_eq_false_iff_ne, beq_eq_false_iff_ne]
      omega
    have notErase : isErase c = false := by
      rw [isErase, Bool.or_eq_false_iff, beq_eq_false_iff_ne, beq_eq_false_iff_ne]
      omega
    have notPrintable : isPrintable c = false := by
      rw [isPrintable, Bool.and_eq_false_iff, decide_eq_false_iff_not, decide_eq_false_iff_not]
      omega
    rw [edit, notEnter, notErase, notPrintable]
    rfl

/-- A character other than Enter goes to the last piece. -/
theorem splitOnP_concat {p : Char → Bool} {typed : List Char} {front : List (List Char)} {last : List Char}
    (pieces : front ++ [last] = typed.splitOnP p) {c : Char} (inside : p c = false) :
    (typed ++ [c]).splitOnP p = front ++ [last ++ [c]] := by
  induction typed generalizing front last with
  | nil =>
    have single : front ++ [last] = [] ++ [[]] := pieces
    obtain ⟨rfl, lasts⟩ := append_inj' single rfl
    rw [(cons.inj lasts).1]
    exact splitOnP_eq_singleton fun x mem => by rw [mem_singleton.mp mem, inside]
  | cons head rest ih =>
    obtain ⟨front', last', later⟩ : ∃ front' last', front' ++ [last'] = rest.splitOnP p :=
      ⟨_, _, dropLast_concat_getLast (splitOnP_ne_nil p rest)⟩
    rw [cons_append, splitOnP_cons_eq_if_modifyHead, ih later]
    rw [splitOnP_cons_eq_if_modifyHead, ← later] at pieces
    split at pieces
    · obtain ⟨same, lasts⟩ := append_inj' (pieces.trans (cons_append ..).symm) rfl
      rw [if_pos ‹_›, same, (cons.inj lasts).1]
      rfl
    · rw [if_neg ‹_›]
      cases front' with
      | nil =>
        have single : front ++ [last] = [] ++ [head :: last'] := pieces
        obtain ⟨same, lasts⟩ := append_inj' single rfl
        rw [same, (cons.inj lasts).1]
        rfl
      | cons piece front' =>
        have longer : front ++ [last] = ((head :: piece) :: front') ++ [last'] := pieces
        obtain ⟨same, lasts⟩ := append_inj' longer rfl
        rw [same, (cons.inj lasts).1]
        rfl

/-! ### One read -/

/-- The bytes up to the first newline, cut or not, have a newline at most at their end. -/
theorem newline_notMem_dropLast_take {ready : List UInt8} {n : ℕ} (short : n ≤ lineLen ready) :
    newlineByte ∉ (ready.take n).dropLast := by
  intro mem
  obtain ⟨i, inside, isNewline⟩ := mem_iff_getElem.mp mem
  rw [length_dropLast, length_take] at inside
  rw [getElem_dropLast, getElem_take] at isNewline
  unfold lineLen at short
  split at short
  · rename_i first found
    obtain ⟨_, _, before⟩ := findIdx?_eq_some_iff_getElem.mp found
    have earlier := before i (by omega)
    rw [isNewline] at earlier
    exact earlier (by decide)
  · rename_i missing
    have never := findIdx?_eq_none_iff.mp missing newlineByte (isNewline ▸ getElem_mem _)
    exact absurd never (by decide)

/-- **One read** takes a beginning of the first line; what cannot be copied to the user is put back. -/
theorem readStdinTurn_eq (count : ℕ) (copies : Bool) (con : Console) : readStdinTurn count copies con =
      if con.ready.take (min count (lineLen con.ready)) = [] then (none, con) else if copies then
        (some (con.ready.take (min count (lineLen con.ready))),
          { con with ready := con.ready.drop (min count (lineLen con.ready)) }) else (some [], con) := by
  have whole := take_append_drop (min count (lineLen con.ready)) con.ready
  unfold readStdinTurn takeReady unread
  cases taken : con.ready.take (min count (lineLen con.ready)) with
  | nil =>
    rw [taken, nil_append] at whole
    simp only [taken, whole, if_true]
  | cons byte rest =>
    rw [taken] at whole
    simp only [taken, cons_ne_nil, if_false, whole]

/-! ### Runs -/

/-- What happens at the console: a character is typed, or a process makes a turn of reading from standard
input. -/
inductive ConsoleOp
  | feed (c : Char)
  | read (reader count : ℕ) (copies : Bool)

/-- The console, the characters typed so far, and what the reads have delivered so far and to whom. -/
structure Session where
  con : Console
  typed : List Char
  given : List (ℕ × List UInt8)
  deriving DecidableEq, Repr

def Session.step (op : ConsoleOp) (s : Session) : Option Session :=
  match op with
  | .feed c => some { s with con := (feedChar c s.con).2, typed := s.typed ++ [c] }
  | .read reader count copies =>
    if count = 0 then some s
    else
      match readStdinTurn count copies s.con with
      | (some bytes, con) =>
        some { s with con, given := if copies then s.given ++ [(reader, bytes)] else s.given }
      | (none, con) => some { s with con }

/-- Every order of characters and reads, from the console of `init` on. -/
def console : System Session :=
  .ofOps (· = ⟨⟨[], []⟩, [], []⟩) Session.step

/-- The console in step with what was typed: the line being edited is the last piece, and what was
delivered and what is ready are the lines before it. -/
structure Session.InStep (s : Session) : Prop where
  pieces : ∃ front last, front ++ [last] = s.typed.splitOnP isEnter ∧ s.con.line = lineOf last
  lines : s.given.flatMap Prod.snd ++ s.con.ready = (completedLines s.typed).flatten
  cuts : ∀ delivery ∈ s.given, newlineByte ∉ delivery.2.dropLast
  ends : s.con.ready = [] ∨ s.con.ready.getLast? = some newlineByte

theorem completedLines_eq {typed : List Char} {front : List (List Char)} {last : List Char}
    (pieces : front ++ [last] = typed.splitOnP isEnter) :
    completedLines typed = front.map fun chars => lineOf chars ++ [newlineByte] := by
  rw [completedLines, ← pieces, dropLast_concat]

theorem Session.InStep.feed {s : Session} (inStep : s.InStep) (c : Char) :
    Session.InStep { s with con := (feedChar c s.con).2, typed := s.typed ++ [c] } := by
  obtain ⟨front, last, pieces, line⟩ := inStep.pieces
  have lines := inStep.lines
  rw [completedLines_eq pieces] at lines
  cases enter : isEnter c with
  | true =>
    -- the last piece becomes a line, and a new one begins
    have pieces' : (front ++ [last]) ++ [[]] = (s.typed ++ [c]).splitOnP isEnter := by
      rw [splitOnP_append_cons _ _ enter, ← pieces, splitOnP_nil]
    refine ⟨⟨_, _, pieces', ?_⟩, ?_, inStep.cuts, .inr ?_⟩
    · rw [feedChar_con, enter]
      rfl
    · rw [completedLines_eq pieces', feedChar_con, enter, map_append, flatten_append, ← lines, line]
      simp
    · rw [feedChar_con, enter]
      simp
  | false =>
    have pieces' := (splitOnP_concat pieces enter).symm
    refine ⟨⟨_, _, pieces', ?_⟩, ?_, inStep.cuts, ?_⟩
    · rw [feedChar_con, enter, lineOf, foldl_append, ← lineOf, ← line]
      rfl
    · rw [completedLines_eq pieces', ← lines, feedChar_con, enter]
      rfl
    · rw [feedChar_con, enter]
      exact inStep.ends

theorem Session.InStep.read {s : Session} (inStep : s.InStep) (reader : ℕ) {n : ℕ}
    (short : n ≤ lineLen s.con.ready) : Session.InStep { s with
      con := { s.con with ready := s.con.ready.drop n }
      given := s.given ++ [(reader, s.con.ready.take n)] } := by
  refine ⟨inStep.pieces, ?_, ?_, ?_⟩
  · rw [flatMap_append, flatMap_singleton, append_assoc, take_append_drop]
    exact inStep.lines
  · intro delivery mem
    rcases mem_append.mp mem with earlier | here
    · exact inStep.cuts delivery earlier
    · rw [mem_singleton.mp here]
      exact newline_notMem_dropLast_take short
  · by_cases all : s.con.ready.drop n = []
    · exact .inl all
    · refine inStep.ends.imp (fun empty => ?_) fun last => ?_
      · rw [empty, drop_nil]
      · rw [getLast?_drop, if_neg (fun enough => all (drop_eq_nil_of_le enough))]
        exact last

theorem Session.InStep.step {s t : Session} {op : ConsoleOp} (inStep : s.InStep) (stepped : s.step op = some t)
    : t.InStep := by
  cases op with
  | feed c =>
    cases stepped
    exact inStep.feed c
  | read reader count copies =>
    unfold Session.step at stepped
    simp only [readStdinTurn_eq] at stepped
    split at stepped
    · cases stepped
      exact inStep
    · by_cases nothing : s.con.ready.take (min count (lineLen s.con.ready)) = []
      · rw [if_pos nothing] at stepped
        cases stepped
        exact inStep
      · rw [if_neg nothing] at stepped
        cases copies with
        | true =>
          cases stepped
          exact inStep.read reader (Nat.min_le_right _ _)
        | false =>
          cases stepped
          exact inStep

/-- **The line discipline.** After any characters typed and any reads, of any sizes and by any processes,
some of which fail to reach the user: what the reads delivered, in order, and then the queue are the lines
completed so far; no delivery has a newline before its last byte; and the queue is empty or ends with a
newline. -/
theorem console_delivers_lines {s : Session} (reached : console.Reached s) :
    s.given.flatMap Prod.snd ++ s.con.ready = (completedLines s.typed).flatten ∧
      (∀ delivery ∈ s.given, newlineByte ∉ delivery.2.dropLast) ∧
      (s.con.ready = [] ∨ s.con.ready.getLast? = some newlineByte) := by
  have inStep : s.InStep := by
    refine console.invariant Session.InStep ?_ ?_ reached
    · rintro _ rfl
      exact ⟨⟨[], [], rfl, rfl⟩, rfl, forall_mem_nil _, .inl rfl⟩
    · rintro s t - inStep ⟨op, stepped⟩
      exact inStep.step stepped
  exact ⟨inStep.lines, inStep.cuts, inStep.ends⟩

/-- Two lines are typed, the first one with a correction; the first reader gets a part of it, the second
one fails, and the third one gets the rest. -/
def typedRun : List ConsoleOp :=
  [.feed 'l', .feed 'x', .feed '\x7f', .feed 's', .feed '\n', .feed 'p', .feed '\r', .read 7 1 true,
    .read 8 9 false, .read 9 9 true, .feed 'q']

def typedSession : Session :=
  (replay Session.step typedRun ⟨⟨[], []⟩, [], []⟩).getD ⟨⟨[], []⟩, [], []⟩

theorem console_delivers_lines_typed :
    typedSession.given = [(7, [0x6C]), (9, [0x73, 0x0A])] ∧ typedSession.con.ready = [0x70, 0x0A] ∧
      typedSession.given.flatMap Prod.snd ++ typedSession.con.ready =
        (completedLines typedSession.typed).flatten :=
  ⟨rfl, rfl, (console_delivers_lines (System.Reached.replay (.start rfl)
    (show replay Session.step typedRun ⟨⟨[], []⟩, [], []⟩ = some typedSession from rfl))).1⟩

end Ferros.Drivers
