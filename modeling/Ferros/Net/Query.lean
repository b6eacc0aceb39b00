/-
**The kernel builds a query.**

`build_query` writes the header, the labels of the name and the type and class of the question, piece by piece,
and gives up at the first piece that does not fit or label that is not one.

* `writeQuery_appends`, `writeQuery_refuses` — **which names there is a query for**, and its bytes.
* `decodeQuery` — reading a query back; `decodeQuery_encodeQuery` — **it is the query for the name.**
-/

import Ferros.Lib.Writing
import Ferros.Net.Dns

namespace Ferros.Net

open Lib List Option

variable {id : UInt16} {hostname : List Char} {out : List UInt8} {labels : List (List UInt8)}

/-! ### The encoder -/

def utf8 (text : List Char) : List UInt8 := text.flatMap String.utf8EncodeChar

/-- The window `out[*pos..end]` is one of `out`, since `end` is neither below `*pos` nor behind `out`. -/
def write (bytes : List UInt8) : Writing UInt8 Unit := .step fun b =>
  match fitting 64 (b.pos + bytes.length) with
  | none => (none, b)
  | some stop => if stop > b.out.length then (none, b) else (some (), ⟨overwrite b.out b.pos bytes, stop⟩)

/-- `hostname.strip_suffix('.').unwrap_or(hostname)` -/
def stripDot (hostname : List Char) : List Char :=
  if hostname.getLast? = some '.' then hostname.dropLast else hostname

def writeLabels : List (List Char) → Writing UInt8 Unit
  | [] => pure ()
  | label :: labels =>
    if label = [] ∨ (utf8 label).length > 63 then failure
    else do
      write [UInt8.ofNat (utf8 label).length]
      write (utf8 label)
      writeLabels labels

/-- Everything but the position at the end. -/
def writeQuery (id : UInt16) (hostname : List Char) : Writing UInt8 Unit := do
  write (toBe id.toNat)
  write [0x01, 0x00]
  write [0x00, 0x01]
  write [0x00, 0x00, 0x00, 0x00, 0x00, 0x00]
  writeLabels ((stripDot hostname).splitOn '.')
  write [0x00]
  write (toBe qtypeA)
  write (toBe qclassIn)

/-- The length of the query, if it was built, and the buffer. -/
def buildQuery (id : UInt16) (hostname : List Char) (out : List UInt8) : Option ℕ × List UInt8 :=
  let ended := (writeQuery id hostname).write ⟨out, 0⟩
  (ended.1.map fun _ => ended.2.pos, ended.2.out)

/-! ### What it writes -/

/-- A label of 1 to 63 bytes. -/
def IsLabel (label : List UInt8) : Prop := 0 < label.length ∧ label.length ≤ 63

/-- The labels of a name, after one dot at its end is removed. -/
def labelsOf (hostname : List Char) : List (List UInt8) := ((stripDot hostname).splitOn '.').map utf8

/-- A query for the address of a name. -/
def encodeQuery (id : UInt16) (labels : List (List UInt8)) : List UInt8 :=
  toBe id.toNat ++ [0x01, 0x00, 0x00, 0x01, 0x00, 0x00, 0x00, 0x00, 0x00, 0x00] ++
    (encodeLabels labels ++ [0x00, 0x00, 0x01, 0x00, 0x01])

theorem write_appends (bytes : List UInt8) : Appends (2 ^ 63) (write bytes) bytes := by
  intro b inside small
  rw [write, Writing.write_step]
  refine ⟨fun fits => ?_, fun full => ?_⟩
  · rw [fitting_of_lt (by omega)]
    exact if_neg (Nat.not_lt.mpr fits)
  · cases sum : fitting 64 (b.pos + bytes.length) with
    | none => rfl
    | some stop =>
      obtain ⟨-, rfl⟩ := fitting_eq_some.mp sum
      exact congrArg Prod.fst (if_pos full)

theorem utf8_eq_nil {text : List Char} : utf8 text = [] ↔ text = [] := by
  cases text with
  | nil => exact ⟨fun _ => rfl, fun _ => rfl⟩
  | cons c text =>
    refine ⟨fun empty => ?_, nofun⟩
    have size := congrArg length empty
    rw [utf8, flatMap_cons, length_append, String.length_utf8EncodeChar] at size
    have := c.utf8Size_pos
    simp only [length_nil] at size
    omega

theorem isLabel_utf8 (label : List Char) : IsLabel (utf8 label) ↔ ¬(label = [] ∨ (utf8 label).length > 63) := by
  rw [not_or, IsLabel, length_pos_iff, Ne, utf8_eq_nil, Nat.not_lt]

theorem writeLabels_appends {labels : List (List Char)} (good : ∀ label ∈ labels, IsLabel (utf8 label)) :
    Appends (2 ^ 63) (writeLabels labels) (encodeLabels (labels.map utf8)) := by
  induction labels with
  | nil => exact .nothing
  | cons label labels ih =>
    have rest := ih fun l mem => good l (mem_cons_of_mem _ mem)
    rw [writeLabels, if_neg ((isLabel_utf8 label).mp (good label mem_cons_self))]
    exact (write_appends [_]).andThen ((write_appends _).andThen rest)

theorem writeLabels_refuses {labels : List (List Char)} (bad : ¬∀ label ∈ labels, IsLabel (utf8 label)) :
    Refuses (2 ^ 63) (writeLabels labels) := by
  induction labels with
  | nil => exact absurd (fun l mem => (by cases mem)) bad
  | cons label labels ih =>
    rw [writeLabels]
    by_cases isLabel : IsLabel (utf8 label)
    · rw [if_neg ((isLabel_utf8 label).mp isLabel)]
      refine .after (write_appends _) (.after (write_appends _) (ih fun good => bad ?_))
      exact forall_mem_cons.mpr ⟨isLabel, good⟩
    · rw [if_pos (not_not.mp fun neither => isLabel ((isLabel_utf8 label).mpr neither))]
      exact fun b _ _ => rfl

/-- **A query for a name of labels is written.** -/
theorem writeQuery_appends (id : UInt16) (good : ∀ label ∈ labelsOf hostname, IsLabel label) :
    Appends (2 ^ 63) (writeQuery id hostname) (encodeQuery id (labelsOf hostname)) := by
  have labels := writeLabels_appends fun label mem => good _ (mem_map_of_mem mem)
  have all := (write_appends (toBe id.toNat)).andThen ((write_appends [0x01, 0x00]).andThen
    ((write_appends [0x00, 0x01]).andThen ((write_appends [0x00, 0x00, 0x00, 0x00, 0x00, 0x00]).andThen
    (labels.andThen ((write_appends [0x00]).andThen ((write_appends (toBe qtypeA)).andThen
    (write_appends (toBe qclassIn))))))))
  exact all

/-- **A query for anything else is not.** -/
theorem writeQuery_refuses (id : UInt16)
    (bad : ¬∀ label ∈ labelsOf hostname, IsLabel label) : Refuses (2 ^ 63) (writeQuery id hostname) := by
  refine .after (write_appends _) (.after (write_appends _) (.after (write_appends _) (.after (write_appends _)
    (.first (writeLabels_refuses fun good => bad ?_)))))
  intro label mem
  obtain ⟨l, inside, rfl⟩ := mem_map.mp mem
  exact good l inside

theorem buildQuery_fits (slice : out.length < 2 ^ 63) (good : ∀ label ∈ labelsOf hostname, IsLabel label)
    (fits : (encodeQuery id (labelsOf hostname)).length ≤ out.length) : buildQuery id hostname out =
      (some (encodeQuery id (labelsOf hostname)).length, overwrite out 0
      (encodeQuery id (labelsOf hostname))) := by
  have done := (writeQuery_appends id good ⟨out, 0⟩ (Nat.zero_le _) slice).1 (by rw [Nat.zero_add]; exact fits)
  rw [buildQuery, done, Nat.zero_add]
  rfl

theorem buildQuery_none (slice : out.length < 2 ^ 63) (wrong : ¬((∀ label ∈ labelsOf hostname, IsLabel label) ∧
    (encodeQuery id (labelsOf hostname)).length ≤ out.length)) : (buildQuery id hostname out).1 = none := by
  have refused : ((writeQuery id hostname).write ⟨out, 0⟩).1 = none := by
    by_cases good : ∀ label ∈ labelsOf hostname, IsLabel label
    · refine (writeQuery_appends id good ⟨out, 0⟩ (Nat.zero_le _) slice).2 ?_
      rw [Nat.zero_add]
      exact Nat.lt_of_not_le fun fits => wrong ⟨good, fits⟩
    · exact writeQuery_refuses id good _ (Nat.zero_le _) slice
  exact map_eq_none_iff.mpr refused

/-- **When a query is built, and what the buffer holds then.** -/
theorem buildQuery_eq_some (slice : out.length < 2 ^ 63) {n : ℕ} :
    (buildQuery id hostname out).1 = some n ↔ (∀ label ∈ labelsOf hostname, IsLabel label) ∧
      (encodeQuery id (labelsOf hostname)).length = n ∧ n ≤ out.length := by
  by_cases all : (∀ label ∈ labelsOf hostname, IsLabel label) ∧
      (encodeQuery id (labelsOf hostname)).length ≤ out.length
  · rw [buildQuery_fits slice all.1 all.2, some.injEq]
    exact ⟨fun size => ⟨all.1, size, size ▸ all.2⟩, fun rest => rest.2.1⟩
  · rw [buildQuery_none slice all]
    exact ⟨nofun, fun rest => absurd ⟨rest.1, rest.2.1.symm ▸ rest.2.2⟩ all⟩

/-! ### Reading it back -/

/-- Labels by their lengths up to the root, and what follows it. -/
def decodeLabels (bytes : List UInt8) : Option (List (List UInt8) × List UInt8) :=
  match bytes with
  | [] => none
  | len :: rest =>
    if len = 0 then some ([], rest)
    else if 63 < len.toNat ∨ rest.length < len.toNat then none
    else (decodeLabels (rest.drop len.toNat)).map fun found => (rest.take len.toNat :: found.1, found.2)
termination_by bytes.length
decreasing_by
  rw [length_drop, length_cons]
  omega

structure Query where
  id : ℕ
  flags : ℕ
  qdcount : ℕ
  ancount : ℕ
  nscount : ℕ
  arcount : ℕ
  labels : List (List UInt8)
  qtype : ℕ
  qclass : ℕ

/-- A header of 12 bytes and one question, and nothing behind it. -/
def decodeQuery (bytes : List UInt8) : Option Query :=
  if bytes.length < 12 then none
  else (decodeLabels (bytes.drop 12)).bind fun found =>
    if found.2.length = 4 then
      some ⟨word bytes 0, word bytes 2, word bytes 4, word bytes 6, word bytes 8, word bytes 10, found.1,
        word found.2 0, word found.2 2⟩
    else none

theorem decodeLabels_encodeLabels (good : ∀ label ∈ labels, IsLabel label) (rest : List UInt8) :
    decodeLabels (encodeLabels labels ++ 0 :: rest) = some (labels, rest) := by
  induction labels with
  | nil =>
    rw [decodeLabels.eq_def]
    rfl
  | cons label labels ih =>
    obtain ⟨⟨nonempty, short⟩, good⟩ := forall_mem_cons.mp good
    have value := toNat_length short
    rw [encodeLabels_cons, append_assoc, cons_append, decodeLabels, value,
      if_neg (length_ne_zero nonempty short), if_neg ?_, drop_left, take_left, ih good]
    · rfl
    · rw [length_append]
      omega

theorem decodeQuery_encodeQuery (id : UInt16) (good : ∀ label ∈ labels, IsLabel label) :
    decodeQuery (encodeQuery id labels) = some ⟨id.toNat, 0x0100, 1, 0, 0, 0, labels, qtypeA, qclassIn⟩ := by
  have long : ¬(encodeQuery id labels).length < 12 := by
    rw [encodeQuery, length_append]
    exact Nat.not_lt.mpr (Nat.le_add_right 12 _)
  have behind : (encodeQuery id labels).drop 12 = encodeLabels labels ++ 0 :: [0x00, 0x01, 0x00, 0x01] := rfl
  have isId : word (encodeQuery id labels) 0 = id.toNat := fromBe_toBe id.toNat_lt
  have areWords : word (encodeQuery id labels) 2 = fromBe 1 0 ∧ word (encodeQuery id labels) 4 = fromBe 0 1 ∧
      word (encodeQuery id labels) 6 = fromBe 0 0 ∧ word (encodeQuery id labels) 8 = fromBe 0 0 ∧
      word (encodeQuery id labels) 10 = fromBe 0 0 := ⟨rfl, rfl, rfl, rfl, rfl⟩
  obtain ⟨isFlags, isQd, isAn, isNs, isAr⟩ := areWords
  rw [decodeQuery, if_neg long, behind, decodeLabels_encodeLabels good, bind_some, isId, isFlags, isQd, isAn,
    isNs, isAr, show fromBe 1 0 = 0x0100 by decide, show fromBe 0 1 = 1 by decide,
    show fromBe 0 0 = 0 by decide]
  have isType : word [0x00, 0x01, 0x00, 0x01] 0 = qtypeA := by decide
  have isClass : word [0x00, 0x01, 0x00, 0x01] 2 = qclassIn := by decide
  rw [← isType, ← isClass]
  exact if_pos rfl

theorem nameEnd_encodeQuery (id : UInt16) (good : ∀ label ∈ labels, IsLabel label) {rest : List UInt8} :
    nameEnd (encodeQuery id labels ++ rest) 12 = some ((encodeQuery id labels).length - 4) := by
  have here : (encodeQuery id labels ++ rest).drop 12 =
      encodeLabels labels ++ (Tail.root.encode ++ ([0x00, 0x01, 0x00, 0x01] ++ rest)) := by
    rw [← append_assoc, ← append_assoc, append_assoc _ Tail.root.encode]
    rfl
  have size : (encodeQuery id labels).length = 12 + ((encodeLabels labels).length + 5) := by
    simp only [encodeQuery, length_append, length_toBe, length_cons, length_nil]
  rw [nameEnd_labels good here, Tail.root.nameEnd_encode (drop_of_drop here), size]
  exact congrArg some (by rw [Tail.encode, length_singleton]; omega)

/-- **A query can be read back.** -/
theorem build_query_round_trip (id : UInt16) (hostname : List Char) (out : List UInt8)
    (slice : out.length < 2 ^ 63) :
    (∀ n, (buildQuery id hostname out).1 = some n ↔ (∀ label ∈ labelsOf hostname, IsLabel label) ∧
      (encodeQuery id (labelsOf hostname)).length = n ∧ n ≤ out.length) ∧
    ∀ n, (buildQuery id hostname out).1 = some n → decodeQuery ((buildQuery id hostname out).2.take n) =
        some ⟨id.toNat, 0x0100, 1, 0, 0, 0, labelsOf hostname, qtypeA, qclassIn⟩ ∧
      Gives (skipName (buildQuery id hostname out).2 12) (some (n - 4)) ∧
      (buildQuery id hostname out).2.drop n = out.drop n := by
  refine ⟨fun n => buildQuery_eq_some slice, fun n built => ?_⟩
  obtain ⟨good, rfl, fits⟩ := (buildQuery_eq_some slice).mp built
  rw [buildQuery_fits slice good fits]
  simp only
  have whole : overwrite out 0 (encodeQuery id (labelsOf hostname)) =
      encodeQuery id (labelsOf hostname) ++ out.drop (encodeQuery id (labelsOf hostname)).length := by
    rw [← drop_zero (l := overwrite _ _ _), drop_overwrite (Nat.zero_le _), Nat.zero_add]
  rw [whole]
  refine ⟨?_, ?_, drop_left⟩
  · rw [take_left, decodeQuery_encodeQuery id good]
  · rw [← nameEnd_encodeQuery id good]
    refine skipName_gives ?_ 12
    rw [← whole, length_overwrite (by rw [Nat.zero_add]; exact fits)]
    exact slice

theorem build_query_example_com :
    (buildQuery 7 ['e', 'x', '.', 'c', 'o', 'm', '.'] (replicate 32 0)).1 = some 24 ∧
    decodeQuery ((buildQuery 7 ['e', 'x', '.', 'c', 'o', 'm', '.'] (replicate 32 0)).2.take 24) =
      some ⟨7, 0x0100, 1, 0, 0, 0, [[101, 120], [99, 111, 109]], 1, 1⟩ :=
  have trip := build_query_round_trip 7 ['e', 'x', '.', 'c', 'o', 'm', '.'] (replicate 32 0) (by decide)
  ⟨by decide, (trip.2 24 (by decide)).1⟩

end Ferros.Net
