/-
**DNS messages on the wire.**

A message is a header of 12 bytes and four sections: questions, answers, authority, additional. Names are labels
of 1 to 63 bytes, each behind its length, ended by the root or by a pointer of two bytes to another name.

* `Response.encode` — the bytes of a message, field by field.
* `nameEnd`, `questionsEnd`, `recordsFrom` — a walk over bytes that nothing is known about.
-/

import Ferros.Lib.Bytes

namespace Ferros.Net

open List Option

variable {msg rest cell label : List UInt8} {pos stop i n : ℕ}

/-! ### Numbers -/

/-- A number of two bytes, the high one first. -/
def fromBe (high low : UInt8) : ℕ := high.toNat * 256 + low.toNat

/-- The two bytes of a number. -/
def toBe (n : ℕ) : List UInt8 := [UInt8.ofNat (n / 256), UInt8.ofNat n]

theorem fromBe_toBe (short : n < 65536) : fromBe (UInt8.ofNat (n / 256)) (UInt8.ofNat n) = n := by
  rw [fromBe, UInt8.toNat_ofNat', UInt8.toNat_ofNat']
  omega

/-- The number at a place of a message; what is not there is zero. -/
def word (msg : List UInt8) (pos : ℕ) : ℕ := fromBe (msg.getD pos 0) (msg.getD (pos + 1) 0)

/-- The four bytes at a place of a message. -/
def quad (msg : List UInt8) (pos : ℕ) : UInt8 × UInt8 × UInt8 × UInt8 :=
  (msg.getD pos 0, msg.getD (pos + 1) 0, msg.getD (pos + 2) 0, msg.getD (pos + 3) 0)

/-! ### Messages -/

structure Label where
  bytes : List UInt8
  nonempty : 0 < bytes.length
  short : bytes.length ≤ 63

/-- How a name ends: with the root, or with a pointer, 14 bits behind two bits that are set. -/
inductive Tail where
  | root
  | pointer (high : Fin 64) (low : UInt8)

structure Name where
  labels : List Label
  tail : Tail

structure Question where
  name : Name
  qtype : UInt16
  qclass : UInt16

structure Record where
  name : Name
  rtype : UInt16
  rclass : UInt16
  ttl : UInt32
  rdata : List UInt8
  short : rdata.length < 65536

structure Response where
  id : UInt16
  /-- QR, OPCODE, AA, TC, RD, RA, Z and, in the low four bits, RCODE. -/
  flags : UInt16
  questions : List Question
  answers : List Record
  authority : List Record
  additional : List Record
  fewQuestions : questions.length < 65536
  fewAnswers : answers.length < 65536
  fewAuthority : authority.length < 65536
  fewAdditional : additional.length < 65536

def Response.rcode (r : Response) : ℕ := r.flags.toNat % 16

/-- Labels, each behind its length. -/
def encodeLabels (labels : List (List UInt8)) : List UInt8 :=
  labels.flatMap fun label => UInt8.ofNat label.length :: label

def Tail.encode : Tail → List UInt8
  | .root => [0]
  | .pointer high low => [UInt8.ofNat (0xc0 + high), low]

def Name.encode (n : Name) : List UInt8 := encodeLabels (n.labels.map Label.bytes) ++ n.tail.encode

def Question.encode (q : Question) : List UInt8 := q.name.encode ++ (toBe q.qtype.toNat ++ toBe q.qclass.toNat)

/-- What stands between the name of a record and its data. -/
def Record.fixed (r : Record) : List UInt8 :=
  toBe r.rtype.toNat ++ toBe r.rclass.toNat ++ toBe (r.ttl.toNat / 65536) ++ toBe (r.ttl.toNat % 65536) ++
    toBe r.rdata.length

def Record.encode (r : Record) : List UInt8 := r.name.encode ++ (r.fixed ++ r.rdata)

def Response.header (r : Response) : List UInt8 :=
  toBe r.id.toNat ++ toBe r.flags.toNat ++ toBe r.questions.length ++ toBe r.answers.length ++
    toBe r.authority.length ++ toBe r.additional.length

def Response.encode (r : Response) : List UInt8 :=
  r.header ++ (r.questions.flatMap Question.encode ++ (r.answers.flatMap Record.encode ++
    (r.authority.flatMap Record.encode ++ r.additional.flatMap Record.encode)))

/-- The address in a record of type A and class IN that holds four bytes. -/
def Record.ipv4 (r : Record) : Option (UInt8 × UInt8 × UInt8 × UInt8) :=
  if r.rtype = 1 ∧ r.rclass = 1 ∧ r.rdata.length = 4 then some (quad r.rdata 0) else none

/-! ### A walk over any bytes -/

def nameEnd (msg : List UInt8) (pos : ℕ) : Option ℕ :=
  if inside : pos < msg.length then
    if msg[pos] &&& 0xc0 = 0xc0 then if pos + 2 ≤ msg.length then some (pos + 2) else none
    else if msg[pos] = 0 then some (pos + 1)
    else nameEnd msg (pos + (1 + msg[pos].toNat))
  else none
termination_by msg.length - pos

/-- Where the questions end; nothing says that the message is that long. -/
def questionsEnd (msg : List UInt8) : ℕ → ℕ → Option ℕ
  | 0, pos => some pos
  | count + 1, pos => (nameEnd msg pos).bind fun stop => questionsEnd msg count (stop + 4)

/-- The first address among the records from `pos` on. -/
def recordsFrom (msg : List UInt8) : ℕ → ℕ → Option (UInt8 × UInt8 × UInt8 × UInt8)
  | 0, _ => none
  | count + 1, pos => (nameEnd msg pos).bind fun stop =>
    if stop + 10 + word msg (stop + 8) ≤ msg.length then
      if word msg stop = 1 ∧ word msg (stop + 2) = 1 ∧ word msg (stop + 8) = 4 then some
        (quad msg (stop + 10))
      else recordsFrom msg count (stop + 10 + word msg (stop + 8))
    else none

/-- The first address of a message, whatever its RCODE. -/
def firstAddress (msg : List UInt8) : Option (UInt8 × UInt8 × UInt8 × UInt8) :=
  (questionsEnd msg (word msg 4) 12).bind (recordsFrom msg (word msg 6))

/-- **A name is in the message.** -/
theorem nameEnd_bounds (found : nameEnd msg pos = some stop) : pos < stop ∧ stop ≤ msg.length := by
  fun_induction nameEnd msg pos with
  | case1 pos inside pointer fits =>
    cases found
    exact ⟨by omega, fits⟩
  | case2 => cases found
  | case3 pos inside =>
    cases found
    exact ⟨by omega, inside⟩
  | case4 pos inside _ _ ih =>
    have later := ih found
    exact ⟨by omega, later.2⟩
  | case5 => cases found

/-! ### The walk over a response -/

section

section

variable (here : msg.drop pos = cell ++ rest)
include here

theorem getD_of_drop (inside : i < cell.length) : msg.getD (pos + i) 0 = cell.getD i 0 := by
  rw [getD_eq_getElem?_getD, ← getElem?_drop, here, getElem?_append_left inside, ← getD_eq_getElem?_getD]

theorem word_of_drop (inside : i + 1 < cell.length) : word msg (pos + i) = word cell i := by
  rw [word, Nat.add_assoc, getD_of_drop here (Nat.lt_of_succ_lt inside), getD_of_drop here inside, word]

theorem drop_of_drop : msg.drop (pos + cell.length) = rest := by
  rw [← drop_drop, here, drop_left]

theorem length_of_drop (nonempty : 0 < cell.length) : pos + cell.length ≤ msg.length := by
  have lengths := congrArg length here
  rw [length_drop, length_append] at lengths
  omega

end

theorem getElem_of_drop {byte : UInt8} (here : msg.drop pos = byte :: rest) :
    ∃ inside : pos < msg.length, msg[pos] = byte := by
  have first : msg[pos]? = some byte := by
    rw [← head?_drop, here]
    rfl
  exact List.getElem?_eq_some_iff.mp first

theorem length_not_pointer (short : n ≤ 63) : UInt8.ofNat n &&& 0xc0 ≠ 0xc0 := by
  decide +revert

theorem pointer_high (high : Fin 64) : UInt8.ofNat (0xc0 + high) &&& 0xc0 = 0xc0 := by
  decide +revert

theorem Tail.nameEnd_encode (tail : Tail) (here : msg.drop pos = tail.encode ++ rest) :
    nameEnd msg pos = some (pos + tail.encode.length) := by
  rw [nameEnd]
  cases tail with
  | root =>
    obtain ⟨inside, first⟩ := getElem_of_drop here
    rw [dif_pos inside, first, if_neg (by decide), if_pos rfl]
    rfl
  | pointer high low =>
    obtain ⟨inside, first⟩ := getElem_of_drop here
    have room : pos + 2 ≤ msg.length := length_of_drop here Nat.two_pos
    rw [dif_pos inside, first, if_pos (pointer_high high), if_pos room]
    rfl

theorem toNat_length (short : label.length ≤ 63) : (UInt8.ofNat label.length).toNat = label.length := by
  rw [UInt8.toNat_ofNat']
  omega

theorem length_ne_zero (nonempty : 0 < label.length) (short : label.length ≤ 63) :
    UInt8.ofNat label.length ≠ 0 := by
  intro zero
  have value := congrArg UInt8.toNat zero
  rw [toNat_length short] at value
  exact absurd value (Nat.ne_of_gt nonempty)

theorem nameEnd_label (nonempty : 0 < label.length) (short : label.length ≤ 63)
    (here : msg.drop pos = UInt8.ofNat label.length :: label ++ rest) :
    nameEnd msg pos = nameEnd msg (pos + (UInt8.ofNat label.length :: label).length) := by
  obtain ⟨inside, first⟩ := getElem_of_drop here
  rw [nameEnd, dif_pos inside, first, if_neg (length_not_pointer short), if_neg (length_ne_zero nonempty short),
    toNat_length short, length_cons, Nat.add_comm 1]

theorem encodeLabels_cons (label : List UInt8) (labels : List (List UInt8)) :
    encodeLabels (label :: labels) = UInt8.ofNat label.length :: label ++ encodeLabels labels := rfl

theorem nameEnd_labels {labels : List (List UInt8)}
    (sizes : ∀ label ∈ labels, 0 < label.length ∧ label.length ≤ 63)
    (here : msg.drop pos = encodeLabels labels ++ rest) :
    nameEnd msg pos = nameEnd msg (pos + (encodeLabels labels).length) := by
  induction labels generalizing pos with
  | nil => rfl
  | cons label labels ih =>
    obtain ⟨nonempty, short⟩ := sizes label mem_cons_self
    rw [encodeLabels_cons, append_assoc] at here
    rw [nameEnd_label nonempty short here, ih (fun l mem => sizes l (mem_cons_of_mem _ mem))
      (drop_of_drop here), encodeLabels_cons, length_append, Nat.add_assoc]

/-- **The walk steps over a name.** -/
theorem Name.nameEnd_encode (name : Name) (here : msg.drop pos = name.encode ++ rest) :
    nameEnd msg pos = some (pos + name.encode.length) := by
  rw [Name.encode, append_assoc] at here
  rw [nameEnd_labels ?_ here, name.tail.nameEnd_encode (drop_of_drop here), Name.encode, length_append,
    Nat.add_assoc]
  intro label mem
  obtain ⟨l, _, rfl⟩ := mem_map.mp mem
  exact ⟨l.nonempty, l.short⟩

theorem length_toBe (n : ℕ) : (toBe n).length = 2 := rfl

/-- **The walk steps over the questions.** -/
theorem questionsEnd_encode (questions : List Question)
    (here : msg.drop pos = questions.flatMap Question.encode ++ rest) :
    questionsEnd msg questions.length pos = some (pos + (questions.flatMap Question.encode).length) := by
  induction questions generalizing pos with
  | nil => rfl
  | cons q questions ih =>
    rw [flatMap_cons, append_assoc] at here
    have behind := drop_of_drop here
    have size : q.encode.length = q.name.encode.length + 4 := by
      rw [Question.encode, length_append, length_append, length_toBe, length_toBe]
    rw [Question.encode, append_assoc] at here
    rw [length_cons, questionsEnd, q.name.nameEnd_encode here, bind_some, Nat.add_assoc, ← size,
      ih behind, flatMap_cons, length_append, Nat.add_assoc]

theorem length_fixed (r : Record) : r.fixed.length = 10 := rfl

/-- The numbers of a record, where the walk reads them. -/
theorem word_fixed (r : Record) (here : msg.drop pos = r.fixed ++ rest) :
    word msg pos = r.rtype.toNat ∧ word msg (pos + 2) = r.rclass.toNat ∧ word msg
      (pos + 8) = r.rdata.length := by
  have atWord := fun i inside => word_of_drop here (i := i) inside
  rw [← Nat.add_zero pos, Nat.add_assoc pos 0 2, Nat.add_assoc pos 0 8, atWord 0 (Nat.le_add_left 2 8),
    atWord 2 (Nat.le_add_left 4 6), atWord 8 (Nat.le_refl 10)]
  exact ⟨fromBe_toBe r.rtype.toNat_lt, fromBe_toBe r.rclass.toNat_lt, fromBe_toBe r.short⟩

theorem quad_of_drop (here : msg.drop pos = cell ++ rest) (four : cell.length = 4) :
    quad msg pos = quad cell 0 := by
  have atByte := fun i inside => getD_of_drop here (i := i) inside
  rw [quad, ← Nat.add_zero pos, Nat.add_assoc pos 0 1, Nat.add_assoc pos 0 2, Nat.add_assoc pos 0 3,
    atByte _ (by omega), atByte _ (by omega), atByte _ (by omega), atByte _ (by omega), quad]

/-- **The walk finds the first address among the records.** -/
theorem recordsFrom_encode (records : List Record) (here : msg.drop pos = records.flatMap Record.encode ++ rest)
    : recordsFrom msg records.length pos = records.findSome? Record.ipv4 := by
  induction records generalizing pos with
  | nil => rfl
  | cons r records ih =>
    rw [flatMap_cons, append_assoc] at here
    have behind := drop_of_drop here
    have size : r.encode.length = r.name.encode.length + (10 + r.rdata.length) := by
      rw [Record.encode, length_append, length_append, length_fixed]
    have room := length_of_drop here (by omega)
    rw [Record.encode, append_assoc] at here
    have atFixed := drop_of_drop here
    rw [append_assoc] at atFixed
    obtain ⟨isType, isClass, isLength⟩ := word_fixed r atFixed
    have atData := drop_of_drop atFixed
    rw [length_fixed] at atData
    rw [length_cons, recordsFrom, r.name.nameEnd_encode here, bind_some, isType, isClass, isLength,
      if_pos (by omega), findSome?_cons]
    have onward : recordsFrom msg records.length (pos + r.name.encode.length + 10 + r.rdata.length) =
        records.findSome? Record.ipv4 := by
      rw [← ih behind, size]
      congr 1
      omega
    have numbers : (r.rtype = 1 ∧ r.rclass = 1 ∧ r.rdata.length = 4) ↔
        r.rtype.toNat = 1 ∧ r.rclass.toNat = 1 ∧ r.rdata.length = 4 :=
      and_congr UInt16.toNat_inj.symm (and_congr_left' UInt16.toNat_inj.symm)
    rw [onward, Record.ipv4]
    by_cases address : r.rtype.toNat = 1 ∧ r.rclass.toNat = 1 ∧ r.rdata.length = 4
    · rw [if_pos address, if_pos (numbers.mpr address), quad_of_drop atData address.2.2]
    · rw [if_neg address, if_neg fun all => address (numbers.mp all)]

/-- The numbers of the header, where the walk reads them. -/
theorem word_header (r : Response) : word r.encode 0 = r.id.toNat ∧ word r.encode 2 = r.flags.toNat ∧
    word r.encode 4 = r.questions.length ∧ word r.encode 6 = r.answers.length :=
  ⟨fromBe_toBe r.id.toNat_lt, fromBe_toBe r.flags.toNat_lt, fromBe_toBe r.fewQuestions,
    fromBe_toBe r.fewAnswers⟩

/-- **Over the bytes of a response the walk finds its first address record.** -/
theorem firstAddress_encode (r : Response) : firstAddress r.encode = r.answers.findSome? Record.ipv4 := by
  have start : r.encode.drop 12 = r.questions.flatMap Question.encode ++ (r.answers.flatMap Record.encode ++
      (r.authority.flatMap Record.encode ++ r.additional.flatMap Record.encode)) := rfl
  obtain ⟨_, _, isQuestions, isAnswers⟩ := word_header r
  rw [firstAddress, isQuestions, isAnswers, questionsEnd_encode r.questions start, bind_some,
    recordsFrom_encode r.answers (drop_of_drop start)]

end

end Ferros.Net
