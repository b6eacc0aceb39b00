/-
**The kernel reads an answer.**

`parse_answer` with `find_a` and `skip_name`. Every access to the datagram is either a `get`, whose failure ends
the search, or an index, whose failure is a panic; additions are checked or overflow.

* `skipName_gives`, `findA_gives` — **on any datagram they compute the walk of `Ferros.Net.Wire`**, so that no
  index leaves it and nothing overflows.
* `parseAnswer` — `Answer`, for any datagram and for the bytes of a response.
-/

import Ferros.Lib.Attempt
import Ferros.Net.Wire

namespace Ferros.Net

open Lib List Option

/-! ### Access -/

/-- `msg.get(i)?` -/
def get (msg : List UInt8) (i : ℕ) : Attempt UInt8 := .maybe msg[i]?

/-- `msg[i]` -/
def index (msg : List UInt8) (i : ℕ) : Attempt UInt8 := .surely msg[i]?

/-- `a + b` of two `usize`. -/
def plus (a b : ℕ) : Attempt ℕ := .surely (fitting 64 (a + b))

/-- `a.checked_add(b)?` -/
def checkedAdd (a b : ℕ) : Attempt ℕ := .maybe (fitting 64 (a + b))

/-! ### The parser -/

def qtypeA : ℕ := 1

def qclassIn : ℕ := 1

def skipName (msg : List UInt8) (pos : ℕ) : Attempt ℕ :=
  -- `msg.get(pos)?` and `pos.checked_add(..)?` are written out, for the loop to be seen to end.
  if inside : pos < msg.length then
    if msg[pos] &&& 0xc0 = 0xc0 then do
      let _ ← get msg (← plus pos 1)
      plus pos 2
    else if msg[pos] = 0 then plus pos 1
    else if pos + (1 + msg[pos].toNat) < 2 ^ 64 then skipName msg (pos + (1 + msg[pos].toNat))
    else failure
  else failure
termination_by msg.length - pos

/-- The loop over the questions. -/
def skipQuestions (msg : List UInt8) : ℕ → ℕ → Attempt ℕ
  | 0, pos => pure pos
  | count + 1, pos => do
      let pos ← skipName msg pos
      let pos ← checkedAdd pos 4
      skipQuestions msg count pos

/-- `u16::from_be_bytes([*msg.get(i)?, *msg.get(i + 1)?])`, `off` behind `pos`. -/
def getBe (msg : List UInt8) (pos off : ℕ) : Attempt ℕ := do
  let high ← get msg (← plus pos off)
  let low ← get msg (← plus pos (off + 1))
  return fromBe high low

/-- The loop over the answers. -/
def findAnswer (msg : List UInt8) : ℕ → ℕ → Attempt (UInt8 × UInt8 × UInt8 × UInt8)
  | 0, _ => failure
  | count + 1, pos => do
      let pos ← skipName msg pos
      let rtype ← getBe msg pos 0
      let rclass ← getBe msg pos 2
      let rdlen ← getBe msg pos 8
      let rdata ← checkedAdd pos 10
      let rend ← checkedAdd rdata rdlen
      if rend > msg.length then failure
      else if rtype = qtypeA ∧ rclass = qclassIn ∧ rdlen = 4 then do
        return (← index msg rdata, ← index msg (← plus rdata 1), ← index msg (← plus rdata 2),
          ← index msg (← plus rdata 3))
      else findAnswer msg count rend

def findA (msg : List UInt8) : Attempt (UInt8 × UInt8 × UInt8 × UInt8) := do
  if (← index msg 3) &&& 0x0f ≠ 0 then failure
  else
    let qdcount := fromBe (← index msg 4) (← index msg 5)
    let ancount := fromBe (← index msg 6) (← index msg 7)
    let pos ← skipQuestions msg qdcount 12
    findAnswer msg ancount pos

inductive Answer where
  | ipv4 (address : UInt8 × UInt8 × UInt8 × UInt8)
  | noIpv4
  | ignore
  deriving DecidableEq

/-- No value where the parser panics. -/
def parseAnswer (id : UInt16) (msg : List UInt8) : Option Answer := do
  if msg.length < 12 then return .ignore
  let first ← msg[0]?
  let second ← msg[1]?
  if fromBe first second ≠ id.toNat then return .ignore
  match ← (findA msg).run with
  | some address => return .ipv4 address
  | none => return .noIpv4

/-! ### The parser computes the walk -/

section

variable {msg : List UInt8} {pos i a b off : ℕ}

theorem plus_gives (fits : a + b < 2 ^ 64) : Gives (plus a b) (some (a + b)) := .surely (fitting_of_lt fits)

theorem checkedAdd_gives (fits : a + b < 2 ^ 64) : Gives (checkedAdd a b) (some (a + b)) := by
  rw [checkedAdd, fitting_of_lt fits]
  exact .maybe _

theorem getElem?_eq_getD (inside : i < msg.length) : msg[i]? = some (msg.getD i 0) := by
  rw [getD_eq_getElem?_getD, getElem?_eq_getElem inside]
  rfl

theorem index_gives (inside : i < msg.length) : Gives (index msg i) (some (msg.getD i 0)) :=
  .surely (getElem?_eq_getD inside)

theorem get_gives (inside : i < msg.length) : Gives (get msg i) (some (msg.getD i 0)) := by
  rw [get, getElem?_eq_getD inside]
  exact .maybe _

theorem get_gives_none (outside : msg.length ≤ i) : Gives (get msg i) none := by
  rw [get, getElem?_eq_none outside]
  exact .maybe _

section

variable (slice : msg.length < 2 ^ 63)
include slice

/-- **`skip_name` computes where a name ends.** -/
theorem skipName_gives (pos : ℕ) : Gives (skipName msg pos) (nameEnd msg pos) := by
  fun_induction nameEnd msg pos with
  | case1 pos inside pointer fits =>
    rw [skipName, dif_pos inside, if_pos pointer]
    exact .bind (plus_gives (by omega)) (.bind (get_gives (by omega)) (plus_gives (by omega)))
  | case2 pos inside pointer short =>
    rw [skipName, dif_pos inside, if_pos pointer]
    exact .bind (plus_gives (by omega)) (.stop (get_gives_none (by omega)))
  | case3 pos inside noPointer root =>
    rw [skipName, dif_pos inside, if_neg noPointer, if_pos root]
    exact plus_gives (by omega)
  | case4 pos inside noPointer noRoot ih =>
    have small := msg[pos].toNat_lt
    rw [skipName, dif_pos inside, if_neg noPointer, if_neg noRoot, if_pos (by omega)]
    exact ih
  | case5 pos outside =>
    rw [skipName, dif_neg outside]
    exact .nothing

theorem skipQuestions_gives (count pos : ℕ) :
    Gives (skipQuestions msg count pos) (questionsEnd msg count pos) := by
  induction count generalizing pos with
  | zero => exact .value pos
  | succ count ih =>
    have name := skipName_gives slice pos
    rw [skipQuestions, questionsEnd]
    cases found : nameEnd msg pos with
    | none => exact .stop (found ▸ name)
    | some stop =>
      have inside := (nameEnd_bounds found).2
      exact .bind (found ▸ name) (.bind (checkedAdd_gives (by omega)) (ih (stop + 4)))

theorem getBe_gives (inside : pos + off + 1 < msg.length) :
    Gives (getBe msg pos off) (some (word msg (pos + off))) :=
  .bind (plus_gives (by omega)) (.bind (get_gives (by omega))
    (.bind (plus_gives (by omega)) (.bind (get_gives inside) (.value _))))

omit slice in
theorem getBe_gives_none (small : pos + off + 1 < 2 ^ 64) (outside : msg.length ≤ pos + off + 1) :
    Gives (getBe msg pos off) none := by
  refine .bind (plus_gives (by omega)) ?_
  by_cases high : pos + off < msg.length
  · exact .bind (get_gives high) (.bind (plus_gives (by omega)) (.stop (get_gives_none outside)))
  · exact .stop (get_gives_none (by omega))

/-- The numbers of a record that the message is too short for. -/
theorem getBe_short (bounded : pos ≤ msg.length) (short : msg.length < pos + 10) {α : Type}
    (use : ℕ → ℕ → ℕ → Attempt α) :
    Gives (do
      let rtype ← getBe msg pos 0
      let rclass ← getBe msg pos 2
      let rdlen ← getBe msg pos 8
      use rtype rclass rdlen) none := by
  by_cases first : pos + 0 + 1 < msg.length
  · refine .bind (getBe_gives slice first) ?_
    by_cases second : pos + 2 + 1 < msg.length
    · exact .bind (getBe_gives slice second) (.stop (getBe_gives_none (by omega) (by omega)))
    · exact .stop (getBe_gives_none (by omega) (by omega))
  · exact .stop (getBe_gives_none (by omega) (by omega))

omit slice in
theorem word_lt (msg : List UInt8) (pos : ℕ) : word msg pos < 65536 := by
  have high := (msg.getD pos 0).toNat_lt
  have low := (msg.getD (pos + 1) 0).toNat_lt
  unfold word fromBe
  omega

theorem findAnswer_gives (count pos : ℕ) : Gives (findAnswer msg count pos) (recordsFrom msg count pos) := by
  induction count generalizing pos with
  | zero => exact .nothing
  | succ count ih =>
    have name := skipName_gives slice pos
    rw [findAnswer, recordsFrom]
    cases found : nameEnd msg pos with
    | none => exact .stop (found ▸ name)
    | some stop =>
      have bounded := (nameEnd_bounds found).2
      have small := word_lt msg (stop + 8)
      refine .bind (found ▸ name) ?_
      rw [bind_some]
      by_cases long : stop + 10 ≤ msg.length
      · refine .bind (getBe_gives slice (by omega)) (.bind (getBe_gives slice (by omega))
          (.bind (getBe_gives slice (by omega)) (.bind (checkedAdd_gives (by omega))
          (.bind (checkedAdd_gives (by omega)) ?_))))
        by_cases fits : stop + 10 + word msg (stop + 8) ≤ msg.length
        · rw [if_neg (Nat.not_lt.mpr fits), if_pos fits]
          by_cases address : word msg stop = 1 ∧ word msg (stop + 2) = 1 ∧ word msg (stop + 8) = 4
          · rw [if_pos address]
            have four := address.2.2
            refine (if_pos address).symm ▸ ?_
            exact .bind (index_gives (by omega)) (.bind (plus_gives (by omega))
              (.bind (index_gives (by omega))
              (.bind (plus_gives (by omega)) (.bind (index_gives (by omega)) (.bind (plus_gives (by omega))
              (.bind (index_gives (by omega)) (.value _)))))))
          · rw [if_neg address]
            refine (if_neg address).symm ▸ ?_
            exact ih _
        · rw [if_pos (Nat.lt_of_not_le fits), if_neg fits]
          exact .nothing
      · rw [if_neg (by omega)]
        exact getBe_short slice bounded (by omega) _

/-- **`find_a` computes the first address**, unless the server reports an error. -/
theorem findA_gives (header : 12 ≤ msg.length) :
    Gives (findA msg) (if msg.getD 3 0 &&& 0x0f ≠ 0 then none else firstAddress msg) := by
  rw [findA]
  refine .bind (index_gives (by omega)) ?_
  by_cases error : msg.getD 3 0 &&& 0x0f ≠ 0
  · rw [if_pos error, if_pos error]
    exact .nothing
  · rw [if_neg error, if_neg error]
    refine .bind (index_gives (by omega)) (.bind (index_gives (by omega)) (.bind (index_gives (by omega))
      (.bind (index_gives (by omega)) ?_)))
    have questions := skipQuestions_gives slice (word msg 4) 12
    rw [firstAddress]
    cases found : questionsEnd msg (word msg 4) 12 with
    | none => exact .stop (found ▸ questions)
    | some stop => exact .bind (found ▸ questions) (findAnswer_gives slice _ stop)

theorem parseAnswer_eq (id : UInt16) : parseAnswer id msg = some
    (if msg.length < 12 ∨ word msg 0 ≠ id.toNat then .ignore
    else (if msg.getD 3 0 &&& 0x0f ≠ 0 then none else firstAddress msg).elim .noIpv4 .ipv4) := by
  unfold parseAnswer
  by_cases short : msg.length < 12
  · rw [if_pos short, if_pos (.inl short)]
    rfl
  · have found := findA_gives slice (Nat.le_of_not_lt short)
    unfold Gives at found
    rw [if_neg short, getElem?_eq_getD (by omega), getElem?_eq_getD (by omega), found]
    simp only [Option.pure_def, bind_eq_bind, bind_some]
    by_cases other : word msg 0 ≠ id.toNat
    · rw [if_pos (show msg.length < 12 ∨ word msg 0 ≠ id.toNat from .inr other)]
      exact if_pos other
    · rw [if_neg (not_or.mpr ⟨short, other⟩)]
      refine (if_neg other).trans ?_
      generalize (if msg.getD 3 0 &&& 0x0f ≠ 0 then none else firstAddress msg) = address
      cases address <;> rfl

end

end

def Response.verdict (r : Response) : Answer :=
  if r.rcode = 0 then (r.answers.findSome? Record.ipv4).elim .noIpv4 .ipv4 else .noIpv4

theorem rcode_and (n : ℕ) : UInt8.ofNat n &&& 0x0f ≠ 0 ↔ n % 16 ≠ 0 := by
  have value : (UInt8.ofNat n &&& 0x0f).toNat = n % 16 := by
    rw [UInt8.toNat_and, UInt8.toNat_ofNat']
    exact (Nat.and_two_pow_sub_one_eq_mod _ 4).trans (Nat.mod_mod_of_dvd n ⟨16, rfl⟩)
  rw [← value, Ne, ← UInt8.toNat_inj]
  rfl

/-- **Answers are parsed safely and correctly.** No datagram makes the parser panic, and over the bytes of a
response to the query it returns the address of the first record of type A and class IN with four bytes, or its
absence. -/
theorem parse_answer_safe_correct (id : UInt16) :
    (∀ msg : List UInt8, msg.length < 2 ^ 63 → (parseAnswer id msg).isSome) ∧
    ∀ r : Response, r.id = id → r.encode.length < 2 ^ 63 → parseAnswer id r.encode = some r.verdict := by
  refine ⟨fun msg slice => ?_, fun r sameId slice => ?_⟩
  · rw [parseAnswer_eq slice]
    rfl
  · have long : ¬r.encode.length < 12 := by
      rw [Response.encode, length_append, show r.header.length = 12 from rfl]
      omega
    have isFlags : r.encode.getD 3 0 = UInt8.ofNat r.flags.toNat := rfl
    rw [parseAnswer_eq slice, if_neg (not_or.mpr ⟨long, not_not.mpr ?_⟩), isFlags, firstAddress_encode,
      Response.verdict]
    · by_cases fine : r.rcode = 0
      · rw [if_pos fine, if_neg (not_not.mpr ?_)]
        exact not_not.mp fun wrong => (rcode_and _).mp wrong fine
      · rw [if_neg fine, if_pos ((rcode_and _).mpr fine)]
        rfl
    · rw [(word_header r).1, sameId]

/-- An alias, and the address of the name that it stands for. -/
def aliasThenAddress : Response where
  id := 7
  flags := 0x8180
  questions := [⟨⟨[⟨[119, 119, 119], Nat.succ_pos _, Nat.le_of_ble_eq_true rfl⟩], .root⟩, 1, 1⟩]
  answers := [⟨⟨[], .pointer ⟨0, Nat.succ_pos _⟩ 12⟩, 5, 1, 60, [1, 97, 0], Nat.le_of_ble_eq_true rfl⟩,
    ⟨⟨[⟨[97], Nat.succ_pos _, Nat.le_of_ble_eq_true rfl⟩], .root⟩, 1, 1, 60, [93, 184, 216, 34],
      Nat.le_of_ble_eq_true rfl⟩]
  authority := []
  additional := []
  fewQuestions := Nat.le_of_ble_eq_true rfl
  fewAnswers := Nat.le_of_ble_eq_true rfl
  fewAuthority := Nat.le_of_ble_eq_true rfl
  fewAdditional := Nat.le_of_ble_eq_true rfl

theorem parse_answer_alias : aliasThenAddress.encode.length = 53 ∧
    parseAnswer 7 aliasThenAddress.encode = some (.ipv4 (93, 184, 216, 34)) :=
  ⟨rfl, (parse_answer_safe_correct 7).2 aliasThenAddress rfl (by decide)⟩

end Ferros.Net
