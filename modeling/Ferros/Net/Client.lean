/-
**The codec of the user programs.**

`dns.h` is the same codec in C: positions are of type `int` and may run behind the end of the message, a name is
a string that a zero ends, and `-1` or `0` is returned where the kernel has `None`. A C program has no value
where an `int` overflows or an access leaves its array.

* `dnsSkipName_eq`, `dnsFirstA_gives` — **on messages that a datagram can hold they compute the walk of
  `Ferros.Net.Wire`**, as the kernel does.

Both codecs are compared with the walk, not with each other. The stores of a query are followed label by label
(`buildLabels_outcome`): each begins where the last ended, so that they are one write.
-/

import Ferros.Net.Query

namespace Ferros.Net

open Lib List Option

/-! ### C -/

/-- The value of an expression of type `int`. -/
def int32 (x : ℤ) : Option ℤ := if -2 ^ 31 ≤ x ∧ x < 2 ^ 31 then some x else none

/-- `(int)x`, which keeps the low 32 bits. -/
def toInt (x : ℤ) : ℤ := x.bmod (2 ^ 32)

/-- `array[i]` -/
def load (array : List UInt8) (i : ℤ) : Option UInt8 := if 0 ≤ i then array[i.toNat]? else none

/-- `array[i] = byte` -/
def store (array : List UInt8) (i : ℤ) (byte : UInt8) : Option (List UInt8) :=
  if 0 ≤ i ∧ i < array.length then some (array.set i.toNat byte) else none

/-- `(high << 8) | low` -/
def shifted (high low : UInt8) : ℕ := (high.toNat <<< 8) ||| low.toNat

/-! ### Reading -/

def dnsSkipName (msg : List UInt8) (len pos : ℤ) : Option ℤ :=
  if pos < len then do
    let c ← load msg pos
    if c &&& 0xc0 = 0xc0 then
      let stop ← int32 (pos + 2)
      return if stop ≤ len then stop else -1
    else if c = 0 then int32 (pos + 1)
    -- `pos += 1 + c`, written out for the loop to be seen to end.
    else if pos + (1 + c.toNat) < 2 ^ 31 then dnsSkipName msg len (pos + (1 + c.toNat))
    else none
  else some (-1)
termination_by (len - pos).toNat

/-- The loop over the questions; nothing means that `0` is returned. -/
def dnsQuestions (msg : List UInt8) (len : ℤ) : ℕ → ℤ → Attempt ℤ
  | 0, pos => pure pos
  | count + 1, pos => do
      let pos ← .surely (dnsSkipName msg len pos)
      if pos < 0 then failure
      else
        let pos ← .surely (int32 (pos + 4))
        dnsQuestions msg len count pos

/-- `(msg[i] << 8) | msg[i + 1]` -/
def loadBe (msg : List UInt8) (i : ℤ) : Attempt ℕ := do
  let high ← .surely (load msg i)
  let low ← .surely (load msg (i + 1))
  return shifted high low

/-- The loop over the answers; nothing means that `0` is returned. -/
def dnsAnswers (msg : List UInt8) (len : ℤ) : ℕ → ℤ → Attempt (UInt8 × UInt8 × UInt8 × UInt8)
  | 0, _ => failure
  | count + 1, pos => do
      let pos ← .surely (dnsSkipName msg len pos)
      if pos < 0 then failure
      else if (← .surely (int32 (pos + 10))) > len then failure
      else
        let type ← loadBe msg pos
        let cls ← loadBe msg (pos + 2)
        let rdlen ← loadBe msg (pos + 8)
        let rdata ← .surely (int32 (pos + 10))
        let stop ← .surely (int32 (rdata + rdlen))
        if stop > len then failure
        else if type = 1 ∧ cls = 1 ∧ rdlen = 4 then
          return (← .surely (load msg rdata), ← .surely (load msg (rdata + 1)), ← .surely
            (load msg (rdata + 2)),
            ← .surely (load msg (rdata + 3)))
        else dnsAnswers msg len count stop

/-- What is stored in `ip` when `1` is returned. -/
def dnsFirstA (msg : List UInt8) (len : ℤ) : Attempt (UInt8 × UInt8 × UInt8 × UInt8) :=
  if len < 12 then failure
  else do
    let qd ← loadBe msg 4
    let an ← loadBe msg 6
    let pos ← dnsQuestions msg len qd 12
    dnsAnswers msg len an pos

/-! ### Writing -/

/-- `out` and `n`. -/
structure Out where
  out : List UInt8
  n : ℤ

/-- `out[n++] = byte` for each of them. -/
def emits : List UInt8 → Out → Option Out
  | [], s => some s
  | byte :: bytes, s => do
      let out ← store s.out s.n byte
      let n ← int32 (s.n + 1)
      emits bytes ⟨out, n⟩

/-- `while (*dot && *dot != '.') dot++` -/
def scanDot (name : List UInt8) (dot : ℕ) : Option ℕ :=
  if inside : dot < name.length then
    if name[dot] ≠ 0 ∧ name[dot] ≠ 46 then scanDot name (dot + 1) else some dot
  else none
termination_by name.length - dot

/-- `for (int i = 0; i < len; i++) out[n++] = p[i]`, with what is left of `len`. -/
def copyLabel (name : List UInt8) : ℕ → ℕ → Out → Option Out
  | 0, _, s => some s
  | left + 1, p, s => do
      let byte ← name[p]?
      let s ← emits [byte] s
      copyLabel name left (p + 1) s

/-- The loop over the labels, which gets on by at least one byte in each round; `false` means that `-1` is
returned. -/
def buildLabels (name : List UInt8) (cap : ℤ) : ℕ → ℕ → Out → Option (Bool × Out)
  | 0, _, _ => none
  | rounds + 1, p, s => do
      if (← name[p]?) = 0 then return (true, s)
      let dot ← scanDot name p
      let len := toInt ((dot : ℤ) - p)
      if len = 0 ∨ len > 63 then return (false, s)
      if (← int32 (s.n + 1 + len)) > cap then return (false, s)
      let s ← emits [UInt8.ofNat len.toNat] s
      let s ← copyLabel name len.toNat p s
      let p := if (← name[dot]?) = 46 then dot + 1 else dot
      buildLabels name cap rounds p s

/-- The value returned, and the buffer. -/
def dnsBuild (id : UInt16) (name out : List UInt8) (cap : ℤ) : Option (ℤ × List UInt8) := do
  if cap < 12 then return (-1, out)
  let s ← emits [UInt8.ofNat (id.toNat >>> 8), UInt8.ofNat id.toNat, 0x01, 0x00, 0x00, 0x01, 0x00, 0x00, 0x00,
    0x00,
    0x00, 0x00] ⟨out, 0⟩
  let (going, s) ← buildLabels name cap name.length 0 s
  if going = false then return (-1, s.out)
  if (← int32 (s.n + 5)) > cap then return (-1, s.out)
  let s ← emits [0x00, 0x00, 0x01, 0x00, 0x01] s
  return (s.n, s.out)

/-! ### Reading: the same walk -/

variable {msg out name piece rest bytes label tail : List UInt8} {a b k pos p cap rounds : ℕ} {α : Type}
  {good : Prop} {result : Option (Bool × Out)} {text : List Char} {use : ℤ → Attempt α} {byte : UInt8}

section Reads

theorem int32_sum (small : a + b < 2 ^ 31) : int32 ((a : ℤ) + (b : ℤ)) = some ((a + b : ℕ) : ℤ) :=
  if_pos ⟨by omega, by omega⟩

theorem load_getElem (inside : k < msg.length) : load msg k = some msg[k] := by
  rw [load, if_pos (Int.natCast_nonneg k), Int.toNat_natCast, getElem?_eq_getElem inside]

theorem load_eq (inside : k < msg.length) : load msg k = some (msg.getD k 0) := by
  rw [load, if_pos (Int.natCast_nonneg k), Int.toNat_natCast, getElem?_eq_getD inside]

theorem shifted_eq (high low : UInt8) : shifted high low = fromBe high low := by
  rw [shifted, fromBe, ← Nat.shiftLeft_add_eq_or_of_lt low.toNat_lt, Nat.shiftLeft_eq]

section

variable (short : msg.length ≤ 65535) {stop : ℕ}
include short

/-- **`dns_skip_name` computes where a name ends.** -/
theorem dnsSkipName_eq (pos : ℕ) :
    dnsSkipName msg msg.length pos = some ((nameEnd msg pos).elim (-1) fun stop => (stop : ℤ)) := by
  fun_induction nameEnd msg pos with
  | case1 pos inside pointer fits =>
    rw [dnsSkipName, if_pos (by omega), load_getElem inside, bind_eq_bind, bind_some, if_pos pointer]
    have sum : int32 ((pos : ℤ) + 2) = some ((pos + 2 : ℕ) : ℤ) := int32_sum (b := 2) (by omega)
    rw [sum, bind_eq_bind, bind_some, if_pos (by omega)]
    rfl
  | case2 pos inside pointer tooShort =>
    rw [dnsSkipName, if_pos (by omega), load_getElem inside, bind_eq_bind, bind_some, if_pos pointer]
    have sum : int32 ((pos : ℤ) + 2) = some ((pos + 2 : ℕ) : ℤ) := int32_sum (b := 2) (by omega)
    rw [sum, bind_eq_bind, bind_some, if_neg (by omega)]
    rfl
  | case3 pos inside noPointer root =>
    rw [dnsSkipName, if_pos (by omega), load_getElem inside, bind_eq_bind, bind_some,
      if_neg noPointer, if_pos root]
    exact int32_sum (b := 1) (by omega)
  | case4 pos inside noPointer noRoot ih =>
    have small := msg[pos].toNat_lt
    rw [dnsSkipName, if_pos (by omega), load_getElem inside, bind_eq_bind, bind_some,
      if_neg noPointer, if_neg noRoot, if_pos (by omega)]
    exact ih
  | case5 pos outside =>
    rw [dnsSkipName, if_neg (by omega)]
    rfl

/-- `dns_skip_name` and the test of its result. -/
theorem skip_gives_none (found : nameEnd msg pos = none) :
    Gives (Attempt.surely (dnsSkipName msg msg.length pos) >>= fun p =>
      if p < 0 then failure else use p) none := by
  refine .bind (.surely (dnsSkipName_eq short pos)) ?_
  rw [found]
  exact .nothing

theorem skip_gives (found : nameEnd msg pos = some stop) {r : Option α} (rest : Gives (use stop) r) :
    Gives (Attempt.surely (dnsSkipName msg msg.length pos) >>= fun p => if p < 0 then failure else use p) r := by
  refine .bind (.surely (dnsSkipName_eq short pos)) ?_
  rw [found, elim_some, if_neg (by omega)]
  exact rest

theorem dnsQuestions_gives (count pos : ℕ) :
    Gives (dnsQuestions msg msg.length count pos) ((questionsEnd msg count pos).map fun stop => (stop : ℤ)) := by
  induction count generalizing pos with
  | zero => exact .value _
  | succ count ih =>
    rw [dnsQuestions, questionsEnd]
    cases found : nameEnd msg pos with
    | none => exact skip_gives_none short found
    | some stop =>
      have inside := (nameEnd_bounds found).2
      exact skip_gives short found (.bind (.surely (int32_sum (b := 4) (by omega))) (ih (stop + 4)))

omit short in
theorem loadBe_gives (inside : k + 1 < msg.length) : Gives (loadBe msg k) (some (word msg k)) := by
  rw [word, ← shifted_eq]
  exact .bind (.surely (load_eq (by omega))) (.bind (.surely (load_eq inside)) (.value _))

theorem dnsAnswers_gives (count pos : ℕ) :
    Gives (dnsAnswers msg msg.length count pos) (recordsFrom msg count pos) := by
  induction count generalizing pos with
  | zero => exact .nothing
  | succ count ih =>
    rw [dnsAnswers, recordsFrom]
    cases found : nameEnd msg pos with
    | none => exact skip_gives_none short found
    | some stop =>
      have inside := (nameEnd_bounds found).2
      have small := word_lt msg (stop + 8)
      have sum : int32 ((stop : ℤ) + 10) = some ((stop + 10 : ℕ) : ℤ) := int32_sum (b := 10) (by omega)
      refine skip_gives short found (.bind (.surely sum) ?_)
      rw [bind_some]
      by_cases long : stop + 10 ≤ msg.length
      · rw [if_neg (by omega)]
        have whole : int32 (((stop + 10 : ℕ) : ℤ) + (word msg (stop + 8) : ℤ)) =
            some ((stop + 10 + word msg (stop + 8) : ℕ) : ℤ) := int32_sum (by omega)
        refine .bind (loadBe_gives (by omega)) (.bind (loadBe_gives (k := stop + 2) (by omega))
          (.bind (loadBe_gives (k := stop + 8) (by omega))
          (.bind (.surely sum) (.bind (.surely whole) ?_))))
        by_cases fits : stop + 10 + word msg (stop + 8) ≤ msg.length
        · rw [if_neg (by omega), if_pos fits]
          by_cases address : word msg stop = 1 ∧ word msg (stop + 2) = 1 ∧ word msg (stop + 8) = 4
          · rw [if_pos address, if_pos address]
            have four := address.2.2
            exact .bind (.surely (load_eq (by omega)))
              (.bind (.surely (load_eq (k := stop + 10 + 1) (by omega)))
              (.bind (.surely (load_eq (k := stop + 10 + 2) (by omega)))
              (.bind (.surely (load_eq (k := stop + 10 + 3) (by omega))) (.value _))))
          · rw [if_neg address, if_neg address]
            exact ih _
        · rw [if_pos (by omega), if_neg fits]
          exact .nothing
      · rw [if_pos (by omega), if_neg (by omega)]
        exact .nothing

end

/-- **`dns_first_a` computes the first address.** -/
theorem dnsFirstA_gives (header : 12 ≤ msg.length) (short : msg.length ≤ 65535) :
    Gives (dnsFirstA msg msg.length) (firstAddress msg) := by
  rw [dnsFirstA, if_neg (by omega)]
  refine .bind (loadBe_gives (k := 4) (by omega)) (.bind (loadBe_gives (k := 6) (by omega)) ?_)
  have questions := dnsQuestions_gives short (word msg 4) 12
  rw [firstAddress]
  cases found : questionsEnd msg (word msg 4) 12 with
  | none =>
    rw [found] at questions
    exact .stop questions
  | some stop =>
    rw [found] at questions
    exact .bind questions (dnsAnswers_gives short _ stop)

end Reads

/-! ### Writing: the same query -/

theorem byte_of_char {c : Char} (mem : byte ∈ String.utf8EncodeChar c) :
    byte.toNat = c.val.toNat ∨ 128 ≤ byte.toNat := by
  unfold String.utf8EncodeChar at mem
  simp only at mem
  split at mem
  · rw [mem_singleton.mp mem, UInt8.toNat_ofNat']
    omega
  · right
    split at mem
    · simp only [mem_cons, not_mem_nil, or_false] at mem
      rcases mem with rfl | rfl <;> rw [UInt8.toNat_ofNat'] <;> omega
    · split at mem
      · simp only [mem_cons, not_mem_nil, or_false] at mem
        rcases mem with rfl | rfl | rfl <;> rw [UInt8.toNat_ofNat'] <;> omega
      · simp only [mem_cons, not_mem_nil, or_false] at mem
        rcases mem with rfl | rfl | rfl | rfl <;> rw [UInt8.toNat_ofNat'] <;> omega

theorem dot_notMem_utf8 (clean : '.' ∉ text) : 46 ∉ utf8 text := by
  intro mem
  obtain ⟨c, inside, bytes⟩ := mem_flatMap.mp mem
  rcases byte_of_char bytes with same | high
  · have isDot : c = '.' := Char.ext (UInt32.toNat_inj.mp same.symm)
    exact clean (isDot ▸ inside)
  · exact absurd high (by decide)

theorem utf8_append (text more : List Char) : utf8 (text ++ more) = utf8 text ++ utf8 more :=
    flatMap_append

/-- The labels that the C loop finds in what is left of a name. -/
def labelsFrom (text : List Char) : List (List UInt8) := if text = [] then [] else labelsOf text

theorem stripDot_concat (text : List Char) (c : Char) :
    stripDot (text ++ [c]) = if c = '.' then text else text ++ [c] := by
  rw [stripDot, getLast?_concat, dropLast_concat]
  simp only [some.injEq]

theorem labelsFrom_last {label : List Char} (nonempty : label ≠ []) (clean : '.' ∉ label) :
    labelsFrom label = [utf8 label] := by
  have noDot : stripDot label = label := if_neg fun last => clean (mem_of_getLast? last)
  rw [labelsFrom, if_neg nonempty, labelsOf, noDot, splitOn_eq_singleton clean, map_singleton]

theorem labelsFrom_cons {label : List Char} (clean : '.' ∉ label) (more : List Char) :
    labelsFrom (label ++ '.' :: more) = utf8 label :: labelsFrom more := by
  rw [labelsFrom, if_neg (append_ne_nil_of_right_ne_nil _ (cons_ne_nil _ _)), labelsOf]
  rcases eq_nil_or_concat more with rfl | ⟨init, c, rfl⟩
  · rw [stripDot_concat, if_pos rfl, splitOn_eq_singleton clean, map_singleton, labelsFrom, if_pos rfl]
  · have stripped : stripDot (label ++ '.' :: (init ++ [c])) = label ++ '.' :: stripDot (init ++ [c]) := by
      rw [← cons_append, ← append_assoc, stripDot_concat, stripDot_concat]
      split
      · rfl
      · rw [append_assoc, cons_append]
    rw [concat_eq_append, stripped, splitOn_append_cons_self, splitOn_eq_singleton clean, map_append,
      map_singleton, labelsFrom, if_neg (concat_ne_nil c init), labelsOf, singleton_append]

/-- What is left of a name is a label, and then its end or a dot and the rest. -/
theorem text_split (nonempty : text ≠ []) : ∃ (label more : List Char) (stop : UInt8),
    '.' ∉ label ∧ labelsFrom text = utf8 label :: labelsFrom more ∧
    ((stop = 46 ∧ utf8 text = utf8 label ++ 46 :: utf8 more) ∨ (stop = 0 ∧ text = label ∧ more = [])) := by
  by_cases dotted : '.' ∈ text
  · obtain ⟨label, more, rfl, clean⟩ := eq_append_cons_of_mem dotted
    refine ⟨label, more, 46, clean, labelsFrom_cons clean more, .inl ⟨rfl, ?_⟩⟩
    rw [utf8_append]
    rfl
  · exact ⟨text, [], 0, dotted, labelsFrom_last nonempty dotted, .inr ⟨rfl, rfl, rfl⟩⟩

section Writes

theorem drop_succ_of_drop (here : name.drop p = byte :: rest) : name.drop (p + 1) = rest := by
  rw [← drop_drop, here]
  rfl

theorem store_eq (inside : k < out.length) (byte : UInt8) : store out k byte = some
    (overwrite out k [byte]) := by
  rw [store, if_pos ⟨Int.natCast_nonneg k, Int.ofNat_lt.mpr inside⟩, Int.toNat_natCast, set_eq_overwrite inside]

/-- **Stores one behind the other are one write.** -/
theorem emits_eq (fits : k + bytes.length ≤ out.length) (small : out.length ≤ 65535) :
    emits bytes ⟨out, k⟩ = some ⟨overwrite out k bytes, ((k + bytes.length : ℕ) : ℤ)⟩ := by
  induction bytes generalizing out k with
  | nil =>
    rw [emits, overwrite_nil]
    rfl
  | cons byte bytes ih =>
    rw [length_cons] at fits
    have one : (overwrite out k [byte]).length = out.length :=
      length_overwrite (by rw [length_singleton]; omega)
    have next : int32 ((k : ℤ) + 1) = some ((k + 1 : ℕ) : ℤ) := int32_sum (b := 1) (by omega)
    have both : overwrite (overwrite out k [byte]) (k + 1) bytes = overwrite out k (byte :: bytes) :=
      overwrite_append (by omega) bytes
    rw [emits]
    simp only
    rw [store_eq (by omega), bind_eq_bind, bind_some, next, bind_eq_bind, bind_some, ih (by omega) (by omega),
      both, length_cons, Nat.add_assoc, Nat.add_comm 1]

theorem emits_cons (byte : UInt8) (bytes : List UInt8) (s : Out) :
    emits (byte :: bytes) s = (emits [byte] s).bind (emits bytes) := by
  simp only [emits, bind_eq_bind, bind_assoc, bind_some]

theorem copyLabel_eq (here : name.drop p = label ++ rest) (s : Out) :
    copyLabel name label.length p s = emits label s := by
  induction label generalizing p s with
  | nil => rfl
  | cons byte label ih =>
    obtain ⟨inside, first⟩ := getElem_of_drop here
    have behind := drop_succ_of_drop here
    rw [length_cons, copyLabel, getElem?_eq_getElem inside, first, emits_cons]
    simp only [bind_eq_bind, bind_some, ih behind]

theorem scanDot_eq {stop : UInt8} (here : name.drop p = label ++ stop :: rest)
    (clean : ∀ byte ∈ label, byte ≠ 0 ∧ byte ≠ 46) (ends : stop = 46 ∨ stop = 0) :
    scanDot name p = some (p + label.length) := by
  induction label generalizing p with
  | nil =>
    obtain ⟨inside, first⟩ := getElem_of_drop here
    rw [scanDot, dif_pos inside, first, if_neg (by rcases ends with rfl | rfl <;> decide)]
    rfl
  | cons byte label ih =>
    obtain ⟨inside, first⟩ := getElem_of_drop here
    obtain ⟨now, later⟩ := forall_mem_cons.mp clean
    rw [scanDot, dif_pos inside, first, if_pos now, ih (drop_succ_of_drop here) later, length_cons]
    congr 1
    omega

/-- The cells were stored, if they are good and fit, and otherwise `-1` is returned. -/
structure Outcome (good : Prop) (bytes out : List UInt8) (k : ℕ) (result : Option (Bool × Out)) : Prop where
  done : good → k + bytes.length ≤ out.length →
    result = some (true, ⟨overwrite out k bytes, ((k + bytes.length : ℕ) : ℤ)⟩)
  refused : ¬(good ∧ k + bytes.length ≤ out.length) → ∃ s, result = some (false, s)

/-- What is stored behind other cells. -/
theorem Outcome.behind (fits : k + piece.length ≤ out.length)
    (later : Outcome good bytes (overwrite out k piece) (k + piece.length) result) :
    Outcome good (piece ++ bytes) out k result := by
  have same : (overwrite out k piece).length = out.length := length_overwrite fits
  have sum : k + (piece ++ bytes).length = k + piece.length + bytes.length := by
    rw [length_append, Nat.add_assoc]
  refine ⟨fun isGood room => ?_, fun wrong => later.refused fun both => wrong ⟨both.1, ?_⟩⟩
  · rw [later.done isGood (by omega), overwrite_append (by omega), sum]
  · have := both.2
    omega

theorem Outcome.returns (outcome : Outcome good bytes out k result) : ∃ named, result = some named := by
  by_cases both : good ∧ k + bytes.length ≤ out.length
  · exact ⟨_, outcome.done both.1 both.2⟩
  · obtain ⟨s, refused⟩ := outcome.refused both
    exact ⟨_, refused⟩

theorem Outcome.refuse {s : Out} (wrong : ¬(good ∧ k + bytes.length ≤ out.length)) :
    Outcome good bytes out k (some (false, s)) :=
  ⟨fun isGood room => absurd ⟨isGood, room⟩ wrong, fun _ => ⟨s, rfl⟩⟩

theorem toInt_of_nat {n : ℕ} (small : n < 2 ^ 31) : toInt n = n := by
  unfold toInt
  exact Int.bmod_eq_of_le (by omega) (by omega)

section Round

variable {stop : UInt8}

variable (here : name.drop p = label ++ stop :: tail) (clean : ∀ byte ∈ label, byte ≠ 0 ∧ byte ≠ 46)
include here clean

theorem begins_of_drop (begins : label = [] → stop ≠ 0) : ∃ byte, name[p]? = some byte ∧ byte ≠ 0 := by
  cases label with
  | nil =>
    obtain ⟨inside, first⟩ := getElem_of_drop here
    exact ⟨stop, List.getElem?_eq_some_iff.mpr ⟨inside, first⟩, begins rfl⟩
  | cons byte label =>
    obtain ⟨inside, first⟩ := getElem_of_drop here
    exact ⟨byte, List.getElem?_eq_some_iff.mpr ⟨inside, first⟩, (clean byte List.mem_cons_self).1⟩

theorem buildLabels_tests (ends : stop = 46 ∨ stop = 0) (begins : label = [] → stop ≠ 0)
    (small : label.length < 2 ^ 31) (bounded : k ≤ 65535) : buildLabels name cap (rounds + 1) p ⟨out, k⟩ =
      if label.length = 0 ∨ label.length > 63 then some (false, ⟨out, k⟩)
      else if k + 1 + label.length > cap then some (false, ⟨out, k⟩)
      else (emits (UInt8.ofNat label.length :: label) ⟨out, k⟩).bind fun s =>
        buildLabels name cap rounds (if stop = 46 then p + label.length + 1 else p + label.length) s := by
  obtain ⟨byte, first, nonzero⟩ := begins_of_drop here clean begins
  have dot := scanDot_eq here clean ends
  have len : toInt (((p + label.length : ℕ) : ℤ) - (p : ℤ)) = (label.length : ℤ) := by
    rw [← toInt_of_nat small]
    congr 1
    omega
  obtain ⟨inside, atDot⟩ := getElem_of_drop (drop_of_drop here)
  rw [buildLabels, first, bind_eq_bind, bind_some, if_neg nonzero, dot, bind_eq_bind, bind_some, len]
  simp only [Int.toNat_natCast]
  by_cases wrong : label.length = 0 ∨ label.length > 63
  · rw [if_pos wrong, if_pos (by omega)]
    rfl
  · have sum : int32 ((k : ℤ) + 1 + (label.length : ℤ)) = some ((k + 1 + label.length : ℕ) : ℤ) :=
      int32_sum (a := k + 1) (by omega)
    rw [if_neg wrong, if_neg (by omega), sum, bind_eq_bind, bind_some]
    by_cases full : k + 1 + label.length > cap
    · rw [if_pos full, if_pos (by omega)]
      rfl
    · rw [if_neg full, if_neg (by omega), emits_cons _ label, bind_assoc]
      simp only [copyLabel_eq here, getElem?_eq_getElem inside, atDot, bind_eq_bind, bind_some]

/-- **One round stores one label.** -/
theorem buildLabels_round (ends : stop = 46 ∨ stop = 0) (begins : label = [] → stop ≠ 0)
    (small : label.length < 2 ^ 31) (short : cap ≤ 65535) (inside : k ≤ out.length) (isCap : out.length = cap)
    (later : k + (UInt8.ofNat label.length :: label).length ≤ out.length →
      Outcome good bytes (overwrite out k (UInt8.ofNat label.length :: label))
        (k + (UInt8.ofNat label.length :: label).length)
        (buildLabels name cap rounds (if stop = 46 then p + label.length + 1 else p + label.length)
          ⟨overwrite out k (UInt8.ofNat label.length :: label),
            ((k + (UInt8.ofNat label.length :: label).length : ℕ) : ℤ)⟩)) :
    Outcome (IsLabel label ∧ good) (UInt8.ofNat label.length :: label ++ bytes) out k
      (buildLabels name cap (rounds + 1) p ⟨out, k⟩) := by
  have size : (UInt8.ofNat label.length :: label).length = label.length + 1 := length_cons
  rw [buildLabels_tests here clean ends begins small (by omega)]
  by_cases wrong : label.length = 0 ∨ label.length > 63
  · rw [if_pos wrong]
    refine .refuse fun both => ?_
    obtain ⟨⟨⟨nonempty, few⟩, -⟩, -⟩ := both
    omega
  · rw [if_neg wrong]
    by_cases full : k + 1 + label.length > cap
    · rw [if_pos full]
      refine .refuse fun both => ?_
      have room := both.2
      rw [length_append] at room
      omega
    · have fits : k + (UInt8.ofNat label.length :: label).length ≤ out.length := by omega
      have isLabel : IsLabel label := ⟨by omega, by omega⟩
      rw [if_neg full, emits_eq fits (by omega), bind_some]
      have behind := (later fits).behind fits
      exact ⟨fun both => behind.done both.2, fun no => behind.refused fun both =>
        no ⟨⟨isLabel, both.1⟩, both.2⟩⟩

end Round

/-- **The loop over the labels stores them.** -/
theorem buildLabels_outcome (short : cap ≤ 65535) (rounds : ℕ) (text : List Char)
    (here : name.drop p = utf8 text ++ [0]) (nulFree : 0 ∉ utf8 text) (small : (utf8 text).length < 2 ^ 31)
    (enough : (utf8 text).length < rounds) (inside : k ≤ out.length) (isCap : out.length = cap) :
    Outcome (∀ label ∈ labelsFrom text, IsLabel label) (encodeLabels (labelsFrom text)) out k
      (buildLabels name cap rounds p ⟨out, k⟩) := by
  induction rounds generalizing text p out k with
  | zero => exact absurd enough (Nat.not_lt_zero _)
  | succ rounds ih =>
    by_cases empty : text = []
    · subst empty
      obtain ⟨room, first⟩ : ∃ room : p < name.length, name[p] = 0 := getElem_of_drop here
      have ended : buildLabels name cap (rounds + 1) p ⟨out, k⟩ = some (true, ⟨out, k⟩) := by
        rw [buildLabels, getElem?_eq_getElem room, first]
        rfl
      rw [ended]
      refine ⟨fun _ _ => ?_, fun wrong => absurd ⟨fun l mem => (by cases mem), inside⟩ wrong⟩
      rw [show encodeLabels (labelsFrom []) = [] from rfl, overwrite_nil]
      rfl
    · obtain ⟨label, more, stop, noDot, areLabels, split⟩ := text_split empty
      have clean : ∀ byte ∈ utf8 label, byte ∈ utf8 text → byte ≠ 0 ∧ byte ≠ 46 := fun byte mem also =>
        ⟨fun zero => nulFree (zero ▸ also), fun dot => dot_notMem_utf8 noDot (dot ▸ mem)⟩
      rw [areLabels, encodeLabels_cons, forall_mem_cons]
      rcases split with ⟨rfl, isText⟩ | ⟨rfl, rfl, rfl⟩
      · rw [isText, append_assoc, cons_append] at here
        rw [isText] at nulFree small enough
        rw [length_append, length_cons] at small enough
        refine buildLabels_round here (fun byte mem => clean byte mem ?_) (.inl rfl)
          (fun _ => (by decide))
          (by omega) short inside isCap fun fits => ?_
        · rw [isText]
          exact mem_append_left _ mem
        · rw [if_pos rfl]
          refine ih more (drop_succ_of_drop (drop_of_drop here)) (fun mem => nulFree ?_) (by omega)
            (by omega) ?_ ?_
          · exact mem_append_right _ (mem_cons_of_mem _ mem)
          · rw [length_overwrite fits]
            exact fits
          · rw [length_overwrite fits]
            exact isCap
      · refine buildLabels_round here (fun byte mem => clean byte mem mem) (.inr rfl)
          (fun none => absurd (utf8_eq_nil.mp none) empty) small short inside isCap fun fits => ?_
        rw [if_neg (by decide)]
        refine ih [] (drop_of_drop here) not_mem_nil (by decide) ?_ ?_ ?_
        · have := length_pos_iff.mpr (utf8_eq_nil.not.mpr empty)
          rw [show (utf8 []).length = 0 from rfl]
          omega
        · rw [length_overwrite fits]
          exact fits
        · rw [length_overwrite fits]
          exact isCap

/-- The header, as `dns_build` stores it. -/
def header (id : UInt16) : List UInt8 :=
  [UInt8.ofNat (id.toNat >>> 8), UInt8.ofNat id.toNat, 0x01, 0x00, 0x00, 0x01, 0x00, 0x00, 0x00, 0x00, 0x00,
    0x00]

theorem encodeQuery_eq (id : UInt16) (labels : List (List UInt8)) :
    encodeQuery id labels = header id ++ (encodeLabels labels ++ [0x00, 0x00, 0x01, 0x00, 0x01]) := by
  rw [header, Nat.shiftRight_eq_div_pow]
  rfl

theorem length_encodeQuery (id : UInt16) (labels : List (List UInt8)) :
    (encodeQuery id labels).length = 12 + (encodeLabels labels).length + 5 := by
  rw [encodeQuery_eq, length_append, length_append, ← Nat.add_assoc]
  rfl

section Build

section

variable (id : UInt16) (nonempty : text ≠ []) (nulFree : 0 ∉ utf8 text) (small : (utf8 text).length < 2 ^ 31)
  (short : out.length ≤ 65535)
include id nonempty nulFree small short

/-- `dns_build` up to the end of the name. -/
theorem dnsBuild_name (long : 12 ≤ out.length) : ∃ named,
    Outcome (∀ label ∈ labelsOf text, IsLabel label) (header id ++ encodeLabels (labelsOf text)) out 0
      (some named) ∧ dnsBuild id (utf8 text ++ [0]) out out.length =
      if named.1 = false then some (-1, named.2.out) else (int32 (named.2.n + 5)).bind fun stop =>
        if stop > out.length then some (-1, named.2.out)
        else (emits [0x00, 0x00, 0x01, 0x00, 0x01] named.2).bind fun s => some (s.n, s.out) := by
  have room : 0 + (header id).length ≤ out.length := by
    rw [show (header id).length = 12 from rfl]
    exact long
  have same : (overwrite out 0 (header id)).length = out.length := length_overwrite room
  have labels := buildLabels_outcome (p := 0) (k := 12) short (utf8 text ++ [0]).length text rfl nulFree small
    (by rw [length_append]; exact Nat.lt_succ_self _) (by omega) same
  rw [labelsFrom, if_neg nonempty] at labels
  have whole : Outcome _ (header id ++ encodeLabels (labelsOf text)) out 0 _ := labels.behind room
  obtain ⟨named, isNamed⟩ := whole.returns
  rw [isNamed] at whole
  refine ⟨named, whole, ?_⟩
  have started : emits (header id) ⟨out, 0⟩ = some ⟨overwrite out 0 (header id), 12⟩ := emits_eq
    (k := 0) room short
  rw [dnsBuild, if_neg (by omega), ← header, started, bind_eq_bind, bind_some]
  exact (congrArg (bind · _) isNamed).trans rfl

/-- **`dns_build` writes the query that the kernel writes**, or none. -/
theorem dnsBuild_outcome :
    ((∀ label ∈ labelsOf text, IsLabel label) → (encodeQuery id (labelsOf text)).length ≤ out.length →
      dnsBuild id (utf8 text ++ [0]) out out.length = some (((encodeQuery id (labelsOf text)).length : ℤ),
        overwrite out 0 (encodeQuery id (labelsOf text)))) ∧
    (¬((∀ label ∈ labelsOf text, IsLabel label) ∧ (encodeQuery id (labelsOf text)).length ≤ out.length) →
      ∃ out', dnsBuild id (utf8 text ++ [0]) out out.length = some (-1, out')) := by
  have size := length_encodeQuery id (labelsOf text)
  by_cases tiny : out.length < 12
  · refine ⟨fun _ fits => by omega, fun _ => ⟨out, ?_⟩⟩
    rw [dnsBuild, if_pos (by omega)]
    rfl
  obtain ⟨named, outcome, build⟩ := dnsBuild_name id nonempty nulFree small short (by omega)
  have part : 0 + (header id ++ encodeLabels (labelsOf text)).length =
      12 + (encodeLabels (labelsOf text)).length := by
    rw [length_append, Nat.zero_add]
    rfl
  by_cases both : (∀ label ∈ labelsOf text, IsLabel label) ∧
      0 + (header id ++ encodeLabels (labelsOf text)).length ≤ out.length
  · -- The name fits, so what may not is the end of the question.
    have room := both.2
    have kept : (overwrite out 0 (header id ++ encodeLabels (labelsOf text))).length = out.length :=
      length_overwrite room
    have stop : int32 (((12 + (encodeLabels (labelsOf text)).length : ℕ) : ℤ) + 5) =
        some ((12 + (encodeLabels (labelsOf text)).length + 5 : ℕ) : ℤ) := int32_sum (b := 5) (by omega)
    cases outcome.done both.1 room
    rw [build, if_neg fun same => Bool.noConfusion same]
    simp only [part]
    rw [stop, bind_some]
    refine ⟨fun _ fits => ?_, fun wrong => ?_⟩
    · have tail : emits [0x00, 0x00, 0x01, 0x00, 0x01]
          ⟨overwrite out 0 (header id ++ encodeLabels (labelsOf text)),
            ((12 + (encodeLabels (labelsOf text)).length : ℕ) : ℤ)⟩ = some ⟨_, _⟩ :=
        emits_eq (by simp only [length_cons, length_nil]; omega) (by omega)
      rw [if_neg (by omega), tail, ← part, overwrite_append (Nat.zero_le _), encodeQuery_eq, append_assoc]
      simp only [length_append, Nat.zero_add, ← Nat.add_assoc]
      rfl
    · rw [if_pos (by have := mt (And.intro both.1) wrong; omega)]
      exact ⟨_, rfl⟩
  · obtain ⟨s, refused⟩ := outcome.refused both
    rw [build, some.inj refused, if_pos rfl]
    exact ⟨fun good fits => absurd ⟨good, by omega⟩ both, fun _ => ⟨_, rfl⟩⟩

end

end Build

end Writes

/-- **The kernel's codec and the one of the user programs agree.** They build the same query or none,
in buffers of the same capacity, and find the same address in a message. -/
theorem codecs_agree : (∀ (id : UInt16) (name : List Char) (out out' : List UInt8), name ≠ [] → 0 ∉ utf8 name →
      (utf8 name).length < 2 ^ 31 → out.length ≤ 65535 → out'.length = out.length →
      ((buildQuery id name out).1 = none ∧
        ∃ refused, dnsBuild id (utf8 name ++ [0]) out' out'.length = some (-1, refused)) ∨
      ∃ (n : ℕ) (built : List UInt8), (buildQuery id name out).1 = some n ∧
        dnsBuild id (utf8 name ++ [0]) out' out'.length = some ((n : ℤ), built) ∧
        (buildQuery id name out).2.take n = built.take n) ∧
    ∀ msg : List UInt8, 12 ≤ msg.length → msg.length ≤ 65535 → msg.getD 3 0 &&& 0x0f = 0 →
      ∃ found, Gives (findA msg) found ∧ Gives (dnsFirstA msg msg.length) found := by
  refine ⟨fun id name out out' nonempty nulFree small short same => ?_, fun msg long short noError => ?_⟩
  · by_cases both : (∀ label ∈ labelsOf name, IsLabel label) ∧
      (encodeQuery id (labelsOf name)).length ≤ out.length
    · refine .inr ⟨(encodeQuery id (labelsOf name)).length, _, ?_,
        (dnsBuild_outcome id nonempty nulFree small (by omega)).1 both.1 (by omega), ?_⟩
      · rw [buildQuery_fits (by omega) both.1 both.2]
      · rw [buildQuery_fits (by omega) both.1 both.2, take_overwrite_zero, take_overwrite_zero]
    · refine .inl ⟨buildQuery_none (by omega) both, (dnsBuild_outcome id nonempty nulFree small (by omega)).2 ?_⟩
      rw [same]
      exact both
  · refine ⟨firstAddress msg, ?_, dnsFirstA_gives long short⟩
    have kernel : Gives (findA msg) _ := findA_gives (by omega) long
    rw [if_neg (not_not.mpr noError)] at kernel
    exact kernel

/-- A query for `a`, and a response with an alias before the address. -/
theorem codecs_agree_alias :
    (∃ (n : ℕ) (built : List UInt8), (buildQuery 7 ['a'] (replicate 64 0)).1 = some n ∧
      dnsBuild 7 (utf8 ['a'] ++ [0]) (replicate 64 0) 64 = some ((n : ℤ), built) ∧
      (buildQuery 7 ['a'] (replicate 64 0)).2.take n = built.take n) ∧
    ∃ found, Gives (findA aliasThenAddress.encode) found ∧ Gives (dnsFirstA aliasThenAddress.encode 53) found := by
  refine ⟨?_, codecs_agree.2 aliasThenAddress.encode (by decide) (by decide) (by decide)⟩
  refine (codecs_agree.1 7 ['a'] (replicate 64 0) (replicate 64 0) (by decide) (by decide +kernel)
    (by decide +kernel) (by decide) rfl).resolve_left fun refused => absurd refused.1 ?_
  decide +kernel

end Ferros.Net
