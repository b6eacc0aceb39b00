/-
**Strings of user programs.**

`read_user_cstr` reads a string page by page, up to a zero or to `PATH_MAX` bytes. Read byte by byte instead, a
string is `cstr`; the pages make no difference.

* `read_user_cstr_exact` — which strings are read, which errors are returned and which pages are touched.

By induction on the rounds (`cstrLoop_eq`): the part of a page up to a zero begins the string
(`scanNul_cstr`), and a page that must not be read has no byte.
-/

import Ferros.Syscall.Uaccess

namespace Ferros.Syscall

open Lib Mm Files List Option

variable {get : ℕ → Option UInt8} {va left n : ℕ} {b : UInt8}

def pathMax : ℕ := 256

/-- The closure of the loop: the bytes up to a zero are appended, and whether there was one. -/
def scanNul : List UInt8 → List UInt8 → Bool × List UInt8
  | [], out => (false, out)
  | b :: bytes, out => if b = 0 then (true, out) else scanNul bytes (out ++ [b])

/-- The loop over the pages, at least one byte in each round. No value is an overflow or a page fault. -/
def cstrLoop (space : Space) : ℕ → ℕ → List UInt8 → Bus → Option (Except ℤ (List UInt8) × Bus)
  | 0, _, _, _ => none
  | rounds + 1, addr, out, bus => do
      let pageEnd ← fitting 64 ((addr ||| 0xFFF) + 1)
      let inPage ← taking pageEnd addr
      let left ← taking pathMax out.length
      let chunkLen := min inPage left
      if chunkLen = 0 then return (.error EINVAL, bus)
      match ← withUserBytes space addr chunkLen (fun bytes => scanNul bytes out) bus with
      | (.error e, bus) => return (.error e, bus)
      | (.ok (true, out), bus) => return (.ok out, bus)
      | (.ok (false, out), bus) => cstrLoop space rounds pageEnd out bus

def readUserCstr (space : Space) (ptr : ℕ) (bus : Bus) : Option (Except ℤ (List UInt8) × Bus) :=
  match validate ptr 1 with
  | .error e => some (.error e, bus)
  | .ok _ => cstrLoop space (pathMax + 1) ptr [] bus

/-! ### A string byte by byte -/

/-- The byte at an address, if user space may read it. -/
def Bus.userByte (space : Space) (bus : Bus) (va : ℕ) : Option UInt8 :=
  if va < userSpaceEnd then
    (space (va / 4096)).bind fun leaf => if leaf.user then some (bus.bytes (leaf.base + va % 4096)) else none
  else none

/-- The string at an address, of fewer than `left` bytes. -/
def cstr (get : ℕ → Option UInt8) : ℕ → ℕ → Except ℤ (List UInt8)
  | 0, _ => .error EINVAL
  | left + 1, va =>
    match get va with
    | none => .error EFAULT
    | some b => if b = 0 then .ok [] else (cstr get left (va + 1)).map (b :: ·)

/-- The bytes of `s` are at `va`, with a zero behind them and none among them. -/
structure Spells (get : ℕ → Option UInt8) (va : ℕ) (s : List UInt8) : Prop where
  bytes : ∀ i b, s[i]? = some b → get (va + i) = some b ∧ b ≠ 0
  nul : get (va + s.length) = some 0

/-- There is no byte to read at `va + k`, and no zero before it. -/
structure Stuck (get : ℕ → Option UInt8) (va k : ℕ) : Prop where
  missing : get (va + k) = none
  before : ∀ i < k, ∃ b, get (va + i) = some b ∧ b ≠ 0

section Bytes

variable {s : List UInt8}

theorem cstr_missing (missing : get va = none) : cstr get (left + 1) va = .error EFAULT := by
  rw [cstr, missing]

theorem cstr_nul (zero : get va = some 0) : cstr get (left + 1) va = .ok [] := by
  rw [cstr, zero]
  rfl

theorem cstr_byte (present : get va = some b) (nonzero : b ≠ 0) :
    cstr get (left + 1) va = (cstr get left (va + 1)).map (b :: ·) := by
  rw [cstr, present]
  exact if_neg nonzero

section Cons

variable (present : get va = some b) (nonzero : b ≠ 0)
include present nonzero

theorem before_succ (later : ∀ i < n, ∃ c, get (va + 1 + i) = some c ∧ c ≠ 0) :
    ∀ i < n + 1, ∃ c, get (va + i) = some c ∧ c ≠ 0 := by
  rintro (_ | i) inside
  · exact ⟨b, present, nonzero⟩
  · rw [Nat.add_comm i, ← Nat.add_assoc]
    exact later i (Nat.lt_of_succ_lt_succ inside)

theorem Stuck.succ (stuck : Stuck get (va + 1) n) : Stuck get va (n + 1) := by
  refine ⟨?_, before_succ present nonzero stuck.before⟩
  rw [Nat.add_comm n, ← Nat.add_assoc]
  exact stuck.missing

theorem Spells.cons (spells : Spells get (va + 1) s) : Spells get va (b :: s) := by
  refine ⟨?_, ?_⟩
  · rintro (_ | i) c here
    · cases here
      exact ⟨present, nonzero⟩
    · rw [Nat.add_comm i, ← Nat.add_assoc]
      exact spells.bytes i c here
  · rw [length_cons, Nat.add_comm s.length, ← Nat.add_assoc]
    exact spells.nul

end Cons

/-- **What comes first**: a zero, a byte that is missing, or the limit. -/
theorem cstr_cases (left va : ℕ) : (∃ s, s.length < left ∧ Spells get va s ∧ cstr get left va = .ok s) ∨
    (∃ k < left, Stuck get va k ∧ cstr get left va = .error EFAULT) ∨
    (∀ i < left, ∃ b, get (va + i) = some b ∧ b ≠ 0) ∧ cstr get left va = .error EINVAL := by
  induction left generalizing va with
  | zero => exact .inr (.inr ⟨fun i wrong => absurd wrong (Nat.not_lt_zero i), rfl⟩)
  | succ left ih =>
    cases found : get va with
    | none =>
      refine .inr (.inl ⟨0, Nat.succ_pos _, ⟨found, fun i wrong => ?_⟩, cstr_missing found⟩)
      exact absurd wrong (Nat.not_lt_zero i)
    | some b =>
      by_cases zero : b = 0
      · subst zero
        exact .inl ⟨[], Nat.succ_pos _, ⟨(fun i b wrong => nomatch wrong), found⟩, cstr_nul found⟩
      · rw [cstr_byte found zero]
        rcases ih (va + 1) with ⟨s, short, spells, rest⟩ | ⟨k, short, stuck, rest⟩ | ⟨full, rest⟩ <;> rw [rest]
        · exact .inl ⟨b :: s, Nat.succ_lt_succ short, spells.cons found zero, rfl⟩
        · exact .inr (.inl ⟨k + 1, Nat.succ_lt_succ short, stuck.succ found zero, rfl⟩)
        · exact .inr (.inr ⟨before_succ found zero full, rfl⟩)

section Spells

variable (spells : Spells get va s) (before : ∀ i < n, ∃ b, get (va + i) = some b ∧ b ≠ 0)
include spells before

theorem Spells.le_length : n ≤ s.length := by
  by_contra longer
  obtain ⟨b, found, nonzero⟩ := before s.length (by omega)
  cases spells.nul.symm.trans found
  exact nonzero rfl

theorem Spells.eq_length (stop : ∀ b, get (va + n) = some b → b = 0) : n = s.length := by
  refine Nat.le_antisymm (spells.le_length before) (Nat.le_of_not_lt fun inside => ?_)
  obtain ⟨found, nonzero⟩ := spells.bytes n _ (getElem?_eq_getElem inside)
  exact nonzero (stop _ found)

end Spells

theorem Spells.not_stuck {k : ℕ} (spells : Spells get va s) : ¬ Stuck get va k := by
  intro stuck
  have last := spells.eq_length stuck.before fun b found => nomatch stuck.missing.symm.trans found
  cases (last ▸ stuck.missing).symm.trans spells.nul

theorem Spells.unique {t : List UInt8} (spells : Spells get va s) (other : Spells get va t) : t = s := by
  have before : ∀ i < t.length, ∃ b, get (va + i) = some b ∧ b ≠ 0 := fun i inside =>
    ⟨_, other.bytes i _ (getElem?_eq_getElem inside)⟩
  have same := spells.eq_length before fun b found => (some.inj (other.nul.symm.trans found)).symm
  refine ext_getElem same fun i here there => ?_
  have first := (other.bytes i _ (getElem?_eq_getElem here)).1
  exact some.inj (first.symm.trans (spells.bytes i _ (getElem?_eq_getElem there)).1)

/-- **Which strings there are.** -/
theorem cstr_ok_iff (left va : ℕ) (s : List UInt8) :
    cstr get left va = .ok s ↔ s.length < left ∧ Spells get va s := by
  rcases cstr_cases left va with ⟨t, short, spells, same⟩ | ⟨k, -, stuck, same⟩ | ⟨full, same⟩ <;> rw [same]
  · constructor
    · rintro ⟨⟩
      exact ⟨short, spells⟩
    · rintro ⟨-, other⟩
      rw [other.unique spells]
  · exact ⟨nofun, fun both => absurd stuck both.2.not_stuck⟩
  · refine ⟨nofun, fun both => ?_⟩
    exact absurd (both.2.le_length full) (Nat.not_le_of_lt both.1)

/-- **Which strings end in a fault.** -/
theorem cstr_fault_iff (left va : ℕ) : cstr get left va = .error EFAULT ↔ ∃ k < left, Stuck get va k := by
  rcases cstr_cases left va with ⟨t, -, spells, same⟩ | ⟨k, short, stuck, same⟩ | ⟨full, same⟩ <;> rw [same]
  · exact ⟨nofun, fun ⟨_, _, stuck⟩ => absurd stuck spells.not_stuck⟩
  · exact ⟨fun _ => ⟨k, short, stuck⟩, fun _ => rfl⟩
  · refine ⟨fun wrong => absurd (Except.error.inj wrong) (by decide), fun ⟨k, inside, stuck⟩ => ?_⟩
    obtain ⟨b, found, -⟩ := full k inside
    cases stuck.missing.symm.trans found

theorem cstr_error {e : ℤ} (failed : cstr get left va = .error e) : e = EFAULT ∨ e = EINVAL := by
  rcases cstr_cases left va with ⟨t, -, -, same⟩ | ⟨k, -, -, same⟩ | ⟨-, same⟩
  · cases same.symm.trans failed
  · exact .inl (Except.error.inj (failed.symm.trans same))
  · exact .inr (Except.error.inj (failed.symm.trans same))

/-- **A chunk of a string** holds its end, or is followed by the rest. -/
theorem scanNul_cstr (bytes out : List UInt8) (room : bytes.length ≤ left)
    (present : ∀ i b, bytes[i]? = some b → get (va + i) = some b) :
    (∃ s, scanNul bytes out = (true, out ++ s) ∧ cstr get left va = .ok s) ∨
    (scanNul bytes out = (false, out ++ bytes) ∧ 0 ∉ bytes ∧
      cstr get left va = (cstr get (left - bytes.length) (va + bytes.length)).map (bytes ++ ·)) := by
  induction bytes generalizing out left va with
  | nil =>
    refine .inr ⟨?_, not_mem_nil, ?_⟩
    · rw [append_nil]
      rfl
    · exact (congrFun Except.map_id _).symm
  | cons b bytes ih =>
    obtain ⟨left, rfl⟩ : ∃ more, left = more + 1 := ⟨left - 1, by rw [length_cons] at room; omega⟩
    have here : get va = some b := present 0 b rfl
    rw [scanNul]
    by_cases zero : b = 0
    · refine .inl ⟨[], ?_, cstr_nul (zero ▸ here)⟩
      rw [if_pos zero, append_nil]
    · have later : ∀ i c, bytes[i]? = some c → get (va + 1 + i) = some c := fun i c found => by
        rw [Nat.add_assoc, Nat.add_comm 1]
        exact present (i + 1) c found
      rw [if_neg zero, cstr_byte here zero]
      rcases ih (out ++ [b]) (Nat.le_of_succ_le_succ room) later with ⟨s, hit, rest⟩ | ⟨miss, clean, rest⟩
      · refine .inl ⟨b :: s, ?_, ?_⟩
        · rw [hit, append_assoc, singleton_append]
        · rw [rest]
          rfl
      · refine .inr ⟨?_, ?_, ?_⟩
        · rw [miss, append_assoc, singleton_append]
        · exact mem_cons.not.mpr (not_or.mpr ⟨fun same => zero same.symm, clean⟩)
        · rw [rest, length_cons, Nat.add_sub_add_right, Nat.add_assoc va, Nat.add_comm 1]
          cases cstr get (left - bytes.length) (va + (bytes.length + 1)) <;> rfl

end Bytes

/-! ### A string page by page -/

/-- The bus after these addresses were read. -/
def Bus.touch (bus : Bus) (reads : List ℕ) : Bus :=
    { bus with log := bus.log ++ reads.map fun va => (va, none) }

/-- Only addresses before the limit were read, and none in a page behind a zero. -/
def Frugal (get : ℕ → Option UInt8) (addr left : ℕ) (reads : List ℕ) : Prop :=
  ∀ va ∈ reads, addr ≤ va ∧ va < addr + left ∧
    ∀ w, addr ≤ w → w / 4096 < va / 4096 → ∃ b, get w = some b ∧ b ≠ 0

section Pages

variable {space : Space} {bus : Bus} {addr chunk i : ℕ}

theorem pageEnd_eq (addr : ℕ) : (addr ||| 0xFFF) + 1 = addr / 4096 * 4096 + 4096 := by
  rw [show (0xFFF : ℕ) = 2 ^ 12 - 1 from rfl, or_ones, show (2 : ℕ) ^ 12 = 4096 from rfl, Nat.mul_comm]

theorem userByte_of_permits (below : va < userSpaceEnd) (permits : Permits space false (va / 4096)) :
    bus.userByte space va = some (bus.byteAt space va) := by
  obtain ⟨leaf, found, user, -⟩ := permits
  rw [Bus.userByte, if_pos below, found, bind_some, if_pos user, Bus.byteAt, physical, found]
  rfl

theorem permits_of_userByte (found : bus.userByte space va = some b) :
    va < userSpaceEnd ∧ Permits space false (va / 4096) := by
  rw [Bus.userByte] at found
  split at found
  · rename_i below
    obtain ⟨leaf, isLeaf, user⟩ := bind_eq_some_iff.mp found
    split at user
    · rename_i isUser
      exact ⟨below, leaf, isLeaf, isUser, fun wrong => Bool.noConfusion wrong⟩
    · cases user
  · cases found

theorem allowed_of_userByte (found : bus.userByte space addr = some b)
    (inPage : chunk ≤ addr / 4096 * 4096 + 4096 - addr) : Allowed space false addr chunk := by
  obtain ⟨below, permits⟩ := permits_of_userByte found
  unfold userSpaceEnd at below
  refine ⟨by unfold userSpaceEnd; omega, fun page meets => ?_⟩
  obtain ⟨va, low, high, rfl⟩ := meets
  rw [show va / 4096 = addr / 4096 by omega]
  exact permits

theorem getElem?_bytesAt (present : (bus.bytesAt space addr chunk)[i]? = some b) :
    i < chunk ∧ bus.byteAt space (addr + i) = b := by
  rw [Bus.bytesAt, getElem?_map] at present
  obtain ⟨va, isVa, rfl⟩ := map_eq_some_iff.mp present
  obtain ⟨inside, rfl⟩ := List.getElem?_eq_some_iff.mp isVa
  rw [length_range'] at inside
  rw [getElem_range', Nat.one_mul]
  exact ⟨inside, rfl⟩

theorem length_bytesAt : (bus.bytesAt space addr chunk).length = chunk := by
  rw [Bus.bytesAt, length_map, length_range']

theorem Allowed.userByte (allowed : Allowed space false addr chunk) (i : ℕ) (b : UInt8)
    (present : (bus.bytesAt space addr chunk)[i]? = some b) : bus.userByte space (addr + i) = some b := by
  obtain ⟨inside, rfl⟩ := getElem?_bytesAt present
  have below := allowed.below
  exact userByte_of_permits (by omega) (allowed.permits (by omega) (by omega))

theorem Bus.touch_seen (bus : Bus) (addr chunk : ℕ) (reads : List ℕ) :
    (bus.seen addr chunk).touch reads = bus.touch (range' addr chunk ++ reads) := by
  rw [Bus.touch, Bus.touch, Bus.seen, map_append, ← append_assoc]

theorem Bus.touch_nil (bus : Bus) : bus.touch [] = bus := by
  rw [Bus.touch, map_nil, append_nil]

theorem frugal_chunk (inPage : chunk ≤ addr / 4096 * 4096 + 4096 - addr) (room : chunk ≤ left) :
    Frugal get addr left (range' addr chunk) := by
  intro va mem
  obtain ⟨low, high⟩ := mem_range'_1.mp mem
  exact ⟨low, by omega, fun w above before => absurd before (by omega)⟩

/-- The addresses behind a whole page without a zero. -/
theorem Frugal.behind {reads : List ℕ} (later : Frugal get (addr + chunk) (left - chunk) reads)
    (room : chunk ≤ left) (clean : ∀ w, addr ≤ w → w < addr + chunk → ∃ b, get w = some b ∧ b ≠ 0) :
    Frugal get addr left reads := by
  intro va mem
  obtain ⟨low, high, before⟩ := later va mem
  refine ⟨by omega, by omega, fun w above earlier => ?_⟩
  by_cases inside : w < addr + chunk
  · exact clean w above inside
  · exact before w (by omega) earlier

theorem Allowed.clean (allowed : Allowed space false addr chunk) (clean : 0 ∉ bus.bytesAt space addr chunk) :
    ∀ w, addr ≤ w → w < addr + chunk → ∃ b, bus.userByte space w = some b ∧ b ≠ 0 := by
  intro w low high
  have below := allowed.below
  refine ⟨_, userByte_of_permits (by omega) (allowed.permits low high), fun zero => clean ?_⟩
  exact mem_map.mpr ⟨w, mem_range'_1.mpr ⟨low, high⟩, zero⟩

theorem map_append_append (out bytes : List UInt8) (x : Except ℤ (List UInt8)) :
    (x.map (bytes ++ ·)).map (out ++ ·) = x.map (out ++ bytes ++ ·) := by
  cases x with
  | error e => rfl
  | ok s => exact congrArg Except.ok (append_assoc out bytes s).symm

/-- **The loop over the pages is the loop over the bytes.** -/
theorem cstrLoop_eq (rounds : ℕ) {out : List UInt8} (low : addr ≤ userSpaceEnd) (short : out.length ≤ pathMax)
    (enough : pathMax - out.length < rounds) : ∃ reads, cstrLoop space rounds addr out bus =
      some ((cstr (bus.userByte space) (pathMax - out.length) addr).map (out ++ ·), bus.touch reads) ∧
      Frugal (bus.userByte space) addr (pathMax - out.length) reads := by
  induction rounds generalizing addr out bus with
  | zero => exact absurd enough (Nat.not_lt_zero _)
  | succ rounds ih =>
    have pageEnd : fitting 64 ((addr ||| 0xFFF) + 1) = some (addr / 4096 * 4096 + 4096) := by
      unfold userSpaceEnd at low
      rw [pageEnd_eq]
      exact fitting_of_lt (by omega)
    rw [cstrLoop, pageEnd, bind_eq_bind, bind_some, taking_of_le (by omega), bind_eq_bind, bind_some,
      taking_of_le short, bind_some]
    simp only
    obtain ⟨chunk, isChunk⟩ : ∃ chunk, chunk = min (addr / 4096 * 4096 + 4096 - addr)
      (pathMax - out.length) :=
      ⟨_, rfl⟩
    rw [← isChunk]
    by_cases full : pathMax - out.length = 0
    · refine ⟨[], ?_, fun va wrong => (by cases wrong)⟩
      rw [if_pos (by omega), full, Bus.touch_nil]
      rfl
    · obtain ⟨left, isLeft⟩ := Nat.exists_eq_succ_of_ne_zero full
      rw [if_neg (by omega)]
      by_cases allowed : Allowed space false addr chunk
      · rw [(withUserBytes_eq _ bus).1 allowed, bind_some]
        have room : (bus.bytesAt space addr chunk).length ≤ pathMax - out.length := by
          rw [length_bytesAt]
          omega
        have reading : Frugal (bus.userByte space) addr (pathMax - out.length) (range' addr chunk) :=
          frugal_chunk (by omega) (by omega)
        rcases scanNul_cstr (bus.bytesAt space addr chunk) out room allowed.userByte with
          ⟨s, hit, rest⟩ | ⟨miss, clean, rest⟩
        · refine ⟨range' addr chunk, ?_, reading⟩
          rw [hit, rest]
          rfl
        · rw [length_bytesAt] at room rest
          have size : (out ++ bus.bytesAt space addr chunk).length = out.length + chunk := by
            rw [length_append, length_bytesAt]
          have below := allowed.below
          have onward : addr / 4096 * 4096 + 4096 ≤ userSpaceEnd := by
            unfold userSpaceEnd at *
            omega
          obtain ⟨reads, done, frugal⟩ := @ih (bus.seen addr chunk) _
            (out ++ bus.bytesAt space addr chunk) onward
            (by omega) (by omega)
          rw [size, ← Nat.sub_sub] at done frugal
          -- The next page follows the chunk, unless the limit is reached.
          have follows : addr / 4096 * 4096 + 4096 = addr + chunk ∨ pathMax - out.length - chunk = 0 := by omega
          refine ⟨range' addr chunk ++ reads, ?_, fun va mem => ?_⟩
          · rw [miss, rest, ← Bus.touch_seen, map_append_append]
            refine done.trans ?_
            rcases follows with same | none
            · rw [same]
              rfl
            · rw [none]
              rfl
          · rcases mem_append.mp mem with first | later
            · exact reading va first
            · rcases follows with same | none
              · rw [same] at frugal
                exact Frugal.behind frugal room (allowed.clean clean) va later
              · obtain ⟨above, before, -⟩ := frugal va later
                omega
      · refine ⟨[], ?_, fun va wrong => (by cases wrong)⟩
        have missing : bus.userByte space addr = none := by
          cases found : bus.userByte space addr with
          | none => rfl
          | some b => exact absurd (allowed_of_userByte found (by omega)) allowed
        rw [(withUserBytes_eq _ bus).2 allowed, isLeft, cstr_missing missing, Bus.touch_nil]
        rfl

theorem readUserCstr_eq (space : Space) (ptr : ℕ) (bus : Bus) :
    ∃ reads, readUserCstr space ptr bus = some (cstr (bus.userByte space) pathMax ptr, bus.touch reads) ∧
      Frugal (bus.userByte space) ptr pathMax reads := by
  rw [readUserCstr]
  by_cases below : ptr + 1 ≤ userSpaceEnd
  · obtain ⟨reads, done, frugal⟩ := @cstrLoop_eq space bus ptr (pathMax + 1) []
      (Nat.le_of_succ_le below) (Nat.zero_le _) (Nat.lt_succ_self _)
    refine ⟨reads, ?_, frugal⟩
    rw [validate_ok below]
    exact done.trans (congrArg (fun x => some (x, bus.touch reads)) (congrFun Except.map_id _))
  · refine ⟨[], ?_, fun va wrong => (by cases wrong)⟩
    have missing : bus.userByte space ptr = none := if_neg below
    have fault : cstr (bus.userByte space) pathMax ptr = .error EFAULT := cstr_missing missing
    rw [validate_error (Nat.lt_of_not_le below), fault, Bus.touch_nil]

end Pages

/-- **Strings of user programs are read exactly.** The outcome is decided by what comes first, a zero, a byte
that user space may not read or the limit, and no page behind it is touched. -/
theorem read_user_cstr_exact (space : Space) (ptr : ℕ) (bus : Bus) :
    ∃ result reads, readUserCstr space ptr bus = some (result, bus.touch reads) ∧
      (∀ s, result = .ok s ↔ s.length ≤ 255 ∧ Spells (bus.userByte space) ptr s) ∧
      (result = .error EFAULT ↔ ∃ k < 256, Stuck (bus.userByte space) ptr k) ∧
      (result = .error EINVAL ↔ (¬∃ s : List UInt8, s.length ≤ 255 ∧ Spells (bus.userByte space) ptr s) ∧
        ¬∃ k < 256, Stuck (bus.userByte space) ptr k) ∧ Frugal (bus.userByte space) ptr 256 reads := by
  obtain ⟨reads, done, frugal⟩ := readUserCstr_eq space ptr bus
  have strings : ∀ s, cstr (bus.userByte space) pathMax ptr = .ok s ↔
      s.length ≤ 255 ∧ Spells (bus.userByte space) ptr s := fun s => by
    rw [cstr_ok_iff, pathMax, Nat.lt_succ_iff]
  have faults : cstr (bus.userByte space) pathMax ptr = .error EFAULT ↔ _ := cstr_fault_iff pathMax ptr
  refine ⟨_, reads, done, strings, faults, ⟨fun tooLong => ⟨?_, ?_⟩, fun neither => ?_⟩, frugal⟩
  · rintro ⟨s, isString⟩
    cases tooLong.symm.trans ((strings s).mpr isString)
  · intro stuck
    exact absurd (Except.error.inj (tooLong.symm.trans (faults.mpr stuck))) (by decide)
  · cases outcome : cstr (bus.userByte space) pathMax ptr with
    | ok s => exact absurd ⟨s, (strings s).mp outcome⟩ neither.1
    | error e =>
      rcases cstr_error outcome with rfl | rfl
      · exact absurd (faults.mp outcome) neither.2
      · rfl

/-- Two bytes before a hole. -/
theorem read_user_cstr_hole : ∃ reads, readUserCstr onePage 8190 ⟨fun _ => 65, []⟩ =
    some (.error EFAULT, Bus.touch ⟨fun _ => 65, []⟩ reads) := by
  obtain ⟨result, reads, done, -, faults, -⟩ := read_user_cstr_exact onePage 8190 ⟨fun _ => 65, []⟩
  refine ⟨reads, done.trans ?_⟩
  rw [faults.mpr ⟨2, by decide, rfl, fun i inside => ⟨65, ?_, by decide⟩⟩]
  cases i with
  | zero => rfl
  | succ i =>
    obtain rfl : i = 0 := by omega
    rfl

end Ferros.Syscall
