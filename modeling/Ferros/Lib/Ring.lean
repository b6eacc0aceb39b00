/-
**Rings with running indices.**

A producer puts entries into the slots of a ring and counts them with an index of `w` bits; a consumer counts
what it took in the same way. The indices wrap and the slots are used again and again, and still the consumer
gets every entry once and in order, as long as the producer is never more than `size` entries ahead.

* `Ring.push`, `Ring.peek` — the two sides; `Ring.pending` — what is between them.
* `Carries` — the ring holds what the consumer has not taken yet of a history; `Carries.peek`,
  `Carries.pending` — the consumer finds it.
-/

import Mathlib.Algebra.Ring.Nat
import Mathlib.Logic.Function.Basic

namespace Ferros.Lib

open List Option Function

/-- The distance of two counters from their remainders. -/
theorem mod_add_sub_mod {m c n : ℕ} (ahead : c ≤ n) (near : n < c + m) : (n % m + (m - c % m)) % m = n - c := by
  have split := Nat.div_add_mod c m
  have below := Nat.mod_lt c (show 0 < m by omega)
  have sum : n + (m - c % m) = n - c + m * (c / m + 1) := by
    rw [Nat.mul_succ]
    omega
  rw [Nat.mod_add_mod, sum, Nat.add_mul_mod_self_left, Nat.mod_eq_of_lt (by omega)]

/-- Numbers that are less than `m` apart are told apart modulo `m`. -/
theorem mod_eq_mod_iff {m c n : ℕ} (ahead : c ≤ n) (near : n < c + m) : n % m = c % m ↔ n = c := by
  refine ⟨fun same => ?_, fun same => by rw [same]⟩
  have zero : (n - c) % m = 0 := Nat.sub_mod_eq_zero_of_mod_eq same
  rw [Nat.mod_eq_of_lt (by omega)] at zero
  omega

structure Ring (α : Type) where
  slots : ℕ → α
  idx : ℕ

variable {α : Type} {w size c seen : ℕ} {r : Ring α} {xs : List α}

/-- The producer adds an entry. -/
def Ring.push (w size : ℕ) (x : α) (r : Ring α) : Ring α :=
  ⟨Function.update r.slots (r.idx % size) x, (r.idx + 1) % 2 ^ w⟩

/-- What a consumer finds whose own index is `seen`. -/
def Ring.peek (size seen : ℕ) (r : Ring α) : Option α :=
  if r.idx = seen then none else some (r.slots (seen % size))

/-- The entries that such a consumer has still to take. -/
def Ring.pending (w size seen : ℕ) (r : Ring α) : List α :=
  (List.range ((r.idx + (2 ^ w - seen)) % 2 ^ w)).map fun k => r.slots ((seen + k) % 2 ^ w % size)

theorem Ring.peek_eq_none : r.peek size seen = none ↔ r.idx = seen := by
  unfold Ring.peek
  split
  · rename_i same
    exact iff_of_true rfl same
  · rename_i more
    exact iff_of_false (fun wrong => by cases wrong) more

theorem Ring.peek_eq_some {x : α} (found : r.peek size seen = some x) :
    r.idx ≠ seen ∧ r.slots (seen % size) = x := by
  unfold Ring.peek at found
  split at found
  · cases found
  · rename_i more
    exact ⟨more, some.inj found⟩

/-- **The ring carries a history** to a consumer that has taken the first `c` entries. -/
structure Carries (w size : ℕ) (r : Ring α) (xs : List α) (c : ℕ) : Prop where
  idx : r.idx = xs.length % 2 ^ w
  taken : c ≤ xs.length
  room : xs.length ≤ c + size
  slot : ∀ (i : ℕ) (x : α), c ≤ i → xs[i]? = some x → r.slots (i % size) = x

theorem carries_nil (w size : ℕ) (slots : ℕ → α) : Carries w size ⟨slots, 0⟩ [] 0 where
  idx := (Nat.zero_mod _).symm
  taken := Nat.le_refl _
  room := Nat.zero_le _
  slot := fun i x _ present => by cases present

variable (carries : Carries w size r xs c)
include carries

/-- The producer goes on if there is room. -/
theorem Carries.push (divides : size ∣ 2 ^ w) (room : xs.length < c + size) (x : α) :
    Carries w size (r.push w size x) (xs ++ [x]) c where
  idx := by rw [Ring.push, carries.idx, length_append, length_singleton, Nat.mod_add_mod]
  taken := by
    have taken := carries.taken
    rw [length_append]
    omega
  room := by
    rw [length_append, length_singleton]
    omega
  slot := by
    intro i y later present
    have slots : (r.push w size x).slots = update r.slots (xs.length % size) x := by
      rw [Ring.push, carries.idx, Nat.mod_mod_of_dvd _ divides]
    rw [slots]
    by_cases last : i = xs.length
    · rw [last, getElem?_concat_length] at present
      rw [last, update_self]
      exact some.inj present
    · have inside : i < xs.length := by
        have bound := (List.getElem?_eq_some_iff.mp present).1
        rw [length_append, length_singleton] at bound
        omega
      rw [getElem?_append_left inside] at present
      have apart : i % size ≠ xs.length % size := fun same =>
        last ((mod_eq_mod_iff (Nat.le_of_lt inside) (by omega)).mp same.symm).symm
      rw [update_of_ne apart]
      exact carries.slot i y later present

/-- **The consumer finds the next entry**, or that there is none. -/
theorem Carries.peek (divides : size ∣ 2 ^ w) (small : size < 2 ^ w) : r.peek size (c % 2 ^ w) = xs[c]? := by
  have near := carries.room
  rw [Ring.peek, carries.idx, Nat.mod_mod_of_dvd _ divides]
  by_cases empty : xs.length = c
  · rw [if_pos (by rw [empty]), getElem?_eq_none (Nat.le_of_eq empty)]
  · have inside : c < xs.length := Nat.lt_of_le_of_ne carries.taken (Ne.symm empty)
    rw [if_neg fun same => empty ((mod_eq_mod_iff carries.taken (by omega)).mp same),
      carries.slot c xs[c] (Nat.le_refl c) (getElem?_eq_getElem inside), getElem?_eq_getElem inside]

theorem Carries.pending (divides : size ∣ 2 ^ w) (small : size < 2 ^ w) :
    r.pending w size (c % 2 ^ w) = xs.drop c := by
  have near := carries.room
  have length : (r.idx + (2 ^ w - c % 2 ^ w)) % 2 ^ w = xs.length - c := by
    rw [carries.idx, mod_add_sub_mod carries.taken (by omega)]
  refine ext_getElem ?_ fun k inside inside' => ?_
  · rw [Ring.pending, length_map, length_range, length, length_drop]
  · rw [getElem_drop]
    simp only [Ring.pending, getElem_map, getElem_range]
    rw [Nat.mod_add_mod, Nat.mod_mod_of_dvd _ divides]
    exact carries.slot _ _ (Nat.le_add_right c k) (getElem?_eq_getElem _)

/-- The consumer goes on. -/
theorem Carries.next (more : c < xs.length) : Carries w size r xs (c + 1) where
  idx := carries.idx
  taken := more
  room := by
    have room := carries.room
    omega
  slot := fun i x later present => carries.slot i x (Nat.le_of_succ_le later) present

end Ferros.Lib
