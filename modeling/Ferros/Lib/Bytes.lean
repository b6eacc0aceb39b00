/-
**Fixed-size byte blocks: windows and little-endian numbers.**

A block of `n` bytes is a function on `Fin n`, so no access can leave it. `slice` reads a window,
`splice` overwrites one; `leVal` and `leBytes` are the little-endian codec of a window.

* `slice_splice_same`, `slice_splice_other` — a window reads back what was spliced there, and a
  window that does not meet it is unchanged.
* `leVal_leBytes` — the codec keeps a number modulo `256 ^ width`.
* `fitting`, `taking` — arithmetic that has no value where a machine word overflows.
-/

import Mathlib.Data.Nat.Notation
import Mathlib.Logic.Basic
import Mathlib.Tactic.Ring

namespace Ferros.Lib

abbrev Block (n : ℕ) := Fin n → UInt8

instance blockDecidableEq (n : ℕ) : DecidableEq (Block n) := fun first second =>
  decidable_of_iff (∀ i, first i = second i) funext_iff.symm

def slice {n : ℕ} (block : Block n) (off width : ℕ) (fits : off + width ≤ n) : Block width :=
  fun i => block ⟨off + i, by omega⟩

def splice {n width : ℕ} (block : Block n) (off : ℕ) (window : Block width) : Block n :=
  fun i => if inside : off ≤ i.1 ∧ i.1 < off + width then window ⟨i.1 - off, by omega⟩ else block i

variable {n width width' m : ℕ}

theorem slice_splice_same (block : Block n) (off : ℕ) (window : Block width) (fits : off + width ≤ n) :
    slice (splice block off window) off width fits = window := by
  funext i
  unfold slice splice
  rw [dif_pos ⟨Nat.le_add_right _ _, Nat.add_lt_add_left i.2 off⟩]
  congr 1
  exact Fin.ext (Nat.add_sub_cancel_left off i)

theorem slice_splice_other (block : Block n) (off off' : ℕ) (window : Block width) (fits : off' + width' ≤ n)
    (apart : off' + width' ≤ off ∨ off + width ≤ off') :
    slice (splice block off window) off' width' fits = slice block off' width' fits := by
  funext i
  unfold slice splice
  rw [dif_neg]
  rintro ⟨low, high⟩
  have := i.2
  simp only at low high
  omega

/-! ### Little-endian numbers -/

/-- The number a window holds. -/
def leVal : (width : ℕ) → Block width → ℕ
  | 0, _ => 0
  | width + 1, window => (window 0).toNat + 256 * leVal width fun i => window i.succ

/-- The bytes of a number, lowest first; what does not fit is cut off. -/
def leBytes (width : ℕ) (value : ℕ) : Block width :=
  fun i => UInt8.ofNat (value / 256 ^ (i : ℕ))

theorem leVal_lt (width : ℕ) : ∀ window : Block width, leVal width window < 256 ^ width := by
  induction width with
  | zero => exact fun _ => Nat.one_pos
  | succ width ih =>
    intro window
    have head := (window 0).toNat_lt
    have tail := ih fun i => window i.succ
    rw [leVal, Nat.pow_succ]
    omega

theorem leVal_leBytes (width : ℕ) : ∀ value : ℕ, leVal width (leBytes width value) = value % 256 ^ width := by
  induction width with
  | zero => intro value; rw [Nat.pow_zero, Nat.mod_one]; rfl
  | succ width ih =>
    intro value
    have tail : (fun i : Fin width => leBytes (width + 1) value i.succ) =
        leBytes width (value / 256) := by
      funext i
      unfold leBytes
      rw [Fin.val_succ, Nat.pow_succ, Nat.mul_comm, Nat.div_div_eq_div_mul]
    have head : (leBytes (width + 1) value 0).toNat = value % 256 := by
      unfold leBytes
      simp
    rw [leVal, tail, ih, head, Nat.pow_succ, Nat.mul_comm _ 256, Nat.mod_mul]

theorem leVal_injective (width : ℕ) : Function.Injective (leVal width) := by
  induction width with
  | zero => exact fun _ _ _ => funext fun i => i.elim0
  | succ width ih =>
    intro first second same
    have headLt := (first 0).toNat_lt
    have headLt' := (second 0).toNat_lt
    rw [leVal, leVal] at same
    have head : (first 0).toNat = (second 0).toNat := by omega
    have tail := ih (show leVal width (fun i => first i.succ) = leVal width fun i => second i.succ by omega)
    funext i
    refine Fin.cases (UInt8.toNat_inj.mp head) (fun j => ?_) i
    exact congrFun tail j

/-! ### Checked arithmetic -/

/-- A number that fits into `width` bits; a computation that overflows has no value. -/
def fitting (width n : ℕ) : Option ℕ := if n < 2 ^ width then some n else none

theorem fitting_of_lt (fits : n < 2 ^ width) : fitting width n = some n := if_pos fits

theorem fitting_eq_some : fitting width n = some m ↔ n < 2 ^ width ∧ n = m := by
  unfold fitting
  split
  · rename_i fits
    rw [Option.some.injEq]
    exact ⟨fun same => ⟨fits, same⟩, fun both => both.2⟩
  · rename_i large
    exact ⟨nofun, fun both => absurd both.1 large⟩

/-- A difference of machine words; one that would be negative has no value. -/
def taking (n m : ℕ) : Option ℕ := if m ≤ n then some (n - m) else none

theorem taking_of_le (fits : m ≤ n) : taking n m = some (n - m) := if_pos fits

/-- The low `k` bits are set. -/
theorem or_ones (k word : ℕ) : word ||| (2 ^ k - 1) = 2 ^ k * (word / 2 ^ k) + (2 ^ k - 1) := by
  have positive := Nat.two_pow_pos k
  have remainder := Nat.mod_lt word positive
  have ones : word % 2 ^ k ||| (2 ^ k - 1) = 2 ^ k - 1 := by
    have low := Nat.or_lt_two_pow remainder (show 2 ^ k - 1 < 2 ^ k by omega)
    have high : 2 ^ k - 1 ≤ word % 2 ^ k ||| (2 ^ k - 1) := Nat.right_le_or
    omega
  have split (x : ℕ) (small : x < 2 ^ k) : 2 ^ k * (word / 2 ^ k) + x = 2 ^ k * (word / 2 ^ k) ||| x :=
    Nat.two_pow_add_eq_or_of_lt small _
  calc word ||| (2 ^ k - 1)
      = (2 ^ k * (word / 2 ^ k) + word % 2 ^ k) ||| (2 ^ k - 1) := by rw [Nat.div_add_mod word (2 ^ k)]
    _ = 2 ^ k * (word / 2 ^ k) ||| (word % 2 ^ k ||| (2 ^ k - 1)) := by rw [split _ remainder, Nat.or_assoc]
    _ = 2 ^ k * (word / 2 ^ k) + (2 ^ k - 1) := by rw [ones, ← split _ (by omega)]

end Ferros.Lib
