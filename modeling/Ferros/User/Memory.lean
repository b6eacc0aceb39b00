/-
**`memmove` of the C library.**

The copy runs upwards if the destination is below the source and downwards if it is above, so that no byte is
written before it has been read. Distances between pointers are taken as the machine takes them, modulo 2^64.

* `copyUp_apply`, `copyDown_apply` — what either loop leaves at an address, if the bytes it reads are far enough
  ahead of those it writes.
* `memmove_moves` — **the bytes arrive and nothing else changes**, however the two ranges overlap.
-/

import Mathlib.Algebra.Ring.Nat
import Mathlib.Logic.Function.Basic

namespace Ferros.User

open Function

/-- The memory of a program. -/
abbrev Memory := BitVec 64 → UInt8

/-- `while (n--) *d++ = *s++`. -/
def copyUp : ℕ → BitVec 64 → BitVec 64 → Memory → Memory
  | 0, _, _, memory => memory
  | n + 1, d, s, memory => copyUp n (d + 1) (s + 1) (update memory d (memory s))

/-- `while (n--) *--d = *--s`. -/
def copyDown : ℕ → BitVec 64 → BitVec 64 → Memory → Memory
  | 0, _, _, memory => memory
  | n + 1, d, s, memory => copyDown n (d - 1) (s - 1) (update memory (d - 1) (memory (s - 1)))

/-- `memmove`: the pointer it returns and the memory it leaves. -/
def memmove (dst src : BitVec 64) (n : ℕ) (memory : Memory) : BitVec 64 × Memory :=
  (dst,
    if dst < src then copyUp n dst src memory
    else if src < dst then copyDown n (dst + .ofNat 64 n) (src + .ofNat 64 n) memory
    else memory)

theorem copyUp_apply {n : ℕ} {d s : BitVec 64} (ahead : n ≤ (d - s).toNat) (memory : Memory) (a : BitVec 64) :
    copyUp n d s memory a = if (a - d).toNat < n then memory (s + (a - d)) else memory a := by
  induction n generalizing d s memory with
  | zero => rfl
  | succ n ih =>
    rw [copyUp, ih (by bv_omega)]
    by_cases first : a = d
    · subst first
      rw [if_neg (by bv_omega), if_pos (by bv_omega), update_self, BitVec.sub_self, BitVec.add_zero]
    · have later : (a - (d + 1)).toNat < n ↔ (a - d).toNat < n + 1 := by bv_omega
      have same : s + 1 + (a - (d + 1)) = s + (a - d) := by bv_omega
      rw [update_of_ne first, same]
      simp only [later]
      split
      · rw [update_of_ne (by bv_omega)]
      · rfl

theorem copyDown_apply {n : ℕ} {d s : BitVec 64} (ahead : n ≤ (s - d).toNat) (memory : Memory) (a : BitVec 64) :
    copyDown n d s memory a = if (d - 1 - a).toNat < n then memory (s - (d - a)) else memory a := by
  induction n generalizing d s memory with
  | zero => rfl
  | succ n ih =>
    rw [copyDown, ih (by bv_omega)]
    by_cases first : a = d - 1
    · subst first
      rw [if_neg (by bv_omega), if_pos (by bv_omega), update_self]
      exact congrArg memory (by bv_omega)
    · have later : (d - 1 - 1 - a).toNat < n ↔ (d - 1 - a).toNat < n + 1 := by bv_omega
      have same : s - 1 - (d - 1 - a) = s - (d - a) := by bv_omega
      rw [update_of_ne first, same]
      simp only [later]
      split
      · rw [update_of_ne (by bv_omega)]
      · rfl

/-- **`memmove` is correct for every overlap.** -/
theorem memmove_moves (memory : Memory) (dst src : BitVec 64) (n : ℕ) (roomDst : dst.toNat + n ≤ 2 ^ 64)
    (roomSrc : src.toNat + n ≤ 2 ^ 64) :
    (∀ i < n, (memmove dst src n memory).2 (dst + .ofNat 64 i) = memory (src + .ofNat 64 i)) ∧
      ∀ a : BitVec 64, a.toNat < dst.toNat ∨ dst.toNat + n ≤ a.toNat →
        (memmove dst src n memory).2 a = memory a := by
  have applied : ∀ a, (memmove dst src n memory).2 a =
      if (a - dst).toNat < n then memory (src + (a - dst)) else memory a := by
    intro a
    unfold memmove
    dsimp only
    split
    · exact copyUp_apply (by bv_omega) memory a
    · split
      · have range : (dst + .ofNat 64 n - 1 - a).toNat < n ↔ (a - dst).toNat < n := by bv_omega
        have place : src + .ofNat 64 n - (dst + .ofNat 64 n - a) = src + (a - dst) := by bv_omega
        rw [copyDown_apply (by bv_omega), place]
        simp only [range]
      · obtain rfl : dst = src := by bv_omega
        have place : dst + (a - dst) = a := by bv_omega
        rw [place, ite_self]
  refine ⟨fun i inside => ?_, fun a outside => ?_⟩
  · have offset : dst + .ofNat 64 i - dst = .ofNat 64 i := by bv_omega
    rw [applied, offset, if_pos (by bv_omega)]
  · rw [applied, if_neg (by bv_omega)]

/-- Four bytes are moved up by two, over two of themselves. -/
theorem memmove_moves_overlap :
    (∀ i < 4, (memmove 0x1002 0x1000 4 fun a => .ofNat a.toNat).2 (0x1002 + .ofNat 64 i) =
      UInt8.ofNat (0x1000 + BitVec.ofNat 64 i).toNat) ∧
    ∀ a : BitVec 64, a.toNat < 0x1002 ∨ 0x1002 + 4 ≤ a.toNat →
      (memmove 0x1002 0x1000 4 fun a => .ofNat a.toNat).2 a = .ofNat a.toNat :=
  memmove_moves (fun a => .ofNat a.toNat) 0x1002 0x1000 4 (by decide) (by decide)

end Ferros.User
