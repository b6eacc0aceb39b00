/-
**Linked chains.**

A successor function `next` and a test `valid` link cells into chains. `IsChain next valid stop c l`
says that `l` is the chain from `c`: it follows `next` through valid cells and ends where `next`
leaves a value that satisfies `stop`. `follow` computes it, given enough steps.

* `IsChain.congr` — a chain depends on its own cells only.
* `IsChain.relink` — changing the last link of a chain puts another chain behind it.
* `IsChain.follow_eq` — `follow` finds the chain.
-/

import Mathlib.Data.Nat.Notation
import Mathlib.Data.List.Nodup

namespace Ferros.Lib

open List

variable {α : Type} {next next' : α → α} {valid : α → Bool} {stop stop' : α → Prop} {c x last : α}
  {l l' front rest : List α} {n : ℕ}

/-- `l` is the chain from `c`. -/
def IsChain (next : α → α) (valid : α → Bool) (stop : α → Prop) : α → List α → Prop
  | c, [] => stop c
  | c, x :: rest => x = c ∧ valid c = true ∧ IsChain next valid stop (next c) rest

/-- The cells met from `c` on, while they are valid, in at most `n` steps. -/
def follow (next : α → α) (valid : α → Bool) : ℕ → α → List α
  | 0, _ => []
  | n + 1, c => if valid c then c :: follow next valid n (next c) else []

section

variable (chain : IsChain next valid stop c l)
include chain

theorem IsChain.valid_of_mem : ∀ x ∈ l, valid x := by
  induction l generalizing c with
  | nil => exact forall_mem_nil _
  | cons head rest ih =>
    obtain ⟨rfl, isValid, tail⟩ := chain
    intro x mem
    rcases mem_cons.mp mem with rfl | mem
    · exact isValid
    · exact ih tail x mem

/-- What follows a cell of a chain is valid or stops. -/
theorem IsChain.next_of_mem : ∀ x ∈ l, valid (next x) ∨ stop (next x) := by
  induction l generalizing c with
  | nil => exact forall_mem_nil _
  | cons head rest ih =>
    obtain ⟨rfl, _, tail⟩ := chain
    intro x mem
    rcases mem_cons.mp mem with rfl | mem
    · cases rest with
      | nil => exact .inr tail
      | cons _ _ => exact .inl tail.2.1
    · exact ih tail x mem

omit chain in
theorem IsChain.unique (ends : ∀ c, stop c → valid c = false) (first : IsChain next valid stop c l)
    (second : IsChain next valid stop c l') : l = l' := by
  induction l generalizing c l' with
  | nil =>
    cases l' with
    | nil => rfl
    | cons head rest => exact absurd second.2.1 (by rw [ends c first]; decide)
  | cons head rest ih =>
    obtain ⟨rfl, isValid, tail⟩ := first
    cases l' with
    | nil => exact absurd isValid (by rw [ends head second]; decide)
    | cons head' rest' =>
      obtain ⟨rfl, _, tail'⟩ := second
      rw [ih tail tail']

/-- The chain from a cell of a chain is the rest of it. -/
theorem IsChain.suffix (mem : x ∈ l) :
    ∃ front back, l = front ++ x :: back ∧ IsChain next valid stop x (x :: back) := by
  induction l generalizing c with
  | nil => exact absurd mem not_mem_nil
  | cons head rest ih =>
    obtain ⟨rfl, isValid, tail⟩ := chain
    by_cases here : x = head
    · subst here
      exact ⟨[], rest, rfl, rfl, isValid, tail⟩
    · obtain ⟨front, back, rfl, later⟩ := ih tail ((mem_cons.mp mem).resolve_left here)
      exact ⟨head :: front, back, rfl, later⟩

omit chain in
/-- **A chain that ends has no cycle.** -/
theorem IsChain.nodup (ends : ∀ c, stop c → valid c = false) (chain : IsChain next valid stop c l) :
    l.Nodup := by
  induction l generalizing c with
  | nil => exact nodup_nil
  | cons head rest ih =>
    refine nodup_cons.mpr ⟨fun again => ?_, ih chain.2.2⟩
    obtain ⟨rfl, _, tail⟩ := id chain
    obtain ⟨front, back, split, later⟩ := tail.suffix again
    have same := IsChain.unique ends chain later
    have lengths := congrArg length same
    rw [split] at lengths
    simp only [length_cons, length_append] at lengths
    omega

theorem IsChain.congr (same : ∀ x ∈ l, next' x = next x) : IsChain next' valid stop c l := by
  induction l generalizing c with
  | nil => exact chain
  | cons head rest ih =>
    obtain ⟨rfl, isValid, tail⟩ := chain
    refine ⟨rfl, isValid, ?_⟩
    rw [same head mem_cons_self]
    exact ih tail fun x mem => same x (mem_cons_of_mem _ mem)

theorem IsChain.weaken (weaker : ∀ c, stop c → stop' c) : IsChain next valid stop' c l := by
  induction l generalizing c with
  | nil => exact weaker c chain
  | cons head rest ih => exact ⟨chain.1, chain.2.1, ih chain.2.2⟩

end

/-- **Relinking the last cell** of a chain to another chain. -/
theorem IsChain.relink (chain : IsChain next valid stop c (front ++ [last]))
    (same : ∀ x ∈ front, next' x = next x) (behind : IsChain next' valid stop (next' last) rest) :
    IsChain next' valid stop c (front ++ last :: rest) := by
  induction front generalizing c with
  | nil => exact ⟨chain.1, chain.2.1, chain.1 ▸ behind⟩
  | cons head front ih =>
    obtain ⟨rfl, isValid, tail⟩ := chain
    refine ⟨rfl, isValid, ?_⟩
    rw [same head mem_cons_self]
    exact ih tail fun x mem => same x (mem_cons_of_mem _ mem)

theorem IsChain.follow_eq (ends : ∀ c, stop c → valid c = false) (chain : IsChain next valid stop c l)
    (enough : l.length ≤ n) : follow next valid n c = l := by
  induction l generalizing n c with
  | nil =>
    cases n with
    | zero => rfl
    | succ n => rw [follow, if_neg (by rw [ends c chain]; decide)]
  | cons head rest ih =>
    obtain ⟨rfl, isValid, tail⟩ := chain
    cases n with
    | zero => exact absurd enough (by simp)
    | succ n => rw [follow, if_pos isValid, ih tail (by simpa using enough)]

theorem follow_congr (same : ∀ c, valid c → next' c = next c) (n : ℕ) (c : α) :
    follow next' valid n c = follow next valid n c := by
  induction n generalizing c with
  | zero => rfl
  | succ n ih =>
    unfold follow
    split
    · rename_i isValid
      rw [same c isValid, ih]
    · rfl

theorem follow_invalid (invalid : valid c = false) : follow next valid n c = [] := by
  cases n with
  | zero => rfl
  | succ n => rw [follow, if_neg (by rw [invalid]; decide)]

end Ferros.Lib
