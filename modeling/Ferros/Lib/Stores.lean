/-
**Stores, in the order in which they are made.**

A store puts a run of cells somewhere. A log of stores says what a memory contains after them: a cell is what
the last store that reaches it put there.

* `after` — a memory after the log; `cellsAt_after` — **stores that do not meet are all read back**.
-/

import Mathlib.Data.List.Basic
import Mathlib.Data.Nat.Notation

namespace Ferros.Lib

open List Option

/-- A run of cells, from `start` on. -/
structure Store (β : Type) where
  start : ℕ
  cells : List β
  deriving DecidableEq, Repr

variable {β : Type} {x i sp width : ℕ} {v w : Store β} {log front back : List (Store β)} {b : β}
  {blocks : List (List β)}

def Store.stop (w : Store β) : ℕ := w.start + w.cells.length

/-- What the store puts at an address. -/
def Store.cell (w : Store β) (x : ℕ) : Option β := if w.start ≤ x then w.cells[x - w.start]? else none

theorem Store.cell_eq_none : w.cell x = none ↔ x < w.start ∨ w.stop ≤ x := by
  unfold cell stop
  split
  · rw [getElem?_eq_none_iff]
    omega
  · exact iff_of_true rfl (.inl (by omega))

theorem Store.cell_add : w.cell (w.start + i) = w.cells[i]? := by
  rw [cell, if_pos (Nat.le_add_right _ _), Nat.add_sub_cancel_left]

/-- What a log leaves at an address: later stores go over earlier ones. -/
def written : List (Store β) → ℕ → Option β
  | [], _ => none
  | w :: rest, x => (written rest x).or (w.cell x)

theorem written_append (log log' : List (Store β)) (x : ℕ) :
    written (log ++ log') x = (written log' x).or (written log x) := by
  induction log with
  | nil => exact or_none.symm
  | cons w rest ih => rw [List.cons_append, written, ih, written, Option.or_assoc]

theorem written_eq_none (nowhere : ∀ w ∈ log, w.cell x = none) : written log x = none := by
  induction log with
  | nil => rfl
  | cons w rest ih =>
    rw [written, ih fun v mem => nowhere v (mem_cons_of_mem w mem), nowhere w mem_cons_self]
    rfl

/-- **The last store that reaches an address.** -/
theorem written_last (here : w.cell x = some b) (last : ∀ v ∈ back, v.cell x = none) :
    written (front ++ w :: back) x = some b := by
  rw [written_append, written, written_eq_none last, here]
  rfl

theorem written_cons_cells (log : List (Store β)) (start : ℕ) (first : β) (rest : List β) (x : ℕ) :
    written (log ++ [⟨start, first :: rest⟩]) x =
      written ((log ++ [⟨start, [first]⟩]) ++ [⟨start + 1, rest⟩]) x := by
  simp only [written_append, written, none_or, Store.cell]
  rcases Nat.lt_trichotomy x start with below | rfl | above
  · rw [if_neg (by omega), if_neg (by omega), if_neg (by omega), none_or, none_or]
  · rw [if_pos (Nat.le_refl x), if_pos (Nat.le_refl x), if_neg (by omega), Nat.sub_self, none_or]
    rfl
  · obtain ⟨i, rfl⟩ := Nat.exists_eq_add_of_lt above
    have position : start + i + 1 - start = i + 1 := by omega
    have position' : start + i + 1 - (start + 1) = i := by omega
    rw [if_pos (by omega), if_pos (by omega), if_pos (by omega), position, position', getElem?_cons_succ,
      getElem?_cons_succ, getElem?_nil, none_or]

/-- Stores of nothing leave nothing. -/
theorem written_filter (log : List (Store β)) (keep : Store β → Bool)
    (empty : ∀ w ∈ log, keep w = false → w.cells = []) (x : ℕ) :
    written (log.filter keep) x = written log x := by
  induction log with
  | nil => rfl
  | cons w rest ih =>
    have later := ih fun v mem => empty v (mem_cons_of_mem w mem)
    cases kept : keep w with
    | true => rw [filter_cons_of_pos kept, written, later, written]
    | false =>
      have nothing : w.cell x = none := by
        rw [Store.cell_eq_none, Store.stop, empty w mem_cons_self kept, length_nil]
        omega
      rw [filter_cons_of_neg (by rw [kept]; decide), later, written, nothing, or_none]

def after (log : List (Store β)) (memory : ℕ → β) (x : ℕ) : β := (written log x).getD (memory x)

/-- The cells from an address on. -/
def cellsAt (memory : ℕ → β) (start width : ℕ) : List β := (range width).map fun i => memory (start + i)

theorem length_cellsAt (memory : ℕ → β) (start width : ℕ) : (cellsAt memory start width).length = width := by
  rw [cellsAt, length_map, length_range]

def Apart (v w : Store β) : Prop := v.stop ≤ w.start ∨ w.stop ≤ v.start

theorem Apart.symm (apart : Apart v w) : Apart w v := Or.symm apart

theorem Apart.cell (apart : Apart v w) (here : w.cell x = some b) : v.cell x = none := by
  have reached : ¬ (x < w.start ∨ w.stop ≤ x) := fun outside => by
    cases here.symm.trans (Store.cell_eq_none.mpr outside)
  rw [Store.cell_eq_none]
  unfold Apart at apart
  omega

theorem written_of_mem (apart : log.Pairwise Apart) (mem : w ∈ log) (here : w.cell x = some b) :
    written log x = some b := by
  induction log with
  | nil => cases mem
  | cons v rest ih =>
    obtain ⟨first, others⟩ := pairwise_cons.mp apart
    rw [written]
    rcases mem_cons.mp mem with rfl | later
    · rw [written_eq_none fun v later => (first v later).symm.cell here, here]
      rfl
    · rw [ih others later]
      rfl

/-- **Stores that do not meet are all read back.** -/
theorem cellsAt_after (apart : log.Pairwise Apart) (mem : w ∈ log) (memory : ℕ → β) :
    cellsAt (after log memory) w.start w.cells.length = w.cells := by
  refine ext_getElem? fun i => ?_
  by_cases inside : i < w.cells.length
  · have here : w.cell (w.start + i) = some w.cells[i] := by
      rw [Store.cell_add, getElem?_eq_getElem inside]
    rw [cellsAt, getElem?_map, getElem?_range inside, getElem?_eq_getElem inside,
      map_some, after, written_of_mem apart mem here, getD_some]
  · have past := Nat.le_of_not_lt inside
    rw [getElem?_eq_none past, getElem?_eq_none]
    rwa [length_cellsAt]

/-! ### One below the other -/

/-- What blocks take up. -/
def extent : List (List β) → ℕ
  | [] => 0
  | block :: rest => block.length + extent rest

/-- The stores that put blocks below `sp`, the first block highest. -/
def placed : ℕ → List (List β) → List (Store β)
  | _, [] => []
  | sp, block :: rest => ⟨sp - block.length, block⟩ :: placed (sp - block.length) rest

theorem placed_within (room : extent blocks ≤ sp) (mem : w ∈ placed sp blocks) :
    sp - extent blocks ≤ w.start ∧ w.stop ≤ sp := by
  induction blocks generalizing sp with
  | nil => cases mem
  | cons block rest ih =>
    rw [extent] at room ⊢
    rcases mem_cons.mp mem with rfl | later
    · unfold Store.stop
      simp only
      omega
    · have inside := ih (by omega) later
      omega

/-- Blocks placed one below the other do not overlap. -/
theorem placed_apart (room : extent blocks ≤ sp) : (placed sp blocks).Pairwise Apart := by
  induction blocks generalizing sp with
  | nil => exact .nil
  | cons block rest ih =>
    rw [extent] at room
    exact .cons (fun w later => .inr (placed_within (by omega) later).2) (ih (by omega))

theorem length_placed (sp : ℕ) (blocks : List (List β)) : (placed sp blocks).length = blocks.length := by
  induction blocks generalizing sp with
  | nil => rfl
  | cons block rest ih => rw [placed, length_cons, ih, length_cons]

theorem mem_placed_of_width {block : List β} (wide : ∀ cells ∈ blocks, cells.length = width)
    (isBlock : blocks[i]? = some block) : ⟨sp - width * (i + 1), block⟩ ∈ placed sp blocks := by
  induction blocks generalizing sp i with
  | nil => cases isBlock
  | cons cells rest ih =>
    rw [placed, wide cells mem_cons_self]
    cases i with
    | zero =>
      cases isBlock
      rw [Nat.zero_add, Nat.mul_one]
      exact mem_cons_self
    | succ i =>
      have position : sp - width * (i + 1 + 1) = sp - width - width * (i + 1) := by
        rw [Nat.mul_succ width (i + 1)]
        omega
      rw [position]
      refine mem_cons_of_mem _ (ih (fun cells mem => ?_) isBlock)
      exact wide cells (mem_cons_of_mem _ mem)

theorem extent_of_width (wide : ∀ cells ∈ blocks, cells.length = width) :
    extent blocks = width * blocks.length := by
  induction blocks with
  | nil => rfl
  | cons cells rest ih =>
    have later := ih fun cells mem => wide cells (mem_cons_of_mem _ mem)
    rw [extent, wide cells mem_cons_self, later, length_cons, Nat.mul_succ, Nat.add_comm]

end Ferros.Lib
