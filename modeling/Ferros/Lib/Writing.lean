/-
**Writing piece by piece into a buffer that may be too small.**

A writer has a buffer and a position, and gives up when the next piece does not fit. What it has written then is
the pieces, one behind the other, or it has given up because all of them together do not fit.

* `overwrite` — a list with a window replaced; `overwrite_append` — adjacent windows are one.
* `Appends`, `Refuses` — a writer that writes these cells, and one that gives up whatever room there is;
  `Appends.andThen`, `Refuses.after` — **they compose**.
-/

import Mathlib.Data.Nat.Notation
import Mathlib.Logic.Basic

namespace Ferros.Lib

open List Option

variable {α β γ : Type} {pos limit : ℕ} {l piece second : List α}

/-! ### Windows of a list -/

/-- The list with the cells from `pos` on replaced. -/
def overwrite (l : List α) (pos : ℕ) (piece : List α) : List α :=
  l.take pos ++ (piece ++ l.drop (pos + piece.length))

theorem overwrite_nil (l : List α) (pos : ℕ) : overwrite l pos [] = l := take_append_drop pos l

theorem length_overwrite (fits : pos + piece.length ≤ l.length) : (overwrite l pos piece).length = l.length := by
  rw [overwrite, length_append, length_append, length_take, length_drop]
  omega

theorem drop_overwrite (inside : pos ≤ l.length) : (overwrite l pos piece).drop pos =
    piece ++ l.drop (pos + piece.length) := by
  rw [overwrite, drop_append_of_le_length (by rw [length_take]; omega), drop_take, Nat.sub_self,
    take_zero, nil_append]

theorem take_overwrite (inside : pos ≤ l.length) : (overwrite l pos piece).take pos = l.take pos := by
  rw [overwrite, take_append_of_le_length (by rw [length_take]; omega), take_take, Nat.min_self]

theorem take_overwrite_zero (l piece : List α) : (overwrite l 0 piece).take piece.length = piece :=
    take_left

/-- **Adjacent windows are one.** -/
theorem overwrite_append (inside : pos ≤ l.length) (second : List α) :
    overwrite (overwrite l pos piece) (pos + piece.length) second = overwrite l pos (piece ++ second) := by
  have before : (overwrite l pos piece).take (pos + piece.length) = l.take pos ++ piece := by
    rw [take_add, take_overwrite inside, drop_overwrite inside, take_left]
  have behind : (overwrite l pos piece).drop (pos + piece.length + second.length) =
      l.drop (pos + (piece ++ second).length) := by
    rw [Nat.add_assoc, ← drop_drop, drop_overwrite inside, drop_append, drop_of_length_le
      (by omega),
      nil_append, drop_drop, length_append]
    congr 1
    omega
  rw [overwrite, before, behind, append_assoc, overwrite, append_assoc]

/-- What follows the list follows it still. -/
theorem overwrite_append_right (fits : pos + piece.length ≤ l.length) (tail : List α) :
    overwrite (l ++ tail) pos piece = overwrite l pos piece ++ tail := by
  rw [overwrite, take_append_of_le_length (by omega), drop_append_of_le_length fits, overwrite,
    append_assoc, append_assoc]

theorem set_eq_overwrite (inside : pos < l.length) (x : α) : l.set pos x = overwrite l pos [x] := by
  rw [set_eq_take_append_cons_drop, if_pos inside]
  rfl

/-! ### Writers -/

structure Buffer (α : Type) where
  out : List α
  pos : ℕ

/-- A computation that writes into a buffer and may give up. -/
abbrev Writing (α β : Type) := OptionT (StateM (Buffer α)) β

def Writing.step (f : Buffer α → Option β × Buffer α) : Writing α β := OptionT.mk fun b => f b

/-- How a writer ends, and the buffer then. -/
def Writing.write (x : Writing α β) (b : Buffer α) : Option β × Buffer α := StateT.run (OptionT.run x) b

theorem Writing.write_step (f : Buffer α → Option β × Buffer α) (b : Buffer α) :
    (Writing.step f).write b = f b := rfl

theorem Writing.write_bind_some {x : Writing α β} {f : β → Writing α γ} {b b' : Buffer α} {a : β}
    (first : x.write b = (some a, b')) : Writing.write (x >>= f) b = (f a).write b' := by
  unfold Writing.write at *
  rw [OptionT.run_bind, elimM, StateT.run_bind]
  exact first.symm ▸ rfl

theorem Writing.write_bind_none {x : Writing α β} {f : β → Writing α γ} {b : Buffer α}
    (first : (x.write b).1 = none) : (Writing.write (x >>= f) b).1 = none := by
  obtain ⟨b', first⟩ : ∃ b', x.write b = (none, b') := ⟨_, Prod.ext first rfl⟩
  unfold Writing.write at *
  rw [OptionT.run_bind, elimM, StateT.run_bind]
  exact first.symm ▸ rfl

/-- The writer writes these cells if they fit, and otherwise gives up;
  `limit` bounds the buffers it can have. -/
def Appends (limit : ℕ) (x : Writing α Unit) (piece : List α) : Prop :=
  ∀ b : Buffer α, b.pos ≤ b.out.length → b.out.length < limit →
    (b.pos + piece.length ≤ b.out.length →
      x.write b = (some (), ⟨overwrite b.out b.pos piece, b.pos + piece.length⟩)) ∧
    (b.out.length < b.pos + piece.length → (x.write b).1 = none)

/-- The writer gives up. -/
def Refuses (limit : ℕ) (x : Writing α β) : Prop :=
  ∀ b : Buffer α, b.pos ≤ b.out.length → b.out.length < limit → (x.write b).1 = none

section Compose

variable {x y : Writing α Unit} {f : Unit → Writing α β}

theorem Appends.nothing : Appends limit (pure () : Writing α Unit) [] := by
  refine fun b inside _ => ⟨fun _ => ?_, fun beyond => absurd inside (Nat.not_le.mpr beyond)⟩
  rw [overwrite_nil]
  rfl

/-- **One writer after another writes both pieces.** -/
theorem Appends.andThen (first : Appends limit x piece) (next : Appends limit y second) :
    Appends limit (x >>= fun _ => y) (piece ++ second) := by
  intro b inside small
  obtain ⟨done, full⟩ := first b inside small
  rw [length_append, ← Nat.add_assoc]
  by_cases fits : b.pos + piece.length ≤ b.out.length
  · have later := next ⟨overwrite b.out b.pos piece, b.pos + piece.length⟩
    simp only [length_overwrite fits, overwrite_append inside] at later
    rw [Writing.write_bind_some (done fits)]
    exact later fits small
  · exact ⟨fun both => absurd both (by omega), fun _ => Writing.write_bind_none (full (Nat.lt_of_not_le fits))⟩

theorem Refuses.first {x : Writing α β} {f : β → Writing α γ} (refuses : Refuses limit x) :
    Refuses limit (x >>= f) :=
  fun b inside small => Writing.write_bind_none (refuses b inside small)

/-- **A writer that gives up later gives up.** -/
theorem Refuses.after (first : Appends limit x piece) (later : Refuses limit (f ())) :
    Refuses limit (x >>= f) := by
  intro b inside small
  obtain ⟨done, full⟩ := first b inside small
  by_cases fits : b.pos + piece.length ≤ b.out.length
  · rw [Writing.write_bind_some (done fits)]
    have same : (overwrite b.out b.pos piece).length = b.out.length := length_overwrite fits
    exact later _ (by rw [same]; exact fits) (by rw [same]; exact small)
  · exact Writing.write_bind_none (full (Nat.lt_of_not_le fits))

end Compose

end Ferros.Lib
