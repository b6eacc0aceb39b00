/-
**Computations that give up, and computations that go wrong.**

A function that returns an optional value can end in three ways: with a value, without one, or not at all,
because it indexes outside a slice or a machine word overflows. `Attempt` keeps the last two apart.

* `Gives` — how a computation ends; `Gives.bind`, `Gives.stop` — **it ends one step at a time**.
-/

import Ferros.Lib.Bytes

namespace Ferros.Lib

/-- A computation that may return nothing; it has no value at all where it goes wrong. -/
abbrev Attempt := OptionT Option

variable {α β : Type} {x : Attempt α} {f : α → Attempt β} {a : α} {r : Option β}

/-- A value whose absence is an answer. -/
def Attempt.maybe (a : Option α) : Attempt α := OptionT.mk (some a)

/-- A value whose absence is a fault. -/
def Attempt.surely (a : Option α) : Attempt α := OptionT.lift a

/-- The computation does not go wrong, and returns this. -/
def Gives (x : Attempt α) (r : Option α) : Prop := x.run = some r

namespace Gives

theorem value (a : α) : Gives (pure a : Attempt α) (some a) := rfl

theorem nothing : Gives (failure : Attempt α) none := rfl

theorem maybe (o : Option α) : Gives (Attempt.maybe o) o := rfl

theorem surely {o : Option α} (present : o = some a) : Gives (Attempt.surely o) (some a) := by
  rw [present]
  rfl

theorem bind (first : Gives x (some a)) (second : Gives (f a) r) : Gives (x >>= f) r := by
  unfold Gives at *
  rw [OptionT.run_bind, first]
  exact second

theorem stop (first : Gives x none) : Gives (x >>= f) (none : Option β) := by
  unfold Gives at *
  rw [OptionT.run_bind, first]
  rfl

end Gives

end Ferros.Lib
