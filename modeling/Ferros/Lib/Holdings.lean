/-
**What tables hold.**

A slot table `List (Option α)` holds a multiset of values, and a finite map of tables holds the sum of
theirs. Moving a value from one place to another does not change what is held in total; the lemmas say
how each update of a slot or an entry changes the total, as an equation without subtraction.

* `held_set`, `held_append` — updates of a slot table.
* `total_insert`, `total_erase` — updates of a map; `mem_total` — where a value is.
-/

import Mathlib.Data.Finmap
import Mathlib.Data.List.ReduceOption
import Mathlib.Algebra.BigOperators.Group.Multiset.Defs
import Mathlib.Data.Multiset.Bind

namespace Ferros.Lib

open List Option Multiset Finmap

variable {α κ β : Type} {slots : List (Option α)} {m : Finmap fun _ : κ => α}

/-! ### Slot tables -/

/-- The values in a slot. -/
def inSlot (slot : Option α) : Multiset α :=
  ↑slot.toList

/-- The values in a slot table. -/
def held (slots : List (Option α)) : Multiset α :=
  ↑slots.reduceOption

@[simp] theorem inSlot_none : inSlot (none : Option α) = 0 :=
  rfl

@[simp] theorem inSlot_some (x : α) : inSlot (some x) = {x} :=
  rfl

@[simp] theorem held_nil : held ([] : List (Option α)) = 0 :=
  rfl

theorem held_cons (slot : Option α) (slots : List (Option α)) :
    held (slot :: slots) = inSlot slot + held slots := by
  cases slot with
  | none => rw [held, reduceOption_cons_of_none, inSlot_none, zero_add]; rfl
  | some x => rw [held, reduceOption_cons_of_some]; rfl

theorem held_append (slots slots' : List (Option α)) : held (slots ++ slots') = held slots + held slots' := by
  rw [held, reduceOption_append]
  rfl

@[simp] theorem held_replicate_none (n : ℕ) : held (replicate n (none : Option α)) = 0 := by
  rw [held, reduceOption_replicate_none]
  rfl

/-- **Replacing a slot** exchanges the old value for the new one. -/
theorem held_set {i : ℕ} {old : Option α} (present : slots[i]? = some old) (new : Option α) :
    held (slots.set i new) + inSlot old = held slots + inSlot new := by
  induction slots generalizing i with
  | nil => exact nomatch present
  | cons slot slots ih =>
    cases i with
    | zero =>
      obtain rfl : slot = old := some.inj present
      rw [set_cons_zero, held_cons, held_cons, add_right_comm, add_comm (inSlot new), add_right_comm]
    | succ i =>
      rw [set_cons_succ, held_cons, held_cons, add_assoc, ih present, add_assoc]

theorem mem_held {x : α} : x ∈ held slots ↔ some x ∈ slots := by
  rw [held, mem_coe, reduceOption_mem_iff]

/-! ### Maps of tables -/

variable [DecidableEq κ] {M : Type} [AddCommMonoid M]

/-- The sum of a measure of the values of a map. -/
def total (f : α → M) (m : Finmap fun _ : κ => α) : M :=
  (m.entries.map fun e => f e.2).sum

def share (f : α → M) (value : Option α) : M :=
  value.elim 0 f

theorem total_insert_of_notMem (f : α → M) {k : κ} (v : α) (fresh : k ∉ m) :
    total f (m.insert k v) = f v + total f m := by
  rw [total, Finmap.entries_insert_of_notMem fresh, Multiset.map_cons, Multiset.sum_cons]
  rfl

theorem total_erase (f : α → M) (m : Finmap fun _ : κ => α) (k : κ) :
    share f (m.lookup k) + total f (m.erase k) = total f m := by
  cases found : m.lookup k with
  | none =>
    have absent : m.erase k = m := by
      refine ext_lookup fun k' => ?_
      by_cases same : k' = k
      · rw [same, lookup_erase, found]
      · rw [lookup_erase_ne same]
    rw [absent, share, elim_none, zero_add]
  | some v =>
    have restored : (m.erase k).insert k v = m := by
      refine ext_lookup fun k' => ?_
      by_cases same : k' = k
      · rw [same, lookup_insert, found]
      · rw [lookup_insert_of_ne _ same, lookup_erase_ne same]
    rw [share, elim_some, ← total_insert_of_notMem f v notMem_erase_self, restored]

/-- **Inserting** exchanges the displaced value for the new one. -/
theorem total_insert (f : α → M) (m : Finmap fun _ : κ => α) (k : κ) (v : α) :
    share f (m.lookup k) + total f (m.insert k v) = f v + total f m := by
  have again : m.insert k v = (m.erase k).insert k v := by
    refine ext_lookup fun k' => ?_
    by_cases same : k' = k
    · rw [same, lookup_insert, lookup_insert]
    · rw [lookup_insert_of_ne _ same, lookup_insert_of_ne _ same, lookup_erase_ne same]
  rw [again, total_insert_of_notMem f v notMem_erase_self, ← total_erase f m k, add_left_comm]

/-- A value in the sum of tables is in the table of some key. -/
theorem mem_total {f : α → Multiset β} {x : β} (mem : x ∈ total f m) :
    ∃ k v, m.lookup k = some v ∧ x ∈ f v := by
  obtain ⟨e, entry, inside⟩ := mem_bind.mp (show x ∈ m.entries.bind fun e => f e.2 from mem)
  exact ⟨e.1, e.2, lookup_eq_some_iff.mpr entry, inside⟩

end Ferros.Lib
