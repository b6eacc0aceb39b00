/-
**Pointwise updates of a vector.**

The ways a loop changes a vector in place, each as one pointwise map `mapIdx`, so that one lemma about
`mapIdx` serves all of them.

* `set_eq_mapIdx`, `modify_eq_mapIdx`, `map_eq_mapIdx` — one element, or every element.
* `modifyFirst` — a loop that changes the first match and breaks off; `modifyFirst_eq_map` if at most
  one element matches, as when the matches share a key and the keys are distinct.
-/

import Mathlib.Data.List.Nodup
import Mathlib.Data.Nat.Notation

namespace Ferros.Lib

open List Option

variable {α β : Type} {x y : α} {l : List α} {g : α → Option β} {i : ℕ}

theorem map_eq_mapIdx (f : α → α) (l : List α) : l.map f = l.mapIdx fun _ => f := by
  refine ext_getElem? fun i => ?_
  rw [getElem?_map, getElem?_mapIdx]

theorem modify_eq_mapIdx (i : ℕ) (f : α → α) (l : List α) :
    l.modify i f = l.mapIdx fun j x => if j = i then f x else x := by
  refine ext_getElem? fun j => ?_
  rw [getElem?_modify, getElem?_mapIdx]
  by_cases here : i = j
  · subst here
    simp
  · simp [here, Ne.symm here]

theorem set_eq_mapIdx (present : l[i]? = some x) (f : α → α) :
    l.set i (f x) = l.mapIdx fun j y => if j = i then f y else y := by
  refine ext_getElem? fun j => ?_
  rw [getElem?_set, getElem?_mapIdx]
  by_cases here : i = j
  · subst here
    rw [if_pos rfl, if_pos (List.getElem?_eq_some_iff.mp present).1, present]
    simp
  · simp [here, Ne.symm here]

theorem mem_mapIdx_iff {f : ℕ → α → β} {y : β} : y ∈ l.mapIdx f ↔ ∃ i x, l[i]? = some x ∧ f i x = y := by
  rw [mem_iff_getElem?]
  refine exists_congr fun i => ?_
  rw [getElem?_mapIdx, map_eq_some_iff]

/-! ### What a concatenation sees of an update -/

/-- What one of several lists gets or gives away. -/
theorem flatMap_exchange {f f' : α → List β} {more less : List β} (nodup : l.Nodup) (mem : x ∈ l)
    (same : ∀ y ∈ l, y ≠ x → f' y = f y) (changed : (less ++ f' x).Perm (more ++ f x)) :
    (less ++ l.flatMap f').Perm (more ++ l.flatMap f) := by
  obtain ⟨front, back, rfl⟩ := append_of_mem mem
  have apart := nodup_middle.mp nodup
  have away : x ∉ front ++ back := (nodup_cons.mp apart).1
  have sameFront : front.flatMap f' = front.flatMap f := flatMap_congr fun y inFront =>
    same y (mem_append_left _ inFront) fun here => away (here ▸ mem_append_left _ inFront)
  have sameBack : back.flatMap f' = back.flatMap f := flatMap_congr fun y inBack =>
    same y (mem_append_right _ (mem_cons_of_mem _ inBack))
      fun here => away (here ▸ mem_append_right _ inBack)
  rw [flatMap_append, flatMap_append, flatMap_cons, flatMap_cons, sameFront, sameBack]
  refine (perm_append_comm_assoc ..).trans (Perm.trans ?_ (perm_append_comm_assoc ..))
  rw [← append_assoc less, ← append_assoc more]
  exact (changed.append_right _).append_left _

/-! ### What a projection sees of an update -/

theorem filterMap_mapIdx {f : ℕ → α → α} (same : ∀ i x, g (f i x) = g x) :
    (l.mapIdx f).filterMap g = l.filterMap g := by
  rw [mapIdx_eq_zipIdx_map, filterMap_map]
  conv_rhs => rw [← zipIdx_map_fst 0 l, filterMap_map]
  refine filterMap_congr fun p _ => ?_
  exact same p.2 p.1

/-- One value takes the place of another. -/
theorem filterMap_set_perm {a b : β} (present : l[i]? = some x) (old : g x = some a)
    (new : g y = some b) : (a :: (l.set i y).filterMap g).Perm (b :: l.filterMap g) := by
  induction l generalizing i with
  | nil => exact nomatch present
  | cons z rest ih =>
    cases i with
    | zero =>
      cases present
      rw [set_cons_zero, filterMap_cons_some new, filterMap_cons_some old]
      exact .swap ..
    | succ i =>
      have later := ih present
      rw [set_cons_succ]
      cases seen : g z with
      | none =>
        rw [filterMap_cons_none seen, filterMap_cons_none seen]
        exact later
      | some c =>
        rw [filterMap_cons_some seen, filterMap_cons_some seen]
        exact (Perm.swap ..).trans ((later.cons c).trans (Perm.swap ..))

/-- Elements that lose their value, and those values. -/
theorem filterMap_remove_perm {p : ℕ → α → Bool} {f : α → α} (lost : ∀ x, g (f x) = none) (l : List α) :
    ((l.mapIdx fun i x => if p i x then f x else x).filterMap g ++
      ((l.zipIdx.filter fun q => p q.2 q.1).map Prod.fst).filterMap g).Perm (l.filterMap g) := by
  have shifted : ∀ n, (((l.zipIdx n).map fun q => if p q.2 q.1 then f q.1 else q.1).filterMap g ++
      (((l.zipIdx n).filter fun q => p q.2 q.1).map Prod.fst).filterMap g).Perm (l.filterMap g) := by
    induction l with
    | nil => exact fun _ => .refl _
    | cons x rest ih =>
      intro n
      have later := ih (n + 1)
      rw [zipIdx_cons, map_cons]
      cases taken : p n x with
      | true =>
        simp only [taken, if_true, filterMap_cons_none (lost x), filter_cons, map_cons]
        cases seen : g x with
        | none =>
          rw [filterMap_cons_none seen, filterMap_cons_none seen]
          exact later
        | some c =>
          rw [filterMap_cons_some seen, filterMap_cons_some seen]
          exact perm_middle.trans (later.cons c)
      | false =>
        simp only [taken, filter_cons, Bool.false_eq_true, if_false]
        cases seen : g x with
        | none =>
          rw [filterMap_cons_none seen, filterMap_cons_none seen]
          exact later
        | some c =>
          rw [filterMap_cons_some seen, filterMap_cons_some seen, cons_append]
          exact later.cons c
  rw [mapIdx_eq_zipIdx_map]
  exact shifted 0

/-- The first element that satisfies `p` is changed by `f`: a loop with `break`. -/
def modifyFirst (p : α → Bool) (f : α → α) : List α → List α
  | [] => []
  | x :: rest => if p x then f x :: rest else x :: modifyFirst p f rest

theorem modifyFirst_eq_map {p : α → Bool} {key : α → β} {k : β} (f : α → α) (nodup : (l.map key).Nodup)
    (matches_key : ∀ x, p x → key x = k) : modifyFirst p f l = l.map fun x => if p x then f x else x := by
  induction l with
  | nil => rfl
  | cons x rest ih =>
    obtain ⟨fresh, nodup⟩ := nodup_cons.mp nodup
    rw [modifyFirst, map_cons]
    by_cases first : p x
    · have others : ∀ y ∈ rest, ¬ p y := by
        intro y mem second
        refine fresh (mem_map.mpr ⟨y, mem, ?_⟩)
        rw [matches_key y second, matches_key x first]
      rw [if_pos first, if_pos first]
      congr 1
      rw [List.map_congr_left fun y mem => if_neg (others y mem), List.map_id']
    · rw [if_neg first, if_neg first, ih nodup]

end Ferros.Lib
