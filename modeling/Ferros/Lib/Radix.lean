/-
**Trees of tables.**

Tables link to tables through slots: `next f i` is what slot `i` of table `f` leads to. A key is a list of
slots, and `walk` follows it from a root. Tables live in a store where nothing keeps two links from leading
to the same place, so being a tree is a property: no two keys lead to one node.

* `nodes` — the nodes of a tree, children before their table; `mem_nodes`, `nodup_nodes`, `isTree_of_nodup`.
* `nodes_add`, `nodes_remove` — a key more or less is a node more or less; `length_nodes_le` compares trees by
  their keys.
-/

import Mathlib.Data.List.Induction
import Mathlib.Data.List.Nodup
import Mathlib.Data.List.Pairwise
import Mathlib.Data.List.Perm.Subperm
import Mathlib.Data.Nat.Notation
import Mathlib.Data.Option.Basic

namespace Ferros.Lib

open List Option Function

variable {F I α β : Type} {k : ℕ} {next next' : F → I → Option F} {slots key q : List I} {f g c f' : F}

/-- Follows a key from `f` on. -/
def walk (next : F → I → Option F) : F → List I → Option F
  | f, [] => some f
  | f, i :: rest => (next f i).bind fun g => walk next g rest

theorem walk_cons (f : F) (i : I) (rest : List I) :
    walk next f (i :: rest) = (next f i).bind fun g => walk next g rest :=
  rfl

theorem walk_append (f : F) (p q : List I) :
    walk next f (p ++ q) = (walk next f p).bind fun g => walk next g q := by
  induction p generalizing f with
  | nil => rfl
  | cons i p ih =>
    rw [cons_append, walk_cons, walk_cons, bind_assoc]
    congr 1
    funext g
    exact ih g

theorem walk_concat (f : F) (p : List I) (i : I) :
    walk next f (p ++ [i]) = (walk next f p).bind fun g => next g i := by
  rw [walk_append]
  congr 1
  funext g
  rw [walk_cons]
  cases next g i <;> rfl

/-! ### Changed links -/

/-- The tree to depth `k` depends on the links of its tables only. -/
theorem walk_congr (same : ∀ p g, p.length < k → walk next f p = some g → ∀ i, next' g i = next g i) :
    ∀ q, q.length ≤ k → walk next' f q = walk next f q := by
  intro q
  induction q using reverseRecOn with
  | nil => exact fun _ => rfl
  | append_singleton q i ih =>
    intro short
    rw [length_append, length_singleton] at short
    rw [walk_concat, walk_concat, ih (by omega)]
    cases there : walk next f q with
    | none => rfl
    | some g => exact same q g (by omega) there i

/-- No two keys of at most `k` slots lead to one node. -/
def IsTree (next : F → I → Option F) (k : ℕ) (f : F) : Prop :=
  ∀ p q g, p.length ≤ k → q.length ≤ k → walk next f p = some g → walk next f q = some g → p = q

theorem IsTree.mono {m : ℕ} (tree : IsTree next k f) (fewer : m ≤ k) : IsTree next m f :=
  fun p q g shortP shortQ => tree p q g (Nat.le_trans shortP fewer) (Nat.le_trans shortQ fewer)

/-- A key more, to a node that no other key leads to. -/
theorem IsTree.add [DecidableEq I] (tree : IsTree next k f) (c : F) (key : List I)
    (fresh : ∀ q, q.length ≤ k → walk next f q ≠ some c)
    (added : ∀ q, q.length ≤ k → walk next' f q = if q = key then some c else walk next f q) :
    IsTree next' k f := by
  have old {q : List I} {g : F} (within : q.length ≤ k) (there : walk next' f q = some g) :
      q = key ∧ g = c ∨ walk next f q = some g := by
    rw [added q within] at there
    split at there
    · exact .inl ⟨‹_›, (some.inj there).symm⟩
    · exact .inr there
  intro p q g shortP shortQ first second
  rcases old shortP first with ⟨atP, new⟩ | first
  · rcases old shortQ second with ⟨atQ, _⟩ | second
    · rw [atP, atQ]
    · exact absurd (new ▸ second) (fresh q shortQ)
  · rcases old shortQ second with ⟨_, new⟩ | second
    · exact absurd (new ▸ first) (fresh p shortP)
    · exact tree p q g shortP shortQ first second

/-- **One link of a tree changes**: the key through it leads to its new end, all others lead where they led.
The new end, if it is a table, is empty, and then there was no link before. -/
theorem walk_set [DecidableEq I] {p : List I} {i : I} {target : Option F}
    (tree : IsTree next k f) (here : walk next f p = some g) (short : p.length ≤ k)
    (changed : next' g i = target)
    (same : ∀ q h j, q.length ≤ k → walk next f q = some h → h ≠ g ∨ j ≠ i → next' h j = next h j)
    (empty : p.length = k ∨ next g i = none ∧ ∀ c ∈ target, ∀ j, next' c j = none) :
    ∀ q, q.length ≤ k + 1 → walk next' f q = if q = p ++ [i] then target else walk next f q := by
  have link : walk next f (p ++ [i]) = next g i := by
    rw [walk_concat, here, bind_some]
  intro q
  induction q using reverseRecOn with
  | nil =>
    intro _
    rw [if_neg (by simp)]
    rfl
  | append_singleton q j ih =>
    intro shorter
    rw [length_append, length_singleton] at shorter
    rw [walk_concat, ih (by omega)]
    by_cases through : q = p ++ [i]
    · -- the key goes on behind the changed link
      have longer : q ++ [j] ≠ p ++ [i] := fun same => by
        have lengths := congrArg length same
        rw [through] at lengths
        simp at lengths
      obtain full | ⟨absent, emptied⟩ := empty
      · rw [through, length_append, length_singleton] at shorter
        omega
      · rw [if_pos through, if_neg longer, walk_concat, through, link, absent]
        cases target with
        | none => rfl
        | some c => exact emptied c rfl j
    · rw [if_neg through, walk_concat]
      cases there : walk next f q with
      | none =>
        rw [if_neg]
        · rfl
        · intro atLink
          obtain ⟨rfl, _⟩ := append_inj' atLink rfl
          rw [here] at there
          cases there
      | some h =>
        rw [bind_some, bind_some]
        by_cases atLink : q ++ [j] = p ++ [i]
        · obtain ⟨rfl, single⟩ := append_inj' atLink rfl
          obtain rfl : j = i := head_eq_of_cons_eq single
          cases here.symm.trans there
          rw [if_pos rfl, changed]
        · rw [if_neg atLink]
          refine same q h j (by omega) there ?_
          refine Decidable.or_iff_not_imp_right.mpr fun sameSlot sameTable => ?_
          rw [Decidable.not_not] at sameSlot
          subst sameSlot sameTable
          exact atLink (by rw [tree q p h (by omega) (by omega) there here])

/-! ### The nodes of a tree -/

/-- A list of lists without repetition has each element in one place. -/
theorem eq_of_nodup_flatMap {l : List α} {f : α → List β} (nodup : (l.flatMap f).Nodup) {x y : α} {z : β}
    (first : x ∈ l) (second : y ∈ l) (inFirst : z ∈ f x) (inSecond : z ∈ f y) : x = y := by
  by_contra away
  have : Std.Symm (onFun Disjoint f) := ⟨fun _ _ disjoint => disjoint_symm disjoint⟩
  exact (nodup_flatMap.mp nodup).2.forall first second away inFirst inSecond

/-- The nodes to depth `k`, each after the ones below it. -/
def nodes (next : F → I → Option F) (slots : List I) : ℕ → F → List F
  | 0, f => [f]
  | k + 1, f => (slots.flatMap fun i => (next f i).elim [] (nodes next slots k)) ++ [f]

def below (next : F → I → Option F) (slots : List I) (k : ℕ) (f : F) (i : I) : List F :=
  (next f i).elim [] (nodes next slots k)

theorem nodes_succ (slots : List I) (k : ℕ) (f : F) :
    nodes next slots (k + 1) f = slots.flatMap (below next slots k f) ++ [f] :=
  rfl

/-- The keys to depth `k` that lead somewhere. -/
def keyList (next : F → I → Option F) (slots : List I) : ℕ → F → List (List I)
  | 0, _ => [[]]
  | k + 1, f =>
    (slots.flatMap fun i => (next f i).elim [] fun c => (keyList next slots k c).map (i :: ·)) ++ [[]]

section Nodes

/-- The nodes are what the keys lead to, in the same order. -/
theorem map_nodes (k : ℕ) (f : F) :
    (nodes next slots k f).map some = (keyList next slots k f).map (walk next f) := by
  induction k generalizing f with
  | zero => rfl
  | succ k ih =>
    rw [nodes, keyList, map_append, map_append, map_flatMap, map_flatMap]
    congr 1
    refine flatMap_congr fun i _ => ?_
    cases link : next f i with
    | none => rfl
    | some c =>
      rw [elim_some, elim_some, ih c, List.map_map]
      refine map_congr_left fun q _ => ?_
      rw [comp_apply, walk_cons, link, bind_some]

theorem length_keyList (k : ℕ) (f : F) : (keyList next slots k f).length = (nodes next slots k f).length := by
  rw [← length_map (walk next f), ← map_nodes, length_map]

theorem nodes_congr (same : ∀ p g, p.length < k → walk next f p = some g → ∀ i, next' g i = next g i) :
    nodes next' slots k f = nodes next slots k f := by
  induction k generalizing f with
  | zero => rfl
  | succ k ih =>
    rw [nodes_succ, nodes_succ]
    congr 1
    refine flatMap_congr fun i _ => ?_
    rw [below, below, same [] f (Nat.zero_lt_succ k) rfl i]
    cases link : next f i with
    | none => rfl
    | some c =>
      refine ih fun p g short there => same (i :: p) g (Nat.succ_lt_succ short) ?_
      rw [walk_cons, link, bind_some, there]

theorem nodup_keyList (nodup : slots.Nodup) (k : ℕ) (f : F) : (keyList next slots k f).Nodup := by
  induction k generalizing f with
  | zero => exact nodup_singleton _
  | succ k ih =>
    have headed {i : I} {q : List I}
        (mem : q ∈ (next f i).elim [] fun c => (keyList next slots k c).map (i :: ·)) :
        ∃ rest, q = i :: rest := by
      cases link : next f i with
      | none =>
        rw [link] at mem
        cases mem
      | some c =>
        rw [link, elim_some] at mem
        obtain ⟨rest, _, same⟩ := mem_map.mp mem
        exact ⟨rest, same.symm⟩
    rw [keyList]
    refine nodup_append.mpr ⟨nodup_flatMap.mpr ⟨fun i _ => ?_, ?_⟩, nodup_singleton _, ?_⟩
    · cases next f i with
      | none => exact nodup_nil
      | some c => exact (ih c).map fun _ _ same => tail_eq_of_cons_eq same
    · refine nodup.imp fun {i j} apart q first second => apart ?_
      obtain ⟨rest, rfl⟩ := headed first
      obtain ⟨_, same⟩ := headed second
      exact head_eq_of_cons_eq same
    · rintro q inside _ empty rfl
      obtain ⟨i, _, inside⟩ := mem_flatMap.mp inside
      obtain ⟨rest, rfl⟩ := headed inside
      exact cons_ne_nil _ _ (mem_singleton.mp empty)

section

variable (all : ∀ i, i ∈ slots)
include all

theorem mem_keyList : q ∈ keyList next slots k f ↔ q.length ≤ k ∧ walk next f q ≠ none := by
  induction k generalizing f q with
  | zero =>
    rw [keyList, mem_singleton, Nat.le_zero, length_eq_zero_iff]
    constructor
    · rintro rfl
      exact ⟨rfl, some_ne_none f⟩
    · exact fun ⟨empty, _⟩ => empty
  | succ k ih =>
    rw [keyList, mem_append, mem_flatMap, mem_singleton]
    cases q with
    | nil => exact ⟨fun _ => ⟨Nat.zero_le _, some_ne_none f⟩, fun _ => .inr rfl⟩
    | cons i q =>
      rw [walk_cons, length_cons, Nat.succ_le_succ_iff]
      constructor
      · rintro (⟨j, _, mem⟩ | impossible)
        · cases link : next f j with
          | none =>
            rw [link] at mem
            cases mem
          | some c =>
            rw [link, elim_some] at mem
            obtain ⟨q', inside, same⟩ := mem_map.mp mem
            obtain ⟨rfl, rfl⟩ := cons.inj same
            rw [link, bind_some]
            exact ih.mp inside
        · cases impossible
      · rintro ⟨short, leads⟩
        cases link : next f i with
        | none =>
          rw [link] at leads
          exact absurd rfl leads
        | some c =>
          rw [link, bind_some] at leads
          refine .inl ⟨i, all i, ?_⟩
          rw [link, elim_some]
          exact mem_map_of_mem (ih.mpr ⟨short, leads⟩)

theorem mem_nodes : g ∈ nodes next slots k f ↔ ∃ p, p.length ≤ k ∧ walk next f p = some g := by
  rw [← List.mem_map_of_injective (some_injective F), map_nodes, List.mem_map]
  refine exists_congr fun p => ?_
  rw [mem_keyList all, and_assoc]
  refine and_congr_right fun _ => ⟨fun both => both.2, fun there => ⟨?_, there⟩⟩
  rw [there]
  exact some_ne_none g

/-- **A tree meets each of its nodes once.** -/
theorem nodup_nodes (nodup : slots.Nodup) (tree : IsTree next k f) : (nodes next slots k f).Nodup := by
  refine Nodup.of_map some ?_
  rw [map_nodes]
  refine (nodup_keyList nodup k f).map_on fun p inP q inQ same => ?_
  obtain ⟨shortP, leads⟩ := (mem_keyList all).mp inP
  obtain ⟨g, there⟩ := ne_none_iff_exists'.mp leads
  exact tree p q g shortP ((mem_keyList all).mp inQ).1 there (same.symm.trans there)

theorem isTree_of_nodup (nodup : (nodes next slots k f).Nodup) : IsTree next k f := by
  have once := nodup.map (some_injective F)
  rw [map_nodes] at once
  have isKey {p : List I} {g : F} (short : p.length ≤ k) (there : walk next f p = some g) :
      p ∈ keyList next slots k f := by
    refine (mem_keyList all).mpr ⟨short, ?_⟩
    rw [there]
    exact some_ne_none g
  intro p q g shortP shortQ first second
  exact inj_on_of_nodup_map once (isKey shortP first) (isKey shortQ second) (first.trans second.symm)

theorem nodes_add [DecidableEq I] (nodup : slots.Nodup) (tree : IsTree next k f) (short : key.length ≤ k)
    (absent : walk next f key = none) (fresh : c ∉ nodes next slots k f)
    (added : ∀ q, q.length ≤ k → walk next' f q = if q = key then some c else walk next f q) :
    IsTree next' k f ∧ (nodes next' slots k f).Perm (c :: nodes next slots k f) := by
  have old {q : List I} {g : F} (within : q.length ≤ k) (there : walk next' f q = some g) :
      q = key ∧ g = c ∨ q ≠ key ∧ walk next f q = some g := by
    rw [added q within] at there
    split at there
    · exact .inl ⟨‹_›, (some.inj there).symm⟩
    · exact .inr ⟨‹_›, there⟩
  have tree' : IsTree next' k f :=
    tree.add _ _ (fun q within there => fresh ((mem_nodes all).mpr ⟨q, within, there⟩)) added
  refine ⟨tree', (perm_ext_iff_of_nodup (nodup_nodes all nodup tree') ?_).mpr fun g => ?_⟩
  · exact nodup_cons.mpr ⟨fresh, nodup_nodes all nodup tree⟩
  · rw [mem_cons, mem_nodes all, mem_nodes all]
    constructor
    · rintro ⟨p, within, there⟩
      rcases old within there with ⟨_, rfl⟩ | ⟨_, there⟩
      · exact .inl rfl
      · exact .inr ⟨p, within, there⟩
    · rintro (rfl | ⟨p, within, there⟩)
      · exact ⟨key, short, by rw [added key short, if_pos rfl]⟩
      · have away : p ≠ key := fun same => by
          rw [same, absent] at there
          cases there
        exact ⟨p, within, by rw [added p within, if_neg away, there]⟩

theorem nodes_remove [DecidableEq I] (nodup : slots.Nodup) (tree : IsTree next k f) (short : key.length ≤ k)
    (there : walk next f key = some c)
    (removed : ∀ q, q.length ≤ k → walk next' f q = if q = key then none else walk next f q) :
    IsTree next' k f ∧ (nodes next slots k f).Perm (c :: nodes next' slots k f) := by
  have old {q : List I} {g : F} (within : q.length ≤ k) (stays : walk next' f q = some g) :
      q ≠ key ∧ walk next f q = some g := by
    rw [removed q within] at stays
    split at stays
    · cases stays
    · exact ⟨‹_›, stays⟩
  have tree' : IsTree next' k f := fun p q g shortP shortQ first second =>
    tree p q g shortP shortQ (old shortP first).2 (old shortQ second).2
  refine ⟨tree', (nodes_add all nodup tree' short ?_ ?_ fun q within => ?_).2⟩
  · rw [removed key short, if_pos rfl]
  · intro mem
    obtain ⟨q, within, stays⟩ := (mem_nodes all).mp mem
    obtain ⟨away, stays⟩ := old within stays
    exact away (tree q key c within short stays there)
  · rw [removed q within]
    split
    · rename_i same
      rw [same, there]
    · rfl

/-- **A tree whose keys are among those of another one, and lack some**, has that many nodes less. -/
theorem length_nodes_le (nodup : slots.Nodup) {missing : List (List I)}
    (keys : ∀ q, q.length ≤ k → walk next f q ≠ none → walk next' f' q ≠ none) (once : missing.Nodup)
    (lacks : ∀ q ∈ missing, q.length ≤ k ∧ walk next f q = none ∧ walk next' f' q ≠ none) :
    missing.length + (nodes next slots k f).length ≤ (nodes next' slots k f').length := by
  rw [← length_keyList, ← length_keyList, ← length_append]
  refine Subperm.length_le (Nodup.subperm ?_ ?_)
  · refine nodup_append.mpr ⟨once, nodup_keyList nodup k f, ?_⟩
    rintro q lacking _ mem rfl
    exact ((mem_keyList all).mp mem).2 (lacks q lacking).2.1
  · intro q mem
    rcases mem_append.mp mem with lacking | mem
    · exact (mem_keyList all).mpr ⟨(lacks q lacking).1, (lacks q lacking).2.2⟩
    · obtain ⟨short, leads⟩ := (mem_keyList all).mp mem
      exact (mem_keyList all).mpr ⟨short, keys q short leads⟩

end

end Nodes

end Ferros.Lib
