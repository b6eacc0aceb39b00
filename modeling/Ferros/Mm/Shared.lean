/-
**Pages in the kernel's slots.**

The kernel's tables of level 3 and below are those of every space. If the kernel has a slot of level 4 but no
page at an address below it, the page can be mapped through any space: the tables on the way are made below
the kernel's own, and every space has the page then.

* `keyState` — what the way to a page meets: an empty entry, the page, or an entry that is no table.
* `KernelTables` — the kernel's tables are a tree, with entries that are empty or present.
* `MapsShared` — what the kernel relies on of `map_to`; `mapsShared` shows it of the crate's walk.

The walk does two things to the kernel's tables: it links a frame into an empty slot (`Grafts.link`) and adds
flags to an entry (`Grafts.flags`). What both leave as it was composes (`Grafts.trans`).
-/

import Ferros.Mm.Mapping
import Mathlib.Order.Fin.Basic

namespace Ferros.Mm

open Lib List Option

variable {memory memory' : Memory} {f g kernel t h r' leaf r : Frame} {i j : Slot} {p rest q : List Slot}
  {roots hand hand₁ hand₂ taken taken₁ roots' hand' : List Frame} {keys keys₁ : List (List Slot)}
  {ram ram₁ ram₂ ram' : Ram} {a a₁ a₂ a' : FrameAllocator} {va : ℕ}

/-! ### What a way down meets -/

inductive PageState
  /-- An empty entry. -/
  | free
  /-- The page. -/
  | mapped
  /-- An entry that leads to no table, such as a large page. -/
  | blocked
  deriving DecidableEq, Repr

def keyState (memory : Memory) : Frame → List Slot → PageState
  | _, [] => .mapped
  | f, i :: rest =>
    let word := entry memory f i
    if word = 0 then .free
    else if rest.isEmpty then .mapped
    else
      match entryFrame word with
      | some table => keyState memory table rest
      | none => .blocked

def pageState (memory : Memory) (root : Frame) (va : ℕ) : PageState := keyState memory root (pageKey va)

theorem keyState_free (unused : entry memory f i = 0) : keyState memory f (i :: rest) = .free := by
  rw [keyState, unused]
  rfl

theorem keyState_single (used : entry memory f i ≠ 0) : keyState memory f [i] = .mapped := by
  rw [keyState]
  simp only [if_neg used]
  rfl

theorem keyState_next (link : nextTable memory f i = some g) (more : rest ≠ []) :
    keyState memory f (i :: rest) = keyState memory g rest := by
  have used : entry memory f i ≠ 0 := by
    intro unused
    rw [nextTable, unused, entryFrame_zero] at link
    cases link
  have further : rest.isEmpty = false := isEmpty_eq_false_iff.mpr more
  rw [nextTable] at link
  rw [keyState]
  simp only [if_neg used, further, Bool.false_eq_true, if_false, link]

theorem keyState_blocked (used : entry memory f i ≠ 0) (link : nextTable memory f i = none) (more : rest ≠ []) :
    keyState memory f (i :: rest) = .blocked := by
  have further : rest.isEmpty = false := isEmpty_eq_false_iff.mpr more
  rw [nextTable] at link
  rw [keyState]
  simp only [if_neg used, further, Bool.false_eq_true, if_false, link]

theorem keyState_walk (there : walk (nextTable memory) f p = some g) (more : rest ≠ []) :
    keyState memory f (p ++ rest) = keyState memory g rest := by
  induction p generalizing f with
  | nil => rw [some.inj there, nil_append]
  | cons i p ih =>
    rw [walk_cons] at there
    obtain ⟨c, link, there⟩ := bind_eq_some_iff.mp there
    rw [cons_append, keyState_next link (append_ne_nil_of_right_ne_nil p more), ih there]

/-- Without the last table there is no page. -/
theorem keyState_ne_mapped (nowhere : walk (nextTable memory) f p = none) :
    keyState memory f (p ++ [i]) ≠ .mapped := by
  induction p generalizing f with
  | nil => cases nowhere
  | cons j p ih =>
    have more : p ++ [i] ≠ [] := by simp
    rw [cons_append]
    cases link : nextTable memory f j with
    | some c =>
      rw [walk_cons, link, bind_some] at nowhere
      rw [keyState_next link more]
      exact ih nowhere
    | none =>
      by_cases used : entry memory f j = 0
      · rw [keyState_free used]
        exact PageState.noConfusion
      · rw [keyState_blocked used link more]
        exact PageState.noConfusion

theorem OffsetPageTable.translatePage_eq_none_iff (memory : Memory) (root : Frame) (va : ℕ) :
    translatePage memory root va = none ↔ pageState memory root va ≠ .mapped := by
  rw [translatePage, pageState, pageKey]
  cases there : walk (nextTable memory) root (upperSlots va) with
  | none => exact iff_of_true rfl (keyState_ne_mapped there)
  | some table =>
    rw [keyState_walk there (cons_ne_nil _ _), bind_some]
    by_cases unused : entry memory table (lastSlot va) = 0
    · rw [keyState_free unused]
      simp [unused]
    · rw [keyState_single unused]
      simp [unused]

theorem keyState_cons_congr (empty : entry memory' f i = 0 ↔ entry memory f i = 0)
    (link : nextTable memory' f i = nextTable memory f i)
    (below : ∀ c, nextTable memory f i = some c → rest ≠ [] → keyState memory' c rest = keyState memory c rest) :
    keyState memory' f (i :: rest) = keyState memory f (i :: rest) := by
  by_cases unused : entry memory f i = 0
  · rw [keyState_free unused, keyState_free (empty.mpr unused)]
  · have unused' : entry memory' f i ≠ 0 := fun zero => unused (empty.mp zero)
    by_cases more : rest = []
    · rw [more, keyState_single unused, keyState_single unused']
    · cases next : nextTable memory f i with
      | none => rw [keyState_blocked unused next more, keyState_blocked unused' (link.trans next) more]
      | some c => rw [keyState_next next more, keyState_next (link.trans next) more, below c next more]

/-- The way depends on which entries are empty and where the others lead. -/
theorem keyState_congr (f : Frame)
    (empty : ∀ p g, p.length < rest.length → walk (nextTable memory) f p = some g →
      ∀ i, entry memory' g i = 0 ↔ entry memory g i = 0)
    (links : ∀ p g, p.length < rest.length → walk (nextTable memory) f p = some g →
      ∀ i, nextTable memory' g i = nextTable memory g i) :
    keyState memory' f rest = keyState memory f rest := by
  induction rest generalizing f with
  | nil => rfl
  | cons i rest ih =>
    refine keyState_cons_congr (empty [] f (Nat.succ_pos _) rfl i) (links [] f (Nat.succ_pos _) rfl i)
      fun c next _ => ?_
    have below {p : List Slot} {g : Frame} (there : walk (nextTable memory) c p = some g) :
        walk (nextTable memory) f (i :: p) = some g := by
      rw [walk_cons, next, bind_some, there]
    exact ih c (fun p g short there => empty (i :: p) g (Nat.succ_lt_succ short) (below there))
      fun p g short there => links (i :: p) g (Nat.succ_lt_succ short) (below there)

/-! ### The kernel's tables -/

structure KernelTables (memory : Memory) (kernel : Frame) : Prop where
  tree : IsTree (nextTable memory) 3 kernel
  /-- An entry is empty or present. -/
  present : ∀ p f, p.length ≤ 3 → walk (nextTable memory) kernel p = some f →
    ∀ i, entry memory f i = 0 ∨ isPresent (entry memory f i) = true

def kernelTables (memory : Memory) (kernel : Frame) : List Frame :=
  nodes (nextTable memory) allSlots 3 kernel

section KernelTables

theorem mem_kernelTables :
    f ∈ kernelTables memory kernel ↔ ∃ p, p.length ≤ 3 ∧ walk (nextTable memory) kernel p = some f :=
  mem_nodes mem_allSlots

theorem mem_kernelFrames :
    f ∈ kernelFrames memory kernel ↔ ∃ p, p.length ≤ 4 ∧ walk (nextTable memory) kernel p = some f :=
  mem_nodes mem_allSlots

theorem kernelTables_subset : kernelTables memory kernel ⊆ kernelFrames memory kernel := fun _ mem =>
  let ⟨p, short, there⟩ := mem_kernelTables.mp mem
  mem_kernelFrames.mpr ⟨p, Nat.le_succ_of_le short, there⟩

section

variable (same : ∀ g ∈ kernelTables memory kernel, memory' g = memory g)
include same

/-- Everything below the kernel's root depends on its tables. -/
theorem kernel_walk_congr :
    ∀ q, q.length ≤ 4 → walk (nextTable memory') kernel q = walk (nextTable memory) kernel q := by
  refine walk_congr fun p g short there i => ?_
  rw [nextTable, nextTable, entry, entry, same g (mem_kernelTables.mpr ⟨p, Nat.le_of_lt_succ short, there⟩)]

theorem kernelTables_congr : kernelTables memory' kernel = kernelTables memory kernel :=
  nodes_congr fun p g short there i => by
    rw [nextTable, nextTable, entry, entry, same g (mem_kernelTables.mpr ⟨p, short.le, there⟩)]

omit same in
theorem KernelTables.congr (tables : KernelTables memory kernel)
    (same : ∀ g ∈ kernelTables memory kernel, memory' g = memory g) : KernelTables memory' kernel := by
  have walks := kernel_walk_congr same
  refine ⟨fun p q g shortP shortQ => ?_, fun p f short there i => ?_⟩
  · rw [walks p (Nat.le_succ_of_le shortP), walks q (Nat.le_succ_of_le shortQ)]
    exact tables.tree p q g shortP shortQ
  · rw [walks p (Nat.le_succ_of_le short)] at there
    rw [entry, same f (mem_kernelTables.mpr ⟨p, short, there⟩)]
    exact tables.present p f short there i

omit same in
/-- A kernel without mappings. -/
theorem kernelTables_zero (kernel : Frame) : KernelTables (fun _ => zeroPage) kernel := by
  have nothing {p : List Slot} {f : Frame} (there : walk (nextTable fun _ => zeroPage) kernel p = some f) :
    p = [] := by
    cases p with
    | nil => rfl
    | cons i rest =>
      rw [walk_cons, nextTable, entry, wordAt_zeroPage, entryFrame_zero] at there
      cases there
  refine ⟨fun p q g _ _ first second => ?_, fun p f _ _ i => .inl (wordAt_zeroPage i)⟩
  rw [nothing first, nothing second]

theorem kernel_keyState_congr (short : q.length ≤ 4) :
    keyState memory' kernel q = keyState memory kernel q := by
  have entries (p : List Slot) (g : Frame) (within : p.length < q.length)
      (there : walk (nextTable memory) kernel p = some g) (i : Slot) : entry memory' g i = entry memory g i :=
    congrArg (wordAt · i) (same g (mem_kernelTables.mpr ⟨p, by omega, there⟩))
  refine keyState_congr kernel (fun p g within there i => ?_) fun p g within there i => ?_
  · rw [entries p g within there]
  · rw [nextTable, nextTable, entries p g within there]

end

end KernelTables

/-! ### A frame is grafted -/

/-- The empty slot `i` of the kernel's table `g`, where the key `p` leads, gets the frame `t`, which is none of
the kernel's. As a table it is empty. -/
structure SetGraft (memory memory' : Memory) (kernel g : Frame) (p : List Slot) (i : Slot) (t : Frame) :
    Prop where
  there : walk (nextTable memory) kernel p = some g
  short : p.length ≤ 3
  unused : entry memory g i = 0
  small : t < 2 ^ 40
  linked : entry memory' g i = frameEntry t
  elsewhere : ∀ h j, h ≠ t → h ≠ g ∨ j ≠ i → entry memory' h j = entry memory h j
  fresh : t ∉ kernelFrames memory kernel
  bottom : p.length = 3 ∨ memory' t = zeroPage

section SetGraft

variable (set : SetGraft memory memory' kernel g p i t)
include set

theorem SetGraft.next : nextTable memory' g i = some t := by
  rw [nextTable, set.linked, entryFrame_frameEntry set.small]

theorem SetGraft.same (short : q.length ≤ 3) (there : walk (nextTable memory) kernel q = some h)
    (away : h ≠ g ∨ j ≠ i) : entry memory' h j = entry memory h j := by
  refine set.elsewhere h j ?_ away
  rintro rfl
  exact set.fresh (mem_kernelFrames.mpr ⟨q, Nat.le_succ_of_le short, there⟩)

theorem SetGraft.absent : walk (nextTable memory) kernel (p ++ [i]) = none := by
  rw [walk_concat, set.there, bind_some, nextTable, set.unused, entryFrame_zero]

/-- **The key through the slot leads to the frame, all others lead where they led.** -/
theorem SetGraft.walks (tables : KernelTables memory kernel) :
    ∀ q, q.length ≤ 4 → walk (nextTable memory') kernel q =
      if q = p ++ [i] then some t else walk (nextTable memory) kernel q := by
  refine walk_set tables.tree set.there set.short set.next (fun q h j short there away => ?_) ?_
  · rw [nextTable, nextTable, set.same short there away]
  · refine set.bottom.imp_right fun zeroed => ⟨?_, fun c named j => ?_⟩
    · rw [nextTable, set.unused, entryFrame_zero]
    · cases named
      rw [nextTable, entry, zeroed, wordAt_zeroPage, entryFrame_zero]

theorem SetGraft.tables (tables : KernelTables memory kernel) : KernelTables memory' kernel := by
  have walks := set.walks tables
  refine ⟨?_, fun q f short there j => ?_⟩
  · refine tables.tree.add t (p ++ [i]) (fun q short there => ?_) fun q short => ?_
    · exact set.fresh (mem_kernelFrames.mpr ⟨q, Nat.le_succ_of_le short, there⟩)
    · exact walks q (Nat.le_succ_of_le short)
  · rw [walks q (Nat.le_succ_of_le short)] at there
    split at there
    · -- the new table is empty
      rename_i isKey
      cases there
      rcases set.bottom with full | zeroed
      · rw [isKey, length_append, length_singleton, full] at short
        omega
      · exact .inl (by rw [entry, zeroed, wordAt_zeroPage])
    · by_cases here : f = g ∧ j = i
      · obtain ⟨rfl, rfl⟩ := here
        rw [set.linked]
        exact .inr (isPresent_frameEntry t)
      · rw [not_and_or] at here
        rw [set.same short there here]
        exact tables.present q f short there j

/-- The ways to all other pages meet what they met. -/
theorem SetGraft.keyState_other (tables : KernelTables memory kernel) :
    ∀ {q : List Slot} {h : Frame}, walk (nextTable memory) kernel q = some h → q.length + rest.length = 4 →
      rest ≠ [] → q ++ rest ≠ p ++ [i] → keyState memory' h rest = keyState memory h rest := by
  induction rest with
  | nil => exact fun _ _ none => absurd rfl none
  | cons j rest ih =>
    intro q h there four _ away
    rw [length_cons] at four
    by_cases here : h = g ∧ j = i
    · obtain ⟨rfl, rfl⟩ := here
      obtain rfl := tables.tree q p h (by omega) set.short there set.there
      rw [keyState_free set.unused]
      -- the way went through the slot, so it ends in the new table
      have more : rest ≠ [] := fun last => away (by rw [last])
      have zeroed := set.bottom.resolve_left fun full => more (length_eq_zero_iff.mp (by omega))
      rw [keyState_next set.next more]
      obtain ⟨k, rest, rfl⟩ := exists_cons_of_ne_nil more
      exact keyState_free (by rw [entry, zeroed, wordAt_zeroPage])
    · have same : entry memory' h j = entry memory h j := set.same (by omega) there (not_and_or.mp here)
      refine keyState_cons_congr (by rw [same]) (by rw [nextTable, nextTable, same]) fun c next more => ?_
      have further : walk (nextTable memory) kernel (q ++ [j]) = some c := by
        rw [walk_concat, there, bind_some, next]
      refine ih further ?_ more ?_
      · rw [length_append, length_singleton]
        omega
      · rw [append_assoc, singleton_append]
        exact away

/-- **One page more in the kernel's tables, or none.** -/
theorem SetGraft.keyState_eq (tables : KernelTables memory kernel) (four : q.length = 4) :
    keyState memory' kernel q = if q = p ++ [i] then .mapped else keyState memory kernel q := by
  split
  · rename_i isKey
    have three : p.length = 3 := by
      rw [isKey, length_append, length_singleton] at four
      omega
    have walks := set.walks tables p (Nat.le_succ_of_le set.short)
    rw [if_neg (by simp), set.there] at walks
    rw [isKey, keyState_walk walks (cons_ne_nil _ _), keyState_single]
    rw [set.linked]
    exact frameEntry_ne_zero t
  · rename_i away
    have nonempty : q ≠ [] := ne_nil_of_length_eq_add_one four
    have start : walk (nextTable memory) kernel [] = some kernel := rfl
    exact set.keyState_other tables start (by rw [length_nil, four]) nonempty away

end SetGraft

/-! ### Mapping through a space -/

/-- Pages at `keys` are mapped in the kernel's tables, through the space of `r`. The frames `taken` are the
kernel's then; otherwise the tables keep their links. -/
structure Grafts (kernel : Frame) (roots : List Frame) (r : Frame) (keys : List (List Slot)) (ram : Ram)
    (a : FrameAllocator) (hand : List Frame) (ram' : Ram) (a' : FrameAllocator) (hand' taken : List Frame) :
    Prop where
  valid : Valid kernel ram' a' roots hand'
  tables : KernelTables ram'.memory kernel
  slots : ∀ i, entry ram'.memory kernel i = entry ram.memory kernel i
  books : (taken ++ (hand' ++ a'.available)).Perm (hand ++ a.available)
  spaces : ∀ r' ∈ roots, ∀ q, q.length ≤ 4 → space ram'.memory kernel r' q = space ram.memory kernel r' q
  keeps : ∀ q f, q.length ≤ 4 → walk (nextTable ram.memory) kernel q = some f →
    walk (nextTable ram'.memory) kernel q = some f
  gains : ∀ q f, q.length ≤ 4 → walk (nextTable ram'.memory) kernel q = some f →
    walk (nextTable ram.memory) kernel q = some f ∨ f ∈ taken
  states : ∀ q, q.length = 4 → keyState ram'.memory kernel q =
    if q ∈ keys then .mapped else keyState ram.memory kernel q
  elsewhere : ∀ f, f ≠ r → f ∉ kernelTables ram.memory kernel → f ∉ hand ++ a.available →
    ram'.memory f = ram.memory f

section Grafts

/-- Frames change hands only. -/
theorem Grafts.moved (tables : KernelTables ram.memory kernel) (valid : Valid kernel ram₁ a₁ roots hand₁)
    (same : ram₁.memory = ram.memory) (books : (hand₁ ++ a₁.available).Perm (hand ++ a.available)) :
    Grafts kernel roots r [] ram a hand ram₁ a₁ hand₁ [] := by
  refine ⟨valid, same ▸ tables, fun i => ?_, books, fun r' _ q _ => ?_, fun q f _ there => ?_,
    fun q f _ there => ?_, fun q _ => ?_, fun f _ _ _ => ?_⟩
  · rw [same]
  · rw [same]
  · rw [same, there]
  · rw [same] at there
    exact .inl there
  · rw [same, if_neg not_mem_nil]
  · rw [same]

theorem Grafts.trans (first : Grafts kernel roots r keys ram a hand ram₁ a₁ hand₁ taken)
    (second : Grafts kernel roots r keys₁ ram₁ a₁ hand₁ ram₂ a₂ hand₂ taken₁) :
    Grafts kernel roots r (keys₁ ++ keys) ram a hand ram₂ a₂ hand₂ (taken ++ taken₁) := by
  have books : (taken ++ (taken₁ ++ (hand₂ ++ a₂.available))).Perm (hand ++ a.available) :=
    (second.books.append_left taken).trans first.books
  refine ⟨second.valid, second.tables, fun i => (second.slots i).trans (first.slots i), ?_, ?_, ?_, ?_, ?_, ?_⟩
  · rw [append_assoc]
    exact books
  · exact fun r' isRoot q short => (second.spaces r' isRoot q short).trans (first.spaces r' isRoot q short)
  · exact fun q f short there => second.keeps q f short (first.keeps q f short there)
  · intro q f short there
    rcases second.gains q f short there with between | new
    · exact (first.gains q f short between).imp_right (mem_append_left _)
    · exact .inr (mem_append_right _ new)
  · intro q four
    rw [second.states q four, first.states q four]
    by_cases later : q ∈ keys₁
    · rw [if_pos later, if_pos (mem_append_left _ later)]
    · rw [if_neg later]
      by_cases earlier : q ∈ keys
      · rw [if_pos earlier, if_pos (mem_append_right _ earlier)]
      · rw [if_neg earlier, if_neg fun mem => (mem_append.mp mem).elim later earlier]
  · intro f away noTable outside
    have notTaken : f ∉ taken ++ (hand₁ ++ a₁.available) :=
      fun inside => outside (first.books.mem_iff.mp inside)
    rw [mem_append, not_or] at notTaken
    rw [second.elsewhere f away ?_ notTaken.2, first.elsewhere f away noTable outside]
    intro table
    obtain ⟨q, short, there⟩ := mem_kernelTables.mp table
    rcases first.gains q f (Nat.le_succ_of_le short) there with before | new
    · exact noTable (mem_kernelTables.mpr ⟨q, short, before⟩)
    · exact notTaken.1 new

theorem KernelTables.ne_kernel (tables : KernelTables ram.memory kernel)
    (there : walk (nextTable ram.memory) kernel p = some g) (short : p.length ≤ 3) (below : p ≠ []) :
    g ≠ kernel := by
  rintro rfl
  exact below (tables.tree p [] g short (Nat.zero_le _) there rfl)

/-- `PRESENT | WRITABLE | USER_ACCESSIBLE` is added to an entry. -/
def Ram.flagEntry (f : Frame) (i : Slot) (ram : Ram) : Ram :=
  ram.setEntry f i (entry ram.memory f i ||| userFlags)

/-- What becomes of an entry that is in use. -/
theorem createNextTable_used (used : entry ram.memory g i ≠ 0) (present : isPresent (entry ram.memory g i)) :
    ∃ ram₁, (ram₁ = ram ∨ ram₁ = ram.flagEntry g i) ∧ createNextTable g i ram =
        ((nextTable ram.memory g i).elim (.error .parentEntryHugePage) Except.ok, ram₁) := by
  have same : entryFrame (entry ram.memory g i ||| userFlags) = nextTable ram.memory g i :=
    (sameLink_or present).entryFrame
  simp only [createNextTable, if_neg used, same]
  by_cases flagged : entry ram.memory g i % 8 = 7
  · refine ⟨ram, .inl rfl, ?_⟩
    simp only [if_pos flagged]
    cases nextTable ram.memory g i <;> rfl
  · refine ⟨ram.flagEntry g i, .inr rfl, ?_⟩
    simp only [if_neg flagged]
    cases nextTable ram.memory g i <;> rfl

section

variable (valid : Valid kernel ram a roots hand)
include valid

theorem Valid.table_ne (isRoot : r' ∈ roots) (short : q.length ≤ 4)
    (there : space ram.memory kernel r' q = some h) (mem : f ∈ kernelFrames ram.memory kernel ∨ f ∈ hand) :
    h ≠ f := by
  rintro rfl
  have inSpace := Valid.mem isRoot short there
  rcases mem with isKernel | inHand
  · exact valid.notKernel h isKernel (mem_append_left _ (mem_append_right _ inSpace))
  · exact valid.not_hand inSpace inHand

/-- In a slot of the kernel's, a space leads where the kernel's table leads. -/
theorem Valid.next_shared (isRoot : r ∈ roots) (used : entry ram.memory kernel i ≠ 0) :
    nextTable ram.memory r i = nextTable ram.memory kernel i :=
  (valid.shares r isRoot i used).entryFrame

end

/-- **A frame in hand is linked into the kernel's tables.** -/
theorem Grafts.link (valid : Valid kernel ram a roots (t :: hand)) (tables : KernelTables ram.memory kernel)
    (set : SetGraft ram.memory memory' kernel g p i t) (below : p ≠ [])
    (same : ∀ f, f ≠ g → f ≠ t → memory' f = ram.memory f)
    (isKey : ∀ q : List Slot, q.length = 4 → (q ∈ keys ↔ q = p ++ [i])) :
    Grafts kernel roots r keys ram a (t :: hand) { ram with memory := memory' } a hand [t] := by
  have inHand : t ∈ t :: hand := mem_cons_self
  have isTable : g ∈ kernelTables ram.memory kernel := mem_kernelTables.mpr ⟨p, set.short, set.there⟩
  have isKernel : g ∈ kernelFrames ram.memory kernel := kernelTables_subset isTable
  have sameKernel : memory' kernel = ram.memory kernel :=
    same kernel (tables.ne_kernel set.there set.short below).symm (valid.kernel_ne_hand kernel_mem_kernelFrames)
  have inSpace (r' : Frame) (isRoot : r' ∈ roots) (q : List Slot) (h : Frame) (short : q.length ≤ 4)
      (there : space ram.memory kernel r' q = some h) : memory' h = ram.memory h :=
    same h (valid.table_ne isRoot short there (.inl isKernel)) (valid.table_ne isRoot short there (.inr inHand))
  have walks := set.walks tables
  obtain ⟨valid', spaces⟩ := Valid.absorb [t] memory' valid
    (fun j => congrArg (wordAt · j) sameKernel)
    (fun r' isRoot q h short there j _ =>
      congrArg (wordAt · j) (inSpace r' isRoot q h short.le there))
    (fun r' isRoot j _ => by
      rw [entry, entry, inSpace r' isRoot [] r' (Nat.zero_le _) rfl]
      exact SameLink.refl _)
    (fun f mem => by
      obtain ⟨q, short, there⟩ := mem_kernelFrames.mp mem
      rw [walks q short] at there
      split at there
      · exact .inr (mem_singleton.mpr (some.inj there).symm)
      · exact .inl (mem_kernelFrames.mpr ⟨q, short, there⟩))
    (fun f free => by
      have available : f ∈ a.available := mem_append_left _ free
      refine same f ?_ ?_
      · rintro rfl
        exact valid.notKernel f isKernel (mem_append_right _ available)
      · rintro rfl
        exact valid.not_available (mem_append_left _ inHand) available)
  refine ⟨valid', set.tables tables, fun j => congrArg (wordAt · j) sameKernel, .refl _, spaces, ?_, ?_, ?_, ?_⟩
  · intro q f short there
    rw [walks q short, if_neg, there]
    rintro rfl
    rw [set.absent] at there
    cases there
  · intro q f short there
    rw [walks q short] at there
    split at there
    · exact .inr (mem_singleton.mpr (some.inj there).symm)
    · exact .inl there
  · intro q four
    rw [set.keyState_eq tables four]
    simp only [isKey q four]
  · intro f _ noTable outside
    refine same f ?_ ?_
    · rintro rfl
      exact noTable isTable
    · rintro rfl
      exact outside mem_cons_self

/-- A frame that was handed out becomes an empty table of the kernel's. -/
theorem grafts_of_new_table (tables : KernelTables ram.memory kernel)
    (there : walk (nextTable ram.memory) kernel p = some g) (short : p.length < 3) (below : p ≠ [])
    (unused : entry ram.memory g i = 0) (valid : Valid kernel ram a roots (t :: hand)) :
    Grafts kernel roots r [] ram a (t :: hand) ((ram.setEntry g i (frameEntry t)).write t zeroPage) a hand [t] ∧
      walk (nextTable ((ram.setEntry g i (frameEntry t)).write t zeroPage).memory) kernel (p ++ [i]) =
        some t := by
  have isKernel : g ∈ kernelFrames ram.memory kernel := mem_kernelFrames.mpr ⟨p, by omega, there⟩
  have small : t < 2 ^ 40 := valid.lt mem_cons_self
  have notNew : g ≠ t := valid.kernel_ne_hand isKernel
  have away {f : Frame} (notTable : f ≠ g) (other : f ≠ t) :
      ((ram.setEntry g i (frameEntry t)).write t zeroPage).memory f = ram.memory f := by
    rw [Ram.write_other _ _ other, Ram.setEntry_other _ _ _ notTable]
  have set : SetGraft ram.memory ((ram.setEntry g i (frameEntry t)).write t zeroPage).memory kernel g p i
      t := by
    refine ⟨there, short.le, unused, small, ?_, fun h j other apart => ?_,
      fun mem => valid.kernel_ne_hand mem rfl, .inr (Ram.write_same ..)⟩
    · rw [entry, Ram.write_other _ _ notNew, ← entry, ram.entry_setEntry_same g i (frameEntry_lt small)]
    · rw [entry, Ram.write_other _ _ other, ← entry, ram.entry_setEntry_other _ apart]
  refine ⟨.link valid tables set below (fun f => away) fun q four => ?_, ?_⟩
  · refine iff_of_false not_mem_nil ?_
    rintro rfl
    rw [length_append, length_singleton] at four
    omega
  · rw [set.walks tables _ (by rw [length_append, length_singleton]; omega), if_pos rfl]

theorem grafts_of_page (valid : Valid kernel ram a roots (leaf :: hand))
    (tables : KernelTables ram.memory kernel)
    (there : walk (nextTable ram.memory) kernel (upperSlots va) = some g)
    (unused : entry ram.memory g (lastSlot va) = 0) : Grafts kernel roots r [pageKey va] ram a (leaf :: hand)
      (ram.setEntry g (lastSlot va) (frameEntry leaf)) a hand [leaf] ∧
      walk (nextTable (ram.setEntry g (lastSlot va) (frameEntry leaf)).memory) kernel (pageKey va) = some leaf ∧
      leaf ∉ kernelTables (ram.setEntry g (lastSlot va) (frameEntry leaf)).memory kernel := by
  have small : leaf < 2 ^ 40 := valid.lt mem_cons_self
  have fresh : leaf ∉ kernelFrames ram.memory kernel := fun mem => valid.kernel_ne_hand mem rfl
  have away {f : Frame} (other : f ≠ g) := ram.setEntry_other (lastSlot va) (frameEntry leaf) other
  have set : SetGraft ram.memory (ram.setEntry g (lastSlot va) (frameEntry leaf)).memory kernel g
      (upperSlots va) (lastSlot va) leaf :=
    ⟨there, (length_upperSlots va).le, unused, small, ram.entry_setEntry_same _ _ (frameEntry_lt small),
      fun _ _ _ => ram.entry_setEntry_other _, fresh, .inl rfl⟩
  refine ⟨.link valid tables set (cons_ne_nil _ _) (fun f other _ => away other) fun q _ => ?_, ?_,
    fun mem => ?_⟩
  · rw [mem_singleton, pageKey]
  · rw [set.walks tables _ (length_pageKey va).le, pageKey, if_pos rfl]
  · obtain ⟨q, short, leads⟩ := mem_kernelTables.mp mem
    rw [set.walks tables q (Nat.le_succ_of_le short), if_neg] at leads
    · exact fresh (mem_kernelFrames.mpr ⟨q, Nat.le_succ_of_le short, leads⟩)
    · rintro rfl
      rw [length_append, length_singleton, length_upperSlots] at short
      omega

section

variable (valid : Valid kernel ram a roots hand) (tables : KernelTables ram.memory kernel)
include valid tables

theorem Grafts.refl : Grafts kernel roots r [] ram a hand ram a hand [] :=
  .moved tables valid rfl (.refl _)

theorem Grafts.allocate (alloc : ram.allocateFrame = (some t, ram₁)) :
    ∃ a₁, a.available = t :: a₁.available ∧ ram₁.memory = ram.memory ∧
      Grafts kernel roots r [] ram a hand ram₁ a₁ (t :: hand) [] := by
  obtain ⟨a₁, first, memory, _, valid⟩ := valid.allocate alloc
  refine ⟨a₁, first, memory, .moved tables valid memory ?_⟩
  rw [first]
  exact perm_middle.symm

/-- **An entry gets the flags of user space**, in the kernel's tables or in a slot that the space of `r` shares
with the kernel. -/
theorem Grafts.flags (isRoot : r ∈ roots) (present : isPresent (entry ram.memory f i))
    (place : f = r ∧ entry ram.memory kernel i ≠ 0 ∨ f ≠ kernel ∧ f ∈ kernelTables ram.memory kernel) :
    Grafts kernel roots r [] ram a hand (ram.flagEntry f i) a hand [] := by
  have fits : entry ram.memory f i ||| userFlags < 2 ^ 64 := by
    have small : entry ram.memory f i < 2 ^ 64 := leVal_lt _ _
    rw [or_userFlags]
    omega
  have atSlot : entry (ram.flagEntry f i).memory f i = entry ram.memory f i ||| userFlags :=
    ram.entry_setEntry_same f i fits
  have elsewhere {h : Frame} (other : h ≠ f) : (ram.flagEntry f i).memory h = ram.memory h :=
    ram.setEntry_other _ _ other
  have away {h : Frame} {j : Slot} (other : h ≠ f ∨ j ≠ i) :
      entry (ram.flagEntry f i).memory h j = entry ram.memory h j :=
    ram.entry_setEntry_other _ other
  have links (h : Frame) (j : Slot) :
      SameLink (entry (ram.flagEntry f i).memory h j) (entry ram.memory h j) := by
    by_cases here : h = f ∧ j = i
    · rw [here.1, here.2, atSlot]
      exact sameLink_or present
    · rw [away (not_and_or.mp here)]
      exact SameLink.refl _
  have zero (h : Frame) (j : Slot) :
      entry (ram.flagEntry f i).memory h j = 0 ↔ entry ram.memory h j = 0 := by
    by_cases here : h = f ∧ j = i
    · rw [here.1, here.2, atSlot, or_userFlags]
      refine iff_of_false (Nat.succ_ne_zero _) fun unused => ?_
      rw [unused] at present
      cases present
    · rw [away (not_and_or.mp here)]
  have next : nextTable (ram.flagEntry f i).memory = nextTable ram.memory := by
    funext h j
    exact (links h j).entryFrame
  have slots (j : Slot) : entry (ram.flagEntry f i).memory kernel j = entry ram.memory kernel j := by
    refine away (.inl ?_)
    rcases place with ⟨rfl, _⟩ | ⟨notKernel, _⟩
    · rintro rfl
      exact valid.table_ne isRoot (Nat.zero_le _) space_nil (.inl kernel_mem_kernelFrames) rfl
    · exact notKernel.symm
  have sameFrames : kernelFrames (ram.flagEntry f i).memory kernel = kernelFrames ram.memory kernel := by
    rw [kernelFrames, kernelFrames, next]
  obtain ⟨valid', spaces⟩ := Valid.absorb [] (ram.flagEntry f i).memory valid slots
    (fun r' isRoot' q h short there j atRoot => by
      refine away ?_
      rcases place with ⟨rfl, used⟩ | ⟨_, isTable⟩
      · refine Decidable.or_iff_not_imp_right.mpr fun here same => ?_
        rw [not_not] at here
        subst same here
        have sameRoot := valid.owner isRoot' isRoot (mem_ownFrames.mpr ⟨q, short.le, there⟩)
          root_mem_ownFrames
        exact used (atRoot sameRoot.symm)
      · exact .inl (valid.table_ne isRoot' short.le there (.inl (kernelTables_subset isTable))))
    (fun r' _ j _ => links r' j)
    (fun g mem => .inl (sameFrames ▸ mem))
    (fun g free => by
      have available : g ∈ a.available := mem_append_left _ free
      refine elsewhere ?_
      rintro rfl
      rcases place with ⟨rfl, _⟩ | ⟨_, isTable⟩
      · exact valid.not_available (mem_append_right _ (mem_spaceFrames isRoot root_mem_ownFrames)) available
      · exact valid.notKernel g (kernelTables_subset isTable) (mem_append_right _ available))
  refine ⟨valid', ⟨?_, ?_⟩, slots, .refl _, spaces, ?_, ?_, ?_, ?_⟩
  · rw [next]
    exact tables.tree
  · rw [next]
    intro q g short there j
    rw [zero, (links g j).2]
    exact tables.present q g short there j
  · rw [next]
    exact fun _ _ _ there => there
  · rw [next]
    exact fun _ _ _ there => .inl there
  · intro q _
    rw [if_neg not_mem_nil]
    exact keyState_congr kernel (fun _ g _ _ j => zero g j) fun _ g _ _ j => by rw [next]
  · intro g notRoot noTable _
    refine elsewhere ?_
    rintro rfl
    exact place.elim (fun atRoot => notRoot atRoot.1) fun inKernel => noTable inKernel.2

/-- An entry in use keeps its link. -/
theorem createNextTable_shared (isRoot : r ∈ roots) (used : entry ram.memory g i ≠ 0)
    (present : isPresent (entry ram.memory g i))
    (place : g = r ∧ entry ram.memory kernel i ≠ 0 ∨ g ≠ kernel ∧ g ∈ kernelTables ram.memory kernel) :
    (∃ t ram₁, createNextTable g i ram = (.ok t, ram₁) ∧ nextTable ram.memory g i = some t ∧
      Grafts kernel roots r [] ram a hand ram₁ a hand []) ∨
    ∃ error ram₁, createNextTable g i ram = (.error error, ram₁) ∧ nextTable ram.memory g i = none := by
  obtain ⟨ram₁, changed, created⟩ := createNextTable_used used present
  have grafts : Grafts kernel roots r [] ram a hand ram₁ a hand [] := by
    rcases changed with rfl | rfl
    · exact .refl valid tables
    · exact .flags valid tables isRoot present place
  cases next : nextTable ram.memory g i with
  | some t =>
    rw [next] at created
    exact .inl ⟨t, ram₁, created, rfl, grafts⟩
  | none =>
    rw [next] at created
    exact .inr ⟨.parentEntryHugePage, ram₁, created, rfl⟩

/-- **The next of the kernel's tables** is there or is made, or the entry leads to no table, or there is no
frame. -/
theorem createNextTable_graft (isRoot : r ∈ roots) (there : walk (nextTable ram.memory) kernel p = some g)
    (short : p.length < 3) (below : p ≠ []) : (∃ t ram₁ a₁ taken, createNextTable g i ram = (.ok t, ram₁) ∧
      Grafts kernel roots r [] ram a hand ram₁ a₁ hand taken ∧ taken.length ≤ 1 ∧
      walk (nextTable ram₁.memory) kernel (p ++ [i]) = some t) ∨
    ∃ error ram₁, createNextTable g i ram = (.error error, ram₁) ∧
      (entry ram.memory g i ≠ 0 ∧ nextTable ram.memory g i = none ∨ a.available = []) := by
  by_cases unused : entry ram.memory g i = 0
  · cases alloc : ram.allocateFrame with
    | mk frame ram₁ =>
      cases frame with
      | none =>
        obtain ⟨_, exhausted, _⟩ := valid.refuse alloc
        refine .inr ⟨.frameAllocationFailed, ram₁, ?_, .inr exhausted⟩
        rw [createNextTable, unused, alloc]
        rfl
      | some t =>
        obtain ⟨a₁, _, same, taken⟩ := Grafts.allocate (r := r) valid tables alloc
        rw [← same] at there unused
        obtain ⟨grafts, made⟩ := grafts_of_new_table (r := r) taken.tables there short below unused taken.valid
        refine .inl ⟨t, _, a₁, [t], ?_, taken.trans grafts, le_rfl, made⟩
        rw [same] at unused
        rw [createNextTable, unused, alloc]
        rfl
  · have isTable : g ∈ kernelTables ram.memory kernel := mem_kernelTables.mpr ⟨p, short.le, there⟩
    have present := (tables.present p g short.le there i).resolve_left unused
    have notKernel := tables.ne_kernel there short.le below
    rcases createNextTable_shared valid tables isRoot unused present (.inr ⟨notKernel, isTable⟩) with
      ⟨t, ram₁, created, next, grafts⟩ | ⟨error, ram₁, created, blocked⟩
    · refine .inl ⟨t, ram₁, a, [], created, grafts, Nat.zero_le _, grafts.keeps _ t ?_ ?_⟩
      · rw [length_append, length_singleton]
        omega
      · rw [walk_concat, there, bind_some, next]
    · exact .inr ⟨error, ram₁, created, .inl ⟨unused, blocked⟩⟩

theorem Valid.used_shared (isRoot : r ∈ roots) (used : entry ram.memory kernel i ≠ 0) :
    entry ram.memory r i ≠ 0 ∧ isPresent (entry ram.memory r i) := by
  have present := (tables.present [] kernel (Nat.zero_le _) rfl i).resolve_left used
  have presentHere : isPresent (entry ram.memory r i) := (valid.shares r isRoot i used).2.trans present
  refine ⟨fun zero => ?_, presentHere⟩
  rw [zero] at presentHere
  cases presentHere

end

/-- **The way down the kernel's tables.** -/
theorem createTables_graft (rest : List Slot) (valid : Valid kernel ram a roots hand)
    (tables : KernelTables ram.memory kernel) (isRoot : r ∈ roots)
    (there : walk (nextTable ram.memory) kernel p = some g) (short : p.length + rest.length = 3)
    (below : p ≠ []) : (∃ t ram₁ a₁ taken, createTables g rest ram = (.ok t, ram₁) ∧
      Grafts kernel roots r [] ram a hand ram₁ a₁ hand taken ∧ taken.length ≤ rest.length ∧
      walk (nextTable ram₁.memory) kernel (p ++ rest) = some t) ∨
    ∃ error ram₁, createTables g rest ram = (.error error, ram₁) ∧
      ((∀ l, keyState ram.memory g (rest ++ [l]) = .blocked) ∨ a.available.length < rest.length) := by
  induction rest generalizing p g ram a with
  | nil =>
    refine .inl ⟨g, ram, a, [], rfl, .refl valid tables, le_rfl, ?_⟩
    rw [append_nil, there]
  | cons i rest ih =>
    rw [length_cons] at short
    rcases createNextTable_graft (i := i) valid tables isRoot there (by omega) below with
      ⟨t, ram₁, a₁, taken, created, grafts, few, made⟩ | ⟨error, ram₁, created, why⟩
    · have books := grafts.books.length_eq
      simp only [length_append] at books
      have deeper : p ++ [i] ≠ [] := by simp
      rcases ih grafts.valid grafts.tables made (by rw [length_append, length_singleton]; omega)
        deeper with ⟨t', ram₂, a₂, taken₁, later, onward, fewer, there'⟩ | ⟨error, ram₂, later, why⟩
      · refine .inl ⟨t', ram₂, a₂, taken ++ taken₁, ?_, grafts.trans onward, ?_, ?_⟩
        · rw [createTables, created]
          exact later
        · rw [length_append, length_cons]
          omega
        · rw [append_assoc, singleton_append] at there'
          exact there'
      · refine .inr ⟨error, ram₂, ?_, why.imp (fun blocked l => ?_) fun exhausted => ?_⟩
        · rw [createTables, created]
          exact later
        · -- what was blocked after the step was blocked before
          have four : (p ++ i :: (rest ++ [l])).length = 4 := by
            simp only [length_append, length_cons, length_nil]
            omega
          have more : rest ++ [l] ≠ [] := by simp
          have after : keyState ram₁.memory kernel (p ++ i :: (rest ++ [l])) = .blocked := by
            rw [append_cons p i (rest ++ [l]), keyState_walk made more, blocked l]
          rw [grafts.states _ four, if_neg not_mem_nil, keyState_walk there (cons_ne_nil _ _)] at after
          exact after
        · rw [length_cons]
          omega
    · refine .inr ⟨error, ram₁, ?_, why.imp (fun blocked l => ?_) fun exhausted => ?_⟩
      · rw [createTables, created]
      · exact keyState_blocked blocked.1 blocked.2 (by simp)
      · rw [exhausted, length_cons]
        exact Nat.succ_pos _

/-- **`map_to` in a slot of the kernel's**: the page is mapped if the way to it ends in an empty entry and there
are frames for the tables. -/
def MapsShared (mapTo : Frame → ℕ → Frame → Ram → Except MapToError Unit × Ram) : Prop :=
  ∀ {kernel r leaf : Frame} {roots hand : List Frame} {ram : Ram} {a : FrameAllocator} {va : ℕ},
    Valid kernel ram a roots (leaf :: hand) → KernelTables ram.memory kernel → r ∈ roots →
    entry ram.memory kernel (slotOf va 39) ≠ 0 →
    (∃ ram₁ a₁ taken, mapTo r va leaf ram = (.ok (), ram₁) ∧
      Grafts kernel roots r [pageKey va] ram a (leaf :: hand) ram₁ a₁ hand taken ∧ taken.length ≤ 3 ∧
      pageState ram.memory kernel va = .free ∧ leaf ∈ taken ∧
      walk (nextTable ram₁.memory) kernel (pageKey va) = some leaf ∧ leaf ∉ kernelTables ram₁.memory kernel) ∨
    ∃ error ram₁, mapTo r va leaf ram = (.error error, ram₁) ∧
      (pageState ram.memory kernel va ≠ .free ∨ a.available.length < 2)

theorem OffsetPageTable.mapsShared : MapsShared mapTo := by
  intro kernel r leaf roots hand ram a va valid tables isRoot used
  obtain ⟨usedHere, presentHere⟩ := valid.used_shared tables isRoot used
  rcases createNextTable_shared valid tables isRoot usedHere presentHere (.inl ⟨rfl, used⟩) with
    ⟨t, ram₁, created, next, grafts⟩ | ⟨error, ram₁, created, blocked⟩
  · rw [valid.next_shared isRoot used] at next
    have start : walk (nextTable ram₁.memory) kernel [slotOf va 39] = some t :=
      grafts.keeps _ t (Nat.le_add_left 1 3) (by rw [walk_cons, next, bind_some]; rfl)
    rcases createTables_graft [slotOf va 30, slotOf va 21] grafts.valid grafts.tables isRoot start rfl
      (cons_ne_nil _ _) with
      ⟨table, ram₂, a₂, taken, later, onward, few, there⟩ | ⟨error, ram₂, later, why⟩
    · have way : Grafts kernel roots r [] ram a (leaf :: hand) ram₂ a₂ (leaf :: hand) taken :=
        grafts.trans onward
      have down : createTables r (upperSlots va) ram = (.ok table, ram₂) := by
        rw [upperSlots, createTables, created]
        exact later
      have upper : walk (nextTable ram₂.memory) kernel (upperSlots va) = some table := there
      have states := way.states _ (length_pageKey va)
      rw [if_neg not_mem_nil, ← pageState, ← pageState] at states
      by_cases unused : entry ram₂.memory table (lastSlot va) = 0
      · obtain ⟨paged, leads, noTable⟩ := grafts_of_page (r := r) way.valid way.tables upper unused
        refine .inl ⟨_, a₂, _, ?_, way.trans paged, ?_, ?_, mem_append_right _ mem_cons_self, leads, noTable⟩
        · simp only [mapTo, down, unused, if_pos]
        · rw [length_append, length_singleton]
          exact Nat.succ_le_succ few
        · rw [← states, pageState, pageKey, keyState_walk upper (cons_ne_nil _ _), keyState_free unused]
      · refine .inr ⟨.pageAlreadyMapped, ram₂, ?_, .inl ?_⟩
        · simp only [mapTo, down, if_neg unused]
        · rw [← states, pageState, pageKey, keyState_walk upper (cons_ne_nil _ _), keyState_single unused]
          exact PageState.noConfusion
    · refine .inr ⟨error, ram₂, ?_, why.imp_left fun blocked => ?_⟩
      · have down : createTables r (upperSlots va) ram = (.error error, ram₂) := by
          rw [upperSlots, createTables, created]
          exact later
        simp only [mapTo, down]
      · have states := grafts.states _ (length_pageKey va)
        have after : keyState ram₁.memory kernel (pageKey va) = .blocked :=
          (keyState_walk start (cons_ne_nil (slotOf va 30) _)).trans (blocked (lastSlot va))
        rw [if_neg not_mem_nil, after] at states
        rw [pageState, ← states]
        exact PageState.noConfusion
  · rw [valid.next_shared isRoot used] at blocked
    refine .inr ⟨error, ram₁, ?_, .inl ?_⟩
    · have down : createTables r (upperSlots va) ram = (.error error, ram₁) := by
        rw [upperSlots, createTables, created]
      simp only [mapTo, down]
    · have states : pageState ram.memory kernel va = .blocked :=
        keyState_blocked used blocked (cons_ne_nil (slotOf va 30) _)
      rw [states]
      exact PageState.noConfusion

end Grafts

/-! ### The pages of a space and the kernel's -/

section

variable (valid : Valid kernel ram a roots hand)
include valid

/-- In a slot of its own, the way to a page of a space ends in an empty entry or at the page. -/
theorem Valid.keyState_own (isRoot : r ∈ roots) :
    ∀ {p : List Slot} {g : Frame}, space ram.memory kernel r p = some g → p.length + rest.length = 4 →
      rest ≠ [] → (p = [] → ∀ i ∈ rest.head?, entry ram.memory kernel i = 0) →
      keyState ram.memory g rest = if space ram.memory kernel r (p ++ rest) = none then .free else .mapped := by
  induction rest with
  | nil => exact fun _ _ none => absurd rfl none
  | cons i rest ih =>
    intro p g there four _ empty
    rw [length_cons] at four
    rcases valid.entry_cases isRoot there (by omega) (i := i) fun nil => empty nil i rfl with
      ⟨unused, nowhere⟩ | ⟨t, small, named, further⟩
    · have absent : space ram.memory kernel r (p ++ i :: rest) = none := by
        rw [append_cons p i rest, space, walk_append, ← space, nowhere]
        rfl
      rw [keyState_free unused, absent, if_pos rfl]
    · have used : entry ram.memory g i ≠ 0 := by
        rw [named]
        exact frameEntry_ne_zero t
      by_cases last : rest = []
      · rw [last, keyState_single used, further]
        rfl
      · have link : nextTable ram.memory g i = some t := by rw [nextTable, named, entryFrame_frameEntry small]
        have below : p ++ [i] ≠ [] := by simp
        rw [keyState_next link last, append_cons p i rest]
        refine ih further ?_ last fun nil => absurd nil below
        rw [length_append, length_singleton]
        omega

theorem Valid.pageState_own (isRoot : r ∈ roots) (empty : entry ram.memory kernel (slotOf va 39) = 0) :
    pageState ram.memory r va = if space ram.memory kernel r (pageKey va) = none then .free else .mapped := by
  refine valid.keyState_own isRoot (p := []) space_nil (length_pageKey va) (cons_ne_nil _ _) ?_
  rintro - i isHead
  cases isHead
  exact empty

/-- In a slot of the kernel's, the way is the kernel's. -/
theorem Valid.pageState_shared (tables : KernelTables ram.memory kernel) (isRoot : r ∈ roots)
    (used : entry ram.memory kernel (slotOf va 39) ≠ 0) :
    pageState ram.memory r va = pageState ram.memory kernel va := by
  obtain ⟨usedHere, _⟩ := valid.used_shared tables isRoot used
  have more : [slotOf va 30, slotOf va 21, lastSlot va] ≠ [] := cons_ne_nil _ _
  have key : pageKey va = slotOf va 39 :: [slotOf va 30, slotOf va 21, lastSlot va] := rfl
  rw [pageState, pageState, key]
  cases link : nextTable ram.memory kernel (slotOf va 39) with
  | none =>
    rw [keyState_blocked used link more,
      keyState_blocked usedHere ((valid.next_shared isRoot used).trans link) more]
  | some t =>
    rw [keyState_next link more, keyState_next ((valid.next_shared isRoot used).trans link) more]

/-- The tables of a space are its own or the kernel's. -/
theorem Valid.table_cases (isRoot : r ∈ roots) (short : p.length ≤ 3)
    (there : walk (nextTable ram.memory) r p = some g) :
    g ∈ ownFrames ram.memory kernel r ∨ g ∈ kernelTables ram.memory kernel := by
  cases p with
  | nil =>
    cases there
    exact .inl root_mem_ownFrames
  | cons i rest =>
    rw [length_cons] at short
    by_cases empty : entry ram.memory kernel i = 0
    · rw [valid.walk_eq isRoot empty (by omega)] at there
      exact .inl (mem_ownFrames.mpr ⟨i :: rest, Nat.le_succ_of_le short, there⟩)
    · rw [walk_cons, valid.next_shared isRoot empty, ← walk_cons] at there
      exact .inr (mem_kernelTables.mpr ⟨i :: rest, short, there⟩)

theorem Valid.perm_ownFrames (valid' : Valid kernel ram' a' roots' hand') (isRoot : r ∈ roots)
    (isRoot' : r ∈ roots')
    (same : ∀ q, q.length ≤ 4 → space ram'.memory kernel r q = space ram.memory kernel r q) :
    (ownFrames ram'.memory kernel r).Perm (ownFrames ram.memory kernel r) := by
  refine (perm_ext_iff_of_nodup ?_ ?_).mpr fun f => ?_
  · exact (nodup_flatMap.mp valid'.nodup_spaces).1 r isRoot'
  · exact (nodup_flatMap.mp valid.nodup_spaces).1 r isRoot
  · rw [mem_ownFrames, mem_ownFrames]
    refine exists_congr fun q => and_congr_right fun short => ?_
    rw [same q short]

/-- **A page of the kernel's is written to**, which is no table. -/
theorem Valid.store_shared (isKernel : f ∈ kernelFrames ram.memory kernel)
    (noTable : f ∉ kernelTables ram.memory kernel) (page : Page) :
    Valid kernel (ram.write f page) a roots hand ∧ ∀ r ∈ roots, ∀ q, q.length ≤ 4 →
        space (ram.write f page).memory kernel r q = space ram.memory kernel r q := by
  have away {g : Frame} (other : g ≠ f) := ram.write_other page other
  have tables (g : Frame) (isTable : g ∈ kernelTables ram.memory kernel) :
      (ram.write f page).memory g = ram.memory g := away fun same => noTable (same ▸ isTable)
  have inSpace (r : Frame) (isRoot : r ∈ roots) (q : List Slot) (g : Frame) (short : q.length ≤ 4)
      (there : space ram.memory kernel r q = some g) : (ram.write f page).memory g = ram.memory g :=
    away (valid.table_ne isRoot short there (.inl isKernel))
  refine Valid.absorb [] (ram.write f page).memory valid (fun i => ?_)
    (fun r isRoot q g short there i _ => ?_) (fun r isRoot i _ => ?_) (fun g mem => ?_) fun g free => ?_
  · exact congrArg (wordAt · i) (tables kernel (mem_kernelTables.mpr ⟨[], Nat.zero_le _, rfl⟩))
  · exact congrArg (wordAt · i) (inSpace r isRoot q g short.le there)
  · rw [entry, inSpace r isRoot [] r (Nat.zero_le _) rfl]
    exact SameLink.refl _
  · obtain ⟨q, short, there⟩ := mem_kernelFrames.mp mem
    rw [kernel_walk_congr tables q short] at there
    exact .inl (mem_kernelFrames.mpr ⟨q, short, there⟩)
  · refine away ?_
    rintro rfl
    exact valid.notKernel g isKernel (mem_append_right _ (mem_append_left _ free))

end

end Ferros.Mm
