/-
**Mapping pages into a space.**

What the mapper does to a space, if the page lies in a slot of level 4 that the kernel leaves empty: it changes
the tables of that space only, and every frame it takes is in the space.

* `Step` — the common part: other spaces and all frames outside the space stay as they are, the frames of the
  space are what was handed out for it.
* `MapsOwn`, `UnmapsOwn` — what the kernel relies on; `mapsOwn` and `unmapsOwn` show it of the crate's walks.
-/

import Ferros.Mm.Spaces

namespace Ferros.Mm

open Lib List Option

variable {kernel r t g leaf table : Frame} {roots hand hand₁ hand₂ : List Frame} {ram ram₁ ram₂ : Ram}
  {a a₁ a₂ : FrameAllocator} {out out₁ : List Passage} {p key : List Slot} {i : Slot} {memory' : Memory}
  {va : ℕ}

/-- Work on the space of `r`. The passages `out` are recorded on the way. -/
structure Step (kernel : Frame) (roots : List Frame) (r : Frame) (ram : Ram) (a : FrameAllocator)
    (hand : List Frame) (ram' : Ram) (a' : FrameAllocator) (hand' : List Frame) (out : List Passage) :
    Prop where
  valid : Valid kernel ram' a' roots hand'
  trace : ram'.trace = out ++ ram.trace
  /-- If a record accounts for the frames of the space before, it does so after. -/
  ledger : ∀ record, (held record).Perm (hand ++ ownFrames ram.memory kernel r) →
    (held (out ++ record)).Perm (hand' ++ ownFrames ram'.memory kernel r)
  books : (hand' ++ ownFrames ram'.memory kernel r ++ a'.available).Perm
    (hand ++ ownFrames ram.memory kernel r ++ a.available)
  others : ∀ r' ∈ roots, r' ≠ r → ∀ q, q.length ≤ 4 →
    space ram'.memory kernel r' q = space ram.memory kernel r' q
  elsewhere : ∀ f, f ∉ hand ++ ownFrames ram.memory kernel r ++ a.available →
    ram'.memory f = ram.memory f

theorem Step.refl (valid : Valid kernel ram a roots hand) : Step kernel roots r ram a hand ram a hand [] :=
  ⟨valid, rfl, fun _ same => same, .refl _, fun _ _ _ _ _ => rfl, fun _ _ => rfl⟩

theorem Step.trans (first : Step kernel roots r ram a hand ram₁ a₁ hand₁ out)
    (second : Step kernel roots r ram₁ a₁ hand₁ ram₂ a₂ hand₂ out₁) :
    Step kernel roots r ram a hand ram₂ a₂ hand₂ (out₁ ++ out) := by
  refine ⟨second.valid, ?_, ?_, second.books.trans first.books, ?_, ?_⟩
  · rw [second.trace, first.trace, append_assoc]
  · intro record accounts
    rw [append_assoc]
    exact second.ledger _ (first.ledger _ accounts)
  · intro r' isRoot away q short
    rw [second.others r' isRoot away q short, first.others r' isRoot away q short]
  · intro f outside
    rw [second.elsewhere f fun inside => outside (first.books.mem_iff.mp inside), first.elsewhere f outside]

theorem Step.allocate (valid : Valid kernel ram a roots hand) (alloc : ram.allocateFrame = (some t, ram₁)) :
    ∃ a₁, a.available = t :: a₁.available ∧ ram₁.memory = ram.memory ∧
      Step kernel roots r ram a hand ram₁ a₁ (t :: hand) [.out t] := by
  obtain ⟨a₁, first, memory, trace, valid⟩ := valid.allocate alloc
  refine ⟨a₁, first, memory, valid, trace, fun record accounts => ?_, ?_, ?_, ?_⟩ <;> rw [memory]
  · exact accounts.cons t
  · rw [first]
    exact perm_middle.symm
  · exact fun _ _ _ _ _ => rfl
  · exact fun _ _ => rfl

theorem Step.refuse (valid : Valid kernel ram a roots hand) (refused : ram.allocateFrame = (none, ram₁)) :
    ∃ a₁, a.available = [] ∧ a₁.available = [] ∧ ram₁.memory = ram.memory ∧
      Step kernel roots r ram a hand ram₁ a₁ hand [] := by
  obtain ⟨a₁, before, after, memory, trace, valid⟩ := valid.refuse refused
  refine ⟨a₁, before, after, memory, valid, trace, fun record accounts => ?_, ?_, ?_, ?_⟩ <;> rw [memory]
  · exact accounts
  · rw [before, after]
  · exact fun _ _ _ _ _ => rfl
  · exact fun _ _ => rfl

theorem Step.give (valid : Valid kernel ram a roots (t :: hand)) (isRoot : r ∈ roots) :
    Step kernel roots r ram a (t :: hand) (ram.deallocateFrame t) (deallocateFrame t a) hand [.back t] := by
  have same : ownFrames (ram.deallocateFrame t).memory kernel r = ownFrames ram.memory kernel r :=
    ownFrames_congr (ram.deallocateFrame_other (valid.kernel_ne_hand kernel_mem_kernelFrames))
      fun _ _ short there => valid.table_give isRoot short.le there
  refine ⟨valid.give, rfl, fun record accounts => ?_, ?_, ?_, ?_⟩
  · rw [same]
    have fewer := accounts.erase t
    rwa [cons_append, erase_cons_head] at fewer
  · rw [same]
    exact perm_middle
  · exact fun r' isRoot' _ => valid.space_give isRoot'
  · exact fun f outside => ram.deallocateFrame_other fun same => outside (same ▸ mem_cons_self)

theorem Step.set (valid : Valid kernel ram a roots hand) {word : ℕ}
    (set : SetLink kernel ram roots hand r g p i word memory')
    (moved : (hand₁ ++ ownFrames memory' kernel r).Perm (hand ++ ownFrames ram.memory kernel r)) :
    Step kernel roots r ram a hand { ram with memory := memory' } a hand₁ [] := by
  refine ⟨set.valid valid moved, rfl, fun record accounts => accounts.trans moved.symm,
    moved.append_right _, fun r' isRoot away => set.spaces_other valid isRoot away, ?_⟩
  intro f outside
  rw [mem_append, mem_append, not_or, not_or] at outside
  exact set.elsewhere f (fun same => outside.1.2 (same ▸ set.mem)) outside.1.1

theorem Step.link (valid : Valid kernel ram a roots (t :: hand))
    (set : SetLink kernel ram roots (t :: hand) r g p i (frameEntry t) memory')
    (absent : space ram.memory kernel r (p ++ [i]) = none) :
    Step kernel roots r ram a (t :: hand) { ram with memory := memory' } a hand [] :=
  Step.set valid set (((valid.link set absent).2.append_left hand).trans perm_middle)

theorem Step.unlink (valid : Valid kernel ram a roots hand)
    (set : SetLink kernel ram roots hand r g p i 0 memory')
    (present : space ram.memory kernel r (p ++ [i]) = some t) :
    Step kernel roots r ram a hand { ram with memory := memory' } a (t :: hand) [] :=
  Step.set valid set
    (perm_middle.symm.trans ((valid.unlink set present).2.symm.append_left hand))

/-! ### Tables are added -/

/-- A step that adds tables on the way to `key`, and keeps the pages of the space, what they contain and what
is in the kernel's hands. -/
structure Grows (kernel : Frame) (roots : List Frame) (r : Frame) (key : List Slot) (ram : Ram)
    (a : FrameAllocator) (hand : List Frame) (ram' : Ram) (a' : FrameAllocator) (out : List Passage) : Prop
    extends Step kernel roots r ram a hand ram' a' hand out where
  keys : ∀ q f, q.length ≤ 4 → space ram.memory kernel r q = some f →
    space ram'.memory kernel r q = some f
  added : ∀ q, q.length ≤ 4 → space ram.memory kernel r q = none →
    space ram'.memory kernel r q ≠ none → q <+: key
  pages : ∀ q, q.length = 4 → space ram'.memory kernel r q = space ram.memory kernel r q
  contents : ∀ q f, q.length = 4 → space ram.memory kernel r q = some f → ram'.memory f = ram.memory f
  hands : ∀ f ∈ hand, ram'.memory f = ram.memory f
  taken : a.available.length = a'.available.length + out.length

theorem Grows.trans (first : Grows kernel roots r key ram a hand ram₁ a₁ out)
    (second : Grows kernel roots r key ram₁ a₁ hand ram₂ a₂ out₁) :
    Grows kernel roots r key ram a hand ram₂ a₂ (out₁ ++ out) := by
  refine ⟨first.toStep.trans second.toStep, ?_, ?_, ?_, ?_, ?_, ?_⟩
  · exact fun q f short there => second.keys q f short (first.keys q f short there)
  · intro q short absent present
    by_cases between : space ram₁.memory kernel r q = none
    · exact second.added q short between present
    · exact first.added q short absent between
  · intro q four
    rw [second.pages q four, first.pages q four]
  · intro q f four there
    rw [second.contents q f four (first.keys q f four.le there), first.contents q f four there]
  · intro f inHand
    rw [second.hands f inHand, first.hands f inHand]
  · rw [first.taken, second.taken, length_append, Nat.add_assoc]

/-- Only the allocator's cursor moved. -/
theorem Step.grows (step : Step kernel roots r ram a hand ram₁ a₁ hand []) (same : ram₁.memory = ram.memory)
    (none : a.available.length = a₁.available.length) : Grows kernel roots r key ram a hand ram₁ a₁ [] := by
  refine ⟨step, ?_, ?_, ?_, ?_, ?_, none⟩ <;> rw [same]
  · exact fun _ _ _ there => there
  · exact fun _ _ absent present => absurd absent present
  · exact fun _ _ => rfl
  · exact fun _ _ _ _ => rfl
  · exact fun _ _ => rfl

theorem grows_of_new_table (isRoot : r ∈ roots) (onWay : p ++ [i] <+: key)
    (there : space ram.memory kernel r p = some g) (short : p.length < 3)
    (empty : p = [] → entry ram.memory kernel i = 0) (unused : entry ram.memory g i = 0)
    (absent : space ram.memory kernel r (p ++ [i]) = none)
    (taken : Step kernel roots r ram a hand ram₁ a₁ (t :: hand) [.out t])
    (first : a.available = t :: a₁.available) (same : ram₁.memory = ram.memory) :
    Grows kernel roots r key ram a hand ((ram₁.setEntry g i (frameEntry t)).write t zeroPage) a₁ [.out t] ∧
      space ((ram₁.setEntry g i (frameEntry t)).write t zeroPage).memory kernel r (p ++ [i]) = some t := by
  have valid := taken.valid
  have shorter : p.length < 4 := Nat.lt_succ_of_lt short
  rw [← same] at there empty unused absent
  have inSpace := Valid.mem isRoot shorter.le there
  have notTaken {f : Frame} (mem : f ∈ spaceFrames ram₁.memory kernel roots) : f ≠ t := fun here =>
    valid.not_hand mem (here ▸ mem_cons_self)
  have atNew : ((ram₁.setEntry g i (frameEntry t)).write t zeroPage).memory t = zeroPage := Ram.write_same ..
  have away {f : Frame} (notNew : f ≠ t) (notTable : f ≠ g) :
      ((ram₁.setEntry g i (frameEntry t)).write t zeroPage).memory f = ram₁.memory f := by
    rw [Ram.write_other _ _ notNew, Ram.setEntry_other _ _ _ notTable]
  have set : SetLink kernel ram₁ roots (t :: hand) r g p i (frameEntry t)
      ((ram₁.setEntry g i (frameEntry t)).write t zeroPage).memory := by
    refine ⟨isRoot, there, shorter, empty, ?_, ?_, .inr ⟨t, valid.lt mem_cons_self, rfl⟩, .inr ⟨unused, ?_⟩⟩
    · rw [Ram.write_other _ _ (notTaken inSpace), Ram.setEntry_same]
    · exact fun f notTable notHand => away (fun here => notHand (here ▸ mem_cons_self)) notTable
    · intro c named
      rw [entryFrame_frameEntry (valid.lt mem_cons_self)] at named
      cases named
      exact atNew
  have keys := (valid.link set absent).1
  have inner : (p ++ [i]).length ≤ 3 := by
    rw [length_append, length_singleton]
    exact short
  refine ⟨⟨taken.trans (Step.link valid set absent), ?_, ?_, ?_, ?_, ?_, congrArg length first⟩, ?_⟩
  · intro q f within present
    rw [← same] at present
    rw [keys q within, if_neg, present]
    rintro rfl
    rw [absent] at present
    cases present
  · intro q within missing present
    rw [← same] at missing
    rw [keys q within] at present
    split at present
    · rename_i isKey
      exact isKey ▸ onWay
    · exact absurd missing present
  · intro q four
    rw [keys q four.le, if_neg, same]
    rintro rfl
    omega
  · intro q f four present
    rw [← same] at present ⊢
    refine away (notTaken (Valid.mem isRoot four.le present)) ?_
    rintro rfl
    have key := valid.tree isRoot q p f four.le shorter.le present there
    rw [key] at four
    omega
  · intro f inHand
    rw [← same]
    refine away ?_ fun here => valid.not_hand inSpace (here ▸ mem_cons_of_mem _ inHand)
    rintro rfl
    have nodup := (nodup_append.mp (nodup_append.mp valid.apart).1).1
    exact (nodup_cons.mp nodup).1 inHand
  · rw [keys _ (Nat.le_succ_of_le inner), if_pos rfl]

/-- **The next table is there or is made.** -/
theorem createNextTable_spec (valid : Valid kernel ram a roots hand) (isRoot : r ∈ roots)
    (there : space ram.memory kernel r p = some g) (short : p.length < 3)
    (empty : p = [] → entry ram.memory kernel i = 0) (onWay : p ++ [i] <+: key) :
    ∃ result ram₁ a₁ out, createNextTable g i ram = (result, ram₁) ∧
      Grows kernel roots r key ram a hand ram₁ a₁ out ∧
      ((∃ t, result = .ok t ∧ out.length ≤ 1 ∧ space ram₁.memory kernel r (p ++ [i]) = some t) ∨
        result = .error .frameAllocationFailed ∧ out = [] ∧ a₁.available = [] ∧
          space ram₁.memory kernel r (p ++ [i]) = none) := by
  have shorter : p.length < 4 := Nat.lt_succ_of_lt short
  rcases valid.entry_cases isRoot there shorter empty with ⟨unused, absent⟩ | ⟨t, small, named, present⟩
  · cases alloc : ram.allocateFrame with
    | mk taken ram₁ =>
      cases taken with
      | none =>
        obtain ⟨a₁, before, exhausted, same, step⟩ := Step.refuse (r := r) valid alloc
        refine ⟨_, ram₁, a₁, [], ?_, step.grows same (by rw [before, exhausted]),
          .inr ⟨rfl, rfl, exhausted, same ▸ absent⟩⟩
        rw [createNextTable, unused, alloc]
        rfl
      | some t =>
        obtain ⟨a₁, first, same, taken⟩ := Step.allocate (r := r) valid alloc
        obtain ⟨grows, made⟩ := grows_of_new_table isRoot onWay there short empty unused absent taken first same
        refine ⟨.ok t, _, a₁, _, ?_, grows, .inl ⟨t, rfl, le_rfl, made⟩⟩
        rw [createNextTable, unused, alloc]
        rfl
  · refine ⟨.ok t, ram, a, [], ?_, (Step.refl valid).grows rfl rfl, .inl ⟨t, rfl, Nat.zero_le _, present⟩⟩
    simp only [createNextTable, named, if_neg (frameEntry_ne_zero t), if_pos (frameEntry_flags t),
      or_userFlags_frameEntry, entryFrame_frameEntry small]

/-- **The way down**: all tables are there or made, or the frames run out. -/
theorem createTables_spec (rest : List Slot) (valid : Valid kernel ram a roots hand) (isRoot : r ∈ roots)
    (there : space ram.memory kernel r p = some g) (short : p.length + rest.length ≤ 3)
    (empty : p = [] → ∀ i ∈ rest.head?, entry ram.memory kernel i = 0) :
    ∃ result ram₁ a₁ out, createTables g rest ram = (result, ram₁) ∧
      Grows kernel roots r (p ++ rest) ram a hand ram₁ a₁ out ∧
      ((∃ t, result = .ok t ∧ out.length ≤ rest.length ∧ space ram₁.memory kernel r (p ++ rest) = some t) ∨
        result = .error .frameAllocationFailed ∧ out.length < rest.length ∧ a₁.available = [] ∧
          ∃ q, q <+: p ++ rest ∧ space ram₁.memory kernel r q = none) := by
  induction rest generalizing p g ram a with
  | nil =>
    rw [append_nil]
    exact ⟨.ok g, ram, a, [], rfl, (Step.refl valid).grows rfl rfl, .inl ⟨g, rfl, le_rfl, there⟩⟩
  | cons i rest ih =>
    rw [length_cons] at short
    have onWay : p ++ [i] <+: p ++ i :: rest := ⟨rest, append_cons .. |>.symm⟩
    obtain ⟨result, ram₁, a₁, out, created, grows, made | ⟨rfl, rfl, exhausted, missing⟩⟩ :=
      createNextTable_spec valid isRoot there (by omega) (fun atRoot => empty atRoot i rfl) onWay
    · obtain ⟨t, rfl, few, made⟩ := made
      obtain ⟨result, ram₂, a₂, out₁, later, onward, outcome⟩ := ih grows.valid made
        (by rw [length_append, length_singleton]; omega)
        fun nil => absurd nil (by simp)
      rw [← append_cons] at onward outcome
      refine ⟨result, ram₂, a₂, out₁ ++ out, ?_, grows.trans onward, ?_⟩
      · rw [createTables, created]
        exact later
      · rw [length_append, length_cons]
        refine outcome.imp ?_ ?_
        · rintro ⟨t, done, fewer, present⟩
          exact ⟨t, done, by omega, present⟩
        · rintro ⟨failed, fewer, rest⟩
          exact ⟨failed, by omega, rest⟩
    · refine ⟨_, ram₁, a₁, [], ?_, grows, .inr ⟨rfl, Nat.succ_pos _, exhausted, p ++ [i], onWay, missing⟩⟩
      rw [createTables, created]

/-! ### A page is mapped -/

/-- The frame `leaf` in the kernel's hands becomes the page at `key`; the pages there were stay, with what
they contain. -/
structure Maps (kernel : Frame) (roots : List Frame) (r : Frame) (key : List Slot) (leaf : Frame) (ram : Ram)
    (a : FrameAllocator) (hand : List Frame) (ram' : Ram) (a' : FrameAllocator) (out : List Passage) : Prop
    extends Step kernel roots r ram a (leaf :: hand) ram' a' hand out where
  absent : space ram.memory kernel r key = none
  keys : ∀ q f, q.length ≤ 4 → space ram.memory kernel r q = some f →
    space ram'.memory kernel r q = some f
  added : ∀ q, q.length ≤ 4 → space ram.memory kernel r q = none →
    space ram'.memory kernel r q ≠ none → q <+: key
  pages : ∀ q, q.length = 4 → space ram'.memory kernel r q =
    if q = key then some leaf else space ram.memory kernel r q
  contents : ∀ q f, q.length = 4 → space ram.memory kernel r q = some f → ram'.memory f = ram.memory f
  hands : ∀ f ∈ leaf :: hand, ram'.memory f = ram.memory f
  taken : a.available.length = a'.available.length + out.length
  few : out.length ≤ 3

theorem length_upperSlots (va : ℕ) : (upperSlots va).length = 3 := rfl

theorem upperSlots_lt (va : ℕ) : (upperSlots va).length < 4 := Nat.lt_succ_self 3

theorem of_upperSlots_nil {P : Prop} (va : ℕ) (nil : upperSlots va = []) : P :=
  absurd nil (cons_ne_nil _ _)

theorem length_pageKey (va : ℕ) : (pageKey va).length = 4 := rfl

theorem maps_of_grows (isRoot : r ∈ roots)
    (grows : Grows kernel roots r (upperSlots va) ram a (leaf :: hand) ram₁ a₁ out) (few : out.length ≤ 3)
    (there : space ram₁.memory kernel r (upperSlots va) = some table)
    (unused : entry ram₁.memory table (lastSlot va) = 0)
    (absent : space ram₁.memory kernel r (pageKey va) = none) : Maps kernel roots r (pageKey va) leaf ram a hand
      (ram₁.setEntry table (lastSlot va) (frameEntry leaf)) a₁ out := by
  have valid := grows.valid
  have inSpace := Valid.mem isRoot (upperSlots_lt va).le there
  have away {f : Frame} (other : f ≠ table) := ram₁.setEntry_other (lastSlot va) (frameEntry leaf) other
  have set : SetLink kernel ram₁ roots (leaf :: hand) r table (upperSlots va) (lastSlot va)
      (frameEntry leaf) (ram₁.setEntry table (lastSlot va) (frameEntry leaf)).memory :=
    ⟨isRoot, there, upperSlots_lt va, of_upperSlots_nil va, ram₁.setEntry_same .., fun f other _ => away other,
      .inr ⟨leaf, valid.lt mem_cons_self, rfl⟩, .inl rfl⟩
  have keys := (valid.link set absent).1
  refine ⟨grows.toStep.trans (Step.link valid set absent), ?_, ?_, ?_, ?_, ?_, ?_, grows.taken, few⟩
  · rw [← grows.pages _ (length_pageKey va), absent]
  · intro q f short present
    have later := grows.keys q f short present
    rw [keys q short, if_neg, later]
    rintro rfl
    rw [← pageKey, absent] at later
    cases later
  · intro q short missing present
    rw [keys q short] at present
    split at present
    · rename_i isKey
      exact isKey ▸ prefix_rfl
    · exact (grows.added q short missing present).trans (prefix_append ..)
  · intro q four
    rw [keys q four.le, grows.pages q four]
    rfl
  · intro q f four present
    rw [away, grows.contents q f four present]
    rintro rfl
    have later := grows.keys q f four.le present
    have key := valid.tree isRoot q (upperSlots va) f four.le (upperSlots_lt va).le later there
    rw [key, length_upperSlots] at four
    omega
  · intro f inHand
    rw [away fun here => valid.not_hand inSpace (here ▸ inHand), grows.hands f inHand]

/-- **`map_to`**: the page is mapped, or it was mapped before, or the frames ran out on the way. -/
def MapsOwn (mapTo : Frame → ℕ → Frame → Ram → Except MapToError Unit × Ram) : Prop :=
  ∀ {kernel r leaf : Frame} {roots hand : List Frame} {ram : Ram} {a : FrameAllocator} {va : ℕ},
    Valid kernel ram a roots (leaf :: hand) → r ∈ roots → entry ram.memory kernel (slotOf va 39) = 0 →
    (∃ ram₁ a₁ out, mapTo r va leaf ram = (.ok (), ram₁) ∧
      Maps kernel roots r (pageKey va) leaf ram a hand ram₁ a₁ out) ∨
    ∃ error ram₁ a₁ out, mapTo r va leaf ram = (.error error, ram₁) ∧
      Grows kernel roots r (upperSlots va) ram a (leaf :: hand) ram₁ a₁ out ∧
      (space ram.memory kernel r (pageKey va) ≠ none ∨ out.length < 3 ∧ a₁.available = [] ∧
          ∃ q, q <+: upperSlots va ∧ space ram₁.memory kernel r q = none)

theorem OffsetPageTable.mapsOwn : MapsOwn mapTo := by
  intro kernel r leaf roots hand ram a va valid isRoot empty
  have atRoot : ([] : List Slot) = [] → ∀ i ∈ (upperSlots va).head?, entry ram.memory kernel i = 0 := by
    rintro - i isHead
    cases isHead
    exact empty
  obtain ⟨result, ram₁, a₁, out, created, grows, made | ⟨rfl, fewer, exhausted, missing⟩⟩ :=
    createTables_spec (upperSlots va) valid isRoot space_nil (Nat.le_refl 3) atRoot
  · obtain ⟨table, rfl, few, there⟩ := made
    rw [nil_append] at grows there
    rcases grows.valid.entry_cases isRoot there (upperSlots_lt va) (i := lastSlot va)
      (of_upperSlots_nil va) with
      ⟨unused, absent⟩ | ⟨f, _, named, present⟩
    · refine .inl ⟨_, a₁, out, ?_, maps_of_grows isRoot grows few there unused absent⟩
      simp only [mapTo, created, unused, if_pos]
    · refine .inr ⟨.pageAlreadyMapped, ram₁, a₁, out, ?_, grows, .inl ?_⟩
      · simp only [mapTo, created, named, if_neg (frameEntry_ne_zero f)]
      · rw [← grows.pages _ (length_pageKey va), pageKey, present]
        exact some_ne_none f
  · refine .inr ⟨.frameAllocationFailed, ram₁, a₁, out, ?_, grows, .inr ⟨fewer, exhausted, missing⟩⟩
    simp only [mapTo, created]

/-! ### A page is unmapped -/

/-- Below a slot that the kernel leaves empty, the space is what the tables say. -/
theorem Valid.walk_eq (valid : Valid kernel ram a roots hand) (isRoot : r ∈ roots) {rest : List Slot}
    (empty : entry ram.memory kernel i = 0) (short : rest.length ≤ 3) :
    walk (nextTable ram.memory) r (i :: rest) = space ram.memory kernel r (i :: rest) := by
  have atRoot : ownTable ram.memory kernel r r i = nextTable ram.memory r i := ownTable_eq fun _ => empty
  rw [space, walk_cons, walk_cons, atRoot]
  cases link : nextTable ram.memory r i with
  | none => rw [bind_none, bind_none]
  | some c =>
    rw [bind_some, bind_some]
    refine walk_congr (fun p g within there j => ?_) rest short
    exact (valid.ownTable_below isRoot (atRoot.trans link) within there j).symm

/-- **`unmap`**: the page is taken out, or there was none. -/
def UnmapsOwn (unmap : Frame → ℕ → Ram → Option (Frame × Ram)) : Prop :=
  ∀ {kernel r : Frame} {roots hand : List Frame} {ram : Ram} {a : FrameAllocator} {va : ℕ},
    Valid kernel ram a roots hand → r ∈ roots → entry ram.memory kernel (slotOf va 39) = 0 →
    (∃ f ram₁, unmap r va ram = some (f, ram₁) ∧ space ram.memory kernel r (pageKey va) = some f ∧
      Step kernel roots r ram a hand ram₁ a (f :: hand) [] ∧ (∀ q, q.length ≤ 4 → space ram₁.memory kernel r q =
        if q = pageKey va then none else space ram.memory kernel r q) ∧
      ∀ q g, q.length = 4 → space ram.memory kernel r q = some g → ram₁.memory g = ram.memory g) ∨
    unmap r va ram = none ∧ space ram.memory kernel r (pageKey va) = none

theorem OffsetPageTable.unmapsOwn : UnmapsOwn unmap := by
  intro kernel r roots hand ram a va valid isRoot empty
  have upper : walk (nextTable ram.memory) r (upperSlots va) = space ram.memory kernel r (upperSlots va) :=
    valid.walk_eq isRoot empty (Nat.le_succ 2)
  cases there : space ram.memory kernel r (upperSlots va) with
  | none =>
    refine .inr ⟨?_, ?_⟩
    · rw [unmap, upper, there]
      rfl
    · rw [pageKey, space, walk_append, ← space, there]
      rfl
  | some table =>
    rw [there] at upper
    rcases valid.entry_cases isRoot there (upperSlots_lt va) (i := lastSlot va) (of_upperSlots_nil va) with
      ⟨unused, absent⟩ | ⟨f, small, named, present⟩
    · refine .inr ⟨?_, absent⟩
      rw [unmap, upper]
      simp [unused, entryFrame_zero]
    · have away {g : Frame} (other : g ≠ table) := ram.setEntry_other (lastSlot va) 0 other
      have set : SetLink kernel ram roots hand r table (upperSlots va) (lastSlot va) 0
          (ram.setEntry table (lastSlot va) 0).memory :=
        ⟨isRoot, there, upperSlots_lt va, of_upperSlots_nil va, ram.setEntry_same ..,
          fun g other _ => away other,
          .inl rfl, .inl rfl⟩
      refine .inl ⟨f, ram.setEntry table (lastSlot va) 0, ?_, present, Step.unlink valid set present,
        (valid.unlink set present).1, fun q g four page => away ?_⟩
      · rw [unmap, upper]
        simp [named, entryFrame_frameEntry small]
      · rintro rfl
        have key := valid.tree isRoot q (upperSlots va) g four.le (upperSlots_lt va).le page there
        rw [key, length_upperSlots] at four
        omega

end Ferros.Mm
