/-
**A program in memory.**

`Loaded` says what a load has done so far to the space it builds, to the kernel's tables and to everything
else, wherever the pages lie: in slots of level 4 that the kernel leaves empty they are the space's own; in
the kernel's slots they are in every space, and the frames for them are lost to the space.

* `Loaded.gains`, `Loaded.poke` — one more page, one more byte.
-/

import Ferros.Exec.Elf
import Ferros.Mm.DataPages

namespace Ferros.Exec

open Lib Mm List Option

variable {kernel f leaf root : Frame} {others taken lost : List Frame} {ram₀ ram ram₁ : Ram}
  {a₀ a a₁ : FrameAllocator} {mapped mapped₁ pages headers : List ℕ} {va ph : ℕ} {gap : Bool}
  {state : ℕ → PageState} {result : Except ElfError Unit} {bytes : List UInt8} {s : Segment}

/-- The address of a page of the lower half. -/
def Placed (va : ℕ) : Prop := va < userSpaceEnd ∧ va % 4096 = 0

/-- Since `ram₀`, the space of `root` was made beside the spaces `others`, and the pages `mapped` were mapped
through it. The frames `lost` are the kernel's. -/
structure Loaded (kernel : Frame) (others : List Frame) (ram₀ : Ram) (a₀ : FrameAllocator) (root : Frame)
    (mapped : List ℕ) (ram : Ram) (a : FrameAllocator) (lost : List Frame) : Prop where
  base : Valid kernel ram₀ a₀ others []
  placed : ∀ va ∈ mapped, Placed va
  valid : Valid kernel ram a (root :: others) []
  tables : KernelTables ram.memory kernel
  slots : ∀ i, entry ram.memory kernel i = entry ram₀.memory kernel i
  states : ∀ va, pageState ram.memory root va =
    if pageKey va ∈ mapped.map pageKey then .mapped else pageState ram₀.memory kernel va
  free : ∀ va ∈ mapped, pageState ram₀.memory kernel va = .free
  /-- The pages hold data, in frames that the load took. -/
  data : ∀ va, pageKey va ∈ mapped.map pageKey → ∃ f, DataPage ram.memory kernel root va f ∧ f ∈ a₀.available
  reach : ∀ f ∈ kernelTables ram.memory kernel, f ∈ kernelTables ram₀.memory kernel ∨ f ∈ a₀.available
  books : (lost ++ (ownFrames ram.memory kernel root ++ a.available)).Perm a₀.available
  few : a₀.available.length ≤ a.available.length + (4 * mapped.length + 1)
  elsewhere : ∀ f, f ∉ a₀.available → f ∉ kernelTables ram₀.memory kernel → ram.memory f = ram₀.memory f
  /-- If no page lies in a slot of the kernel's, no frame is lost and the kernel's tables stay. -/
  ours : (∀ va ∈ mapped, entry ram₀.memory kernel (slotOf va 39) = 0) →
    lost = [] ∧ ∀ f ∈ kernelTables ram₀.memory kernel, ram.memory f = ram₀.memory f

section Loaded

/-- **The beginning**: the root is a copy of the kernel's. -/
theorem Loaded.start (valid₀ : Valid kernel ram₀ a₀ others []) (tables₀ : KernelTables ram₀.memory kernel)
    (begins : Begins kernel others [] ram₀ a₀ root ram a) : Loaded kernel others ram₀ a₀ root [] ram a [] := by
  have same (f : Frame) (isTable : f ∈ kernelTables ram₀.memory kernel) : ram.memory f = ram₀.memory f :=
    begins.elsewhere f (begins.ne_new valid₀ (.inl (kernelTables_subset isTable)))
  have slots (i : Slot) : entry ram.memory kernel i = entry ram₀.memory kernel i :=
    congrArg (wordAt · i) (same kernel (mem_kernelTables.mpr ⟨[], Nat.zero_le _, rfl⟩))
  have isNew : root ∈ a₀.available := begins.first ▸ mem_cons_self
  refine ⟨valid₀, forall_mem_nil _, begins.valid, tables₀.congr same, slots, fun va => ?_, forall_mem_nil _,
    fun va mem => absurd mem not_mem_nil, fun f mem => .inl (kernelTables_congr same ▸ mem), ?_, ?_,
    fun f outside _ => begins.elsewhere f fun here => outside (here ▸ isNew), fun _ => ⟨rfl, same⟩⟩
  · rw [map_nil, if_neg not_mem_nil]
    by_cases empty : entry ram₀.memory kernel (slotOf va 39) = 0
    · have unmapped := (begins.space (pageKey va)).trans (if_neg (cons_ne_nil _ _))
      rw [begins.valid.pageState_own mem_cons_self ((slots _).trans empty), unmapped, if_pos rfl]
      exact (keyState_free empty).symm
    · rw [begins.valid.pageState_shared (tables₀.congr same) mem_cons_self (slots _ ▸ empty)]
      exact kernel_keyState_congr same (length_pageKey va).le
  · rw [begins.frames, begins.first]
    exact .refl _
  · rw [begins.first, length_cons, length_nil]

/-! ### One page more -/

theorem mem_keys_cons {key : List Slot} :
    key ∈ (va :: mapped).map pageKey ↔ key = pageKey va ∨ key ∈ mapped.map pageKey := by
  rw [map_cons, mem_cons]

/-- The page that is added counts as mapped, the others as before. -/
theorem ite_keys_cons (key : List Slot) (other : PageState) : (if key = pageKey va then .mapped
      else if key ∈ mapped.map pageKey then .mapped else other) =
    if key ∈ (va :: mapped).map pageKey then .mapped else other := by
  simp only [mem_keys_cons]
  by_cases isKey : key = pageKey va
  · rw [if_pos isKey, if_pos (.inl isKey)]
  · simp only [isKey, if_false, false_or]

section Work

variable (loaded : Loaded kernel others ram₀ a₀ root mapped ram a lost)
include loaded

theorem Loaded.mem_available (mem : f ∈ ownFrames ram.memory kernel root ++ a.available) : f ∈ a₀.available :=
  loaded.books.mem_iff.mp (mem_append_right _ mem)

theorem Loaded.gains (isPlaced : Placed va)
    (gains : Gains kernel (root :: others) root va ram a ram₁ a₁ leaf taken) :
    Loaded kernel others ram₀ a₀ root (va :: mapped) ram₁ a₁ (taken ++ lost) := by
  have before := loaded.few
  have now := gains.few
  have here := loaded.states va
  rw [gains.free] at here
  have free : pageState ram₀.memory kernel va = .free := by
    split at here
    · cases here
    · exact here.symm
  have available {f : Frame} (mem : f ∈ a.available) : f ∈ a₀.available :=
    loaded.mem_available (mem_append_right _ mem)
  refine ⟨loaded.base, forall_mem_cons.mpr ⟨isPlaced, loaded.placed⟩, gains.valid, gains.tables,
    fun i => (gains.slots i).trans (loaded.slots i), fun va' => ?_, forall_mem_cons.mpr ⟨free, loaded.free⟩,
    fun va' mem => ?_, fun f isTable => ?_, ?_, ?_, fun f away noTable => ?_, fun all => ?_⟩
  · rw [gains.states va', loaded.states va', ite_keys_cons]
  · rcases mem_keys_cons.mp mem with isKey | earlier
    · exact ⟨leaf, gains.data.congr isKey.symm, available gains.fresh⟩
    · obtain ⟨f, data, isTaken⟩ := loaded.data va' earlier
      exact ⟨f, (gains.keeps va' f data).1, isTaken⟩
  · exact (gains.reach f isTable).elim (loaded.reach f) fun new => .inr (available new)
  · refine perm_iff_count.mpr fun f => ?_
    have first := loaded.books.count_eq f
    have second := gains.books.count_eq f
    simp only [count_append] at first second ⊢
    omega
  · rw [length_cons]
    omega
  · rw [gains.elsewhere f (fun mem => away (loaded.mem_available mem)) fun isTable => ?_,
      loaded.elsewhere f away noTable]
    exact (loaded.reach f isTable).elim noTable away
  · obtain ⟨isEmpty, others⟩ := forall_mem_cons.mp all
    obtain ⟨rfl, kept⟩ := loaded.ours others
    obtain ⟨rfl, same⟩ := gains.ours ((loaded.slots _).trans isEmpty)
    refine ⟨rfl, fun f isTable => (same f ?_).trans (kept f isTable)⟩
    rwa [kernelTables_congr kept]

/-! ### What is written to the pages -/

/-- **A byte is written to a page of the load.** -/
theorem Loaded.poke (isMapped : pageKey va ∈ mapped.map pageKey) (byte : UInt8) :
    ∃ ram₁, ram.poke root va byte = some ram₁ ∧ Loaded kernel others ram₀ a₀ root mapped ram₁ a lost := by
  obtain ⟨f, data, isTaken⟩ := loaded.data va isMapped
  obtain ⟨page, poked, _⟩ := data.poke loaded.valid mem_cons_self byte
  have writes := data.write loaded.valid mem_cons_self page
  have outside {g : Frame} (away : g ∉ a₀.available) : (ram.write f page).memory g = ram.memory g :=
    ram.write_other page fun here => away (here ▸ isTaken)
  refine ⟨_, poked, loaded.base, loaded.placed, writes.valid, loaded.tables.congr writes.same,
    fun i => (writes.slots i).trans (loaded.slots i), fun va' => ?_, loaded.free, fun va' mem => ?_,
    ?_, ?_, loaded.few,
    fun g away noTable => (outside away).trans (loaded.elsewhere g away noTable), fun all => ?_⟩
  · rw [writes.pageState mem_cons_self loaded.valid loaded.tables, loaded.states va']
  · obtain ⟨g, there, isTaken'⟩ := loaded.data va' mem
    exact ⟨g, writes.dataPage mem_cons_self there, isTaken'⟩
  · rw [kernelTables_congr writes.same]
    exact loaded.reach
  · exact (((loaded.valid.perm_ownFrames writes.valid mem_cons_self mem_cons_self
      (writes.spaces root mem_cons_self)).append_right _).append_left lost).trans loaded.books
  · obtain ⟨noLoss, kept⟩ := loaded.ours all
    refine ⟨noLoss, fun g isTable => (outside fun available => ?_).trans (kept g isTable)⟩
    exact loaded.base.notKernel g (kernelTables_subset isTable) (mem_append_right _ available)

theorem Loaded.pokes (bytes : List UInt8)
    (areMapped : ∀ x, va ≤ x → x < va + bytes.length → pageKey x ∈ mapped.map pageKey) :
    ∃ ram₁, ram.pokes root va bytes = some ram₁ ∧ Loaded kernel others ram₀ a₀ root mapped ram₁ a lost := by
  induction bytes generalizing va ram with
  | nil => exact ⟨ram, rfl, loaded⟩
  | cons byte rest ih =>
    rw [length_cons] at areMapped
    obtain ⟨ram₁, poked, loaded₁⟩ := loaded.poke (areMapped va le_rfl (by omega)) byte
    have restMapped : ∀ x, va + 1 ≤ x → x < va + 1 + rest.length → pageKey x ∈ mapped.map pageKey :=
      fun x low high => areMapped x (by omega) (by omega)
    obtain ⟨ram₂, later, loaded₂⟩ := ih loaded₁ restMapped
    exact ⟨ram₂, by rw [Ram.pokes, poked, bind_some, later], loaded₂⟩

end Work

end Loaded

/-! ### The plan is carried out -/

theorem Placed.eq {va' : ℕ} (placed : Placed va) (placed' : Placed va') (same : pageKey va = pageKey va') :
    va = va' := by
  have low := placed.1
  have low' := placed'.1
  rw [userSpaceEnd] at low low'
  have page := page_of_pageKey (by omega) (by omega) same
  have aligned := placed.2
  have aligned' := placed'.2
  omega

theorem pageKey_page (x : ℕ) : pageKey (4096 * (x / 4096)) = pageKey x := by
  simp only [pageKey, upperSlots, lastSlot, slotOf, cons_append, nil_append, cons.injEq, Fin.ext_iff, and_true]
  omega

theorem placed_of_mem_pages (checked : segment bytes ph = .ok (some s)) (mem : va ∈ s.pages) : Placed va := by
  obtain ⟨sound, positive⟩ := sound_of_segment checked
  have user := sound.inUser
  obtain ⟨x, _, high, rfl⟩ := (mem_pages positive).mp mem
  exact ⟨by omega, by omega⟩

/-- Pages are added, and without an error all of them. -/
theorem planPages_grows (planned : planPages gap state pages mapped = some (result, mapped₁)) :
    mapped ⊆ mapped₁ ∧ mapped.length ≤ mapped₁.length ∧ (result = .ok () → pages ⊆ mapped₁) := by
  induction pages generalizing mapped with
  | nil =>
    cases planned
    exact ⟨Subset.refl _, le_rfl, fun _ => nil_subset _⟩
  | cons va rest ih =>
    rw [planPages] at planned
    split at planned
    · cases planned
    · split at planned
      · rename_i isMapped
        obtain ⟨more, longer, all⟩ := ih planned
        exact ⟨more, longer, fun done => cons_subset.mpr ⟨more isMapped, all done⟩⟩
      · split at planned
        · cases planned
          exact ⟨Subset.refl _, le_rfl, fun done => by cases done⟩
        · cases planned
        · obtain ⟨more, longer, all⟩ := ih planned
          obtain ⟨here, more⟩ := cons_subset.mp more
          exact ⟨more, Nat.le_of_succ_le longer, fun done => cons_subset.mpr ⟨here, all done⟩⟩

theorem planSegments_grows (planned : planSegments gap bytes state headers mapped = some (result, mapped₁)) :
    mapped.length ≤ mapped₁.length := by
  induction headers generalizing mapped with
  | nil =>
    cases planned
    exact le_rfl
  | cons ph rest ih =>
    rw [planSegments] at planned
    split at planned
    · cases planned
      exact le_rfl
    · exact ih planned
    · split at planned
      · cases planned
      · rename_i failed
        cases planned
        exact (planPages_grows failed).2.1
      · rename_i done
        exact (planPages_grows done).2.1.trans (ih planned)

/-- **The pages of a segment.** A failure that is not in the plan is for want of frames. -/
theorem mapPages_spec [Mapper] (gap : Bool) (pages : List ℕ)
    (loaded : Loaded kernel others ram₀ a₀ root mapped ram a lost) (placed : ∀ va ∈ pages, Placed va) :
    (∃ result mapped₁ ram₁ a₁ lost₁,
      mapPages gap root pages mapped ram = some (result.map fun _ => mapped₁, ram₁) ∧
      planPages gap (pageState ram₀.memory kernel) pages mapped = some (result, mapped₁) ∧
      Loaded kernel others ram₀ a₀ root mapped₁ ram₁ a₁ lost₁) ∨ mapPages gap root pages mapped ram = none ∧
      ∀ result mapped₁, planPages gap (pageState ram₀.memory kernel) pages mapped = some (result, mapped₁) →
        a₀.available.length ≤ 4 * mapped₁.length := by
  induction pages generalizing mapped ram a lost with
  | nil => exact .inl ⟨.ok (), mapped, ram, a, lost, rfl, rfl, loaded⟩
  | cons va rest ih =>
    obtain ⟨isPlaced, later⟩ := forall_mem_cons.mp placed
    rw [mapPages, planPages]
    by_cases last : gap ∧ va = lastPage
    · rw [if_pos last, if_pos last]
      exact .inr ⟨rfl, fun _ _ planned => by cases planned⟩
    rw [if_neg last, if_neg last]
    by_cases isMapped : va ∈ mapped
    · rw [if_pos isMapped, if_pos isMapped]
      exact ih loaded later
    rw [if_neg isMapped, if_neg isMapped]
    have fresh : pageKey va ∉ mapped.map pageKey := by
      intro mem
      obtain ⟨va', earlier, same⟩ := mem_map.mp mem
      exact isMapped ((loaded.placed va' earlier).eq isPlaced same ▸ earlier)
    have here := loaded.states va
    rw [if_neg fresh] at here
    have translates := translatePage_eq_none_iff ram.memory root va
    rw [here] at translates
    by_cases overlaps : pageState ram₀.memory kernel va = .mapped
    · rw [if_pos fun none => translates.mp none overlaps, overlaps]
      exact .inl ⟨.error .segmentOverlapsExisting, mapped, ram, a, lost, rfl, rfl, loaded⟩
    rw [if_neg (not_not.mpr (translates.mpr overlaps))]
    have few := loaded.few
    rcases mapUserPage_gains loaded.valid loaded.tables mem_cons_self va with
      ⟨ram₁, a₁, leaf, taken, done, gains⟩ | ⟨failed, why⟩
    · have free := gains.free
      rw [here] at free
      rw [done, bind_some, free]
      exact ih (loaded.gains isPlaced gains) later
    · rw [here] at why
      rw [failed]
      refine .inr ⟨rfl, fun result mapped₁ planned => ?_⟩
      cases state : pageState ram₀.memory kernel va with
      | mapped => exact absurd state overlaps
      | blocked =>
        rw [state] at planned
        cases planned
      | free =>
        rw [state] at planned
        have grown := (planPages_grows planned).2.1
        have exhausted := why.resolve_left fun notFree => notFree state
        rw [length_cons] at grown
        omega

theorem copySegment_spec (checked : segment bytes ph = .ok (some s))
    (loaded : Loaded kernel others ram₀ a₀ root mapped ram a lost)
    (all : s.pages ⊆ mapped) : ∃ ram₁, copySegment bytes root s ram = some ram₁ ∧
      Loaded kernel others ram₀ a₀ root mapped ram₁ a lost := by
  obtain ⟨sound, positive⟩ := sound_of_segment checked
  refine loaded.pokes (s.content bytes) fun x low high => ?_
  rw [sound.length_content] at high
  rw [← pageKey_page]
  exact mem_map_of_mem (all ((mem_pages positive).mpr ⟨x, low, high, rfl⟩))

/-- A load does what is planned, or fails for want of frames. -/
def Follows (kernel : Frame) (others : List Frame) (ram₀ : Ram) (a₀ : FrameAllocator) (root : Frame) {α : Type}
    (ran : Option (Except ElfError α × Ram)) (planned : Option (Except ElfError α × List ℕ)) : Prop :=
  (∃ result mapped ram₁ a₁ lost, ran = some (result, ram₁) ∧ planned = some (result, mapped) ∧
    Loaded kernel others ram₀ a₀ root mapped ram₁ a₁ lost) ∨
  ran = none ∧ ∀ result mapped, planned = some (result, mapped) → a₀.available.length ≤ 4 * mapped.length

/-- **The segments.** -/
theorem loadSegments_spec [Mapper] (gap : Bool) (bytes : List UInt8) (headers : List ℕ)
    (loaded : Loaded kernel others ram₀ a₀ root mapped ram a lost) :
    Follows kernel others ram₀ a₀ root (loadSegments gap bytes root headers mapped ram)
      (planSegments gap bytes (pageState ram₀.memory kernel) headers mapped) := by
  induction headers generalizing mapped ram a lost with
  | nil => exact .inl ⟨.ok (), mapped, ram, a, lost, rfl, rfl, loaded⟩
  | cons ph rest ih =>
    rw [loadSegments, planSegments]
    cases checked : segment bytes ph with
    | error e => exact .inl ⟨.error e, mapped, ram, a, lost, rfl, rfl, loaded⟩
    | ok found =>
      cases found with
      | none => exact ih loaded
      | some s =>
        rcases mapPages_spec gap s.pages loaded fun va => placed_of_mem_pages checked with
          ⟨result, mapped₁, ram₁, a₁, lost₁, done, planned, loaded₁⟩ | ⟨failed, why⟩
        · obtain ⟨_, _, all⟩ := planPages_grows planned
          simp only [done, planned]
          cases result with
          | error e => exact .inl ⟨.error e, mapped₁, ram₁, a₁, lost₁, rfl, rfl, loaded₁⟩
          | ok _ =>
            obtain ⟨ram₂, copied, loaded₂⟩ := copySegment_spec checked loaded₁ (all rfl)
            simp only [Except.map, copied, bind_some]
            exact ih loaded₂
        · refine .inr ⟨by simp only [failed], fun result mapped₁ planned => ?_⟩
          cases pages : planPages gap (pageState ram₀.memory kernel) s.pages mapped with
          | none =>
            simp only [pages] at planned
            cases planned
          | some outcome =>
            obtain ⟨outcome, mapped₂⟩ := outcome
            have few := why outcome mapped₂ pages
            simp only [pages] at planned
            cases outcome with
            | error e =>
              cases planned
              exact few
            | ok _ =>
              have grown := planSegments_grows planned
              omega

/-- **`load` does what the plan says**, unless the frames run out. -/
theorem load_spec [Mapper] (gap : Bool) (bytes : List UInt8) (valid₀ : Valid kernel ram₀ a₀ others [])
    (tables₀ : KernelTables ram₀.memory kernel) (begins : Begins kernel others [] ram₀ a₀ root ram a) :
    Follows kernel others ram₀ a₀ root (load gap bytes root ram)
      (plan gap bytes (pageState ram₀.memory kernel)) := by
  have loaded := Loaded.start valid₀ tables₀ begins
  rw [load, plan]
  cases read : header bytes with
  | error e => exact .inl ⟨.error e, [], ram, a, [], rfl, rfl, loaded⟩
  | ok h =>
    rcases loadSegments_spec gap bytes h.programHeaders loaded with
      ⟨result, mapped, ram₁, a₁, lost, done, planned, loaded₁⟩ | ⟨failed, why⟩
    · refine .inl ⟨result.map fun _ => h.entry, mapped, ram₁, a₁, lost, ?_, ?_, loaded₁⟩
      · simp only [done, map_some]
      · simp only [planned, map_some]
    · refine .inr ⟨by simp only [failed, map_none], fun result mapped planned => ?_⟩
      obtain ⟨⟨outcome, mapped'⟩, segments, same⟩ := map_eq_some_iff.mp planned
      obtain ⟨_, rfl⟩ := Prod.mk.inj same
      exact why outcome mapped' segments

end Ferros.Exec
