/-
**Pages that hold data.**

In a slot of its own a space leads to the pages that it has; in a slot of the kernel's it leads where the
kernel's tables lead, and there a page holds data if it is no table. Data pages keep their place and their
content when another page is mapped, and a byte that is written to one of them changes no table.

* `Gains`, `mapUserPage_gains` — **`map_user_page` adds one page and leaves the others as they are**.
-/

import Ferros.Mm.Translation
import Ferros.Mm.UserPages

namespace Ferros.Mm

open Lib List Option Function

/-- The frame `f` is the page of `va`, and no table. -/
structure DataPage (memory : Memory) (kernel root : Frame) (va : ℕ) (f : Frame) : Prop where
  own : entry memory kernel (slotOf va 39) = 0 → space memory kernel root (pageKey va) = some f
  shared : entry memory kernel (slotOf va 39) ≠ 0 →
    walk (nextTable memory) kernel (pageKey va) = some f ∧ f ∉ kernelTables memory kernel

/-- A frame that was available becomes the page of `va`. The frames `taken` are the kernel's then. -/
structure Gains (kernel : Frame) (roots : List Frame) (root : Frame) (va : ℕ) (ram : Ram) (a : FrameAllocator)
    (ram₁ : Ram) (a₁ : FrameAllocator) (leaf : Frame) (taken : List Frame) : Prop where
  valid : Valid kernel ram₁ a₁ roots []
  tables : KernelTables ram₁.memory kernel
  slots : ∀ i, entry ram₁.memory kernel i = entry ram.memory kernel i
  fresh : leaf ∈ a.available
  free : pageState ram.memory root va = .free
  data : DataPage ram₁.memory kernel root va leaf
  states : ∀ va', pageState ram₁.memory root va' =
    if pageKey va' = pageKey va then .mapped else pageState ram.memory root va'
  keeps : ∀ va' f, DataPage ram.memory kernel root va' f →
    DataPage ram₁.memory kernel root va' f ∧ ram₁.memory f = ram.memory f
  reach : ∀ f ∈ kernelTables ram₁.memory kernel, f ∈ kernelTables ram.memory kernel ∨ f ∈ a.available
  books : (taken ++ (ownFrames ram₁.memory kernel root ++ a₁.available)).Perm
    (ownFrames ram.memory kernel root ++ a.available)
  few : a.available.length ≤ a₁.available.length + 4
  elsewhere : ∀ f, f ∉ ownFrames ram.memory kernel root ++ a.available → f ∉ kernelTables ram.memory kernel →
    ram₁.memory f = ram.memory f
  /-- In a slot that the kernel leaves empty, no frame is taken and the kernel's tables stay. -/
  ours : entry ram.memory kernel (slotOf va 39) = 0 →
    taken = [] ∧ ∀ f ∈ kernelTables ram.memory kernel, ram₁.memory f = ram.memory f

/-- What a write to a data page leaves as it was. -/
structure Overwrites (kernel : Frame) (roots : List Frame) (ram : Ram) (a : FrameAllocator) (ram₁ : Ram) :
    Prop where
  valid : Valid kernel ram₁ a roots []
  same : ∀ g ∈ kernelTables ram.memory kernel, ram₁.memory g = ram.memory g
  spaces : ∀ r ∈ roots, ∀ q, q.length ≤ 4 → space ram₁.memory kernel r q = space ram.memory kernel r q

section DataPage

variable {kernel root f leaf g : Frame} {roots taken : List Frame} {ram ram₁ : Ram} {a a₁ : FrameAllocator}
  {va va' : ℕ} {out : List Passage} {memory : Memory}

theorem dataPage_own (empty : entry memory kernel (slotOf va 39) = 0)
    (there : space memory kernel root (pageKey va) = some f) : DataPage memory kernel root va f :=
  ⟨fun _ => there, fun used => absurd empty used⟩

theorem dataPage_shared (used : entry memory kernel (slotOf va 39) ≠ 0)
    (there : walk (nextTable memory) kernel (pageKey va) = some f) (noTable : f ∉ kernelTables memory kernel) :
    DataPage memory kernel root va f :=
  ⟨fun empty => absurd empty used, fun _ => ⟨there, noTable⟩⟩

theorem slot_of_pageKey (same : pageKey va = pageKey va') : slotOf va 39 = slotOf va' 39 :=
  (cons.inj same).1

/-- In a slot of the kernel's, a space leads where the kernel leads. -/
theorem Valid.walk_shared (valid : Valid kernel ram a roots []) (isRoot : root ∈ roots)
    (used : entry ram.memory kernel (slotOf va 39) ≠ 0) :
    walk (nextTable ram.memory) root (pageKey va) = walk (nextTable ram.memory) kernel (pageKey va) := by
  have key : pageKey va = slotOf va 39 :: [slotOf va 30, slotOf va 21, lastSlot va] := rfl
  rw [key, walk_cons, valid.next_shared isRoot used, ← walk_cons]

theorem DataPage.unique (data : DataPage memory kernel root va f) (data' : DataPage memory kernel root va g) :
    f = g := by
  by_cases empty : entry memory kernel (slotOf va 39) = 0
  · exact some.inj ((data.own empty).symm.trans (data'.own empty))
  · exact some.inj ((data.shared empty).1.symm.trans (data'.shared empty).1)

theorem DataPage.congr (data : DataPage memory kernel root va f) (same : pageKey va = pageKey va') :
    DataPage memory kernel root va' f := by
  have slot := slot_of_pageKey same
  refine ⟨fun empty => ?_, fun used => ?_⟩
  · rw [← same]
    exact data.own (slot ▸ empty)
  · rw [← same]
    exact data.shared (slot ▸ used)

section

variable (data : DataPage ram.memory kernel root va f) (valid : Valid kernel ram a roots [])
  (isRoot : root ∈ roots)
include data valid isRoot

/-- **The processor finds the page.** -/
theorem DataPage.walk : walk (nextTable ram.memory) root (pageKey va) = some f := by
  by_cases empty : entry ram.memory kernel (slotOf va 39) = 0
  · exact (valid.walk_eq isRoot empty le_rfl).trans (data.own empty)
  · exact (valid.walk_shared isRoot empty).trans (data.shared empty).1

theorem DataPage.not_available : f ∉ a.available := by
  by_cases empty : entry ram.memory kernel (slotOf va 39) = 0
  · have there := data.own empty
    exact valid.not_available (mem_append_right _ (Valid.mem isRoot (length_pageKey va).le there))
  · have there := (data.shared empty).1
    intro available
    exact valid.notKernel f (mem_kernelFrames.mpr ⟨_, (length_pageKey va).le, there⟩)
      (mem_append_right _ available)

theorem DataPage.ne_root : f ≠ root := by
  rintro rfl
  by_cases empty : entry ram.memory kernel (slotOf va 39) = 0
  · cases valid.root_of_key isRoot (length_pageKey va).le (data.own empty)
  · refine valid.notKernel f (mem_kernelFrames.mpr ⟨_, (length_pageKey va).le, (data.shared empty).1⟩) ?_
    exact mem_append_left _ (mem_append_right _ (mem_spaceFrames isRoot root_mem_ownFrames))

theorem DataPage.no_table : f ∉ kernelTables ram.memory kernel := by
  by_cases empty : entry ram.memory kernel (slotOf va 39) = 0
  · intro isTable
    refine valid.notKernel f (kernelTables_subset isTable) (mem_append_left _ (mem_append_right _ ?_))
    exact Valid.mem isRoot (length_pageKey va).le (data.own empty)
  · exact (data.shared empty).2

theorem DataPage.write (page : Page) : Overwrites kernel roots ram a (ram.write f page) := by
  have same (g : Frame) (isTable : g ∈ kernelTables ram.memory kernel) :
      (ram.write f page).memory g = ram.memory g :=
    ram.write_other page fun here => data.no_table valid isRoot (here ▸ isTable)
  by_cases empty : entry ram.memory kernel (slotOf va 39) = 0
  · obtain ⟨step, spaces⟩ := Step.store valid isRoot (length_pageKey va) (data.own empty) page
    exact ⟨step.valid, same, spaces⟩
  · obtain ⟨there, noTable⟩ := data.shared empty
    have isKernel := mem_kernelFrames.mpr ⟨_, (length_pageKey va).le, there⟩
    obtain ⟨valid₁, spaces⟩ := valid.store_shared isKernel noTable page
    exact ⟨valid₁, same, spaces⟩

/-- **A byte is written to a data page**, and to nothing else. -/
theorem DataPage.poke (byte : UInt8) : ∃ page, ram.poke root va byte = some (ram.write f page) ∧ ∀ i : Fin 4096,
      page i = if i.val = va % 4096 then byte else ram.memory f i := by
  have frame (g : ℕ) : containing (4096 * g + va % 4096) = g := by
    have bits : (4096 * g + va % 4096) / 4096 = g := by omega
    exact bits
  have place (g : ℕ) : (4096 * g + va % 4096) % 4096 = va % 4096 := by omega
  rw [Ram.poke, translate_of_walk (data.walk valid isRoot), map_some, frame f]
  refine ⟨_, rfl, fun i => ?_⟩
  simp only [update_apply, Fin.ext_iff, place f]

end

section

variable (writes : Overwrites kernel roots ram a ram₁)
include writes

theorem Overwrites.slots (i : Slot) : entry ram₁.memory kernel i = entry ram.memory kernel i :=
  congrArg (wordAt · i) (writes.same kernel (mem_kernelTables.mpr ⟨[], Nat.zero_le _, rfl⟩))

theorem Overwrites.dataPage (isRoot : root ∈ roots)
    (data : DataPage ram.memory kernel root va f) : DataPage ram₁.memory kernel root va f := by
  refine ⟨fun empty => ?_, fun used => ?_⟩
  · rw [writes.spaces root isRoot _ (length_pageKey va).le]
    exact data.own ((writes.slots _).symm.trans empty)
  · rw [kernel_walk_congr writes.same _ (length_pageKey va).le, kernelTables_congr writes.same]
    exact data.shared fun zero => used ((writes.slots _).trans zero)

theorem Overwrites.pageState (isRoot : root ∈ roots)
    (valid : Valid kernel ram a roots []) (tables : KernelTables ram.memory kernel) (va : ℕ) :
    pageState ram₁.memory root va = pageState ram.memory root va := by
  by_cases empty : entry ram.memory kernel (slotOf va 39) = 0
  · rw [valid.pageState_own isRoot empty, writes.valid.pageState_own isRoot ((writes.slots _).trans empty),
      writes.spaces root isRoot _ (length_pageKey va).le]
  · have used : entry ram₁.memory kernel (slotOf va 39) ≠ 0 :=
      fun zero => empty ((writes.slots _).symm.trans zero)
    rw [valid.pageState_shared tables isRoot empty,
      writes.valid.pageState_shared (tables.congr writes.same) isRoot used]
    exact kernel_keyState_congr writes.same (length_pageKey va).le

end

/-! ### One page more -/

/-- What the kernel has is not touched by work on a space. -/
theorem Step.kernel_eq (valid : Valid kernel ram a roots []) (isRoot : root ∈ roots)
    (step : Step kernel roots root ram a [] ram₁ a₁ [] out) (isKernel : f ∈ kernelFrames ram.memory kernel) :
    ram₁.memory f = ram.memory f := by
  refine step.elsewhere f fun inside => valid.notKernel f isKernel ?_
  rw [nil_append] at inside ⊢
  rcases mem_append.mp inside with own | available
  · exact mem_append_left _ (mem_spaceFrames isRoot own)
  · exact mem_append_right _ available

section

variable (valid : Valid kernel ram a roots []) (tables : KernelTables ram.memory kernel) (isRoot : root ∈ roots)
include valid tables isRoot

theorem gains_of_adds (empty : entry ram.memory kernel (slotOf va 39) = 0)
    (adds : Adds kernel roots root (pageKey va) leaf ram a [] ram₁ a₁ out) :
    Gains kernel roots root va ram a ram₁ a₁ leaf [] := by
  have same (g : Frame) (isTable : g ∈ kernelTables ram.memory kernel) : ram₁.memory g = ram.memory g :=
    adds.toStep.kernel_eq valid isRoot (kernelTables_subset isTable)
  have slots (i : Slot) : entry ram₁.memory kernel i = entry ram.memory kernel i :=
    congrArg (wordAt · i) (adds.toStep.kernel_eq valid isRoot kernel_mem_kernelFrames)
  have tables₁ := tables.congr same
  have books := adds.books
  have elsewhere := adds.elsewhere
  rw [nil_append, nil_append] at books
  rw [nil_append] at elsewhere
  refine ⟨adds.valid, tables₁, slots, adds.fresh, ?_, ?_, fun va' => ?_, fun va' f data => ?_,
    fun f isTable => .inl (kernelTables_congr same ▸ isTable), ?_, adds.few,
    fun f outside _ => elsewhere f outside, fun _ => ⟨rfl, same⟩⟩
  · rw [valid.pageState_own isRoot empty, adds.absent, if_pos rfl]
  · exact dataPage_own ((slots _).trans empty) ((adds.pages _ (length_pageKey va)).trans (if_pos rfl))
  · by_cases empty' : entry ram.memory kernel (slotOf va' 39) = 0
    · rw [adds.valid.pageState_own isRoot ((slots _).trans empty'), valid.pageState_own isRoot empty',
        adds.pages _ (length_pageKey va')]
      by_cases here : pageKey va' = pageKey va
      · rw [if_pos here, if_pos here, if_neg (some_ne_none leaf)]
      · rw [if_neg here, if_neg here]
    · have other : pageKey va' ≠ pageKey va := fun here => empty' (slot_of_pageKey here ▸ empty)
      have used : entry ram₁.memory kernel (slotOf va' 39) ≠ 0 := fun zero => empty' ((slots _).symm.trans zero)
      rw [if_neg other, valid.pageState_shared tables isRoot empty',
        adds.valid.pageState_shared tables₁ isRoot used]
      exact kernel_keyState_congr same (length_pageKey va').le
  · by_cases empty' : entry ram.memory kernel (slotOf va' 39) = 0
    · have there := data.own empty'
      exact ⟨dataPage_own ((slots _).trans empty') (adds.keys _ f (length_pageKey va').le there),
        adds.contents _ f (length_pageKey va') there⟩
    · have used : entry ram₁.memory kernel (slotOf va' 39) ≠ 0 := fun zero => empty' ((slots _).symm.trans zero)
      obtain ⟨there, noTable⟩ := data.shared empty'
      refine ⟨dataPage_shared used ?_ ?_, adds.toStep.kernel_eq valid isRoot ?_⟩
      · rw [kernel_walk_congr same _ (length_pageKey va').le, there]
      · rwa [kernelTables_congr same]
      · exact mem_kernelFrames.mpr ⟨_, (length_pageKey va').le, there⟩
  · rwa [nil_append]

theorem gains_of_grafts (used : entry ram.memory kernel (slotOf va 39) ≠ 0)
    (grafts : Grafts kernel roots root [pageKey va] ram a [] ram₁ a₁ [] taken)
    (few : taken.length ≤ 4) (free : pageState ram.memory kernel va = .free) (isTaken : leaf ∈ taken)
    (leads : walk (nextTable ram₁.memory) kernel (pageKey va) = some leaf)
    (noTable : leaf ∉ kernelTables ram₁.memory kernel) :
    Gains kernel roots root va ram a ram₁ a₁ leaf taken := by
  have books := grafts.books
  rw [nil_append, nil_append] at books
  have available {f : Frame} (mem : f ∈ taken) : f ∈ a.available := books.mem_iff.mp (mem_append_left _ mem)
  have reach (f : Frame) (isTable : f ∈ kernelTables ram₁.memory kernel) :
      f ∈ kernelTables ram.memory kernel ∨ f ∈ a.available := by
    obtain ⟨q, short, leads'⟩ := mem_kernelTables.mp isTable
    exact (grafts.gains q f (Nat.le_succ_of_le short) leads').imp
      (fun before => mem_kernelTables.mpr ⟨q, short, before⟩) available
  refine ⟨grafts.valid, grafts.tables, grafts.slots, available isTaken, ?_, ?_, fun va' => ?_,
    fun va' f data => ?_, reach, ?_, ?_, fun f outside noTable => ?_, fun empty => absurd empty used⟩
  · rw [valid.pageState_shared tables isRoot used, free]
  · exact dataPage_shared (fun zero => used ((grafts.slots _).symm.trans zero)) leads noTable
  · by_cases empty : entry ram.memory kernel (slotOf va' 39) = 0
    · have other : pageKey va' ≠ pageKey va := fun here => used (slot_of_pageKey here ▸ empty)
      rw [if_neg other, valid.pageState_own isRoot empty,
        grafts.valid.pageState_own isRoot ((grafts.slots _).trans empty),
        grafts.spaces root isRoot _ (length_pageKey va').le]
    · have used' : entry ram₁.memory kernel (slotOf va' 39) ≠ 0 :=
        fun zero => empty ((grafts.slots _).symm.trans zero)
      rw [valid.pageState_shared tables isRoot empty, grafts.valid.pageState_shared grafts.tables isRoot used',
        pageState, grafts.states _ (length_pageKey va'), ← pageState]
      simp only [mem_singleton]
  · refine ⟨?_, grafts.elsewhere f (data.ne_root valid isRoot) (data.no_table valid isRoot)
      (data.not_available valid isRoot)⟩
    by_cases empty : entry ram.memory kernel (slotOf va' 39) = 0
    · refine dataPage_own ((grafts.slots _).trans empty) ?_
      rw [grafts.spaces root isRoot _ (length_pageKey va').le, data.own empty]
    · have there := (data.shared empty).1
      refine dataPage_shared (fun zero => empty ((grafts.slots _).symm.trans zero))
        (grafts.keeps _ f (length_pageKey va').le there) fun isTable => ?_
      exact (reach f isTable).elim (data.no_table valid isRoot) (data.not_available valid isRoot)
  · refine perm_iff_count.mpr fun f => ?_
    have inBooks := books.count_eq f
    have inSpace := (valid.perm_ownFrames grafts.valid isRoot isRoot (grafts.spaces root isRoot)).count_eq f
    simp only [count_append] at inBooks inSpace ⊢
    omega
  · have length := books.length_eq
    rw [length_append] at length
    omega
  · rw [mem_append, not_or] at outside
    refine grafts.elsewhere f ?_ noTable outside.2
    rintro rfl
    exact outside.1 root_mem_ownFrames

/-- **`map_user_page` adds one page**, wherever it lies, if its entry is empty and there are frames. -/
theorem mapUserPage_gains [Mapper] (va : ℕ) : (∃ ram₁ a₁ leaf taken, mapUserPage root va ram = some ram₁ ∧
      Gains kernel roots root va ram a ram₁ a₁ leaf taken) ∨
    mapUserPage root va ram = none ∧ (pageState ram.memory root va ≠ .free ∨ a.available.length < 4) := by
  by_cases empty : entry ram.memory kernel (slotOf va 39) = 0
  · rcases mapUserPage_spec valid isRoot empty with ⟨leaf, ram₁, a₁, out, mapped, adds, _⟩ | ⟨failed, why⟩
    · exact .inl ⟨ram₁, a₁, leaf, [], mapped, gains_of_adds valid tables isRoot empty adds⟩
    · refine .inr ⟨failed, why.imp_left fun there => ?_⟩
      rw [valid.pageState_own isRoot empty, if_neg there]
      exact PageState.noConfusion
  · rcases mapUserPage_graft valid tables isRoot empty with
      ⟨leaf, ram₁, a₁, taken, mapped, grafts, few, free, isTaken, leads, noTable⟩ | ⟨failed, why⟩
    · exact .inl ⟨ram₁, a₁, leaf, taken, mapped,
        gains_of_grafts valid tables isRoot empty grafts few free isTaken leads noTable⟩
    · rw [← valid.pageState_shared tables isRoot empty] at why
      exact .inr ⟨failed, why⟩

end

end DataPage

end Ferros.Mm
