/-
**What a load does to others.**

The checks of `load` keep a segment in the lower half and away from pages that are mapped. The kernel lives in
the lower half as well: an unmapped page next to its own lies in a slot of level 4 that all spaces share.

* `load_confined_iff` — a load is undone by `destroy` and disturbs nobody exactly if it maps no page in a slot
  of the kernel's; `load_reaches_kernel` — a file that does.

`Loaded` says what a load has done, also one that fails. Pages outside the kernel's slots are in tables of the
space alone (`Loaded.undisturbed`, `Loaded.restored`); one inside is in the kernel's (`Loaded.reaches_kernel`).
-/

import Ferros.Exec.Loading

namespace Ferros.Exec

open Lib Mm List Option

variable {kernel active root : Frame} {others lost : List Frame} {ram₀ ram ram₁ : Ram} {a₀ a : FrameAllocator}
  {mapped : List ℕ} {gap : Bool} {bytes : List UInt8} {result : Except ElfError ℕ}

/-- In the kernel's tables and in those of other processes, every address is translated as before. -/
def Undisturbed (kernel : Frame) (others : List Frame) (ram ram' : Ram) : Prop :=
  ∀ r ∈ kernel :: others, ∀ va, translate ram'.memory r va = translate ram.memory r va

/-- The same frames are available, each once. -/
def Restored (a : FrameAllocator) (ram' : Ram) : Prop :=
  ∃ a', Refines ram' a' ∧ a'.available.Nodup ∧ a'.available.Perm a.available

/-- All pages that are mapped for the file lie in slots of level 4 that the kernel leaves empty. -/
def Confined (gap : Bool) (bytes : List UInt8) (memory : Memory) (kernel : Frame) : Prop :=
  ∀ result mapped, plan gap bytes (pageState memory kernel) = some (result, mapped) →
    ∀ va ∈ mapped, entry memory kernel (slotOf va 39) = 0

section

variable (loaded : Loaded kernel others ram₀ a₀ root mapped ram a lost)
include loaded

/-- A page in a slot of the kernel's is in the kernel's tables, where there was none. -/
theorem Loaded.reaches_kernel {va : ℕ} (mem : va ∈ mapped)
    (used : entry ram₀.memory kernel (slotOf va 39) ≠ 0) :
    translate ram₀.memory kernel va = none ∧ translate ram.memory kernel va ≠ none := by
  obtain ⟨f, data, _⟩ := loaded.data va (mem_map_of_mem mem)
  refine ⟨translate_of_free (loaded.free va mem), ?_⟩
  rw [translate_of_walk (data.shared (loaded.slots _ ▸ used)).1]
  exact some_ne_none _

variable (ours : ∀ va ∈ mapped, entry ram₀.memory kernel (slotOf va 39) = 0)
include ours

/-- If no page lies in a slot of the kernel's, nobody is disturbed. -/
theorem Loaded.undisturbed : Undisturbed kernel others ram₀ ram := by
  obtain ⟨_, kept⟩ := loaded.ours ours
  have valid₀ := loaded.base
  intro r mem va
  rcases mem_cons.mp mem with rfl | isRoot
  · refine translate_congr fun p g short there => ?_
    exact kept g (mem_kernelTables.mpr ⟨p, short, there⟩)
  · refine translate_congr fun p g short there => ?_
    rcases valid₀.table_cases isRoot short there with own | isTable
    · have inSpace := mem_spaceFrames isRoot own
      refine loaded.elsewhere g (fun available => ?_) fun isTable => ?_
      · exact valid₀.not_available (mem_append_right _ inSpace) available
      · exact valid₀.notKernel g (kernelTables_subset isTable) (mem_append_left _ (mem_append_right _ inSpace))
    · exact kept g isTable

/-- A space without pages in the kernel's slots is given back as a whole. -/
theorem Loaded.restored (isActive : active = kernel ∨ active ∈ others) :
    Restored a₀ (destroy active root ram) := by
  obtain ⟨rfl, _⟩ := loaded.ours ours
  obtain ⟨valid, _⟩ := loaded.valid.destroy isActive
  refine ⟨_, valid.refines, (nodup_append.mp valid.apart).2.1, ?_⟩
  have books := loaded.books
  rw [nil_append] at books
  rw [giveFrames_available]
  exact ((reverse_perm _).append_right _).trans books

end

theorem exists_loaded [Mapper] (valid₀ : Valid kernel ram₀ a₀ others [])
    (tables₀ : KernelTables ram₀.memory kernel)
    (made : newSharingKernel kernel ram₀ = some (root, ram))
    (done : load gap bytes root ram = some (result, ram₁)) :
    ∃ mapped a₁ lost, plan gap bytes (pageState ram₀.memory kernel) = some (result, mapped) ∧
      Loaded kernel others ram₀ a₀ root mapped ram₁ a₁ lost := by
  rcases newSharingKernel_spec valid₀ with ⟨root', ram', a', made', begins⟩ | ⟨failed, _⟩
  · cases made.symm.trans made'
    rcases load_spec gap bytes valid₀ tables₀ begins with
      ⟨result', mapped, ram', a₁, lost, done', planned, loaded⟩ | ⟨failed, _⟩
    · cases done.symm.trans done'
      exact ⟨mapped, a₁, lost, planned, loaded⟩
    · cases done.symm.trans failed
  · cases made.symm.trans failed

/-- **A load alters nobody else's space and `destroy` undoes it, exactly if it maps no page in a slot of the
kernel's.** The file may be any, and the load may end with an error; the space is destroyed while the kernel's
own tables are active or those of another process. -/
theorem load_confined_iff [Mapper] (valid : Valid kernel ram₀ a₀ others [])
    (tables : KernelTables ram₀.memory kernel) (isActive : active = kernel ∨ active ∈ others)
    (made : newSharingKernel kernel ram₀ = some (root, ram))
    (done : load gap bytes root ram = some (result, ram₁)) :
    Undisturbed kernel others ram₀ ram₁ ∧ Restored a₀ (destroy active root ram₁) ↔
      Confined gap bytes ram₀.memory kernel := by
  obtain ⟨mapped, a₁, lost, planned, loaded⟩ := exists_loaded valid tables made done
  constructor
  · rintro ⟨undisturbed, _⟩ result' mapped' planned' va mem
    cases planned'.symm.trans planned
    by_contra used
    obtain ⟨before, after⟩ := loaded.reaches_kernel mem used
    exact after ((undisturbed kernel mem_cons_self va).trans before)
  · intro confined
    have ours := confined result mapped planned
    exact ⟨loaded.undisturbed ours, loaded.restored ours isActive⟩

theorem exists_load [Mapper] (valid₀ : Valid kernel ram₀ a₀ others [])
    (tables₀ : KernelTables ram₀.memory kernel)
    (planned : plan gap bytes (pageState ram₀.memory kernel) = some (result, mapped))
    (enough : 4 * mapped.length < a₀.available.length) :
    ∃ root ram ram₁ a₁ lost, newSharingKernel kernel ram₀ = some (root, ram) ∧
      load gap bytes root ram = some (result, ram₁) ∧
      Loaded kernel others ram₀ a₀ root mapped ram₁ a₁ lost := by
  rcases newSharingKernel_spec valid₀ with ⟨root, ram, a, made, begins⟩ | ⟨_, exhausted⟩
  · rcases load_spec gap bytes valid₀ tables₀ begins with
      ⟨result', mapped', ram₁, a₁, lost, done, planned', loaded⟩ | ⟨_, few⟩
    · cases planned.symm.trans planned'
      exact ⟨root, ram, ram₁, a₁, lost, made, done, loaded⟩
    · exact absurd (few result mapped planned) (Nat.not_le_of_lt enough)
  · rw [exhausted] at enough
    exact absurd enough (Nat.not_lt_zero _)

/-- A file whose one page lies in user space, loaded beside a kernel without mappings. -/
theorem load_confined_iff_small : ∃ a root ram ram₁, newSharingKernel 100 smallRam = some (root, ram) ∧
    load true (smallFile 0x7F8000000000 [⟨0, 0x7F8000000000, 0, 1⟩]) root ram = some (.ok 0x7F8000000000, ram₁) ∧
    Undisturbed 100 [] smallRam ram₁ ∧ Restored a (destroy 100 root ram₁) := by
  obtain ⟨a, valid, many⟩ := smallRam_valid
  have tables : KernelTables smallRam.memory 100 := kernelTables_zero 100
  have planned : plan true (smallFile 0x7F8000000000 [⟨0, 0x7F8000000000, 0, 1⟩]) (pageState smallRam.memory 100) =
      some (.ok 0x7F8000000000, [0x7F8000000000]) := by decide +kernel
  obtain ⟨root, ram, ram₁, _, _, made, done, _⟩ := exists_load valid tables planned (by rw [many]; decide)
  refine ⟨a, root, ram, ram₁, made, done, (load_confined_iff valid tables (.inl rfl) made done).mpr ?_⟩
  exact fun _ _ _ va _ => wordAt_zeroPage (slotOf va 39)

/-- A kernel with a table of level 3, and nothing in it. -/
def sharedRam : Ram :=
  Ram.init (fun f => if f = 100 then setWord zeroPage (slotOf 0x1000 39) (frameEntry 101) else zeroPage)
    smallMap

theorem sharedRam_next (f : Frame) (i : Slot) :
    nextTable sharedRam.memory f i = if f = 100 ∧ i = slotOf 0x1000 39 then some 101 else none := by
  have page : sharedRam.memory f =
      if f = 100 then setWord zeroPage (slotOf 0x1000 39) (frameEntry 101) else zeroPage := rfl
  rw [nextTable, entry, page]
  by_cases root : f = 100
  · by_cases slot : i = slotOf 0x1000 39
    · rw [if_pos root, if_pos ⟨root, slot⟩, slot, wordAt_setWord_same (by decide)]
      exact entryFrame_frameEntry (by decide)
    · rw [if_pos root, if_neg fun both => slot both.2, wordAt_setWord_other slot, wordAt_zeroPage,
        entryFrame_zero]
  · rw [if_neg root, if_neg fun both => root both.1, wordAt_zeroPage, entryFrame_zero]

theorem sharedRam_walk {p : List Slot} {f : Frame} (there : walk (nextTable sharedRam.memory) 100 p = some f) :
    p = [] ∧ f = 100 ∨ p = [slotOf 0x1000 39] ∧ f = 101 := by
  cases p with
  | nil => exact .inl ⟨rfl, (some.inj there).symm⟩
  | cons i rest =>
    rw [walk_cons, sharedRam_next] at there
    split at there
    · rename_i atSlot
      rw [bind_some] at there
      cases rest with
      | nil => exact .inr ⟨by rw [atSlot.2], (some.inj there).symm⟩
      | cons j rest =>
        rw [walk_cons, sharedRam_next, if_neg fun both => absurd both.1 (by decide)] at there
        cases there
    · cases there

theorem sharedRam_valid : ∃ a, Valid 100 sharedRam a [] [] ∧ a.available.length = 64 := by
  have wf : WellFormed smallMap := ⟨pairwise_singleton _ _, by decide⟩
  have apart : ∀ f ∈ kernelFrames sharedRam.memory 100, f ∉ usableFrames smallMap := by
    intro f mem
    obtain ⟨p, _, there⟩ := mem_kernelFrames.mp mem
    rcases sharedRam_walk there with ⟨_, rfl⟩ | ⟨_, rfl⟩ <;> decide
  obtain ⟨a, valid, available⟩ := valid_init wf apart
  exact ⟨a, valid, by rw [available]; rfl⟩

theorem sharedRam_tables : KernelTables sharedRam.memory 100 := by
  refine ⟨fun p q g _ _ first second => ?_, fun p f _ there i => ?_⟩
  · rcases sharedRam_walk first with ⟨rfl, rfl⟩ | ⟨rfl, rfl⟩
    · rcases sharedRam_walk second with ⟨rfl, _⟩ | ⟨_, other⟩
      · rfl
      · exact absurd other (by decide)
    · rcases sharedRam_walk second with ⟨_, other⟩ | ⟨rfl, _⟩
      · exact absurd other (by decide)
      · rfl
  · have page : sharedRam.memory f =
        if f = 100 then setWord zeroPage (slotOf 0x1000 39) (frameEntry 101) else zeroPage := rfl
    rw [entry, page]
    by_cases slot : f = 100 ∧ i = slotOf 0x1000 39
    · rw [if_pos slot.1, slot.2, wordAt_setWord_same (by decide)]
      exact .inr (isPresent_frameEntry 101)
    · refine .inl ?_
      by_cases root : f = 100
      · rw [if_pos root, wordAt_setWord_other fun same => slot ⟨root, same⟩, wordAt_zeroPage]
      · rw [if_neg root, wordAt_zeroPage]

/-- A file whose page lies next to the kernel's: after its load the kernel's own tables have the page. -/
theorem load_reaches_kernel : ∃ root ram ram₁, newSharingKernel 100 sharedRam = some (root, ram) ∧
    load true (smallFile 0x1000 [⟨0, 0x1000, 0, 1⟩]) root ram = some (.ok 0x1000, ram₁) ∧
    translate sharedRam.memory 100 0x1000 = none ∧ translate ram₁.memory 100 0x1000 ≠ none := by
  obtain ⟨a, valid, many⟩ := sharedRam_valid
  have planned : plan true (smallFile 0x1000 [⟨0, 0x1000, 0, 1⟩]) (pageState sharedRam.memory 100) =
      some (.ok 0x1000, [0x1000]) := by decide +kernel
  obtain ⟨root, ram, ram₁, _, _, made, done, loaded⟩ :=
    exists_load valid sharedRam_tables planned (by rw [many]; decide)
  have used : entry sharedRam.memory 100 (slotOf 0x1000 39) ≠ 0 := by decide +kernel
  exact ⟨root, ram, ram₁, made, done, loaded.reaches_kernel mem_cons_self used⟩

end Ferros.Exec
