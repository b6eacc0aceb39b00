/-
**What a program sees of memory, and a fork of it.**

A program reads and writes the pages that its tables lead to, in the slots of level 4 that the kernel leaves
empty. In different spaces these are different frames.

* `fork_from_copies` — after `fork_from`, parent and child see the same and share nothing.
-/

import Ferros.Mm.Fork

namespace Ferros.Mm

open Lib List Option

variable {kernel s r : Frame} {roots hand : List Frame} {ram ram' : Ram} {a : FrameAllocator}

def userSpaceEnd : ℕ := 0x0000800000000000

/-- The page of an address in the space of `root`; what lies in the kernel's slots is not for user programs. -/
def userPage (memory : Memory) (kernel root : Frame) (va : ℕ) : Option Frame :=
  if entry memory kernel (slotOf va 39) = 0 then walk (nextTable memory) root (pageKey va) else none

/-- What the page of an address contains. -/
def userView (memory : Memory) (kernel root : Frame) (va : ℕ) : Option Page :=
  (userPage memory kernel root va).map memory

/-- A program writes to the page of an address, if there is one. -/
def userWrite (kernel root : Frame) (va : ℕ) (page : Page) (ram : Ram) : Ram :=
  match userPage ram.memory kernel root va with
  | some f => ram.write f page
  | none => ram

structure UserWrite where
  root : Frame
  va : ℕ
  page : Page

def userWrites (kernel : Frame) (writes : List UserWrite) (ram : Ram) : Ram :=
  writes.foldl (fun ram w => userWrite kernel w.root w.va w.page ram) ram

section Views

theorem Valid.userPage_eq (valid : Valid kernel ram a roots hand) (isRoot : r ∈ roots) (va : ℕ) :
    userPage ram.memory kernel r va = space ram.memory kernel r (pageKey va) := by
  unfold userPage
  split
  · rename_i empty
    exact valid.walk_eq isRoot empty le_rfl
  · rename_i used
    have blocked : ownTable ram.memory kernel r r (slotOf va 39) = none := by
      rw [ownTable, if_pos ⟨rfl, used⟩]
    rw [pageKey, upperSlots, space, cons_append, walk_cons, blocked]
    rfl

/-- **A write** hits one page of the space, or nothing. -/
theorem userWrite_cases (valid : Valid kernel ram a roots []) (isRoot : r ∈ roots) (va : ℕ) (page : Page) :
    userWrite kernel r va page ram = ram ∧ space ram.memory kernel r (pageKey va) = none ∨
      ∃ f, userWrite kernel r va page ram = ram.write f page ∧
        space ram.memory kernel r (pageKey va) = some f := by
  rw [userWrite, valid.userPage_eq isRoot va]
  cases there : space ram.memory kernel r (pageKey va) with
  | none => exact .inl ⟨rfl, rfl⟩
  | some f => exact .inr ⟨f, rfl, rfl⟩

theorem userWrite_keeps (valid : Valid kernel ram a roots []) (isRoot : r ∈ roots) (va : ℕ) (page : Page) :
    Valid kernel (userWrite kernel r va page ram) a roots [] ∧ ∀ r' ∈ roots, ∀ q, q.length ≤ 4 →
        space (userWrite kernel r va page ram).memory kernel r' q = space ram.memory kernel r' q := by
  rcases userWrite_cases valid isRoot va page with ⟨same, _⟩ | ⟨f, written, there⟩
  · rw [same]
    exact ⟨valid, fun _ _ _ _ => rfl⟩
  · rw [written]
    obtain ⟨step, spaces⟩ := Step.store valid isRoot (length_pageKey va) there page
    exact ⟨step.valid, spaces⟩

/-- Two memories in which the space of `r` is the same, with the same contents. -/
structure Alike (kernel : Frame) (roots : List Frame) (r : Frame) (ram ram' : Ram) : Prop where
  valid : ∃ a, Valid kernel ram a roots []
  valid' : ∃ a, Valid kernel ram' a roots []
  spaces : ∀ q, q.length ≤ 4 → space ram'.memory kernel r q = space ram.memory kernel r q
  contents : ∀ q f, q.length = 4 → space ram.memory kernel r q = some f → ram'.memory f = ram.memory f

theorem Alike.refl (valid : Valid kernel ram a roots []) : Alike kernel roots r ram ram :=
  ⟨⟨a, valid⟩, ⟨a, valid⟩, fun _ _ => rfl, fun _ _ _ _ => rfl⟩

variable (alike : Alike kernel roots r ram ram') (isRoot : r ∈ roots)
include alike isRoot

theorem Alike.view (va : ℕ) : userView ram'.memory kernel r va = userView ram.memory kernel r va := by
  obtain ⟨⟨a, valid⟩, ⟨a', valid'⟩, spaces, contents⟩ := alike
  rw [userView, userView, valid.userPage_eq isRoot, valid'.userPage_eq isRoot, spaces _ (length_pageKey va).le]
  cases there : space ram.memory kernel r (pageKey va) with
  | none => rfl
  | some f => rw [map_some, map_some, contents _ f (length_pageKey va) there]

/-- The program of the space writes the same in both memories. -/
theorem Alike.own (va : ℕ) (page : Page) :
    Alike kernel roots r (userWrite kernel r va page ram) (userWrite kernel r va page ram') := by
  obtain ⟨⟨a, valid⟩, ⟨a', valid'⟩, spaces, contents⟩ := alike
  obtain ⟨kept, keeps⟩ := userWrite_keeps valid isRoot va page
  obtain ⟨kept', keeps'⟩ := userWrite_keeps valid' isRoot va page
  refine ⟨⟨a, kept⟩, ⟨a', kept'⟩, fun q short => ?_, fun q f four there => ?_⟩
  · rw [keeps r isRoot q short, keeps' r isRoot q short, spaces q short]
  · rw [keeps r isRoot q four.le] at there
    have key := spaces _ (length_pageKey va).le
    rcases userWrite_cases valid isRoot va page with ⟨same, none⟩ | ⟨g, written, page'⟩
    · rcases userWrite_cases valid' isRoot va page with ⟨same', _⟩ | ⟨_, _, some⟩
      · rw [same, same', contents q f four there]
      · rw [key, none] at some
        cases some
    · rcases userWrite_cases valid' isRoot va page with ⟨_, none⟩ | ⟨g', written', page''⟩
      · rw [key, page'] at none
        cases none
      · cases page'.symm.trans (key.symm.trans page'')
        rw [written, written']
        by_cases here : f = g
        · rw [here, Ram.write_same, Ram.write_same]
        · rw [Ram.write_other _ _ here, Ram.write_other _ _ here, contents q f four there]

/-- The program of another space writes. -/
theorem Alike.other (isOther : s ∈ roots) (away : s ≠ r) (va : ℕ) (page : Page) :
    Alike kernel roots r (userWrite kernel s va page ram) ram' := by
  obtain ⟨⟨a, valid⟩, valid', spaces, contents⟩ := alike
  obtain ⟨kept, keeps⟩ := userWrite_keeps valid isOther va page
  refine ⟨⟨a, kept⟩, valid', fun q short => ?_, fun q f four there => ?_⟩
  · rw [keeps r isRoot q short, spaces q short]
  · rw [keeps r isRoot q four.le] at there
    rw [contents q f four there]
    rcases userWrite_cases valid isOther va page with ⟨same, _⟩ | ⟨g, written, page'⟩
    · rw [same]
    · rw [written, Ram.write_other]
      rintro rfl
      exact away (valid.owner isOther isRoot (mem_ownFrames.mpr ⟨_, (length_pageKey va).le, page'⟩)
        (mem_ownFrames.mpr ⟨q, four.le, there⟩))

/-- **What a program sees depends on its own writes.** -/
theorem userWrites_alike {writes : List UserWrite} (theirs : ∀ w ∈ writes, w.root ∈ roots) :
    Alike kernel roots r (userWrites kernel writes ram)
      (userWrites kernel (writes.filter fun w => w.root = r) ram') := by
  induction writes generalizing ram ram' with
  | nil => exact alike
  | cons w rest ih =>
    have later := fun w' inRest => theirs w' (mem_cons_of_mem w inRest)
    by_cases own : w.root = r
    · rw [filter_cons_of_pos (by simpa using own), userWrites, userWrites, foldl_cons,
        foldl_cons, ← userWrites, ← userWrites, own]
      exact ih (alike.own isRoot w.va w.page) later
    · rw [filter_cons_of_neg (by simpa using own), userWrites, foldl_cons, ← userWrites]
      exact ih (alike.other isRoot (theirs w mem_cons_self) own w.va w.page) later

end Views

/-! ### After a fork -/

theorem page_of_pageKey {va va' : ℕ} (low : va < 2 ^ 48) (low' : va' < 2 ^ 48) (same : pageKey va = pageKey va')
    : va / 4096 = va' / 4096 := by
  simp only [pageKey, upperSlots, lastSlot, slotOf, cons_append, nil_append, cons.injEq,
    Fin.ext_iff, and_true] at same
  omega

theorem le_baseOf {i : Slot} {q : List Slot} (three : q.length = 3) (upper : 256 ≤ i.val) :
    userSpaceEnd ≤ baseOf (i :: q) ∧ baseOf (i :: q) < 2 ^ 48 := by
  match q, three with
  | [j, k, l], _ =>
    rw [baseOf_four, userSpaceEnd]
    omega

/-- **A fork is an exact copy.** If the parent's mappings are at user addresses and there are as many frames as
the parent has, `fork_from` succeeds. Parent and child then see the same at every address. The child's frames
are distinct, and neither the kernel's nor those of the parent or another space, all of which are unchanged.
And whatever is written later, each program sees its own writes only. -/
theorem fork_from_copies [Mapper] {kernel parent : Frame} {roots : List Frame} {ram : Ram} {a : FrameAllocator}
    (valid : Valid kernel ram a roots []) (isParent : parent ∈ roots)
    (user : ∀ va, userSpaceEnd ≤ va → va < 2 ^ 48 → userPage ram.memory kernel parent va = none)
    (enough : (ownFrames ram.memory kernel parent).length ≤ a.available.length) :
    ∃ child ram', forkFrom parent kernel ram = some (child, ram') ∧
      (∀ va, userView ram'.memory kernel child va = userView ram.memory kernel parent va) ∧
      (∀ va va' f, va < userSpaceEnd → va' < userSpaceEnd → userPage ram'.memory kernel child va = some f →
        userPage ram'.memory kernel child va' = some f → va / 4096 = va' / 4096) ∧
      (∀ va f, userPage ram'.memory kernel child va = some f → f ∈ ownFrames ram'.memory kernel child) ∧
      (∀ f ∈ ownFrames ram'.memory kernel child, f ∉ kernelFrames ram'.memory kernel ∧
        ∀ r ∈ roots, f ∉ ownFrames ram'.memory kernel r) ∧
      (∀ f ∈ kernelFrames ram.memory kernel ++ spaceFrames ram.memory kernel roots,
        ram'.memory f = ram.memory f) ∧
      ∀ r ∈ child :: roots, ∀ writes : List UserWrite, (∀ w ∈ writes, w.root ∈ child :: roots) → ∀ va,
        userView (userWrites kernel writes ram').memory kernel r va =
          userView (userWrites kernel (writes.filter fun w => w.root = r) ram').memory kernel r va := by
  rcases forkFrom_spec valid isParent with
    ⟨child, ram', a', out, done, forked⟩ | ⟨_, ⟨i, q, upper, three, leads⟩ | few⟩
  · have valid' := forked.valid
    have isChild : child ∈ child :: roots := mem_cons_self
    refine ⟨child, ram', done, fun va => ?_, fun va va' f low low' first second => ?_, fun va f there => ?_,
      fun f mem => ⟨fun isKernel => ?_, fun r isRoot theirs => ?_⟩, fun f mem => ?_,
      fun r isRoot writes theirs va => ?_⟩
    · rw [userView, userView, valid'.userPage_eq isChild, valid.userPage_eq isParent,
        forked.copies _ (length_pageKey va)]
    · rw [valid'.userPage_eq isChild] at first second
      have key := valid'.tree isChild _ _ f (length_pageKey va).le (length_pageKey va').le first second
      rw [userSpaceEnd] at low low'
      exact page_of_pageKey (by omega) (by omega) key
    · rw [valid'.userPage_eq isChild] at there
      exact mem_ownFrames.mpr ⟨_, (length_pageKey va).le, there⟩
    · exact valid'.notKernel f isKernel (mem_append_left _ (mem_append_right [] (mem_spaceFrames isChild mem)))
    · have same := valid'.owner isChild (mem_cons_of_mem child isRoot) mem theirs
      exact (nodup_cons.mp valid'.nodup_roots).1 (same ▸ isRoot)
    · refine forked.elsewhere f fun available => ?_
      rcases mem_append.mp mem with isKernel | inSpace
      · exact valid.notKernel f isKernel (mem_append_right _ available)
      · exact valid.not_available (mem_append_right [] inSpace) available
    · exact ((userWrites_alike (.refl valid') isRoot theirs).view isRoot va).symm
  · obtain ⟨low, high⟩ := le_baseOf three upper
    have none := user (baseOf (i :: q)) low high
    rw [valid.userPage_eq isParent, pageKey_baseOf (congrArg (· + 1) three)] at none
    exact absurd none leads
  · exact absurd enough (Nat.not_le_of_lt few)

/-- The usable frames 1 to 64. -/
def smallMap : List MemoryRegion := [⟨1, 65, .usable, by decide⟩]

/-- A machine whose kernel, with its root in frame 100, maps nothing. -/
def smallRam : Ram := Ram.init (fun _ => zeroPage) smallMap

theorem smallRam_valid : ∃ a, Valid 100 smallRam a [] [] ∧ a.available.length = 64 := by
  have wf : WellFormed smallMap := ⟨pairwise_singleton _ _, by decide⟩
  have apart : ∀ f ∈ kernelFrames (fun _ => zeroPage) 100, f ∉ usableFrames smallMap := by
    rw [kernelFrames_zero]
    decide
  obtain ⟨a, valid, available⟩ := valid_init wf apart
  exact ⟨a, valid, by rw [available]; rfl⟩

/-- A space with one page, at the address of the stack. -/
theorem exists_onePage : ∃ parent ram₀ ram a, newSharingKernel 100 smallRam = some (parent, ram₀) ∧
    entry ram₀.memory 100 (slotOf 0x7F8010000000 39) = 0 ∧
    mapUserPage parent 0x7F8010000000 ram₀ = some ram ∧ Valid 100 ram a [parent] [] ∧
    (∀ va, userPage ram.memory 100 parent va ≠ none ↔ pageKey va = pageKey 0x7F8010000000) ∧
    (ownFrames ram.memory 100 parent).length ≤ a.available.length := by
  obtain ⟨a, valid, many⟩ := smallRam_valid
  rcases newSharingKernel_spec valid with ⟨parent, ram₀, a₀, made, begins⟩ | ⟨_, exhausted⟩
  · have isParent : parent ∈ [parent] := mem_cons_self
    have nothing : ∀ va, space ram₀.memory 100 parent (pageKey va) = none := fun va => by
      rw [begins.space]
      exact if_neg (cons_ne_nil _ _)
    have notKernel : 100 ≠ parent := fun same => valid.notKernel 100 kernel_mem_kernelFrames
      (mem_append_right _ (begins.first ▸ same ▸ mem_cons_self))
    have empty : entry ram₀.memory 100 (slotOf 0x7F8010000000 39) = 0 := by
      rw [entry, begins.elsewhere 100 notKernel]
      exact wordAt_zeroPage _
    have left : a₀.available.length = 63 := by
      rw [begins.first, length_cons] at many
      exact Nat.succ.inj many
    rcases mapUserPage_spec begins.valid isParent empty with
      ⟨leaf, ram, a', out, mapped, adds, _⟩ | ⟨_, mappedBefore | few⟩
    · refine ⟨parent, ram₀, ram, a', made, empty, mapped, adds.valid, fun va => ?_, ?_⟩
      · rw [adds.valid.userPage_eq isParent, adds.pages _ (length_pageKey va), nothing va]
        simp
      · have books := adds.books.length_eq
        have few := adds.few
        rw [begins.frames] at books
        simp only [length_append, length_nil, length_singleton] at books
        omega
    · exact absurd (nothing _) mappedBefore
    · omega
  · rw [exhausted] at many
    cases many

/-- The space with one page is forked. -/
theorem fork_from_copies_onePage : ∃ parent ram₀ ram child ram',
    newSharingKernel 100 smallRam = some (parent, ram₀) ∧ mapUserPage parent 0x7F8010000000 ram₀ = some ram ∧
    forkFrom parent 100 ram = some (child, ram') ∧ userView ram'.memory 100 child 0x7F8010000000 ≠ none := by
  obtain ⟨parent, ram₀, ram, a, made, _, mapped, valid, pages, enough⟩ := exists_onePage
  have user : ∀ va, userSpaceEnd ≤ va → va < 2 ^ 48 → userPage ram.memory 100 parent va = none := by
    intro va high low
    by_contra there
    have page := page_of_pageKey low (by decide) ((pages va).mp there)
    rw [userSpaceEnd] at high
    omega
  obtain ⟨child, ram', forked, views, _⟩ := fork_from_copies valid mem_cons_self user enough
  refine ⟨parent, ram₀, ram, child, ram', made, mapped, forked, ?_⟩
  rw [views, userView, ne_eq, map_eq_none_iff]
  exact (pages _).mpr rfl

end Ferros.Mm
