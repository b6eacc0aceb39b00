/-
**The kernel's functions on pages of user space.**

* `mapUserPage_spec`, `mapActiveUserPage_spec`, `unmapActiveUserPage_spec` — at a page whose slot of level 4
  the kernel leaves empty, they change the one page or, if they fail, no page.

The laws of the mapper say what becomes of the tables (`Maps`, `Grows`); with the frame allocated before, this
says what becomes of pages (`adds_of_maps`, `keepsPages_of_grows`).
-/

import Ferros.Mm.Mapper

namespace Ferros.Mm

open Lib List Option

variable {f leaf : Frame} {ram ram₁ ram₂ : Ram} {a a₁ a₂ : FrameAllocator} {hand : List Frame} {key : List Slot}
  {out outs : List Passage} {va : ℕ}

section Store

variable {kernel : Frame} {roots : List Frame} {r : Frame}

theorem Step.write (valid : Valid kernel ram a roots hand) (isRoot : r ∈ roots)
    (inUse : f ∈ hand ++ ownFrames ram.memory kernel r)
    (noTable : ∀ r' ∈ roots, ∀ q g, q.length < 4 → space ram.memory kernel r' q = some g → g ≠ f) (page : Page)
    : Step kernel roots r ram a hand (ram.write f page) a hand [] ∧ ∀ r' ∈ roots, ∀ q, q.length ≤ 4 →
        space (ram.write f page).memory kernel r' q = space ram.memory kernel r' q := by
  have mem : f ∈ hand ++ spaceFrames ram.memory kernel roots := by
    rcases mem_append.mp inUse with inHand | inSpace
    · exact mem_append_left _ inHand
    · exact mem_append_right _ (mem_spaceFrames isRoot inSpace)
  have away {g : Frame} (other : g ≠ f) := ram.write_other page other
  have tables (r' : Frame) (isRoot' : r' ∈ roots) (q : List Slot) (g : Frame) (short : q.length < 4)
      (table : space ram.memory kernel r' q = some g) : (ram.write f page).memory g = ram.memory g :=
    away (noTable r' isRoot' q g short table)
  have kernelSame (g : Frame) (isKernel : g ∈ kernelFrames ram.memory kernel) :
      (ram.write f page).memory g = ram.memory g := by
    refine away ?_
    rintro rfl
    exact valid.notKernel g isKernel (mem_append_left _ mem)
  have sameKernel := kernelSame kernel kernel_mem_kernelFrames
  have own : ownFrames (ram.write f page).memory kernel r = ownFrames ram.memory kernel r :=
    ownFrames_congr sameKernel (tables r isRoot)
  have written : Valid kernel (ram.write f page) a roots hand := by
    refine valid.rewrite tables kernelSame fun g free => away ?_
    rintro rfl
    exact valid.not_available mem (mem_append_left _ free)
  have spaces (r' : Frame) (isRoot' : r' ∈ roots) := space_congr sameKernel (tables r' isRoot')
  refine ⟨⟨written, rfl, fun record accounts => ?_, ?_, fun r' isRoot' _ => spaces r' isRoot', ?_⟩, spaces⟩
  · rw [own]
    exact accounts
  · rw [own]
  · intro g outside
    refine away ?_
    rintro rfl
    exact outside (mem_append_left _ inUse)

/-- **A page is written to.** -/
theorem Step.store (valid : Valid kernel ram a roots hand) (isRoot : r ∈ roots) (four : key.length = 4)
    (there : space ram.memory kernel r key = some f) (page : Page) :
    Step kernel roots r ram a hand (ram.write f page) a hand [] ∧ ∀ r' ∈ roots, ∀ q, q.length ≤ 4 →
        space (ram.write f page).memory kernel r' q = space ram.memory kernel r' q := by
  have inSpace := mem_ownFrames.mpr ⟨key, four.le, there⟩
  refine Step.write valid isRoot (mem_append_right _ inSpace) ?_ page
  -- the page is no table of any space
  rintro r' isRoot' q g short table rfl
  have same := valid.owner isRoot' isRoot (mem_ownFrames.mpr ⟨q, short.le, table⟩) inSpace
  subst same
  have sameKey := valid.tree isRoot q key g short.le four.le table there
  rw [sameKey, four] at short
  exact absurd short (lt_irrefl 4)

/-- **A frame in the kernel's hands is written to.** -/
theorem Step.fill (valid : Valid kernel ram a roots (f :: hand)) (isRoot : r ∈ roots) (page : Page) :
    Step kernel roots r ram a (f :: hand) (ram.write f page) a (f :: hand) [] ∧
      ∀ r' ∈ roots, ∀ q, q.length ≤ 4 →
        space (ram.write f page).memory kernel r' q = space ram.memory kernel r' q := by
  refine Step.write valid isRoot mem_cons_self ?_ page
  exact fun r' isRoot' q g short table => valid.ne_hand (Valid.mem isRoot' short.le table)

end Store

/-! ### One page more -/

section

variable (kernel : Frame) (roots : List Frame) (r : Frame)

/-- A frame that was available becomes the page at `key`. -/
structure Adds (key : List Slot) (leaf : Frame) (ram : Ram)
    (a : FrameAllocator) (hand : List Frame) (ram' : Ram) (a' : FrameAllocator) (out : List Passage) : Prop
    extends Step kernel roots r ram a hand ram' a' hand out where
  fresh : leaf ∈ a.available
  absent : space ram.memory kernel r key = none
  keys : ∀ q f, q.length ≤ 4 → space ram.memory kernel r q = some f →
    space ram'.memory kernel r q = some f
  added : ∀ q, q.length ≤ 4 → space ram.memory kernel r q = none →
    space ram'.memory kernel r q ≠ none → q <+: key
  pages : ∀ q, q.length = 4 → space ram'.memory kernel r q =
    if q = key then some leaf else space ram.memory kernel r q
  contents : ∀ q f, q.length = 4 → space ram.memory kernel r q = some f → ram'.memory f = ram.memory f
  hands : ∀ f ∈ hand, ram'.memory f = ram.memory f
  few : a.available.length ≤ a'.available.length + 4

/-- All pages stay, with what they contain. -/
structure KeepsPages (ram : Ram) (a : FrameAllocator)
    (hand : List Frame) (ram' : Ram) (a' : FrameAllocator) (hand' : List Frame) (out : List Passage) : Prop
    extends Step kernel roots r ram a hand ram' a' hand' out where
  pages : ∀ q, q.length = 4 → space ram'.memory kernel r q = space ram.memory kernel r q
  contents : ∀ q f, q.length = 4 → space ram.memory kernel r q = some f → ram'.memory f = ram.memory f

/-- The page at `key` is taken out and its frame given back. -/
structure Removes (key : List Slot) (ram : Ram)
    (a : FrameAllocator) (hand : List Frame) (ram' : Ram) (a' : FrameAllocator) (out : List Passage) : Prop
    extends Step kernel roots r ram a hand ram' a' hand out where
  present : space ram.memory kernel r key ≠ none
  pages : ∀ q, q.length ≤ 4 → space ram'.memory kernel r q =
    if q = key then none else space ram.memory kernel r q
  contents : ∀ q f, q.length = 4 → q ≠ key → space ram.memory kernel r q = some f →
    ram'.memory f = ram.memory f

end

section UserPages

variable {kernel : Frame} {roots : List Frame} {r : Frame}

/-- The frame is allocated and perhaps filled, then mapped. -/
theorem adds_of_maps (isRoot : r ∈ roots) (taken : Step kernel roots r ram a hand ram₁ a₁ (leaf :: hand) outs)
    (first : a.available = leaf :: a₁.available) (same : ∀ f, f ≠ leaf → ram₁.memory f = ram.memory f)
    (spaces : ∀ q, q.length ≤ 4 → space ram₁.memory kernel r q = space ram.memory kernel r q)
    (maps : Maps kernel roots r key leaf ram₁ a₁ hand ram₂ a₂ out) (four : key.length = 4) :
    Adds kernel roots r key leaf ram a hand ram₂ a₂ (out ++ outs) ∧ ram₂.memory leaf = ram₁.memory leaf := by
  have few := maps.few
  have length := maps.taken
  have nodup := (nodup_append.mp (nodup_append.mp taken.valid.apart).1).1
  refine ⟨⟨taken.trans maps.toStep, first ▸ mem_cons_self, ?_, ?_, ?_, ?_, ?_, ?_, ?_⟩,
    maps.hands leaf mem_cons_self⟩
  · rw [← spaces key four.le, maps.absent]
  · intro q f short there
    exact maps.keys q f short ((spaces q short).trans there)
  · intro q short absent
    exact maps.added q short ((spaces q short).trans absent)
  · intro q four
    rw [maps.pages q four, spaces q four.le]
  · intro q f four there
    have before := (spaces q four.le).trans there
    rw [maps.contents q f four before,
      same f (taken.valid.ne_hand (Valid.mem isRoot four.le before))]
  · intro f inHand
    rw [maps.hands f (mem_cons_of_mem _ inHand), same f]
    rintro rfl
    exact (nodup_cons.mp nodup).1 inHand
  · rw [first, length_cons]
    omega

/-- The frame that could not be mapped is given back. -/
theorem keepsPages_of_grows (isRoot : r ∈ roots)
    (taken : Step kernel roots r ram a hand ram₁ a₁ (leaf :: hand) [.out leaf])
    (same : ram₁.memory = ram.memory) (grows : Grows kernel roots r key ram₁ a₁ (leaf :: hand) ram₂ a₂ out) :
    KeepsPages kernel roots r ram a hand (ram₂.deallocateFrame leaf) (deallocateFrame leaf a₂) hand
      ([.back leaf] ++ (out ++ [.out leaf])) := by
  have valid := grows.valid
  refine ⟨(taken.trans grows.toStep).trans (Step.give valid isRoot), ?_, ?_⟩
  · intro q four
    rw [valid.space_give isRoot q four.le, grows.pages q four, same]
  · intro q f four there
    rw [← same] at there
    have later := grows.keys q f four.le there
    rw [valid.table_give isRoot four.le later, grows.contents q f four there, same]

theorem Adds.zero (isRoot : r ∈ roots) (four : key.length = 4)
    (adds : Adds kernel roots r key leaf ram a hand ram₁ a₁ out) :
    Adds kernel roots r key leaf ram a hand (ram₁.write leaf zeroPage) a₁ ([] ++ out) := by
  have there : space ram₁.memory kernel r key = some leaf := by rw [adds.pages key four, if_pos rfl]
  obtain ⟨stored, spaces⟩ := Step.store adds.valid isRoot four there zeroPage
  have spaces := spaces r isRoot
  refine ⟨adds.toStep.trans stored, adds.fresh, adds.absent, ?_, ?_, ?_, ?_, ?_, adds.few⟩
  · intro q f short present
    rw [spaces q short]
    exact adds.keys q f short present
  · intro q short
    rw [spaces q short]
    exact adds.added q short
  · intro q four
    rw [spaces q four.le]
    exact adds.pages q four
  · intro q f fourQ present
    rw [ram₁.write_other _ , adds.contents q f fourQ present]
    rintro rfl
    have later := adds.keys q f fourQ.le present
    have same := adds.valid.tree isRoot q key f fourQ.le four.le later there
    rw [same, adds.absent] at present
    cases present
  · intro f inHand
    rw [ram₁.write_other _ , adds.hands f inHand]
    rintro rfl
    exact adds.valid.not_hand (Valid.mem isRoot four.le there) inHand

section

variable (valid : Valid kernel ram a roots hand) (isRoot : r ∈ roots)
  (empty : entry ram.memory kernel (slotOf va 39) = 0)
include valid isRoot empty

/-- **`map_user_page`** maps the page, unless it was mapped or the frames run out. -/
theorem mapUserPage_spec [Mapper] : (∃ leaf ram₁ a₁ out, mapUserPage r va ram = some ram₁ ∧
      Adds kernel roots r (pageKey va) leaf ram a hand ram₁ a₁ out ∧ ram₁.memory leaf = ram.memory leaf) ∨
    mapUserPage r va ram = none ∧ (space ram.memory kernel r (pageKey va) ≠ none ∨ a.available.length < 4) := by
  cases alloc : ram.allocateFrame with
  | mk frame ram₁ =>
    cases frame with
    | none =>
      obtain ⟨_, before, _⟩ := Step.refuse (r := r) valid alloc
      refine .inr ⟨by simp only [mapUserPage, alloc], .inr ?_⟩
      rw [before]
      exact Nat.zero_lt_succ 3
    | some leaf =>
      obtain ⟨a₁, first, same, taken⟩ := Step.allocate (r := r) valid alloc
      rcases mapTo_spec taken.valid isRoot (same ▸ empty) with
        ⟨ram₂, a₂, out, mapped, maps⟩ | ⟨error, ram₂, a₂, out, failed, grows, why⟩
      · obtain ⟨adds, content⟩ := adds_of_maps isRoot taken first (fun f _ => by rw [same])
          (fun q _ => by rw [same]) maps (length_pageKey va)
        refine .inl ⟨leaf, ram₂, a₂, _, by simp only [mapUserPage, alloc, mapped], adds, ?_⟩
        rw [content, same]
      · refine .inr ⟨by simp only [mapUserPage, alloc, failed], ?_⟩
        rw [same] at why
        refine why.imp_right fun noRoom => ?_
        have length := grows.taken
        rw [noRoom.2.1] at length
        have fewer := noRoom.1
        rw [first, length_cons, length, length_nil]
        omega

/-- **`map_active_user_page`** maps a zeroed page, or no page. -/
theorem mapActiveUserPage_spec [Mapper] : (∃ leaf ram₁ a₁ out, mapActiveUserPage r va ram = (true, ram₁) ∧
      Adds kernel roots r (pageKey va) leaf ram a hand ram₁ a₁ out ∧ ram₁.memory leaf = zeroPage) ∨
    ∃ ram₁ a₁ out, mapActiveUserPage r va ram = (false, ram₁) ∧
      KeepsPages kernel roots r ram a hand ram₁ a₁ hand out := by
  cases alloc : ram.allocateFrame with
  | mk frame ram₁ =>
    cases frame with
    | none =>
      obtain ⟨a₁, _, _, same, refused⟩ := Step.refuse (r := r) valid alloc
      refine .inr ⟨ram₁, a₁, [], by simp only [mapActiveUserPage, alloc], refused, ?_, ?_⟩
      · exact fun q _ => by rw [same]
      · exact fun q f _ _ => by rw [same]
    | some leaf =>
      obtain ⟨a₁, first, same, taken⟩ := Step.allocate (r := r) valid alloc
      rcases mapTo_spec taken.valid isRoot (same ▸ empty) with
        ⟨ram₂, a₂, out, mapped, maps⟩ | ⟨error, ram₂, a₂, out, failed, grows, _⟩
      · obtain ⟨adds, _⟩ := adds_of_maps isRoot taken first (fun f _ => by rw [same])
          (fun q _ => by rw [same]) maps (length_pageKey va)
        refine .inl ⟨leaf, ram₂.write leaf zeroPage, a₂, _, ?_, adds.zero isRoot (length_pageKey va),
          ram₂.write_same _⟩
        simp only [mapActiveUserPage, alloc, mapped]
      · refine .inr ⟨ram₂.deallocateFrame leaf, _, _, ?_, keepsPages_of_grows isRoot taken same grows⟩
        simp only [mapActiveUserPage, alloc, failed]

/-- **`unmap_active_user_page`** takes the page out, if there is one. -/
theorem unmapActiveUserPage_spec [Mapper] :
    (∃ a₁ out, Removes kernel roots r (pageKey va) ram a hand (unmapActiveUserPage r va ram) a₁ out) ∨
    unmapActiveUserPage r va ram = ram ∧ space ram.memory kernel r (pageKey va) = none := by
  rcases unmap_spec valid isRoot empty with ⟨f, ram₁, unmapped, present, step, keys, contents⟩ | ⟨none, absent⟩
  · have result : unmapActiveUserPage r va ram = ram₁.deallocateFrame f := by
      simp only [unmapActiveUserPage, unmapped]
    rw [result]
    refine .inl ⟨_, _, step.trans (Step.give step.valid isRoot), ?_, ?_, ?_⟩
    · rw [present]
      exact some_ne_none f
    · intro q short
      rw [step.valid.space_give isRoot q short, keys q short]
    · intro q g four other there
      have later : space ram₁.memory kernel r q = some g := by
        rw [keys q four.le, if_neg other, there]
      rw [step.valid.table_give isRoot four.le later, contents q g four there]
  · exact .inr ⟨by simp only [unmapActiveUserPage, none], absent⟩

end

end UserPages

end Ferros.Mm
