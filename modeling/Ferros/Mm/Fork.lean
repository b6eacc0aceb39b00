/-
**Copying an address space.**

`fork_from` walks the parent's tables and maps a copy of each page at the same address of the child, taking
frames from the allocator on the way. The parent's tables are read while the child's are made.

* `baseOf` — the address put together on the way down; it leads back to the slots it was made of.
* `Copied` — how far the copy is: the pages that are done have the parent's contents, the others are absent.
* `copySubtree_spec`, `forkFrom_spec` — as many frames as the parent has are enough.
-/

import Ferros.Mm.Teardown
import Ferros.Mm.UserPages

namespace Ferros.Mm

open Lib List

variable {memory : Memory} {r f copy table leaf t : Frame} {p q upper k slots : List Slot} {i j : Slot}
  {hand : List Frame} {ram ram₁ : Ram} {a a₁ : FrameAllocator} {finished' : List Slot → Prop}
  {out out₁ : List Passage} {body : Ram → Slot → Option Ram} {level : ℕ}

/-! ### Addresses from slots -/

def spelled (p : List Slot) : ℕ := p.foldl (fun n (i : Slot) => 512 * n + i.val) 0

/-- The first address below the slots `p`. -/
def baseOf (p : List Slot) : ℕ := spelled p * 2 ^ (48 - 9 * p.length)

theorem or_shift {high i shift : ℕ} (small : i < 512) :
    high * 2 ^ (shift + 9) ||| i <<< shift = (512 * high + i) * 2 ^ shift := by
  have low : i <<< shift < 2 ^ (shift + 9) := by
    rw [Nat.shiftLeft_eq, pow_add, mul_comm]
    exact Nat.mul_lt_mul_of_pos_left small (Nat.two_pow_pos shift)
  rw [mul_comm high, ← Nat.two_pow_add_eq_or_of_lt low, Nat.shiftLeft_eq]
  ring

/-- **One level further down.** -/
theorem baseOf_concat (depth : p.length + level = 3) (i : Slot) :
    baseOf p ||| i.val <<< (12 + 9 * level) = baseOf (p ++ [i]) := by
  have here : 48 - 9 * p.length = 12 + 9 * level + 9 := by omega
  have there : 48 - 9 * (p.length + 1) = 12 + 9 * level := by omega
  rw [baseOf, baseOf, length_append, length_singleton, here, there, or_shift i.isLt, spelled, spelled,
    foldl_append]
  rfl

theorem baseOf_four (i j k l : Slot) :
    baseOf [i, j, k, l] = (512 * (512 * (512 * i.val + j.val) + k.val) + l.val) * 4096 := by
  simp only [baseOf, spelled, foldl_cons, foldl_nil, Nat.mul_zero, Nat.zero_add]
  rfl

/-- The address leads back to the slots. -/
theorem pageKey_baseOf (four : q.length = 4) : pageKey (baseOf q) = q := by
  match q, four with
  | [i, j, k, l], _ =>
    simp only [pageKey, upperSlots, lastSlot, slotOf, baseOf_four, cons_append, nil_append,
      cons.injEq, Fin.ext_iff, and_true]
    omega

theorem prefix_pageKey (va : ℕ) : upperSlots va <+: pageKey va ∧ (upperSlots va).length = 3 :=
  ⟨prefix_append .., rfl⟩

theorem isCanonical_baseOf (three : q.length = 3) (lower : i.val < 256) :
    isCanonical (baseOf (i :: q)) := by
  match q, three with
  | [j, k, l], _ =>
    have small : baseOf [i, j, k, l] < 2 ^ 47 := by
      rw [baseOf_four]
      omega
    exact decide_eq_true (.inl small)

/-! ### Keys and their beginnings -/

section

variable {kernel : Frame}

theorem space_before (within : p <+: q) (leads : space memory kernel r q ≠ none) :
    space memory kernel r p ≠ none := by
  obtain ⟨rest, rfl⟩ := within
  intro nowhere
  rw [space, walk_append, ← space, nowhere] at leads
  exact leads rfl

theorem slot_empty_of_space (leads : space memory kernel r (i :: q) ≠ none) : entry memory kernel i = 0 := by
  by_contra used
  rw [space, walk_cons, ownTable, if_pos ⟨rfl, used⟩] at leads
  exact leads rfl

end

/-! ### A copy under way -/

/-- Two spaces at the beginning of the copy. -/
structure Forking (kernel : Frame) (roots : List Frame) (parent child : Frame) (start : Ram)
    (a₀ : FrameAllocator) : Prop where
  valid : Valid kernel start a₀ roots []
  isParent : parent ∈ roots
  isChild : child ∈ roots
  apart : parent ≠ child

/-- Why a copy does not succeed: pages outside the lower half, or less frames than the parent has. -/
def Refusal (kernel parent child : Frame) (start : Ram) (a₀ : FrameAllocator) : Prop :=
  (∃ (i : Slot) (q : List Slot), 256 ≤ i.val ∧ q.length = 3 ∧
      space start.memory kernel parent (i :: q) ≠ none) ∨
    (ownFrames start.memory kernel child).length + a₀.available.length <
      (ownFrames start.memory kernel parent).length

section

variable (kernel : Frame) (roots : List Frame) (parent child : Frame) (start : Ram) (a₀ : FrameAllocator)
  (finished : List Slot → Prop)

/-- The pages at the keys `finished` are copied, the others are absent from the child. -/
structure Copied
    (ram : Ram) (a : FrameAllocator) (out : List Passage) :
    Prop extends Step kernel roots child start a₀ [] ram a [] out where
  keys : ∀ q, q.length ≤ 4 → space ram.memory kernel child q ≠ none → space start.memory kernel parent q ≠ none
  copies : ∀ q, q.length = 4 → finished q →
    (space ram.memory kernel child q).map ram.memory = (space start.memory kernel parent q).map start.memory
  absent : ∀ q, q.length = 4 → ¬ finished q → space ram.memory kernel child q = none

/-- What becomes of a part of the copy. -/
def CopyOutcome
    (result : Option Ram) : Prop :=
  (∃ ram a out, result = some ram ∧ Copied kernel roots parent child start a₀ finished ram a out) ∨
    result = none ∧ Refusal kernel parent child start a₀

end

section Copied

variable {kernel : Frame} {roots : List Frame} {parent child : Frame} {start : Ram} {a₀ : FrameAllocator}
  {finished : List Slot → Prop}

section

variable (copied : Copied kernel roots parent child start a₀ finished ram a out)
include copied

theorem Copied.congr (same : ∀ q, q.length = 4 → (finished' q ↔ finished q)) :
    Copied kernel roots parent child start a₀ finished' ram a out :=
  ⟨copied.toStep, copied.keys, fun q four done => copied.copies q four ((same q four).mp done),
    fun q four todo => copied.absent q four fun done => todo ((same q four).mpr done)⟩

omit copied in
/-- The frames outside the child and the allocator stay, among them the parent's and the kernel's. -/
theorem Copied.parent_same (forking : Forking kernel roots parent child start a₀)
    (copied : Copied kernel roots parent child start a₀ finished ram a out)
    (mem : f ∈ ownFrames start.memory kernel parent) : ram.memory f = start.memory f := by
  refine copied.elsewhere f fun inside => ?_
  rw [nil_append] at inside
  rcases mem_append.mp inside with ofChild | available
  · exact forking.apart (forking.valid.owner forking.isParent forking.isChild mem ofChild)
  · have inSpace := mem_spaceFrames forking.isParent mem
    exact forking.valid.not_available (mem_append_right [] inSpace) available

omit copied in
theorem Copied.kernel_same (forking : Forking kernel roots parent child start a₀)
    (copied : Copied kernel roots parent child start a₀ finished ram a out)
    (mem : f ∈ kernelFrames start.memory kernel) : ram.memory f = start.memory f := by
  refine copied.elsewhere f fun inside => forking.valid.notKernel f mem ?_
  rw [nil_append] at inside
  rcases mem_append.mp inside with ofChild | available
  · exact mem_append_left _ (mem_append_right [] (mem_spaceFrames forking.isChild ofChild))
  · exact mem_append_right _ available

/-- Nothing is below a slot that the parent does not use. -/
theorem Copied.skip (none : space start.memory kernel parent p = none) :
    Copied kernel roots parent child start a₀ (fun q => finished q ∨ p <+: q) ram a out := by
  refine ⟨copied.toStep, copied.keys, fun q four done => ?_, fun q four todo => ?_⟩
  · by_cases before : finished q
    · exact copied.copies q four before
    · have nowhere : space start.memory kernel parent q = Option.none := by
        by_contra leads
        exact space_before (done.resolve_left before) leads none
      rw [copied.absent q four before, nowhere]
      rfl
  · exact copied.absent q four fun done => todo (.inl done)

omit copied in
/-- If less frames are left than keys are missing, there were too few from the start. -/
theorem refusal_of_missing (missing : List (List Slot))
    (step : Step kernel roots child start a₀ [] ram a hand out) (once : missing.Nodup)
    (keys : ∀ q, q.length ≤ 4 → space ram.memory kernel child q ≠ none →
      space start.memory kernel parent q ≠ none)
    (lacks : ∀ q ∈ missing, q.length ≤ 4 ∧ space ram.memory kernel child q = none ∧
      space start.memory kernel parent q ≠ none)
    (exhausted : hand.length + a.available.length < missing.length) : Refusal kernel parent child start a₀ := by
  have count := length_nodes_le mem_allSlots nodup_allSlots keys once lacks
  have books := step.books.length_eq
  simp only [length_append, length_nil, Nat.zero_add] at books
  exact .inr (by unfold ownFrames at books ⊢; omega)

theorem Copied.add (four : q.length = 4) (page : space start.memory kernel parent q = some leaf)
    (adds : Adds kernel roots child q copy ram a [] ram₁ a₁ out₁)
    (content : ram₁.memory copy = start.memory leaf) :
    Copied kernel roots parent child start a₀ (fun k => finished k ∨ q <+: k) ram₁ a₁ (out₁ ++ out) := by
  refine ⟨copied.toStep.trans adds.toStep, fun k short leads => ?_, fun k fourK done => ?_,
    fun k fourK todo => ?_⟩
  · by_cases before : space ram.memory kernel child k = none
    · refine space_before (adds.added k short before leads) ?_
      rw [page]
      exact Option.some_ne_none leaf
    · exact copied.keys k short before
  · rw [adds.pages k fourK]
    split
    · rename_i here
      rw [here, page, Option.map_some, Option.map_some, content]
    · rename_i other
      have before : finished k := done.resolve_right fun within =>
        other (within.eq_of_length (four.trans fourK.symm)).symm
      rw [← copied.copies k fourK before]
      cases there : space ram.memory kernel child k with
      | none => rfl
      | some f => rw [Option.map_some, Option.map_some, adds.contents k f fourK there]
  · rw [adds.pages k fourK, if_neg, copied.absent k fourK fun done => todo (.inl done)]
    rintro rfl
    exact todo (.inr prefix_rfl)

end

/-- The frames ran out on the way to a page: its key is missing and that of a table before. -/
theorem refusal_of_failed_map (step : Step kernel roots child start a₀ [] ram a [copy] out)
    (keys : ∀ q, q.length ≤ 4 → space ram.memory kernel child q ≠ none →
      space start.memory kernel parent q ≠ none)
    (grows : Grows kernel roots child upper ram a [copy] ram₁ a₁ out₁) (four : q.length = 4)
    (onWay : upper <+: q ∧ upper.length = 3) (leads : space start.memory kernel parent q ≠ none)
    (absent : space ram.memory kernel child q = none) (exhausted : a₁.available = []) (table : k <+: upper)
    (missing : space ram₁.memory kernel child k = none) : Refusal kernel parent child start a₀ := by
  have short : k.length ≤ 3 := onWay.2 ▸ table.length_le
  refine refusal_of_missing [k, q] (step.trans grows.toStep) ?_ ?_ ?_ ?_
  · refine nodup_cons.mpr ⟨fun same => ?_, nodup_singleton _⟩
    rw [mem_singleton.mp same, four] at short
    exact absurd short (by decide)
  · intro k' short' present
    by_cases before : space ram.memory kernel child k' = none
    · exact space_before ((grows.added k' short' before present).trans onWay.1) leads
    · exact keys k' short' before
  · intro k' isMissing
    rcases mem_pair.mp isMissing with rfl | rfl
    · exact ⟨Nat.le_succ_of_le short, missing, space_before (table.trans onWay.1) leads⟩
    · exact ⟨four.le, (grows.pages _ four).trans absent, leads⟩
  · rw [exhausted]
    exact Nat.one_lt_two

/-- **One page**: it is copied, unless the frames run out. -/
theorem copyPage_spec [Mapper] (forking : Forking kernel roots parent child start a₀)
    (copied : Copied kernel roots parent child start a₀ finished ram a out) (three : q.length = 3)
    (page : space start.memory kernel parent (i :: q) = some leaf) (todo : ¬ finished (i :: q)) :
    CopyOutcome kernel roots parent child start a₀ (fun k => finished k ∨ i :: q <+: k)
      (copyPage leaf (baseOf (i :: q)) child ram) := by
  have four : (i :: q).length = 4 := congrArg (· + 1) three
  have leads : space start.memory kernel parent (i :: q) ≠ none := page ▸ Option.some_ne_none leaf
  have absent := copied.absent _ four todo
  have key := pageKey_baseOf four
  have slot : slotOf (baseOf (i :: q)) 39 = i := head_eq_of_cons_eq key
  have upper := prefix_pageKey (baseOf (i :: q))
  rw [key] at upper
  have sameLeaf : ram.memory leaf = start.memory leaf :=
    copied.parent_same forking (mem_ownFrames.mpr ⟨_, four.le, page⟩)
  have empty : entry ram.memory kernel i = 0 := by
    rw [entry, copied.kernel_same forking kernel_mem_kernelFrames]
    exact slot_empty_of_space leads
  cases alloc : ram.allocateFrame with
  | mk frame ram₁ =>
    cases frame with
    | none =>
      obtain ⟨_, exhausted, _⟩ := Step.refuse (r := child) copied.valid alloc
      refine .inr ⟨by simp only [copyPage, alloc], ?_⟩
      refine refusal_of_missing [i :: q] copied.toStep (nodup_singleton _) copied.keys ?_ ?_
      · intro k isKey
        obtain rfl := mem_singleton.mp isKey
        exact ⟨four.le, absent, leads⟩
      · rw [exhausted]
        exact Nat.zero_lt_one
    | some copy =>
      obtain ⟨a₁, first, same, taken⟩ := Step.allocate (r := child) copied.valid alloc
      obtain ⟨filled, spaces⟩ := Step.fill taken.valid forking.isChild (ram₁.memory leaf)
      have spaces : ∀ k, k.length ≤ 4 →
          space (ram₁.write copy (ram₁.memory leaf)).memory kernel child k =
            space ram.memory kernel child k :=
        fun k short => by rw [spaces child forking.isChild k short, same]
      by_cases canonical : isCanonical (baseOf (i :: q))
      · have slotEmpty :
            entry (ram₁.write copy (ram₁.memory leaf)).memory kernel (slotOf (baseOf (i :: q)) 39) = 0 := by
          have notCopy : kernel ≠ copy := taken.valid.kernel_ne_hand kernel_mem_kernelFrames
          rw [slot, entry, ram₁.write_other _ notCopy, same]
          exact empty
        rcases mapTo_spec filled.valid forking.isChild slotEmpty with
          ⟨ram₂, a₂, outs, mapped, maps⟩ | ⟨error, ram₂, a₂, outs, failed, grows, why⟩
        · rw [key] at maps
          obtain ⟨adds, content⟩ := adds_of_maps forking.isChild (taken.trans filled) first
            (fun f other => by rw [ram₁.write_other _ other, same]) spaces maps four
          refine .inl ⟨ram₂, a₂, _, ?_, copied.add four page adds ?_⟩
          · simp only [copyPage, alloc, canonical, if_true, mapped]
          · rw [content, Ram.write_same, same, sameLeaf]
        · refine .inr ⟨by simp only [copyPage, alloc, canonical, if_true, failed], ?_⟩
          rw [key, spaces _ four.le] at why
          obtain ⟨_, exhausted, k, onWay, missing⟩ := why.resolve_left fun mapped => mapped absent
          have before : ∀ k, k.length ≤ 4 →
              space (ram₁.write copy (ram₁.memory leaf)).memory kernel child k ≠ none →
              space start.memory kernel parent k ≠ none := fun k short present =>
            copied.keys k short (spaces k short ▸ present)
          refine refusal_of_failed_map (copied.toStep.trans (taken.trans filled)) before grows four
            upper leads ?_ exhausted onWay missing
          rw [spaces _ four.le, absent]
      · refine .inr ⟨by simp only [copyPage, alloc, canonical]; rfl, .inl ⟨i, q, ?_, three, leads⟩⟩
        exact Nat.le_of_not_lt fun lower => canonical (isCanonical_baseOf three lower)

/-! ### Whole subtrees -/

theorem slot_unique (first : p ++ [i] <+: q) (second : p ++ [j] <+: q) : i = j := by
  have same := (prefix_of_prefix_length_le first second (by simp)).eq_of_length (by simp)
  exact head_eq_of_cons_eq (append_cancel_left same)

theorem prefix_iff_slot (short : p.length < q.length) : p <+: q ↔ ∃ i ∈ allSlots, p ++ [i] <+: q := by
  constructor
  · rintro ⟨rest, rfl⟩
    cases rest with
    | nil => simp at short
    | cons i rest => exact ⟨i, mem_allSlots i, rest, (append_cons ..).symm⟩
  · rintro ⟨i, _, within⟩
    exact (prefix_append ..).trans within

theorem copy_loop (once : slots.Nodup)
    (each : ∀ i finished ram a out, Copied kernel roots parent child start a₀ finished ram a out →
      (∀ q, p ++ [i] <+: q → ¬ finished q) →
      CopyOutcome kernel roots parent child start a₀ (fun q => finished q ∨ p ++ [i] <+: q) (body ram i))
    (copied : Copied kernel roots parent child start a₀ finished ram a out)
    (todo : ∀ i ∈ slots, ∀ q, p ++ [i] <+: q → ¬ finished q) :
    CopyOutcome kernel roots parent child start a₀ (fun q => finished q ∨ ∃ i ∈ slots, p ++ [i] <+: q)
      (slots.foldlM body ram) := by
  induction slots generalizing finished ram a out with
  | nil =>
    refine .inl ⟨ram, a, out, rfl, copied.congr fun q _ => ?_⟩
    simp
  | cons i rest ih =>
    obtain ⟨notIn, once⟩ := nodup_cons.mp once
    rw [foldlM_cons]
    rcases each i finished ram a out copied (todo i mem_cons_self) with
      ⟨ram₁, a₁, out₁, first, copied₁⟩ | ⟨failed, why⟩
    · rw [first]
      have later : ∀ j ∈ rest, ∀ q, p ++ [j] <+: q → ¬ (finished q ∨ p ++ [i] <+: q) := by
        rintro j inRest q within (done | here)
        · exact todo j (mem_cons_of_mem i inRest) q within done
        · exact notIn (slot_unique here within ▸ inRest)
      refine (ih once copied₁ later).imp_left ?_
      rintro ⟨ram₂, a₂, out₂, second, copied₂⟩
      refine ⟨ram₂, a₂, out₂, second, copied₂.congr fun q _ => ?_⟩
      rw [exists_mem_cons_iff, or_assoc]
    · exact .inr ⟨by rw [failed]; rfl, why⟩

theorem copy_table (short : p.length < 4)
    (each : ∀ i finished ram a out, Copied kernel roots parent child start a₀ finished ram a out →
      (∀ q, p ++ [i] <+: q → ¬ finished q) →
      CopyOutcome kernel roots parent child start a₀ (fun q => finished q ∨ p ++ [i] <+: q) (body ram i))
    (copied : Copied kernel roots parent child start a₀ finished ram a out)
    (todo : ∀ q, p <+: q → ¬ finished q) :
    CopyOutcome kernel roots parent child start a₀ (fun q => finished q ∨ p <+: q)
      (allSlots.foldlM body ram) := by
  refine (copy_loop nodup_allSlots each copied fun i _ q within => ?_).imp_left ?_
  · exact todo q ((prefix_append ..).trans within)
  · rintro ⟨ram₁, a₁, out₁, done, copied₁⟩
    refine ⟨ram₁, a₁, out₁, done, copied₁.congr fun q four => ?_⟩
    rw [prefix_iff_slot (four ▸ short)]

/-- **`copy_subtree` copies all pages below a table.** -/
theorem copySubtree_spec [Mapper] (forking : Forking kernel roots parent child start a₀)
    (copied : Copied kernel roots parent child start a₀ finished ram a out)
    (depth : (i :: p).length + level = 4) (there : space start.memory kernel parent (i :: p) = some table)
    (todo : ∀ q, i :: p <+: q → ¬ finished q) :
    CopyOutcome kernel roots parent child start a₀ (fun q => finished q ∨ i :: p <+: q)
      (copySubtree level table (baseOf (i :: p)) child ram) := by
  induction level generalizing p table finished ram a out with
  | zero => exact copyPage_spec forking copied (Nat.succ.inj depth) there (todo _ prefix_rfl)
  | succ level ih =>
    have short : (i :: p).length < 4 := by omega
    have inParent := mem_ownFrames.mpr ⟨_, short.le, there⟩
    rw [copySubtree]
    refine copy_table short (fun j finished ram a out copied todo => ?_) copied todo
    have link : nextTable ram.memory table j = space start.memory kernel parent (i :: p ++ [j]) := by
      rw [space_concat there, ownTable_eq, nextTable, nextTable, entry, entry,
        copied.parent_same forking inParent]
      rintro rfl
      have atRoot := forking.valid.root_of_key forking.isParent short.le there
      exact absurd atRoot (cons_ne_nil _ _)
    rw [link]
    cases below : space start.memory kernel parent (i :: p ++ [j]) with
    | none => exact .inl ⟨ram, a, out, rfl, copied.skip below⟩
    | some t =>
      dsimp only
      rw [baseOf_concat (by omega)]
      have deeper : (i :: (p ++ [j])).length + level = 4 := by
        simp only [length_cons, length_append, length_nil] at depth ⊢
        omega
      exact ih copied deeper below todo

end Copied

/-! ### A new space -/

/-- The space of `t` is new; it has its root only. -/
structure Begins (kernel : Frame) (roots : List Frame) (hand : List Frame) (ram : Ram) (a : FrameAllocator)
    (t : Frame) (ram₁ : Ram) (a₁ : FrameAllocator) : Prop where
  first : a.available = t :: a₁.available
  valid : Valid kernel ram₁ a₁ (t :: roots) hand
  trace : ram₁.trace = .out t :: ram.trace
  elsewhere : ∀ f, f ≠ t → ram₁.memory f = ram.memory f
  space : ∀ q, space ram₁.memory kernel t q = if q = [] then some t else none
  frames : ownFrames ram₁.memory kernel t = [t]

section Fork

variable {kernel child : Frame} {roots : List Frame} {start : Ram} {a₀ : FrameAllocator} {parent : Frame}

/-- **`new_sharing_kernel`** -/
theorem newSharingKernel_spec (valid : Valid kernel ram a roots hand) :
    (∃ t ram₁ a₁, newSharingKernel kernel ram = some (t, ram₁) ∧ Begins kernel roots hand ram a t ram₁ a₁) ∨
      newSharingKernel kernel ram = none ∧ a.available = [] := by
  cases alloc : ram.allocateFrame with
  | mk frame ram₁ =>
    cases frame with
    | none =>
      obtain ⟨_, exhausted, _⟩ := valid.refuse alloc
      exact .inr ⟨by simp only [newSharingKernel, alloc], exhausted⟩
    | some t =>
      obtain ⟨a₁, first, same, trace, valid₁⟩ := valid.allocate alloc
      have notNew : kernel ≠ t := valid₁.kernel_ne_hand kernel_mem_kernelFrames
      have made : newSharingKernel kernel ram =
          some (t, (ram₁.write t zeroPage).write t ((ram₁.write t zeroPage).memory kernel)) := by
        simp only [newSharingKernel, alloc]
      have copy : ((ram₁.write t zeroPage).write t ((ram₁.write t zeroPage).memory kernel)).memory t =
          ram₁.memory kernel := by
        rw [Ram.write_same, Ram.write_other _ _ notNew]
      have elsewhere (f : Frame) (other : f ≠ t) :
          ((ram₁.write t zeroPage).write t ((ram₁.write t zeroPage).memory kernel)).memory f =
            ram₁.memory f := by
        rw [Ram.write_other _ _ other, Ram.write_other _ _ other]
      obtain ⟨keys, frames⟩ := space_of_copy (copy.trans (elsewhere kernel notNew).symm)
      refine .inl ⟨t, _, a₁, made, first, valid₁.addRoot copy elsewhere, trace, fun f other => ?_, keys, frames⟩
      rw [elsewhere f other, same]

/-- The space of `child` is a copy of that of `parent`. -/
structure Forked (kernel : Frame) (roots : List Frame) (parent : Frame) (ram : Ram) (a : FrameAllocator)
    (child : Frame) (ram₁ : Ram) (a₁ : FrameAllocator) (out : List Passage) : Prop where
  valid : Valid kernel ram₁ a₁ (child :: roots) []
  trace : ram₁.trace = out ++ ram.trace
  ledger : (held out).Perm (ownFrames ram₁.memory kernel child)
  books : (ownFrames ram₁.memory kernel child ++ a₁.available).Perm a.available
  others : ∀ r ∈ roots, ∀ q, q.length ≤ 4 → space ram₁.memory kernel r q = space ram.memory kernel r q
  elsewhere : ∀ f, f ∉ a.available → ram₁.memory f = ram.memory f
  copies : ∀ q, q.length = 4 →
    (space ram₁.memory kernel child q).map ram₁.memory = (space ram.memory kernel parent q).map ram.memory

theorem Begins.ne_new (valid : Valid kernel ram a roots hand)
    (begins : Begins kernel roots hand ram a t ram₁ a₁)
    (inUse : f ∈ kernelFrames ram.memory kernel ∨ f ∈ spaceFrames ram.memory kernel roots) : f ≠ t := by
  rintro rfl
  have available : f ∈ a.available := begins.first ▸ mem_cons_self
  rcases inUse with isKernel | inSpace
  · exact valid.notKernel f isKernel (mem_append_right _ available)
  · exact valid.not_available (mem_append_right _ inSpace) available

theorem Begins.others (valid : Valid kernel ram a roots hand)
    (begins : Begins kernel roots hand ram a t ram₁ a₁) (isRoot : r ∈ roots) :
    (∀ q, q.length ≤ 4 → Mm.space ram₁.memory kernel r q = Mm.space ram.memory kernel r q) ∧
      ownFrames ram₁.memory kernel r = ownFrames ram.memory kernel r := by
  have sameKernel : ram₁.memory kernel = ram.memory kernel :=
    begins.elsewhere kernel (begins.ne_new valid (.inl kernel_mem_kernelFrames))
  have tables (p : List Slot) (g : Frame) (short : p.length < 4)
      (there : Mm.space ram.memory kernel r p = some g) : ram₁.memory g = ram.memory g :=
    begins.elsewhere g (begins.ne_new valid (.inr (Valid.mem isRoot short.le there)))
  exact ⟨space_congr sameKernel tables, ownFrames_congr sameKernel tables⟩

theorem Begins.forking (isParent : parent ∈ roots) (begins : Begins kernel roots [] ram a t ram₁ a₁) :
    Forking kernel (t :: roots) parent t ram₁ a₁ := by
  refine ⟨begins.valid, mem_cons_of_mem t isParent, mem_cons_self, ?_⟩
  rintro rfl
  exact (nodup_cons.mp begins.valid.nodup_roots).1 isParent

/-- A new space is the copy of nothing. -/
theorem Begins.copied (begins : Begins kernel roots [] ram a t ram₁ a₁) :
    Copied kernel (t :: roots) parent t ram₁ a₁ (fun _ => False) ram₁ a₁ [] := by
  refine ⟨Step.refl begins.valid, fun q short leads => ?_, fun q four done => done.elim, fun q four _ => ?_⟩
  · rw [begins.space q] at leads
    split at leads
    · rename_i isRoot
      rw [isRoot, space_nil]
      exact Option.some_ne_none parent
    · exact absurd rfl leads
  · rw [begins.space q, if_neg]
    rintro rfl
    cases four

/-- After the new space is made, there is the loop over the table of level 4. -/
theorem fork_loop [Mapper] (made : newSharingKernel kernel ram = some (child, start))
    (forking : Forking kernel roots parent child start a₀)
    (copied : Copied kernel roots parent child start a₀ (fun _ => False) start a₀ []) :
    ∃ result, forkFrom parent kernel ram = result.map (fun ram => (child, ram)) ∧
      CopyOutcome kernel roots parent child start a₀ (fun q => False ∨ [] <+: q) result := by
  refine ⟨_, by rw [forkFrom, made, Option.bind_some], ?_⟩
  refine copy_table (Nat.zero_lt_succ 3) (fun i finished ram a out copied todo => ?_) copied fun _ _ => id
  have sameParent : entry ram.memory parent i = entry start.memory parent i :=
    congrArg (wordAt · i) (copied.parent_same forking root_mem_ownFrames)
  have sameKernel : entry ram.memory kernel i = entry start.memory kernel i :=
    congrArg (wordAt · i) (copied.kernel_same forking kernel_mem_kernelFrames)
  have link : space start.memory kernel parent [i] = ownTable start.memory kernel parent parent i :=
    space_concat space_nil i
  have base : i.val <<< 39 = baseOf [i] := by
    have zero : baseOf [] = 0 := rfl
    have below : baseOf [] ||| i.val <<< (12 + 9 * 3) = baseOf [i] := baseOf_concat rfl i
    rwa [zero, Nat.zero_or] at below
  rw [sameParent, sameKernel]
  rcases forking.valid.slot_cases forking.isParent (.inl rfl) i with ⟨skips, absent⟩ | ⟨t, enters, named, there⟩
  · simp only [skips, Bool.false_eq_true, if_false]
    exact .inl ⟨ram, a, out, rfl, copied.skip (link.trans absent)⟩
  · simp only [enters, named, if_true, base]
    exact copySubtree_spec forking copied rfl (link.trans there) todo

/-- **`fork_from` copies the space**, unless it has pages outside the lower half or the frames run out. -/
theorem forkFrom_spec [Mapper] (valid : Valid kernel ram a roots []) (isParent : parent ∈ roots) :
    (∃ child ram₁ a₁ out, forkFrom parent kernel ram = some (child, ram₁) ∧
      Forked kernel roots parent ram a child ram₁ a₁ out) ∨ forkFrom parent kernel ram = none ∧
      ((∃ (i : Slot) (q : List Slot), 256 ≤ i.val ∧ q.length = 3 ∧
          space ram.memory kernel parent (i :: q) ≠ none) ∨
        a.available.length < (ownFrames ram.memory kernel parent).length) := by
  rcases newSharingKernel_spec valid with ⟨child, start, a₀, made, begins⟩ | ⟨failed, exhausted⟩
  · have forking := begins.forking isParent
    obtain ⟨spaces, frames⟩ := begins.others valid isParent
    obtain ⟨_, result, ⟨ram₁, a₁, out, rfl, copied⟩ | ⟨rfl, why⟩⟩ := fork_loop made forking begins.copied
    · refine .inl ⟨child, ram₁, a₁, out ++ [.out child], ?_, copied.valid, ?_, ?_, ?_, ?_, ?_, ?_⟩
      · rw [result, Option.map_some]
      · rw [copied.trace, begins.trace, append_assoc]
        rfl
      · have accounts := copied.ledger [.out child] (by rw [begins.frames]; rfl)
        rwa [nil_append] at accounts
      · have books := copied.books
        rwa [begins.frames, nil_append, nil_append, singleton_append, ← begins.first] at books
      · intro r isRoot q short
        have other : r ≠ child := begins.ne_new valid (.inr (mem_spaceFrames isRoot root_mem_ownFrames))
        rw [copied.others r (mem_cons_of_mem child isRoot) other q short,
          (begins.others valid isRoot).1 q short]
      · intro f outside
        rw [begins.first, mem_cons, not_or] at outside
        rw [copied.elsewhere f, begins.elsewhere f outside.1]
        rw [begins.frames, nil_append, singleton_append, mem_cons, not_or]
        exact outside
      · intro q four
        rw [copied.copies q four (.inr List.nil_prefix), spaces q four.le]
        cases there : space ram.memory kernel parent q with
        | none => rfl
        | some f =>
          have inSpace := Valid.mem isParent four.le there
          rw [Option.map_some, Option.map_some, begins.elsewhere f (begins.ne_new valid (.inr inSpace))]
    · refine .inr ⟨?_, ?_⟩
      · rw [result, Option.map_none]
      · rw [Refusal, begins.frames, frames] at why
        rw [begins.first, length_cons, Nat.add_comm]
        refine why.imp_left ?_
        rintro ⟨i, q, upper, three, leads⟩
        rw [spaces _ (by rw [length_cons, three])] at leads
        exact ⟨i, q, upper, three, leads⟩
  · refine .inr ⟨by rw [forkFrom, failed]; rfl, .inr ?_⟩
    rw [exhausted]
    exact length_pos_of_mem root_mem_ownFrames

end Fork

end Ferros.Mm
