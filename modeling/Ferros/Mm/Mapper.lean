/-
**The mapper and the kernel's functions over it.**

The mapper belongs to the `x86_64` crate and not to the kernel. What the kernel calls of it is a parameter, a
`Mapper`, which carries the laws the kernel relies on; every result about spaces is stated for any of them. The
crate's own walks are an instance.

* `Mapper` — `translate_page`, `map_to` and `unmap` with their laws.
* `mapUserPage`, `mapActiveUserPage`, `unmapActiveUserPage`, `forkFrom` — the kernel's functions.
* `mapUserPage_graft` — a page in a slot of the kernel's. The frame is taken first, and the law of `map_to`
  speaks of what follows.
-/

import Ferros.Mm.Shared

namespace Ferros.Mm

open Lib List Option

class Mapper where
  translatePage : Memory → Frame → ℕ → Option Frame
  mapTo : Frame → ℕ → Frame → Ram → Except MapToError Unit × Ram
  unmap : Frame → ℕ → Ram → Option (Frame × Ram)
  /-- `translate_page` finds the pages that are mapped. -/
  translatePage_eq_none_iff : ∀ memory root va,
    translatePage memory root va = none ↔ pageState memory root va ≠ .mapped
  mapTo_spec : MapsOwn mapTo
  mapTo_graft : MapsShared mapTo
  unmap_spec : UnmapsOwn unmap

export Mapper (translatePage mapTo unmap translatePage_eq_none_iff mapTo_spec mapTo_graft unmap_spec)

instance : Mapper where
  translatePage := OffsetPageTable.translatePage
  mapTo := OffsetPageTable.mapTo
  unmap := OffsetPageTable.unmap
  translatePage_eq_none_iff := OffsetPageTable.translatePage_eq_none_iff
  mapTo_spec := OffsetPageTable.mapsOwn
  mapTo_graft := OffsetPageTable.mapsShared
  unmap_spec := OffsetPageTable.unmapsOwn

variable [Mapper]

/-! ### Pages of user space -/

def mapUserPage (root : Frame) (va : ℕ) (ram : Ram) : Option Ram :=
  match ram.allocateFrame with
  | (some frame, ram) =>
    match mapTo root va frame ram with
    | (.ok (), ram) => some ram
    | (.error _, _) => none
  | (none, _) => none

/-- `map_active_user_page`, where `active` is the root in use: the new page is zeroed, and a frame that could
not be mapped is given back. -/
def mapActiveUserPage (active : Frame) (va : ℕ) (ram : Ram) : Bool × Ram :=
  match ram.allocateFrame with
  | (some frame, ram) =>
    match mapTo active va frame ram with
    | (.ok (), ram) => (true, ram.write frame zeroPage)
    | (.error _, ram) => (false, ram.deallocateFrame frame)
  | (none, ram) => (false, ram)

def unmapActiveUserPage (active : Frame) (va : ℕ) (ram : Ram) : Ram :=
  match unmap active va ram with
  | some (frame, ram) => ram.deallocateFrame frame
  | none => ram

/-! ### The copy of a space -/

/-- The copy of one page, mapped at the same address; `none` is a panic. -/
def copyPage (leaf va child : ℕ) (ram : Ram) : Option Ram :=
  match ram.allocateFrame with
  | (some childLeaf, ram) =>
    let ram := ram.write childLeaf (ram.memory leaf)
    if isCanonical va then
      match mapTo child va childLeaf ram with
      | (.ok (), ram) => some ram
      | (.error _, _) => none
    else none
  | (none, _) => none

/-- `copy_subtree`, from a table of the given level on; at level 0 it is the page itself. -/
def copySubtree : ℕ → Frame → ℕ → Frame → Ram → Option Ram
  | 0, leaf, va, child, ram => copyPage leaf va child ram
  | level + 1, table, vaBase, child, ram =>
    allSlots.foldlM (fun ram (i : Slot) =>
      match nextTable ram.memory table i with
      | some below => copySubtree level below (vaBase ||| i.val <<< (12 + 9 * level)) child ram
      | none => some ram) ram

/-- `fork_from`; `none` is a panic. -/
def forkFrom (parent kernel : Frame) (ram : Ram) : Option (Frame × Ram) :=
  (newSharingKernel kernel ram).bind fun (child, ram) =>
    (allSlots.foldlM (fun ram (i : Slot) =>
      let word := entry ram.memory parent i
      if isPresent word && !sharedEntry (entry ram.memory kernel i) word then
        match entryFrame word with
        | some table => copySubtree 3 table (i.val <<< 39) child ram
        | none => some ram
      else some ram) ram).map fun ram => (child, ram)

/-- **`map_user_page` in a slot of the kernel's.** -/
theorem mapUserPage_graft {kernel r : Frame} {roots hand : List Frame} {ram : Ram} {a : FrameAllocator} {va : ℕ}
    (valid : Valid kernel ram a roots hand) (tables : KernelTables ram.memory kernel)
    (isRoot : r ∈ roots) (used : entry ram.memory kernel (slotOf va 39) ≠ 0) :
    (∃ leaf ram₁ a₁ taken, mapUserPage r va ram = some ram₁ ∧
      Grafts kernel roots r [pageKey va] ram a hand ram₁ a₁ hand taken ∧ taken.length ≤ 4 ∧
      pageState ram.memory kernel va = .free ∧ leaf ∈ taken ∧
      walk (nextTable ram₁.memory) kernel (pageKey va) = some leaf ∧ leaf ∉ kernelTables ram₁.memory kernel) ∨
    mapUserPage r va ram = none ∧ (pageState ram.memory kernel va ≠ .free ∨ a.available.length < 4) := by
  cases alloc : ram.allocateFrame with
  | mk frame ram₁ =>
    cases frame with
    | none =>
      obtain ⟨_, before, _⟩ := valid.refuse alloc
      refine .inr ⟨by simp only [mapUserPage, alloc], .inr ?_⟩
      rw [before]
      exact Nat.zero_lt_succ 3
    | some leaf =>
      obtain ⟨a₁, first, same, taken⟩ := Grafts.allocate (r := r) valid tables alloc
      rcases mapTo_graft taken.valid taken.tables isRoot (same ▸ used) with
        ⟨ram₂, a₂, grafted, mapped, grafts, few, free, isTaken, leads, noTable⟩ | ⟨error, ram₂, failed, why⟩
      · refine .inl ⟨leaf, ram₂, a₂, _, by simp only [mapUserPage, alloc, mapped], taken.trans grafts,
          ?_, ?_, isTaken, leads, noTable⟩
        · rw [nil_append]
          omega
        · rw [← same, free]
      · refine .inr ⟨by simp only [mapUserPage, alloc, failed], ?_⟩
        rw [same] at why
        refine why.imp_right fun fewer => ?_
        rw [first, length_cons]
        omega

end Ferros.Mm
