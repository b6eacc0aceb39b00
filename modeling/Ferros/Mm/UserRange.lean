/-
**Which pages of a range user space may use.**

`user_range_accessible` looks up every page that a range meets in the tables in use. What the lookup finds is a
parameter here, the leaf of every page of 4096 bytes: the tables say what it is, and they do not change while a
system call is handled.

* `userRangeAccessible_eq` — **it is decided exactly**: the answer is yes if and only if every page that the
  range meets has a leaf that permits the access.

The loop goes from page to page by itself (`pagesAccessible_eq`, by induction along it): at a page with a leaf
that permits the access it goes on, at every other it stops with no. Below the end of user space no address is
out of range, so it never panics.
-/

import Ferros.Mm.Isolation

namespace Ferros.Mm

open Lib Option

/-! ### The lookup -/

/-- What maps a page: where its first byte is in physical memory, and the flags of the entry. -/
structure Leaf where
  base : ℕ
  user : Bool
  writable : Bool

/-- The leaf of every page, by its number. -/
abbrev Space := ℕ → Option Leaf

variable {space : Space} {needWrite : Bool} {va page stop addr start len : ℕ}

/-- The page has a leaf that permits the access. -/
def Permits (space : Space) (needWrite : Bool) (page : ℕ) : Prop :=
  ∃ leaf, space page = some leaf ∧ leaf.user = true ∧ (needWrite = true → leaf.writable = true)

/-- The range of `len` bytes from `start` on has a byte in the page. -/
def Meets (start len page : ℕ) : Prop := ∃ va, start ≤ va ∧ va < start + len ∧ va / 4096 = page

/-- The loop over the pages; no value is the panic of `VirtAddr::new` at an address that is not canonical. -/
def pagesAccessible (space : Space) (needWrite : Bool) (stop addr : ℕ) : Option Bool :=
  if addr < stop then
    if isCanonical addr = false then none
    else
      match space (addr / 4096) with
      | none => some false
      | some leaf =>
        if leaf.user = false then some false
        else if needWrite = true ∧ leaf.writable = false then some false
        -- `addr.checked_add(4096)`
        else if addr + 4096 < 2 ^ 64 then pagesAccessible space needWrite stop (addr + 4096)
        else some true
  else some true
termination_by stop - addr
decreasing_by omega

def userRangeAccessible (space : Space) (start len : ℕ) (needWrite : Bool) : Option Bool :=
  if len = 0 then some true
  else
    match fitting 64 (start + len) with
    | none => some false
    -- `start & !0xFFF`
    | some stop => pagesAccessible space needWrite stop (start / 4096 * 4096)

/-! ### The answer -/

theorem isCanonical_of_lt (low : va < userSpaceEnd) : isCanonical va :=
  decide_eq_true (.inl low)

theorem permits_iff {leaf : Leaf} (found : space page = some leaf) :
    Permits space needWrite page ↔ ¬(leaf.user = false ∨ needWrite ∧ leaf.writable = false) := by
  constructor
  · rintro ⟨other, same, user, write⟩ wrong
    cases found.symm.trans same
    rcases wrong with noUser | ⟨need, noWrite⟩
    · exact Bool.noConfusion (noUser.symm.trans user)
    · exact Bool.noConfusion (noWrite.symm.trans (write need))
  · intro right
    rw [not_or, not_and] at right
    exact ⟨leaf, found, Bool.not_eq_false _ ▸ right.1, fun need => Bool.not_eq_false _ ▸ right.2 need⟩

/-- The pages up to the end are the first one and the ones behind it. -/
theorem forall_pages {P : ℕ → Prop} (aligned : addr % 4096 = 0) (more : addr < stop) :
    (∀ page, addr ≤ 4096 * page → 4096 * page < stop → P page) ↔
      P (addr / 4096) ∧ ∀ page, addr + 4096 ≤ 4096 * page → 4096 * page < stop → P page := by
  refine ⟨fun all => ⟨all _ (by omega) (by omega), fun page low high => all page (by omega) high⟩, ?_⟩
  rintro ⟨first, later⟩ page low high
  by_cases same : page = addr / 4096
  · rw [same]
    exact first
  · exact later page (by omega) high

/-- **The loop asks for every page up to the end.** -/
theorem pagesAccessible_eq (space : Space) (needWrite : Bool) (low : stop ≤ userSpaceEnd) (addr : ℕ)
    (aligned : addr % 4096 = 0) : ∃ verdict, pagesAccessible space needWrite stop addr = some verdict ∧
      (verdict ↔ ∀ page, addr ≤ 4096 * page → 4096 * page < stop → Permits space needWrite page) := by
  unfold userSpaceEnd at low
  fun_induction pagesAccessible space needWrite stop addr with
  | case1 addr more panic =>
    have fine : isCanonical addr := isCanonical_of_lt (by unfold userSpaceEnd; omega)
    exact Bool.noConfusion (panic.symm.trans fine)
  | case2 addr more _ missing =>
    refine ⟨false, rfl, fun wrong => Bool.noConfusion wrong, fun all => ?_⟩
    obtain ⟨leaf, found, -⟩ := ((forall_pages aligned more).mp all).1
    cases missing.symm.trans found
  | case3 addr more _ leaf found noUser =>
    refine ⟨false, rfl, fun wrong => Bool.noConfusion wrong, fun all => ?_⟩
    exact absurd (.inl noUser) ((permits_iff found).mp ((forall_pages aligned more).mp all).1)
  | case4 addr more _ leaf found user noWrite =>
    refine ⟨false, rfl, fun wrong => Bool.noConfusion wrong, fun all => ?_⟩
    exact absurd (.inr noWrite) ((permits_iff found).mp ((forall_pages aligned more).mp all).1)
  | case5 addr more _ leaf found user write fits ih =>
    obtain ⟨verdict, answer, exactly⟩ := ih (by omega)
    refine ⟨verdict, answer, exactly.trans ?_⟩
    rw [forall_pages aligned more]
    exact ⟨fun later => ⟨(permits_iff found).mpr (not_or.mpr ⟨user, write⟩), later⟩, fun all => all.2⟩
  | case6 addr more _ leaf found user write large => omega
  | case7 addr done => exact ⟨true, rfl, fun _ page behind before => absurd before (by omega), fun _ => rfl⟩

/-- The pages that a range meets. -/
theorem meets_iff (nonempty : len ≠ 0) :
    Meets start len page ↔ start / 4096 * 4096 ≤ 4096 * page ∧ 4096 * page < start + len := by
  constructor
  · rintro ⟨va, low, high, rfl⟩
    omega
  · rintro ⟨low, high⟩
    exact ⟨max start (4096 * page), by omega, by omega, by omega⟩

theorem not_meets_zero (start page : ℕ) : ¬Meets start 0 page := by
  rintro ⟨va, low, high, -⟩
  omega

/-- **A range is accessible if and only if every page that it meets is.** -/
theorem userRangeAccessible_eq (space : Space) (needWrite : Bool) (low : start + len ≤ userSpaceEnd) :
    ∃ verdict, userRangeAccessible space start len needWrite = some verdict ∧
      (verdict ↔ ∀ page, Meets start len page → Permits space needWrite page) := by
  by_cases none : len = 0
  · subst none
    exact ⟨true, rfl, fun _ page meets => absurd meets (not_meets_zero start page), fun _ => rfl⟩
  · have fits : start + len < 2 ^ 64 := by
      unfold userSpaceEnd at low
      omega
    obtain ⟨verdict, answer, exactly⟩ :=
      pagesAccessible_eq space needWrite low (start / 4096 * 4096) (Nat.mul_mod_left _ _)
    refine ⟨verdict, ?_, exactly.trans (forall_congr' fun page => ?_)⟩
    · rw [userRangeAccessible, if_neg none, fitting_of_lt fits]
      exact answer
    · rw [meets_iff none, and_imp]

end Ferros.Mm
