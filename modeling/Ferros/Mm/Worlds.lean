/-
**Runs on address spaces.**

A world has any number of address spaces, one of which (or the kernel's own) is active. They are made, copied,
mapped into, written to and torn down in any order. For each space there is a log of the frames that passed
between it and the allocator.

* `Orderly` — the spaces are apart, and the log of each accounts for its frames.
* `teardown_conserves_frames` — `destroy` gives back what was allocated for the space and not returned before.
* `spaces_isolated` — no frame belongs to two spaces, and each program sees its own writes only.

Every operation is one of three kinds: work on one space, which keeps the others because frames have one
owner (`Orderly.work`), a new space, built of frames that were available (`Orderly.enter`), and the end of a
space (`Orderly.leave`). The specifications of the calls say which.
-/

import Ferros.Mm.Isolation

namespace Ferros.Mm

open Lib List Option Function

structure World where
  ram : Ram
  /-- The root in use. -/
  active : Frame
  roots : List Frame
  log : Frame → List Passage

/-- What passed between two moments. -/
def newPassages (ram ram' : Ram) : List Passage :=
  ram'.trace.take (ram'.trace.length - ram.trace.length)

def World.work (r : Frame) (ram : Ram) (w : World) : World :=
  { w with ram := ram, log := update w.log r (newPassages w.ram ram ++ w.log r) }

/-- A new space, with a log of its own. -/
def World.enter (r : Frame) (ram : Ram) (w : World) : World :=
  { w with ram := ram, roots := r :: w.roots, log := update w.log r (newPassages w.ram ram) }

/-- Whether the kernel leaves the slot of level 4 empty in which an address lies. -/
def World.Absent (kernel : Frame) (w : World) (va : ℕ) : Prop :=
  entry w.ram.memory kernel (slotOf va 39) = 0

instance (kernel : Frame) (w : World) (va : ℕ) : Decidable (w.Absent kernel va) :=
  inferInstanceAs (Decidable (_ = 0))

inductive SpaceOp
  | newSharingKernel
  | forkFrom (parent : Frame)
  | mapUserPage (root : Frame) (va : ℕ)
  | mapActiveUserPage (va : ℕ)
  | unmapActiveUserPage (va : ℕ)
  | activate (root : Frame)
  | write (root : Frame) (va : ℕ) (page : Page)
  | destroy (root : Frame)

/-- Pages are mapped and unmapped where the kernel has nothing; the space torn down is not the active one. -/
def SpaceOp.perform [Mapper] (kernel : Frame) : SpaceOp → World → Option World
  | .newSharingKernel, w =>
    (Mm.newSharingKernel kernel w.ram).map fun (root, ram) => w.enter root ram
  | .forkFrom parent, w =>
    if parent ∈ w.roots then (Mm.forkFrom parent kernel w.ram).map fun (child, ram) => w.enter child ram
    else none
  | .mapUserPage root va, w =>
    if root ∈ w.roots ∧ w.Absent kernel va then (Mm.mapUserPage root va w.ram).map (w.work root) else none
  | .mapActiveUserPage va, w =>
    if w.active ∈ w.roots ∧ w.Absent kernel va then
      some (w.work w.active (Mm.mapActiveUserPage w.active va w.ram).2)
    else none
  | .unmapActiveUserPage va, w =>
    if w.active ∈ w.roots ∧ w.Absent kernel va then
      some (w.work w.active (Mm.unmapActiveUserPage w.active va w.ram))
    else none
  | .activate root, w => if root = kernel ∨ root ∈ w.roots then some { w with active := root } else none
  | .write root va page, w =>
    if root ∈ w.roots then some { w with ram := userWrite kernel root va page w.ram } else none
  | .destroy root, w =>
    if root ∈ w.roots ∧ w.active ≠ root then
      some { w with ram := Mm.destroy w.active root w.ram, roots := w.roots.erase root }
    else none

/-- The runs from a moment when the kernel's own tables are all there is. -/
def spaces [Mapper] (kernel : Frame) : System World :=
  System.ofOps (fun w => w.roots = [] ∧ w.active = kernel ∧ ∃ a, Valid kernel w.ram a [] [])
    (SpaceOp.perform kernel)

/-! ### What every operation keeps -/

structure Orderly (kernel : Frame) (w : World) (a : FrameAllocator) : Prop where
  valid : Valid kernel w.ram a w.roots []
  accounts : ∀ r ∈ w.roots, (held (w.log r)).Perm (ownFrames w.ram.memory kernel r)
  active : w.active = kernel ∨ w.active ∈ w.roots

section Orderly

variable {kernel : Frame} {w w' : World} {a a' : FrameAllocator} {r : Frame} {ram : Ram} {out : List Passage}

theorem newPassages_eq (trace : ram.trace = out ++ w.ram.trace) : newPassages w.ram ram = out := by
  rw [newPassages, trace, length_append, Nat.add_sub_cancel, take_left]

/-- Without passages the log stays. -/
theorem World.work_nil (w : World) (r : Frame) (trace : ram.trace = [] ++ w.ram.trace) :
    w.work r ram = { w with ram := ram } := by
  rw [World.work, newPassages_eq trace, nil_append, update_eq_self]

theorem ownFrames_same {memory memory' : Memory} (sameKernel : memory' kernel = memory kernel)
    (same : ∀ f ∈ ownFrames memory kernel r, memory' f = memory f) :
    ownFrames memory' kernel r = ownFrames memory kernel r :=
  ownFrames_congr sameKernel fun p g short there => same g (mem_ownFrames.mpr ⟨p, short.le, there⟩)

section

variable (orderly : Orderly kernel w a)
include orderly

/-- Work on one space keeps the others. -/
theorem Orderly.work (isRoot : r ∈ w.roots) (step : Step kernel w.roots r w.ram a [] ram a' [] out) :
    Orderly kernel (w.work r ram) a' := by
  have valid := orderly.valid
  have sameKernel : ram.memory kernel = w.ram.memory kernel := step.elsewhere kernel fun inside => by
    refine valid.notKernel kernel kernel_mem_kernelFrames ?_
    rw [nil_append] at inside ⊢
    rcases mem_append.mp inside with own | available
    · exact mem_append_left _ (mem_spaceFrames isRoot own)
    · exact mem_append_right _ available
  refine ⟨step.valid, fun r' isRoot' => ?_, orderly.active⟩
  have log : (w.work r ram).log = update w.log r (newPassages w.ram ram ++ w.log r) := rfl
  have memory : (w.work r ram).ram.memory = ram.memory := rfl
  rw [log, memory]
  by_cases same : r' = r
  · rw [same, update_self, newPassages_eq step.trace]
    have accounts := step.ledger (w.log r) (by rw [nil_append]; exact orderly.accounts r isRoot)
    rwa [nil_append] at accounts
  · rw [update_of_ne same, ownFrames_same sameKernel fun f mem => step.elsewhere f fun inside => ?_]
    · exact orderly.accounts r' isRoot'
    · rw [nil_append] at inside
      rcases mem_append.mp inside with own | available
      · exact same (valid.owner isRoot' isRoot mem own)
      · exact valid.not_available (mem_append_right [] (mem_spaceFrames isRoot' mem)) available

/-- A new space keeps the others. -/
theorem Orderly.enter (valid' : Valid kernel ram a' (r :: w.roots) []) (trace : ram.trace = out ++ w.ram.trace)
    (ledger : (held out).Perm (ownFrames ram.memory kernel r))
    (elsewhere : ∀ f, f ∉ a.available → ram.memory f = w.ram.memory f) : Orderly kernel (w.enter r ram) a' := by
  have valid := orderly.valid
  refine ⟨valid', fun r' isRoot' => ?_, orderly.active.imp_right (mem_cons_of_mem r)⟩
  have log : (w.enter r ram).log = update w.log r (newPassages w.ram ram) := rfl
  have memory : (w.enter r ram).ram.memory = ram.memory := rfl
  rw [log, memory]
  by_cases same : r' = r
  · rw [same, update_self, newPassages_eq trace]
    exact ledger
  · have isRoot : r' ∈ w.roots := (mem_cons.mp isRoot').resolve_left same
    rw [update_of_ne same, ownFrames_same]
    · exact orderly.accounts r' isRoot
    · exact elsewhere kernel fun available =>
        valid.notKernel kernel kernel_mem_kernelFrames (mem_append_right _ available)
    · exact fun f mem => elsewhere f (valid.not_available (mem_append_right [] (mem_spaceFrames isRoot mem)))

/-- The spaces that are not torn down stay. -/
theorem Orderly.leave (isRoot : r ∈ w.roots) (away : w.active ≠ r) :
    ∃ a', Orderly kernel { w with ram := destroy w.active r w.ram, roots := w.roots.erase r } a' := by
  have valid := orderly.valid
  have stays : w.active = kernel ∨ w.active ∈ w.roots.erase r :=
    orderly.active.imp_right fun isActive => (mem_erase_of_ne away).mpr isActive
  have split : (r :: w.roots.erase r).Perm w.roots := (perm_cons_erase isRoot).symm
  obtain ⟨valid', _, elsewhere⟩ := (valid.perm split (.refl [])).destroy stays
  refine ⟨_, valid', fun r' isRoot' => ?_, stays⟩
  have isRoot'' : r' ∈ w.roots := mem_of_mem_erase isRoot'
  have other : r' ≠ r := fun same => (valid.nodup_roots.mem_erase_iff.mp isRoot').1 same
  dsimp only
  rw [ownFrames_same]
  · exact orderly.accounts r' isRoot''
  · exact elsewhere kernel fun mem => valid.notKernel kernel kernel_mem_kernelFrames
      (mem_append_left _ (mem_append_right [] (mem_spaceFrames isRoot mem)))
  · exact fun f mem => elsewhere f fun own => other (valid.owner isRoot'' isRoot mem own)

theorem Orderly.write (isRoot : r ∈ w.roots) (va : ℕ) (page : Page) :
    Orderly kernel { w with ram := userWrite kernel r va page w.ram } a := by
  have valid := orderly.valid
  rcases userWrite_cases valid isRoot va page with ⟨same, _⟩ | ⟨f, written, there⟩
  · rw [same]
    exact orderly
  · have step := (Step.store valid isRoot (length_pageKey va) there page).1
    rw [written, ← w.work_nil r step.trace]
    exact orderly.work isRoot step

/-- **Every operation keeps the spaces in order.** -/
theorem orderly_of_performed [Mapper] {op : SpaceOp} (ran : op.perform kernel w = some w') :
    ∃ a', Orderly kernel w' a' := by
  have valid := orderly.valid
  cases op with
  | newSharingKernel =>
    obtain ⟨⟨root, ram⟩, made, rfl⟩ := map_eq_some_iff.mp ran
    rcases newSharingKernel_spec valid with ⟨t, ram₁, a₁, made₁, begins⟩ | ⟨failed, _⟩
    · cases made.symm.trans made₁
      have trace : ram.trace = [.out root] ++ w.ram.trace := begins.trace
      refine ⟨a₁, orderly.enter begins.valid trace ?_ fun f notAvailable => ?_⟩
      · rw [begins.frames]
        rfl
      · refine begins.elsewhere f fun same => notAvailable ?_
        rw [begins.first, same]
        exact mem_cons_self
    · cases failed.symm.trans made
  | forkFrom parent =>
    rw [SpaceOp.perform] at ran
    split at ran
    · rename_i isParent
      obtain ⟨⟨child, ram⟩, done, rfl⟩ := map_eq_some_iff.mp ran
      rcases forkFrom_spec valid isParent with ⟨c, ram₁, a₁, out, done₁, forked⟩ | ⟨failed, _⟩
      · cases done.symm.trans done₁
        exact ⟨a₁, orderly.enter forked.valid forked.trace forked.ledger forked.elsewhere⟩
      · cases failed.symm.trans done
    · cases ran
  | mapUserPage root va =>
    rw [SpaceOp.perform] at ran
    split at ran
    · rename_i allowed
      obtain ⟨ram, mapped, rfl⟩ := map_eq_some_iff.mp ran
      rcases mapUserPage_spec valid allowed.1 allowed.2 with
        ⟨leaf, ram₁, a₁, out, mapped₁, adds, _⟩ | ⟨failed, _⟩
      · cases mapped.symm.trans mapped₁
        exact ⟨a₁, orderly.work allowed.1 adds.toStep⟩
      · cases failed.symm.trans mapped
    · cases ran
  | mapActiveUserPage va =>
    rw [SpaceOp.perform] at ran
    split at ran
    · rename_i allowed
      obtain rfl := some.inj ran
      rcases mapActiveUserPage_spec valid allowed.1 allowed.2 with
        ⟨leaf, ram₁, a₁, out, mapped, adds, _⟩ | ⟨ram₁, a₁, out, failed, keeps⟩
      · rw [mapped]
        exact ⟨a₁, orderly.work allowed.1 adds.toStep⟩
      · rw [failed]
        exact ⟨a₁, orderly.work allowed.1 keeps.toStep⟩
    · cases ran
  | unmapActiveUserPage va =>
    rw [SpaceOp.perform] at ran
    split at ran
    · rename_i allowed
      obtain rfl := some.inj ran
      rcases unmapActiveUserPage_spec valid allowed.1 allowed.2 with ⟨a₁, out, removes⟩ | ⟨same, _⟩
      · exact ⟨a₁, orderly.work allowed.1 removes.toStep⟩
      · rw [same]
        exact ⟨a, orderly.work allowed.1 (Step.refl valid)⟩
    · cases ran
  | activate root =>
    rw [SpaceOp.perform] at ran
    split at ran
    · rename_i allowed
      obtain rfl := some.inj ran
      exact ⟨a, valid, orderly.accounts, allowed⟩
    · cases ran
  | write root va page =>
    rw [SpaceOp.perform] at ran
    split at ran
    · rename_i isRoot
      obtain rfl := some.inj ran
      exact ⟨a, orderly.write isRoot va page⟩
    · cases ran
  | destroy root =>
    rw [SpaceOp.perform] at ran
    split at ran
    · rename_i allowed
      obtain rfl := some.inj ran
      exact orderly.leave allowed.1 allowed.2
    · cases ran

end

theorem orderly_of_reached [Mapper] (reached : (spaces kernel).Reached w) : ∃ a, Orderly kernel w a := by
  refine (spaces kernel).invariant (fun w => ∃ a, Orderly kernel w a) ?_ ?_ reached
  · rintro w ⟨noRoots, isKernel, a, valid⟩
    refine ⟨a, noRoots ▸ valid, fun r isRoot => ?_, .inl isKernel⟩
    rw [noRoots] at isRoot
    cases isRoot
  · rintro w w' _ ⟨a, orderly⟩ ⟨op, ran⟩
    exact orderly_of_performed orderly ran

end Orderly

/-- **Teardown conserves frames.** In every run, `destroy` of a space that is not active, whether the kernel's
tables are active or those of another space, gives back exactly the frames that were allocated for the space
and not returned before, each once, and none of the kernel's. -/
theorem teardown_conserves_frames [Mapper] {kernel : Frame} {w : World} {r : Frame}
    (reached : (spaces kernel).Reached w) (isRoot : r ∈ w.roots) (inactive : w.active ≠ r) :
    ∃ given : List Frame, (destroy w.active r w.ram).trace = (given.map Passage.back).reverse ++ w.ram.trace ∧
      given.Perm (held (w.log r)) ∧ given.Nodup ∧ ∀ f ∈ given, f ∉ kernelFrames w.ram.memory kernel := by
  obtain ⟨a, valid, accounts, active⟩ := orderly_of_reached reached
  refine ⟨ownFrames w.ram.memory kernel r, ?_, (accounts r isRoot).symm, ?_, fun f mem isKernel => ?_⟩
  · rw [destroy_eq valid isRoot (active.imp_right fun isActive => ⟨isActive, inactive⟩), giveAll_trace]
  · exact (nodup_flatMap.mp valid.nodup_spaces).1 r isRoot
  · exact valid.notKernel f isKernel (mem_append_left _ (mem_append_right [] (mem_spaceFrames isRoot mem)))

/-- **Address spaces are isolated.** In every run, a frame that the tables of a space lead to, outside those of
the kernel, is reached by one way only, is none of the kernel's, belongs to no other space and is not the one
that the allocator hands out next. And whatever is written through any of the spaces, at each address of a
space there is what its own writes make of it. -/
theorem spaces_isolated [Mapper] {kernel : Frame} {w : World} (reached : (spaces kernel).Reached w) :
    (∀ r ∈ w.roots, (ownFrames w.ram.memory kernel r).Nodup) ∧
    (∀ r ∈ w.roots, ∀ f ∈ ownFrames w.ram.memory kernel r, f ∉ kernelFrames w.ram.memory kernel ∧
      (∀ r' ∈ w.roots, f ∈ ownFrames w.ram.memory kernel r' → r' = r) ∧ w.ram.allocateFrame.1 ≠ some f) ∧
    ∀ r ∈ w.roots, ∀ writes : List UserWrite, (∀ x ∈ writes, x.root ∈ w.roots) → ∀ va,
      userView (userWrites kernel writes w.ram).memory kernel r va =
        userView (userWrites kernel (writes.filter fun x => x.root = r) w.ram).memory kernel r va := by
  obtain ⟨a, valid, -, -⟩ := orderly_of_reached reached
  refine ⟨(nodup_flatMap.mp valid.nodup_spaces).1, fun r isRoot f mem => ⟨fun isKernel => ?_,
    fun r' isRoot' theirs => valid.owner isRoot' isRoot theirs mem, fun next => ?_⟩,
    fun r isRoot writes theirs va => ((userWrites_alike (.refl valid) isRoot theirs).view isRoot va).symm⟩
  · exact valid.notKernel f isKernel (mem_append_left _ (mem_append_right [] (mem_spaceFrames isRoot mem)))
  · obtain ⟨a', first, -⟩ := valid.allocate (Prod.ext next rfl)
    exact valid.not_available (mem_append_right [] (mem_spaceFrames isRoot mem)) (first ▸ mem_cons_self)

/-- A space with one page, while another one is active. -/
theorem exists_twoSpaces : ∃ w first second, (spaces 100).Reached w ∧ first ∈ w.roots ∧ second ∈ w.roots ∧
    w.active = second ∧ second ≠ first ∧ userPage w.ram.memory 100 first 0x7F8010000000 ≠ none := by
  obtain ⟨first, ram₀, ram₁, a₁, made, empty, mapped, valid, pages, enough⟩ := exists_onePage
  have isFirst : first ∈ [first] := mem_cons_self
  rcases newSharingKernel_spec valid with ⟨second, ram₂, a₂, made₂, begins⟩ | ⟨_, exhausted⟩
  · let start : World := ⟨smallRam, 100, [], fun _ => []⟩
    let before := ((start.enter first ram₀).work first ram₁).enter second ram₂
    have makes (w : World) {root : Frame} {ram : Ram} (made : newSharingKernel 100 w.ram = some (root, ram)) :
        SpaceOp.perform 100 .newSharingKernel w = some (w.enter root ram) := by
      rw [SpaceOp.perform, made]
      rfl
    have maps (w : World) {va : ℕ} {ram : Ram} (isRoot : first ∈ w.roots) (absent : w.Absent 100 va)
        (mapped : mapUserPage first va w.ram = some ram) :
        SpaceOp.perform 100 (.mapUserPage first va) w = some (w.work first ram) := by
      rw [SpaceOp.perform, if_pos ⟨isRoot, absent⟩, mapped]
      rfl
    have begun : (spaces 100).Reached (start.enter first ram₀) := by
      obtain ⟨a, valid, _⟩ := smallRam_valid
      exact .step (.start ⟨rfl, rfl, a, valid⟩ : (spaces 100).Reached start) ⟨_, makes start made⟩
    have filled : (spaces 100).Reached ((start.enter first ram₀).work first ram₁) :=
      begun.step ⟨_, maps _ isFirst empty mapped⟩
    have joined : (spaces 100).Reached before := filled.step ⟨_, makes _ made₂⟩
    have reached : (spaces 100).Reached { before with active := second } :=
      joined.step ⟨.activate second, if_pos (.inr mem_cons_self)⟩
    have isRoot : first ∈ before.roots := mem_cons_of_mem second isFirst
    have other : first ≠ second := fun same =>
      (nodup_cons.mp begins.valid.nodup_roots).1 (same ▸ isFirst)
    have page : userPage ram₂.memory 100 first 0x7F8010000000 ≠ none := by
      rw [begins.valid.userPage_eq isRoot, (begins.others valid isFirst).1 _ (length_pageKey _).le,
        ← valid.userPage_eq isFirst]
      exact (pages _).mpr rfl
    exact ⟨_, first, second, reached, isRoot, mem_cons_self, rfl, other.symm, page⟩
  · rw [exhausted] at enough
    exact absurd (length_pos_of_mem root_mem_ownFrames) (Nat.not_lt_of_le enough)

/-- The space with one page is torn down. -/
theorem teardown_conserves_frames_twoSpaces : ∃ w first second, (spaces 100).Reached w ∧ first ∈ w.roots ∧
    w.active = second ∧ second ≠ first ∧ userPage w.ram.memory 100 first 0x7F8010000000 ≠ none ∧
    ∃ given : List Frame, (destroy second first w.ram).trace = (given.map Passage.back).reverse ++ w.ram.trace ∧
      given.Perm (held (w.log first)) := by
  obtain ⟨w, first, second, reached, isRoot, -, rfl, other, page⟩ := exists_twoSpaces
  obtain ⟨given, trace, exact, -⟩ := teardown_conserves_frames reached isRoot other
  exact ⟨w, first, w.active, reached, isRoot, rfl, other, page, given, trace, exact⟩

/-- The other space writes to the address at which the first one has its page. -/
theorem spaces_isolated_twoSpaces : ∃ w first second, (spaces 100).Reached w ∧ first ∈ w.roots ∧
    userView w.ram.memory 100 first 0x7F8010000000 ≠ none ∧ ∀ page : Page,
      userView (userWrites 100 [⟨second, 0x7F8010000000, page⟩] w.ram).memory 100 first 0x7F8010000000 =
        userView w.ram.memory 100 first 0x7F8010000000 := by
  obtain ⟨w, first, second, reached, isRoot, isOther, -, other, page⟩ := exists_twoSpaces
  refine ⟨w, first, second, reached, isRoot, fun none => page (map_eq_none_iff.mp none), fun new => ?_⟩
  have alone := (spaces_isolated reached).2.2 first isRoot [⟨second, 0x7F8010000000, new⟩]
    (fun x mem => by rw [mem_singleton.mp mem]; exact isOther) 0x7F8010000000
  rwa [filter_cons_of_neg (by simpa using other), filter_nil] at alone

end Ferros.Mm
