/-
**`write_file` is all or nothing.**

Whatever requests the device fails, a `write_file` that returns an error has left every path as it
was, and one that returns `Ok` has replaced its target and nothing else. Both are stated of what the
image shows afterwards when it is read with a working device (`answer`, `shown`).

* `writeFile_all_or_nothing` — **the two outcomes of `write_file`** under any fault schedule.
-/

import Ferros.Fat.Refinement

namespace Ferros.Fat

open Lib List Function

/-- What a method returns on a working device that holds the image. -/
def answer {α : Type} (m : FatM α) (disk : Disk) : Except FatError α :=
  (exec m (Device.start disk fun _ _ => none)).1

/-- The image that a method leaves on a working device. -/
def leaves {α : Type} (m : FatM α) (disk : Disk) : Disk :=
  (exec m (Device.start disk fun _ _ => none)).2.disk

namespace Fat32

variable {vol : Fat32} {disk disk' : Disk} {dir : ℕ} {names : List Name} {α : Type} {path : Bytes}

/-! ### Images that agree on the owned clusters -/

section

variable (inv : vol.Consistent disk) (agree : vol.AgreeOn (vol.Owned disk) disk disk')
include inv agree

section

variable (isDir : vol.DirAt disk names dir)
include isDir

theorem Consistent.findOn_frame (name : Name) :
    findOn disk' (vol.slots disk' dir) name = findOn disk (vol.slots disk dir) name := by
  obtain ⟨sameSlots, sameContent⟩ := inv.slots_frame agree isDir
  rw [sameSlots, findOn_congr sameContent]

theorem Consistent.entryFrom_frame (comps : List Bytes) :
    vol.entryFrom disk' dir comps = vol.entryFrom disk dir comps := by
  induction comps generalizing names dir with
  | nil => rfl
  | cons comp rest ih =>
    have search := inv.findOn_frame agree isDir (shortName83 comp)
    cases rest with
    | nil => rw [entryFrom_singleton, entryFrom_singleton, search]
    | cons second rest =>
      rw [entryFrom_cons, entryFrom_cons, search]
      cases found : findOn disk (vol.slots disk dir) (shortName83 comp) with
      | none => rfl
      | some p =>
        have mem := mem_children_of_findOn found
        simp only [inv.slotAt_frame agree (isDir.reachable mem)]
        split
        · exact ih (.child isDir mem ‹_›)
        · rfl

theorem Consistent.listing_frame : vol.listing disk' dir = vol.listing disk dir := by
  unfold listing
  rw [inv.live_frame agree isDir]
  refine map_congr_left fun p mem => ?_
  rw [(inv.slots_frame agree isDir).2 p (mem_of_mem_liveOn mem)]

end

theorem Consistent.bind_frame {before after : Pos → Except FatError α}
    (same : ∀ p parent dir, vol.DirAt disk parent dir → p ∈ vol.children disk dir → after p = before p) :
    (vol.entryFrom disk' vol.rootCluster (components path)).bind after =
      (vol.entryFrom disk vol.rootCluster (components path)).bind before := by
  rw [inv.entryFrom_frame agree .root]
  cases found : vol.entryFrom disk vol.rootCluster (components path) with
  | error e => rfl
  | ok p =>
    obtain ⟨parent, dir, isDir, mem, _⟩ := entryFrom_ok found
    exact same p parent dir isDir mem

theorem Consistent.readFileOn_frame (path : Bytes) : vol.readFileOn disk' path = vol.readFileOn disk path := by
  refine inv.bind_frame agree fun p parent dir isDir mem => ?_
  rw [inv.slotAt_frame agree (isDir.reachable mem), inv.contentAt_frame agree (isDir.reachable mem)]

/-- **Images that agree on the owned clusters** show the same at every path. -/
theorem Consistent.lookupOn_frame (path : Bytes) : vol.lookupOn disk' path = vol.lookupOn disk path := by
  unfold lookupOn
  rw [inv.listing_frame agree .root]
  split
  · rfl
  · refine inv.bind_frame agree fun p parent dir isDir mem => ?_
    rw [inv.slotAt_frame agree (isDir.reachable mem), inv.contentAt_frame agree (isDir.reachable mem)]
    split
    · rw [inv.listing_frame agree (.child isDir mem ‹_›)]
    · rfl

theorem Consistent.statOn_frame (path : Bytes) : vol.statOn disk' path = vol.statOn disk path := by
  unfold statOn
  split
  · rfl
  · refine inv.bind_frame agree fun p parent dir isDir mem => ?_
    rw [inv.slotAt_frame agree (isDir.reachable mem)]

end

/-! ### What a path shows -/

variable (vol) in
/-- The kind and the content of a path, as `lookup` reports them on a working device. -/
def shown (disk : Disk) (path : Bytes) : Option TreeNode :=
  match answer (vol.lookup path) disk with
  | .ok (.file content) => some (.file content)
  | .ok (.dir _) => some .dir
  | .error _ => none

theorem answer_of_reads {m : FatM α} {outcome : Except FatError α}
    (reads : Reads True m disk outcome) : answer m disk = outcome := by
  let dev : Device Sector BlkError := Device.start disk fun _ _ => none
  have runs : Reads True m dev.disk outcome := reads
  exact (runs.exec_eq fun _ _ => rfl).1

/-- **What a path shows is the node of the tree.** -/
theorem WellFormed.shown_eq (wf : vol.WellFormed disk) (path : Bytes) :
    vol.shown disk path = vol.treeOf disk (namesOf path) := by
  unfold shown
  rw [answer_of_reads (wf.reads_lookup path), wf.treeOf_lookupOn path]
  rfl

theorem Consistent.readFileOn_of_file (inv : vol.Consistent disk) {content : Bytes}
    (file : vol.treeOf disk (namesOf path) = some (.file content)) :
    vol.readFileOn disk path = .ok content := by
  have named : components path ≠ [] := by
    intro none
    rw [namesOf, none, map_nil, inv.treeOf_dir .root] at file
    cases file
  have right := inv.readFileOn_answer named
  cases outcome : vol.readFileOn disk path with
  | error e =>
    rw [outcome] at right
    rcases right with ⟨isDir, _⟩ | missing
    · rw [Tree.resolve_eq_ok isDir] at file
      cases file
    · rw [Tree.resolve_eq_error missing] at file
      cases file
  | ok content' =>
    rw [outcome] at right
    rw [Tree.resolve_eq_ok right] at file
    cases file
    rfl

/-! ### All or nothing -/

/-- **`write_file` is all or nothing.** Under every fault schedule: if it returns an error, then on
the image it leaves every path is looked up, read and statted as before; if it returns `Ok`, the
target reads back as the data and every other path shows what it showed before. -/
theorem writeFile_all_or_nothing (wf : vol.WellFormed disk) (path data : Bytes)
    (plain : PlainPath path) (small : data.length < 2 ^ 32)
    (notDir : vol.shown disk path ≠ some .dir) (fault : ℕ → ℕ → Option BlkError) :
    match exec (vol.writeFile path data) (Device.start disk fault) with
    | (.error _, dev) => ∀ path',
        answer (vol.lookup path') dev.disk = answer (vol.lookup path') disk ∧
        answer (vol.readFile path') dev.disk = answer (vol.readFile path') disk ∧
        answer (vol.stat path') dev.disk = answer (vol.stat path') disk
    | (.ok _, dev) => answer (vol.readFile path) dev.disk = .ok data ∧
        ∀ path', namesOf path' ≠ namesOf path →
          vol.shown dev.disk path' = vol.shown disk path' := by
  have inv := wf.toConsistent
  rw [wf.shown_eq] at notDir
  have runs : Runs False _ (vol.writeFile path data) disk _ _ :=
    runs_writeFile inv (used_of_clean plain.clean) data
  obtain ⟨_, _, outcome⟩ := runs (Device.start disk fault) rfl False.elim
  revert outcome
  cases exec (vol.writeFile path data) (Device.start disk fault) with
  | mk result dev =>
    cases result with
    | error e =>
      rintro ⟨agree, _⟩ path'
      have consistent' := inv.frame agree
      rw [answer_of_reads (inv.reads_lookup path'), answer_of_reads (consistent'.reads_lookup path'),
        answer_of_reads (inv.reads_readFile path'), answer_of_reads (consistent'.reads_readFile path'),
        answer_of_reads (reads_stat path'), answer_of_reads (reads_stat path')]
      exact ⟨inv.lookupOn_frame agree path', inv.readFileOn_frame agree path', inv.statOn_frame agree path'⟩
    | ok _ =>
      rintro ⟨write, agree, _⟩
      obtain ⟨after, spec⟩ := write.refines wf plain small notDir
      have wellFormed' := after.frame agree
      have changed := (after.treeOf_frame agree).trans spec
      constructor
      · rw [answer_of_reads (wellFormed'.reads_readFile path)]
        refine wellFormed'.readFileOn_of_file ?_
        rw [changed, update_self]
      · intro path' other
        rw [wellFormed'.shown_eq, wf.shown_eq, changed, update_of_ne other]

/-- Writing the file `A` on the small volume, with the fourth request failing and without faults. -/
theorem writeFile_all_or_nothing_small :
    answer (smallVolume.lookup [0x41]) (exec (smallVolume.writeFile [0x41] [1])
        (Device.start smallDisk fun n _ => if n = 3 then some (.deviceError 1) else none)).2.disk =
      answer (smallVolume.lookup [0x41]) smallDisk ∧
    answer (smallVolume.readFile [0x41]) (exec (smallVolume.writeFile [0x41] [1])
        (Device.start smallDisk fun _ _ => none)).2.disk = .ok [1] :=
  have allowed : PlainPath [0x41] ∧ smallVolume.shown smallDisk [0x41] ≠ some .dir := by
    decide +kernel
  ⟨(writeFile_all_or_nothing smallDisk_wellFormed [0x41] [1] allowed.1 (by decide) allowed.2
      (fun n _ => if n = 3 then some (.deviceError 1) else none) [0x41]).1,
    (writeFile_all_or_nothing smallDisk_wellFormed [0x41] [1] allowed.1 (by decide) allowed.2
      fun _ _ => none).1⟩

end Fat32

end Ferros.Fat
