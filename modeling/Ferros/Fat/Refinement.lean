/-
**The driver refines the directory tree.**

On a well-formed volume every operation that succeeds changes the tree as specified (`Op.Spec`) and
leaves a well-formed volume behind; what the reading methods answer is the tree's
(`Ferros.Fat.Query`).

* `FileWrite.refines`, `DirMake.refines`, `Removal.refines` — the change each operation makes, on the
  tree. These do not depend on whether the device works.
* `refines_tree` — **the refinement**, operations and queries together, on a working device.
-/

import Ferros.Fat.Query
import Ferros.Fat.Crash

namespace Ferros.Fat

open Lib List Option Function Bool

/-- The calls the refinement is about. -/
def Op.Admissible (tree : Tree) : Op → Prop
  | .writeFile path data =>
    PlainPath path ∧ data.length < 2 ^ 32 ∧ tree (namesOf path) ≠ some .dir
  | .mkdir path => PlainPath path
  | .unlink path => PlainPath path
  | .rmdir path => PlainPath path

/-- **What each operation does to the tree.** -/
def Op.Spec (tree tree' : Tree) : Op → Prop
  | .writeFile path data => tree' = update tree (namesOf path) (some (.file data))
  | .mkdir path => tree (namesOf path) = none ∧ (∀ name, tree' (namesOf path ++ [name]) = none) ∧
      tree' = update tree (namesOf path) (some .dir)
  | .unlink path => (∃ content, tree (namesOf path) = some (.file content)) ∧
      tree' = update tree (namesOf path) none
  | .rmdir path => tree (namesOf path) = some .dir ∧ (∀ name, tree (namesOf path ++ [name]) = none) ∧
      tree' = update tree (namesOf path) none

namespace Fat32

variable {vol : Fat32} {disk disk' mid : Disk} {slot : Slot} {name : Name} {names : List Name} {dir : ℕ}
  {comp data : Bytes} {p : Pos} {kind : Bool}

/-! ### Well-formed volumes -/

/-- Writes outside the owned clusters keep a volume well-formed. -/
theorem WellFormed.frame (wf : vol.WellFormed disk) (agree : vol.AgreeOn (vol.Owned disk) disk disk') :
    vol.WellFormed disk' where
  toConsistent := wf.toConsistent.frame agree
  printed p reachable' := by
    have reachable := (wf.reachable_frame agree).mp reachable'
    rw [wf.slotAt_frame agree reachable]
    exact wf.printed p reachable
  sizes p reachable' file := by
    have reachable := (wf.reachable_frame agree).mp reachable'
    rw [wf.slotAt_frame agree reachable] at file ⊢
    rw [wf.chainAt_frame agree reachable]
    exact wf.sizes p reachable file

/-- A name that prints neither as `.` nor as `..`. -/
def NotDots (name : Name) : Prop := name83ToString name ≠ ['.'] ∧ name83ToString name ≠ ['.', '.']

instance (name : Name) : Decidable (NotDots name) := inferInstanceAs (Decidable (_ ∧ _))

variable {path : List Name}

/-- A commit keeps a volume well-formed if the new entry is. -/
theorem WellFormed.putSlot (wf : vol.WellFormed disk)
    (write : vol.SlotWrite disk path dir p slot) (printed : liveSlot slot → NotDots (nameOf slot))
    (sizes : liveSlot slot → isDirOf slot = false →
      sizeOf slot ≤ (vol.chain disk (firstClusterOf slot)).length * vol.clusterBytes) :
    vol.WellFormed (putSlot disk p slot) where
  toConsistent := wf.toConsistent.putSlot write
  printed q reachable' := by
    rcases write.reachable_after wf.toConsistent reachable' with
      ⟨rfl, isLive, _⟩ | ⟨ne, was⟩
    · rw [slotAt_putSlot_same]
      exact printed isLive
    · rw [slotAt_putSlot_other ne]
      exact wf.printed q was
  sizes q reachable' file := by
    rcases write.reachable_after wf.toConsistent reachable' with
      ⟨rfl, isLive, _⟩ | ⟨ne, was⟩
    · rw [slotAt_putSlot_same] at file ⊢
      rw [write.chainAt_same wf.toConsistent]
      exact sizes isLive file
    · rw [slotAt_putSlot_other ne] at file ⊢
      rw [write.chainAt_other wf.toConsistent ne]
      exact wf.sizes q was file

/-- What is above a node of the tree is a directory. -/
theorem Consistent.treeOf_parent (inv : vol.Consistent disk) (present : vol.treeOf disk (path ++ [name]) ≠ none)
    : vol.treeOf disk path = some .dir := by
  obtain ⟨node, found⟩ := ne_none_iff_exists'.mp present
  have nodeAt := inv.treeOf_eq_some_iff.mp found
  cases node with
  | dir =>
    obtain ⟨dir, isDir⟩ := nodeAt
    obtain ⟨dir', isDir'⟩ := isDir.of_prefix (prefix_append path [name])
    exact inv.treeOf_dir isDir'
  | file content =>
    obtain ⟨parent, dir, p, isDir, _, _, same, _⟩ := nodeAt
    rw [(append_inj' same rfl).1]
    exact inv.treeOf_dir isDir

/-- A node of the tree below the root has its entry in the directory above. -/
theorem Consistent.exists_child_of_treeOf (inv : vol.Consistent disk)
    (present : vol.treeOf disk (path ++ [name]) ≠ none) :
    ∃ dir p, vol.DirAt disk path dir ∧ p ∈ vol.children disk dir ∧ nameOf (slotAt disk p) = name := by
  obtain ⟨dir, isDir⟩ := inv.treeOf_eq_some_iff.mp (inv.treeOf_parent present)
  cases found : vol.childAt disk dir name with
  | none => exact absurd (inv.treeOf_below_none isDir found []) present
  | some p =>
    obtain ⟨mem, named⟩ := (inv.childAt_eq_some isDir).mp found
    exact ⟨dir, p, isDir, mem, named⟩

/-- What is in the tree of a well-formed volume prints neither as `.` nor as `..`. -/
theorem WellFormed.notDots (wf : vol.WellFormed disk) (present : vol.treeOf disk (path ++ [name]) ≠ none) :
    NotDots name := by
  obtain ⟨dir, p, isDir, mem, rfl⟩ := wf.exists_child_of_treeOf present
  exact wf.printed p (isDir.reachable mem)

/-! ### The change of the tree -/

section

variable (inv : vol.Consistent disk) (change : vol.Change disk)
include inv

theorem Change.nodeWrite (target : vol.Target disk change.names change.dir name change.p)
    (old : change.p ∈ vol.children disk change.dir → nameOf (slotAt disk change.p) = name)
    (new : liveSlot change.slot → nameOf change.slot = name ∧ dotSlot change.slot = false)
    (empty : change.p ∈ vol.children disk change.dir → isDirOf (slotAt disk change.p) →
      vol.children disk (firstClusterOf (slotAt disk change.p)) = []) :
    vol.NodeWrite change.mid change.names change.dir change.p change.slot name where
  toSlotWrite := change.write
  old wasChild := by
    rw [inv.children_frame change.before target.isDir] at wasChild
    rw [change.slotAt_mid inv]
    exact old wasChild
  others q mem ne := by
    rw [inv.children_frame change.before target.isDir] at mem
    rw [inv.slotAt_frame change.before (target.isDir.reachable mem)]
    exact target.fresh q (mem_of_mem_filter mem) ne
  new := new
  empty wasChild flag := by
    rw [inv.children_frame change.before target.isDir] at wasChild
    rw [change.slotAt_mid inv] at flag ⊢
    rw [inv.children_frame change.before (.child target.isDir wasChild flag)]
    exact empty wasChild flag

theorem Change.treeOf_after (write : vol.NodeWrite change.mid change.names change.dir change.p change.slot name)
    : vol.treeOf change.after = update (vol.treeOf disk) (change.names ++ [name])
      (vol.treeOf change.after (change.names ++ [name])) := by
  have committed := write.treeOf_putSlot (change.consistent_mid inv)
  rw [inv.treeOf_frame change.before] at committed
  exact committed

end

section Located

variable
  (located : findOn disk (vol.slots disk dir) (shortName83 comp) = some p ∨
    (findOn disk (vol.slots disk dir) (shortName83 comp) = none ∧ freeOn disk (vol.slots disk dir) = some p))
include located

theorem target_of_located (inv : vol.Consistent disk) (isDir : vol.DirAt disk names dir) :
    vol.Target disk names dir (shortName83 comp) p := by
  rcases located with search | ⟨search, free⟩
  · exact target_of_findOn inv isDir search
  · exact target_of_freeOn isDir search free

theorem name_of_located (wasChild : p ∈ vol.children disk dir) : nameOf (slotAt disk p) = shortName83 comp := by
  rcases located with search | ⟨_, free⟩
  · exact (findOn_some search).2
  · exact absurd wasChild (not_mem_children_of_freeOn free)

end Located

theorem dotSlot_of_shortName83 (named : nameOf slot = shortName83 comp) :
    dotSlot slot = false := by
  unfold dotSlot
  rw [named, beq_eq_false_iff_ne.mpr (shortName83_ne_dot comp),
    beq_eq_false_iff_ne.mpr (shortName83_ne_dotdot comp)]
  rfl

/-! ### `write_file` -/

section

variable (small : data.length < 2 ^ 32)
include small

theorem clustersFor_eq : vol.clustersFor data = (data.length + vol.clusterBytes - 1) / vol.clusterBytes := by
  have positive := vol.clusterBytes_pos
  refine Nat.mod_eq_of_lt (lt_of_le_of_lt ?_ small)
  cases data.length with
  | zero => rw [Nat.zero_add, Nat.div_eq_of_lt (by omega)]
  | succ n =>
    refine Nat.div_le_of_le_mul ?_
    have grows : n ≤ vol.clusterBytes * n := Nat.le_mul_of_pos_left _ positive
    rw [Nat.mul_succ]
    omega

theorem length_le_clustersFor : data.length ≤ vol.clustersFor data * vol.clusterBytes := by
  have positive := vol.clusterBytes_pos
  rw [clustersFor_eq small]
  have cover := Nat.lt_div_mul_add (a := data.length + vol.clusterBytes - 1) positive
  omega

/-- **New content reads back as the data.** -/
theorem NewContent.holds (sound : vol.Sound) {first : ℕ} (new : vol.NewContent disk data first mid) :
    (vol.chain mid first).length = vol.clustersFor data ∧
      (vol.bytesOn mid (vol.chain mid first)).take data.length = data := by
  have enough : data.length ≤ vol.clustersFor data * vol.clusterBytes := length_le_clustersFor small
  rcases new with ⟨none, rfl, _⟩ | ⟨l, linked, length, built, rfl, agree, bytes⟩
  · rw [none, Nat.zero_mul] at enough
    have noData : data = [] := eq_nil_of_length_eq_zero (Nat.le_zero.mp enough)
    rw [chain_of_invalid not_valid_zero, none, noData]
    exact ⟨rfl, rfl⟩
  · rw [(built.isChain_data sound agree).chain_eq sound, bytes, length]
    exact ⟨rfl, take_of_length_le enough⟩

end

section FileWrite

variable {path : Bytes} (write : vol.FileWrite disk path data) (plain : PlainPath path)

include plain in
theorem FileWrite.plain_name : Plain write.name := by
  obtain ⟨_, _, mem, _⟩ := resolveOn_dirAt .root write.resolved
  exact plain _ mem

include plain in
theorem FileWrite.slot_live : liveSlot write.slot := by
  obtain ⟨notDeleted, used⟩ := (write.plain_name plain).zero_ne
  rw [write.slot_eq]
  exact (liveSlot_fill (by decide) used).mpr notDeleted

theorem FileWrite.nameOf_slot : nameOf write.slot = shortName83 write.name := by
  rw [write.slot_eq, nameOf_fillDirEntry]

theorem FileWrite.not_isDirOf_slot : isDirOf write.slot = false := by
  rw [write.slot_eq, isDirOf_archive]

theorem FileWrite.sizeOf_slot (small : data.length < 2 ^ 32) : sizeOf write.slot = data.length := by
  rw [write.slot_eq, sizeOf_fillDirEntry, Nat.mod_mod, Nat.mod_eq_of_lt small]

theorem FileWrite.firstClusterOf_slot (sound : vol.Sound) : firstClusterOf write.slot = write.first := by
  rw [write.slot_eq, firstClusterOf_fillDirEntry _ _ _ _ _ (write.content.first_lt sound)]

theorem FileWrite.target (inv : vol.Consistent disk) :
    vol.Target disk write.names write.dir (shortName83 write.name) write.p :=
  target_of_located write.located inv (write.isDir inv)

theorem FileWrite.nodeWrite (inv : vol.Consistent disk) (notDir : vol.treeOf disk (namesOf path) ≠ some .dir) :
    vol.NodeWrite write.mid write.names write.dir write.p write.slot (shortName83 write.name) := by
  have named := name_of_located write.located
  refine write.toChange.nodeWrite inv (write.target inv) named
    (fun _ => ⟨write.nameOf_slot, dotSlot_of_shortName83 write.nameOf_slot⟩) fun wasChild flag => ?_
  refine absurd (inv.treeOf_dir (.child (write.isDir inv) wasChild flag)) ?_
  rw [named wasChild, ← write.path_eq]
  exact notDir

theorem FileWrite.wellFormed_after (wf : vol.WellFormed disk) (small : data.length < 2 ^ 32)
    (prints : NotDots (shortName83 write.name)) : vol.WellFormed write.after := by
  have sound := wf.toConsistent.sound
  refine (wf.frame write.before).putSlot write.write (fun _ => ?_) fun _ _ => ?_
  · rw [write.nameOf_slot]
    exact prints
  · rw [write.sizeOf_slot small, write.firstClusterOf_slot sound, (write.content.holds small sound).1]
    exact length_le_clustersFor small

/-- **`write_file` on the tree.** -/
theorem FileWrite.refines (wf : vol.WellFormed disk) (plain : PlainPath path) (small : data.length < 2 ^ 32)
    (notDir : vol.treeOf disk (namesOf path) ≠ some .dir) :
    vol.WellFormed write.after ∧ (Op.writeFile path data).Spec (vol.treeOf disk) (vol.treeOf write.after) := by
  have inv := wf.toConsistent
  have sound := inv.sound
  obtain ⟨_, bytes⟩ := write.content.holds small sound
  have nodeWrite := write.nodeWrite inv notDir
  constructor
  · exact write.wellFormed_after wf small (write.plain_name plain).prints
  · have node : vol.treeOf write.after (write.names ++ [shortName83 write.name]) =
        some (.file data) := by
      rw [← write.nameOf_slot]
      refine (write.write.treeOf_live (write.consistent_mid inv) (write.slot_live plain)
        (dotSlot_of_shortName83 write.nameOf_slot)).trans ?_
      rw [write.not_isDirOf_slot, write.sizeOf_slot small, write.firstClusterOf_slot sound, bytes]
      rfl
    have changed := write.treeOf_after inv nodeWrite
    rw [node, ← write.path_eq] at changed
    exact changed

end FileWrite

/-! ### `mkdir` -/

section

variable {path : Bytes} (make : vol.DirMake disk path)

theorem DirMake.nameOf_slot : nameOf make.slot = shortName83 make.name := by
  rw [make.slot_eq, nameOf_fillDirEntry]

theorem DirMake.isDirOf_slot : isDirOf make.slot := by
  rw [make.slot_eq, isDirOf_directory]

theorem DirMake.nodeWrite (inv : vol.Consistent disk) :
    vol.NodeWrite make.mid make.names make.dir make.p make.slot (shortName83 make.name) := by
  have located : findOn disk (vol.slots disk make.dir) (shortName83 make.name) = some make.p ∨
      (findOn disk (vol.slots disk make.dir) (shortName83 make.name) = none ∧
        freeOn disk (vol.slots disk make.dir) = some make.p) := .inr ⟨make.absent, make.located⟩
  exact make.toChange.nodeWrite inv
    (target_of_located located inv (make.isDir inv)) (name_of_located located)
    (fun _ => ⟨make.nameOf_slot, dotSlot_of_shortName83 make.nameOf_slot⟩)
    fun wasChild => absurd wasChild (not_mem_children_of_freeOn make.located)

include make in
/-- The name was not taken. -/
theorem DirMake.treeOf_before (inv : vol.Consistent disk) : vol.treeOf disk (namesOf path) = none := by
  have missing : vol.childAt disk make.dir (shortName83 make.name) = none :=
    (childAt_eq_findOn _ _).trans make.absent
  have below := inv.treeOf_below_none (make.isDir inv) missing []
  rw [← make.path_eq] at below
  exact below

theorem DirMake.plain_name (plain : PlainPath path) : Plain make.name := by
  obtain ⟨_, _, mem, _⟩ := resolveOn_dirAt .root make.resolved
  exact plain _ mem

theorem DirMake.slot_live (plain : PlainPath path) : liveSlot make.slot := by
  obtain ⟨notDeleted, used⟩ := (make.plain_name plain).zero_ne
  rw [make.slot_eq]
  exact (liveSlot_fill (by decide) used).mpr notDeleted

theorem DirMake.wellFormed_after (wf : vol.WellFormed disk) (prints : NotDots (shortName83 make.name)) :
    vol.WellFormed make.after := by
  refine (wf.frame make.before).putSlot make.write (fun _ => ?_) fun _ file => ?_
  · rw [make.nameOf_slot]
    exact prints
  · rw [make.isDirOf_slot] at file
    cases file

/-- **`mkdir` on the tree.** -/
theorem DirMake.refines (wf : vol.WellFormed disk) (plain : PlainPath path) :
    vol.WellFormed make.after ∧ (Op.mkdir path).Spec (vol.treeOf disk) (vol.treeOf make.after) := by
  have inv := wf.toConsistent
  have absent := make.treeOf_before inv
  constructor
  · exact make.wellFormed_after wf (make.plain_name plain).prints
  · have nodeWrite := make.nodeWrite inv
    have node : vol.treeOf make.after (make.names ++ [shortName83 make.name]) = some .dir := by
      rw [← make.nameOf_slot]
      refine (make.write.treeOf_live (make.consistent_mid inv) (make.slot_live plain)
        (dotSlot_of_shortName83 make.nameOf_slot)).trans ?_
      rw [make.isDirOf_slot]
      rfl
    have changed := make.treeOf_after inv nodeWrite
    rw [node, ← make.path_eq] at changed
    refine ⟨absent, fun name => ?_, changed⟩
    have other : namesOf path ++ [name] ≠ namesOf path := by simp
    rw [changed]
    refine (update_of_ne other _ _).trans ?_
    by_contra present
    rw [inv.treeOf_parent present] at absent
    cases absent

end

/-! ### `unlink` and `rmdir` -/

section

variable {path : Bytes} (gone : vol.Removal disk path kind)

theorem Removal.treeOf_before (inv : vol.Consistent disk) :
    vol.treeOf disk (namesOf path) = some (vol.nodeOf disk gone.p) := by
  have found := inv.treeOf_child (gone.isDir inv) gone.wasChild
  rw [(findOn_some gone.located).2, ← gone.path_eq] at found
  exact found

theorem Removal.slot_dead : liveSlot gone.slot = false := by
  rw [gone.slot_eq]
  exact not_liveSlot_deleted _

theorem Removal.nodeWrite (inv : vol.Consistent disk)
    (empty : isDirOf (slotAt disk gone.p) → vol.children disk (firstClusterOf (slotAt disk gone.p)) = []) :
    vol.NodeWrite gone.mid gone.names gone.dir gone.p gone.slot (shortName83 gone.name) :=
  gone.toChange.nodeWrite inv
    (target_of_findOn inv (gone.isDir inv) gone.located)
    (fun _ => (findOn_some gone.located).2)
    (fun isLive => absurd isLive (eq_false_iff.mp gone.slot_dead)) fun _ => empty

theorem Removal.wellFormed_after (wf : vol.WellFormed disk) : vol.WellFormed gone.after := by
  have notLive : ¬ liveSlot gone.slot := eq_false_iff.mp gone.slot_dead
  exact (wf.frame gone.before).putSlot gone.write (fun isLive => absurd isLive notLive)
    fun isLive => absurd isLive notLive

/-- **A removal on the tree**: a directory that is removed must be empty. -/
theorem Removal.refines (wf : vol.WellFormed disk)
    (empty : isDirOf (slotAt disk gone.p) → vol.children disk (firstClusterOf (slotAt disk gone.p)) = []) :
    vol.WellFormed gone.after ∧ vol.treeOf gone.after = update (vol.treeOf disk) (namesOf path) none := by
  have inv := wf.toConsistent
  have nodeWrite := gone.nodeWrite inv empty
  constructor
  · exact gone.wellFormed_after wf
  · have changed := gone.treeOf_after inv nodeWrite
    have node : vol.treeOf gone.after (gone.names ++ [shortName83 gone.name]) = none :=
      nodeWrite.treeOf_dead (gone.consistent_mid inv) gone.slot_dead
    rw [node, ← gone.path_eq] at changed
    exact changed

/-- A directory that lists nothing but the dots has no children. -/
theorem WellFormed.children_of_listsDots (wf : vol.WellFormed disk) {path : List Name}
    (isDir : vol.DirAt disk path dir) (dots : listsDots disk (vol.live disk dir)) :
    vol.children disk dir = [] := by
  refine eq_nil_iff_forall_not_mem.mpr fun q mem => ?_
  obtain ⟨notDot, notDotdot⟩ := wf.printed q (isDir.reachable mem)
  have listed := all_eq_true.mp dots q (mem_of_mem_filter mem)
  rw [beq_eq_false_iff_ne.mpr notDot, beq_eq_false_iff_ne.mpr notDotdot] at listed
  cases listed

end

/-! ### The refinement -/

/-- Every operation that returns `Ok` has made its change of the tree, whether or not the device
works. -/
theorem WellFormed.runs_perform {working : Prop} (wf : vol.WellFormed disk) {op : Op}
    (admissible : op.Admissible (vol.treeOf disk)) : Runs working (vol.Safe disk) (vol.perform op) disk
      (fun _ image => vol.WellFormed image ∧ op.Spec (vol.treeOf disk) (vol.treeOf image))
      (fun _ _ => True) := by
  have inv := wf.toConsistent
  cases op with
  | writeFile path data =>
    obtain ⟨plain, small, notDir⟩ := admissible
    refine (runs_writeFile inv (used_of_clean plain.clean) data).mono (fun _ safe => safe) ?_
      fun _ _ _ => trivial
    rintro _ image ⟨write, agree, _⟩
    obtain ⟨after, spec⟩ := write.refines wf plain small notDir
    refine ⟨after.frame agree, ?_⟩
    rw [after.treeOf_frame agree]
    exact spec
  | mkdir path =>
    refine (runs_mkdir inv (PlainPath.clean admissible)).mono (fun _ safe => safe) ?_ fun _ _ _ => trivial
    rintro _ _ ⟨make, rfl⟩
    exact make.refines wf admissible
  | unlink path =>
    refine (runs_unlink inv).mono (fun _ safe => safe) ?_ fun _ _ _ => trivial
    rintro _ image ⟨gone, agree, _⟩
    obtain ⟨after, spec⟩ := gone.refines wf fun flag => by
      rw [gone.kind_eq] at flag
      cases flag
    have before := gone.treeOf_before inv
    rw [nodeOf_file gone.kind_eq] at before
    refine ⟨after.frame agree, ⟨_, before⟩, ?_⟩
    rw [after.treeOf_frame agree]
    exact spec
  | rmdir path =>
    refine (runs_rmdir inv).mono (fun _ safe => safe) ?_ fun _ _ _ => trivial
    rintro _ image ⟨gone, dots, agree, _⟩
    have isDir : vol.DirAt disk _ _ := .child (gone.isDir inv) gone.wasChild gone.kind_eq
    have empty := wf.children_of_listsDots isDir dots
    obtain ⟨after, spec⟩ := gone.refines wf fun _ => empty
    have before := gone.treeOf_before inv
    rw [nodeOf_dir gone.kind_eq] at before
    refine ⟨after.frame agree, before, fun name => ?_, ?_⟩
    · have noChild : vol.childAt disk (firstClusterOf (slotAt disk gone.p)) name = none := by
        unfold childAt
        rw [empty]
        rfl
      have below := inv.treeOf_below_none isDir noChild []
      rw [(findOn_some gone.located).2, ← gone.path_eq] at below
      exact below
    · rw [after.treeOf_frame agree]
      exact spec

/-- **The driver refines the directory tree.** On a working device that holds a well-formed volume,
an operation that succeeds makes its change of the tree and no other, and `read_file`, `lookup` and
`stat` answer what the tree says. Of a path without a name, `read_file` says that there is no such file. -/
theorem refines_tree (dev : Device Sector BlkError) (wf : vol.WellFormed dev.disk) (working : dev.Faultless) :
    (∀ op : Op, op.Admissible (vol.treeOf dev.disk) → (exec (vol.perform op) dev).1 = .ok () →
      vol.WellFormed (exec (vol.perform op) dev).2.disk ∧
        op.Spec (vol.treeOf dev.disk) (vol.treeOf (exec (vol.perform op) dev).2.disk)) ∧
    (∀ path : Bytes, if components path = [] then (exec (vol.readFile path) dev).1 = .error .notFound
      else (vol.treeOf dev.disk).ReadAnswer (namesOf path) (exec (vol.readFile path) dev).1) ∧ (∀ path : Bytes,
      (vol.treeOf dev.disk).LookupAnswer (namesOf path) (exec (vol.lookup path) dev).1) ∧ (∀ path : Bytes,
      (vol.treeOf dev.disk).StatAnswer (namesOf path) (exec (vol.stat path) dev).1) := by
  refine ⟨fun op admissible succeeds => ?_, fun path => ?_, fun path => ?_, fun path => ?_⟩
  · exact (wf.runs_perform admissible).of_ok (fun (_ : True) => working) succeeds
  · rw [((wf.reads_readFile path).exec_eq working).1]
    split
    · rename_i unnamed
      rw [readFileOn, entryFrom, unnamed]
      rfl
    · rename_i named
      exact wf.readFileOn_answer named
  · rw [((wf.reads_lookup path).exec_eq working).1]
    exact wf.lookupOn_answer path
  · rw [((reads_stat path).exec_eq working).1]
    exact wf.statOn_answer path

theorem wellFormed_formatted (sound : vol.Sound) (valid : vol.validCluster vol.rootCluster)
    (blank : ∀ s, vol.dataStartSector ≤ s → disk s = fun _ => 0) : vol.WellFormed (vol.formatted disk) where
  toConsistent := consistent_formatted sound valid blank
  printed p reachable :=
    absurd reachable (not_reachable_of_formatted (zero_formatted sound valid blank) p)
  sizes p reachable := absurd reachable (not_reachable_of_formatted (zero_formatted sound valid blank) p)

theorem smallDisk_wellFormed : smallVolume.WellFormed smallDisk :=
  wellFormed_formatted smallVolume_sound (by decide) fun _ _ => rfl

/-- Writing the file `A` on the small volume. -/
theorem refines_tree_write : smallVolume.treeOf (exec (smallVolume.perform (.writeFile [0x41] [1, 2]))
        (Device.start smallDisk fun _ _ => none)).2.disk =
      update (smallVolume.treeOf smallDisk) (namesOf [0x41]) (some (.file [1, 2])) :=
  ((refines_tree (Device.start smallDisk fun _ _ => none) smallDisk_wellFormed fun _ _ => rfl).1
    (.writeFile [0x41] [1, 2]) ⟨by decide +kernel, by decide, by decide +kernel⟩ rfl).2

end Fat32

end Ferros.Fat
