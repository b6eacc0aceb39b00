/-
**The abstract directory tree of an image.**

What a volume is for: a map from sequences of short names to files and directories (`Tree`). `treeOf`
reads it off an image.

* `treeOf_eq_some_iff` — the tree in terms of the directories and entries of the image.
-/

import Ferros.Fat.Operations

namespace Ferros.Fat

open Lib List Option Function

/-- What a path names. -/
inductive TreeNode
  | file (content : Bytes)
  | dir
  deriving DecidableEq, Repr

/-- A directory tree: what every sequence of short names leads to. -/
abbrev Tree := List Name → Option TreeNode

namespace Fat32

variable (vol : Fat32) {disk disk' : Disk} {dir : ℕ} {path rest path' : List Name} {p q : Pos} {slot : Slot}
  {name : Name} {node : TreeNode} {l : List ℕ}

/-- The entry of a name in a directory, dot slots apart. -/
def childAt (disk : Disk) (dir : ℕ) (name : Name) : Option Pos :=
  (vol.children disk dir).find? fun p => nameOf (slotAt disk p) == name

/-- What a sequence of names leads to from a directory. -/
def nodeFrom (disk : Disk) : ℕ → List Name → Option TreeNode
  | _, [] => some .dir
  | dir, name :: rest =>
    match vol.childAt disk dir name with
    | none => none
    | some p =>
      if isDirOf (slotAt disk p) then nodeFrom disk (firstClusterOf (slotAt disk p)) rest
      else if rest = [] then some (.file (vol.contentAt disk p)) else none

/-- **The tree of an image.** -/
def treeOf (disk : Disk) : Tree := vol.nodeFrom disk vol.rootCluster

/-- The directory or the file at a path. -/
def NodeAt (disk : Disk) (path : List Name) : TreeNode → Prop
  | .dir => ∃ dir, vol.DirAt disk path dir
  | .file content => ∃ parent dir p, vol.DirAt disk parent dir ∧ p ∈ vol.children disk dir ∧
      isDirOf (slotAt disk p) = false ∧ path = parent ++ [nameOf (slotAt disk p)] ∧
      content = vol.contentAt disk p

variable {vol}

/-! ### The tree and the entries -/

section

variable (inv : vol.Consistent disk)
include inv

section

variable (isDir : vol.DirAt disk path dir)
include isDir

theorem Consistent.childAt_eq_some :
    vol.childAt disk dir name = some p ↔ p ∈ vol.children disk dir ∧ nameOf (slotAt disk p) = name := by
  unfold childAt
  constructor
  · intro search
    exact ⟨mem_of_find?_eq_some search, by simpa using find?_some search⟩
  · rintro ⟨mem, rfl⟩
    cases search : (vol.children disk dir).find? fun q => nameOf (slotAt disk q) == nameOf (slotAt disk p) with
    | none =>
      have missed := find?_eq_none.mp search p mem
      simp at missed
    | some q =>
      have same : nameOf (slotAt disk q) = nameOf (slotAt disk p) := by
        simpa using find?_some search
      rw [inv.names path dir isDir q
        (mem_of_mem_filter (mem_of_find?_eq_some search)) p
        (mem_of_mem_filter mem) same]

/-- A path leads to one directory only. -/
theorem Consistent.dirAt_functional {dir' : ℕ} (isDir' : vol.DirAt disk path dir') : dir = dir' := by
  induction isDir generalizing dir' with
  | root =>
    generalize same : ([] : List Name) = path' at isDir'
    cases isDir' with
    | root => rfl
    | child parent mem flag =>
      exact absurd same.symm (append_ne_nil_of_right_ne_nil _ (cons_ne_nil _ _))
  | @child path dir p parent mem flag ih =>
    generalize same : path ++ [nameOf (slotAt disk p)] = path' at isDir'
    cases isDir' with
    | root => exact absurd same (append_ne_nil_of_right_ne_nil _ (cons_ne_nil _ _))
    | @child path' dir' p' parent' member' flag' =>
      obtain ⟨rfl, sameName⟩ := append_inj' same rfl
      obtain rfl := ih parent'
      have samePos := inv.names _ _ parent p (mem_of_mem_filter mem) p'
        (mem_of_mem_filter member') (cons.inj sameName).1
      rw [samePos]

theorem Consistent.treeOf_append (rest : List Name) :
    vol.treeOf disk (path ++ rest) = vol.nodeFrom disk dir rest := by
  induction isDir generalizing rest with
  | root => rfl
  | @child path dir p parent mem flag ih =>
    have found := (inv.childAt_eq_some parent).mpr ⟨mem, rfl⟩
    rw [append_assoc, ih, singleton_append, nodeFrom, found]
    simp only [flag, if_true]

theorem Consistent.nodeAt_of_nodeFrom (found : vol.nodeFrom disk dir rest = some node) :
    vol.NodeAt disk (path ++ rest) node := by
  induction rest generalizing path dir with
  | nil =>
    rw [nodeFrom] at found
    cases found
    rw [append_nil]
    exact ⟨dir, isDir⟩
  | cons name rest ih =>
    rw [nodeFrom] at found
    cases search : vol.childAt disk dir name with
    | none => rw [search] at found; cases found
    | some p =>
      simp only [search] at found
      obtain ⟨mem, rfl⟩ := (inv.childAt_eq_some isDir).mp search
      cases flag : isDirOf (slotAt disk p) with
      | true =>
        rw [flag, if_pos rfl] at found
        rw [← singleton_append, ← append_assoc]
        exact ih (.child isDir mem flag) found
      | false =>
        rw [flag, if_neg (by decide)] at found
        split at found
        · rename_i last
          cases found
          rw [last]
          exact ⟨path, dir, p, isDir, mem, flag, rfl, rfl⟩
        · cases found

end

/-- **The nodes of the tree** are the directories and the files of the image. -/
theorem Consistent.treeOf_eq_some_iff :
    vol.treeOf disk path = some node ↔ vol.NodeAt disk path node := by
  constructor
  · exact fun found => inv.nodeAt_of_nodeFrom .root found
  · intro nodeAt
    cases node with
    | dir =>
      obtain ⟨dir, isDir⟩ := nodeAt
      rw [← append_nil path, inv.treeOf_append isDir]
      rfl
    | file content =>
      obtain ⟨parent, dir, p, isDir, mem, file, rfl, rfl⟩ := nodeAt
      have found := (inv.childAt_eq_some isDir).mpr ⟨mem, rfl⟩
      rw [inv.treeOf_append isDir, nodeFrom, found]
      simp only [file, Bool.false_eq_true, if_false, if_true]

end

/-! ### Writes outside the owned clusters -/

section

theorem bytesOn_congr (same : ∀ c ∈ l, ∀ s ∈ vol.sectorsOf c, disk' s = disk s) :
    vol.bytesOn disk' l = vol.bytesOn disk l := by
  refine flatMap_congr fun c inList => flatMap_congr fun s inCluster => ?_
  rw [same c inList s inCluster]

variable (inv : vol.Consistent disk) (agree : vol.AgreeOn (vol.Owned disk) disk disk')
include inv agree

theorem Consistent.contentAt_frame (reachable : vol.Reachable disk p) :
    vol.contentAt disk' p = vol.contentAt disk p := by
  unfold contentAt
  rw [inv.chainAt_frame agree reachable, inv.slotAt_frame agree reachable,
    bytesOn_congr fun c mem s inside => agree.data c
      (inv.owned_valid (.inr ⟨p, reachable, mem⟩)).1 (.inr ⟨p, reachable, mem⟩) s inside]

theorem Consistent.nodeAt_frame (nodeAt : vol.NodeAt disk path node) :
    vol.NodeAt disk' path node := by
  cases node with
  | dir =>
    obtain ⟨dir, isDir⟩ := nodeAt
    exact ⟨dir, (inv.dirAt_frame agree).mpr isDir⟩
  | file content =>
    obtain ⟨parent, dir, p, isDir, mem, file, rfl, rfl⟩ := nodeAt
    have reachable := isDir.reachable mem
    refine ⟨parent, dir, p, (inv.dirAt_frame agree).mpr isDir, ?_, ?_, ?_, ?_⟩
    · rw [inv.children_frame agree isDir]
      exact mem
    · rw [inv.slotAt_frame agree reachable]
      exact file
    · rw [inv.slotAt_frame agree reachable]
    · rw [inv.contentAt_frame agree reachable]

theorem Consistent.agree_symm : vol.AgreeOn (vol.Owned disk') disk' disk :=
  ⟨fun c valid owned => (agree.next c valid ((inv.owned_frame agree).mp owned)).symm,
    fun c valid owned s mem =>
      (agree.data c valid ((inv.owned_frame agree).mp owned) s mem).symm⟩

/-- **Writes outside the owned clusters leave the tree alone.** -/
theorem Consistent.treeOf_frame : vol.treeOf disk' = vol.treeOf disk := by
  have consistent' := inv.frame agree
  funext path
  refine ext fun node => ?_
  rw [consistent'.treeOf_eq_some_iff, inv.treeOf_eq_some_iff]
  exact ⟨consistent'.nodeAt_frame (inv.agree_symm agree), inv.nodeAt_frame agree⟩

end

/-! ### A commit and the tree -/

variable (vol) in
/-- **A slot write that changes what one name leads to**: the old entry and the new one both have
that name and no other entry has it; a directory that is replaced is empty. -/
structure NodeWrite (disk : Disk) (path : List Name) (dir : ℕ) (p : Pos) (slot : Slot) (name : Name) :
    Prop extends vol.SlotWrite disk path dir p slot where
  old : p ∈ vol.children disk dir → nameOf (slotAt disk p) = name
  others : ∀ q ∈ vol.children disk dir, q ≠ p → nameOf (slotAt disk q) ≠ name
  new : liveSlot slot = true → nameOf slot = name ∧ dotSlot slot = false
  empty : p ∈ vol.children disk dir → isDirOf (slotAt disk p) = true →
    vol.children disk (firstClusterOf (slotAt disk p)) = []

section Commit

variable (inv : vol.Consistent disk)

include inv in
/-- A directory and a file share no cluster. -/
theorem Consistent.dir_file_disjoint (isDir : vol.DirAt disk path dir) (reachable : vol.Reachable disk q)
    (file : isDirOf (slotAt disk q) = false) : (vol.chain disk dir).Disjoint (vol.chainAt disk q) := by
  cases isDir with
  | root => exact inv.rootApart q reachable
  | @child _ _ r parent mem flag =>
    refine inv.apart r q (parent.reachable mem) reachable ?_
    rintro rfl
    rw [flag] at file
    cases file

section Slot

variable (write : vol.SlotWrite disk path dir p slot)
include inv write

/-- A chain that has no cluster of the directory keeps its bytes. -/
theorem SlotWrite.bytesOn_eq (valid : ∀ x ∈ l, vol.validCluster x)
    (apart : (vol.chain disk dir).Disjoint l) : vol.bytesOn (putSlot disk p slot) l = vol.bytesOn disk l := by
  obtain ⟨x, inChain, inCluster⟩ := mem_slotsOn.mp write.mem_slots
  refine bytesOn_congr fun c mem s inside => update_of_ne ?_ _ _
  rintro rfl
  have validX := (inv.owned_valid (write.isDir.owned x inChain)).1
  have same := mem_sectorsOf_unique validX (valid c mem) inCluster inside
  exact apart inChain (same ▸ mem)

theorem SlotWrite.contentAt_same (isLive : liveSlot slot) : vol.contentAt (putSlot disk p slot) p =
      (vol.bytesOn disk (vol.chain disk (firstClusterOf slot))).take (sizeOf slot) := by
  unfold contentAt
  rw [write.chainAt_same inv, slotAt_putSlot_same]
  have unowned := write.new_unowned isLive
  rw [write.bytesOn_eq inv]
  · intro x mem
    rcases write.entry isLive with ⟨_, zero⟩ | ⟨hasChain, _⟩
    · rw [zero, chain_of_invalid not_valid_zero] at mem
      cases mem
    · exact hasChain.2.valid x mem
  · exact fun x inDir inNew => unowned x inNew (write.isDir.owned x inDir)

/-- The node of a new live entry. -/
theorem SlotWrite.treeOf_live (isLive : liveSlot slot) (notDot : dotSlot slot = false) :
    vol.treeOf (putSlot disk p slot) (path ++ [nameOf slot]) = some (if isDirOf slot then .dir else
        .file ((vol.bytesOn disk (vol.chain disk (firstClusterOf slot))).take (sizeOf slot))) := by
  have consistent' := inv.putSlot write
  have isDir := write.dirAt_dir inv
  have found : vol.childAt (putSlot disk p slot) dir (nameOf slot) = some p := by
    refine (consistent'.childAt_eq_some isDir).mpr ⟨?_, by rw [slotAt_putSlot_same]⟩
    exact (write.mem_children inv write.isDir p).mpr (.inl ⟨rfl, rfl, isLive, notDot⟩)
  rw [consistent'.treeOf_append isDir, nodeFrom, found]
  simp only [slotAt_putSlot_same, nodeFrom, if_true, write.contentAt_same inv isLive]
  split <;> rfl

end Slot

variable (write : vol.NodeWrite disk path dir p slot name)
include inv write

theorem NodeWrite.contentAt_other (ne : q ≠ p) (reachable : vol.Reachable disk q)
    (file : isDirOf (slotAt disk q) = false) :
    vol.contentAt (putSlot disk p slot) q = vol.contentAt disk q := by
  unfold contentAt
  rw [write.chainAt_other inv ne, slotAt_putSlot_other ne,
    write.bytesOn_eq inv (fun x mem => (inv.owned_valid (.inr ⟨q, reachable, mem⟩)).1)
      (inv.dir_file_disjoint write.isDir reachable file)]

section

variable (ne : path' ≠ path ++ [name])
include ne

theorem NodeWrite.nodeAt_before (nodeAt : vol.NodeAt disk path' node) :
    vol.NodeAt (putSlot disk p slot) path' node := by
  cases node with
  | dir =>
    obtain ⟨dir', isDir'⟩ := nodeAt
    rcases write.dirAt_before inv write.empty isDir' with stays | ⟨wasChild, _, rfl, _⟩
    · exact ⟨dir', stays⟩
    · exact absurd (by rw [write.old wasChild]) ne
  | file content =>
    obtain ⟨parent, dir', q, isDir', mem, file, rfl, rfl⟩ := nodeAt
    have other : q ≠ p := by
      rintro rfl
      obtain ⟨rfl, rfl⟩ := inv.dirAt_unique_slot isDir' write.isDir
        (mem_slots_of_mem_children mem) write.mem_slots
      exact ne (by rw [write.old mem])
    rcases write.dirAt_before inv write.empty isDir' with stays | ⟨wasChild, flag, _, rfl⟩
    · refine ⟨parent, dir', q, stays, (write.mem_children inv isDir' q).mpr (.inr ⟨other, mem⟩), ?_, ?_, ?_⟩
      · rw [slotAt_putSlot_other other]
        exact file
      · rw [slotAt_putSlot_other other]
      · rw [write.contentAt_other inv other (isDir'.reachable mem) file]
    · rw [write.empty wasChild flag] at mem
      cases mem

theorem NodeWrite.nodeAt_after
    (nodeAt : vol.NodeAt (putSlot disk p slot) path' node) : vol.NodeAt disk path' node := by
  cases node with
  | dir =>
    obtain ⟨dir', isDir'⟩ := nodeAt
    rcases write.dirAt_after inv isDir' with wasDir | ⟨isLive, _, rfl, _⟩
    · exact ⟨dir', wasDir⟩
    · exact absurd (by rw [(write.new isLive).1]) ne
  | file content =>
    obtain ⟨parent, dir', q, isDir', mem, file, rfl, rfl⟩ := nodeAt
    rcases write.dirAt_after inv isDir' with wasDir | ⟨isLive, flag, _, rfl⟩
    · rcases (write.mem_children inv wasDir q).mp mem with
        ⟨rfl, rfl, isLive, _⟩ | ⟨other, wasChild⟩
      · obtain ⟨rfl, _⟩ := inv.dirAt_unique_slot wasDir write.isDir write.mem_slots write.mem_slots
        exact absurd (by rw [slotAt_putSlot_same, (write.new isLive).1]) ne
      · rw [slotAt_putSlot_other other] at file ne ⊢
        refine ⟨parent, dir', q, wasDir, wasChild, file, rfl, ?_⟩
        rw [write.contentAt_other inv other (wasDir.reachable wasChild) file]
    · rw [write.newDir_children inv isLive flag] at mem
      cases mem

/-- **Every other path leads to what it led to before.** -/
theorem NodeWrite.treeOf_other : vol.treeOf (putSlot disk p slot) path' = vol.treeOf disk path' := by
  have consistent' := inv.putSlot write.toSlotWrite
  refine ext fun node => ?_
  rw [consistent'.treeOf_eq_some_iff, inv.treeOf_eq_some_iff]
  exact ⟨write.nodeAt_after inv ne, write.nodeAt_before inv ne⟩

end

/-- A slot that is not live leaves nothing at the name. -/
theorem NodeWrite.treeOf_dead (dead : liveSlot slot = false) :
    vol.treeOf (putSlot disk p slot) (path ++ [name]) = none := by
  have consistent' := inv.putSlot write.toSlotWrite
  have isDir := write.dirAt_dir inv
  have found : vol.childAt (putSlot disk p slot) dir name = none := by
    rw [eq_none_iff_forall_ne_some]
    intro q search
    obtain ⟨mem, named⟩ := (consistent'.childAt_eq_some isDir).mp search
    rcases (write.mem_children inv write.isDir q).mp mem with
      ⟨_, _, isLive, _⟩ | ⟨other, wasChild⟩
    · rw [dead] at isLive
      cases isLive
    · rw [slotAt_putSlot_other other] at named
      exact write.others q wasChild other named
  rw [consistent'.treeOf_append isDir, nodeFrom, found]

/-- **A commit changes one node of the tree.** -/
theorem NodeWrite.treeOf_putSlot : vol.treeOf (putSlot disk p slot) = update (vol.treeOf disk) (path ++ [name])
      (vol.treeOf (putSlot disk p slot) (path ++ [name])) := by
  funext path'
  by_cases same : path' = path ++ [name]
  · rw [same, update_self]
  · rw [update_of_ne same, write.treeOf_other inv same]

end Commit

end Fat32

end Ferros.Fat
