/-
**The reading methods against the tree.**

`read_file`, `lookup` and `stat` answer from the tree of the image (`treeOf`), whatever the sectors
look like: `Tree.resolve` says what a sequence of names leads to, `Tree.ReadAnswer`,
`Tree.LookupAnswer` and `Tree.StatAnswer` say which answers are right.

* `Consistent.resolve_eq` — the walk of the driver finds what the tree says, and fails as it says.
* `Consistent.reads_readFile`, `Consistent.reads_lookup`, `reads_stat` — what the methods compute.
* `Consistent.readFileOn_answer`, `WellFormed.lookupOn_answer`, `WellFormed.statOn_answer` — **every
  answer is the tree's.**
-/

import Ferros.Fat.Printing
import Ferros.Fat.Tree
import Mathlib.Data.List.Infix

namespace Ferros.Fat

open Lib List Option Function

def namesOf (path : Bytes) : List Name := (components path).map shortName83

/-! ### Answers of a tree -/

def Tree.fileOn (tree : Tree) (names : List Name) : Bool :=
  names.inits.any fun front =>
    match tree front with
    | some (.file _) => true
    | _ => false

/-- **What a sequence of names leads to**, or how the walk there fails. -/
def Tree.resolve (tree : Tree) (names : List Name) : Except FatError TreeNode :=
  match tree names with
  | some node => .ok node
  | none => .error (if tree.fileOn names then .notADirectory else .notFound)

/-- The items of a listing that are `.` and `..`. -/
def isDotItem (item : DirItem) : Bool := item.name == ['.'] || item.name == ['.', '.']

section

variable (tree : Tree) (names : List Name)

/-- **A listing of a directory**: besides `.` and `..`, one item with its kind for every child. -/
def Tree.Lists (items : List DirItem) : Prop :=
  ∃ kids : List Name, kids.Nodup ∧ (∀ name, name ∈ kids ↔ tree (names ++ [name]) ≠ none) ∧
    items.filter (fun item => !isDotItem item) =
      kids.map fun name => ⟨name83ToString name, tree (names ++ [name]) == some .dir⟩

/-- The right answers of `read_file`. -/
def Tree.ReadAnswer : Except FatError Bytes → Prop
  | .ok content => tree.resolve names = .ok (.file content)
  | .error e => (tree.resolve names = .ok .dir ∧ e = .isADirectory) ∨ tree.resolve names = .error e

def Tree.LookupAnswer : Except FatError Node → Prop
  | .ok (.file content) => tree.resolve names = .ok (.file content)
  | .ok (.dir items) => tree.resolve names = .ok .dir ∧ tree.Lists names items
  | .error e => tree.resolve names = .error e

def Tree.StatAnswer : Except FatError Metadata → Prop
  | .ok found => (found.isDir = true ∧ tree.resolve names = .ok .dir) ∨
      (found.isDir = false ∧
        ∃ content, tree.resolve names = .ok (.file content) ∧ found.size = content.length)
  | .error e => tree.resolve names = .error e

end

variable {names : List Name} {tree : Tree} {comps : List Bytes}

theorem Tree.resolve_eq_ok {node : TreeNode} (found : tree.resolve names = .ok node) :
    tree names = some node := by
  unfold resolve at found
  split at found
  · cases found
    assumption
  · cases found

theorem Tree.resolve_eq_error {e : FatError} (missing : tree.resolve names = .error e) : tree names = none := by
  unfold resolve at missing
  split at missing
  · cases missing
  · assumption

theorem Tree.fileOn_eq_true :
    tree.fileOn names ↔ ∃ front content, front <+: names ∧ tree front = some (.file content) := by
  unfold fileOn
  rw [List.any_eq_true]
  refine exists_congr fun front => ?_
  rw [List.mem_inits]
  cases tree front with
  | none => simp
  | some node => cases node <;> simp

/-! ### The root path -/

theorem components_eq_nil_iff {path : Bytes} : components path = [] ↔ trimSlashes path = [] := by
  constructor
  · intro none
    by_contra some
    cases trimmed : trimSlashes path with
    | nil => exact some trimmed
    | cons head tail =>
      have notSlash : (head == slash) = false := by
        have front : trimSlashes path <+: path.dropWhile (· == slash) := List.rdropWhile_prefix _ _
        obtain ⟨back, whole⟩ := front
        have first := head?_dropWhile_not (· == slash) path
        rw [← whole, trimmed] at first
        exact first
      unfold components at none
      rw [trimmed, splitOn_cons_eq_if_modifyHead, notSlash, if_neg (by decide)] at none
      cases pieces : tail.splitOn slash with
      | nil => exact splitOn_ne_nil _ _ pieces
      | cons piece rest =>
        rw [pieces, modifyHead_cons, filter_cons_of_pos rfl] at none
        cases none
  · intro none
    unfold components
    rw [none, splitOn_nil]
    rfl

theorem not_isEmpty_trimSlashes {path : Bytes} (named : components path ≠ []) : ¬ (trimSlashes path).isEmpty :=
  fun empty => named (components_eq_nil_iff.mpr (isEmpty_iff.mp empty))

namespace Fat32

variable (vol : Fat32)

/-- The node of an entry. -/
def nodeOf (disk : Disk) (p : Pos) : TreeNode :=
  if isDirOf (slotAt disk p) then .dir else .file (vol.contentAt disk p)

/-- The entry that a path leads to from a directory, as `resolve_parent` and `find_in_dir` search
it. -/
def entryFrom (disk : Disk) (dir : ℕ) (comps : List Bytes) : Except FatError Pos :=
  match vol.resolveOn disk dir comps with
  | .error e => .error e
  | .ok (parent, name) =>
    match findOn disk (vol.slots disk parent) (shortName83 name) with
    | none => .error .notFound
    | some p => .ok p

/-- **A well-formed volume**: no cross-links, no entry that prints like a dot slot, and every file
fits its chain. -/
structure WellFormed (disk : Disk) : Prop extends vol.Consistent disk where
  printed : ∀ p, vol.Reachable disk p → name83ToString (nameOf (slotAt disk p)) ≠ ['.'] ∧
    name83ToString (nameOf (slotAt disk p)) ≠ ['.', '.']
  sizes : ∀ p, vol.Reachable disk p → isDirOf (slotAt disk p) = false →
    sizeOf (slotAt disk p) ≤ (vol.chainAt disk p).length * vol.clusterBytes

variable {vol} {working : Prop} {disk : Disk}

/-! ### The walk -/

theorem entryFrom_singleton (dir : ℕ) (comp : Bytes) :
    vol.entryFrom disk dir [comp] =
      match findOn disk (vol.slots disk dir) (shortName83 comp) with
      | none => .error .notFound
      | some p => .ok p :=
  rfl

theorem entryFrom_cons (dir : ℕ) (comp second : Bytes) (rest : List Bytes) :
    vol.entryFrom disk dir (comp :: second :: rest) =
      match findOn disk (vol.slots disk dir) (shortName83 comp) with
      | none => .error .notFound
      | some p =>
        if isDirOf (slotAt disk p) then
          vol.entryFrom disk (firstClusterOf (slotAt disk p)) (second :: rest)
        else .error .notADirectory := by
  unfold entryFrom
  rw [resolveOn]
  · cases findOn disk (vol.slots disk dir) (shortName83 comp) with
    | none => rfl
    | some p =>
      simp only
      cases isDirOf (slotAt disk p) <;> rfl
  · exact cons_ne_nil _ _

/-- A short name is never that of a dot slot, so its entry is a child. -/
theorem childAt_eq_findOn (dir : ℕ) (comp : Bytes) : vol.childAt disk dir (shortName83 comp) =
      findOn disk (vol.slots disk dir) (shortName83 comp) := by
  unfold childAt children findOn live
  rw [find?_filter]
  congr 1
  funext p
  by_cases same : nameOf (slotAt disk p) = shortName83 comp
  · have notDot : dotSlot (slotAt disk p) = false := by
      unfold dotSlot
      rw [same, beq_eq_false_iff_ne.mpr (shortName83_ne_dot comp),
        beq_eq_false_iff_ne.mpr (shortName83_ne_dotdot comp)]
      rfl
    rw [beq_iff_eq.mpr same, notDot]
    rfl
  · rw [beq_eq_false_iff_ne.mpr same]
    simp

theorem DirAt.of_prefix {path front : List Name} {dir : ℕ} (isDir : vol.DirAt disk path dir)
    (isPrefix : front <+: path) : ∃ dir', vol.DirAt disk front dir' := by
  induction isDir with
  | root =>
    rw [prefix_nil.mp isPrefix]
    exact ⟨_, .root⟩
  | child parent mem flag ih =>
    rcases prefix_concat_iff.mp isPrefix with rfl | shorter
    · exact ⟨_, .child parent mem flag⟩
    · exact ih shorter

section Walk

variable (inv : vol.Consistent disk) {path rest : List Name} {dir : ℕ} (isDir : vol.DirAt disk path dir)
  {p : Pos}
include inv isDir

theorem Consistent.treeOf_dir : vol.treeOf disk path = some .dir :=
  inv.treeOf_eq_some_iff.mpr ⟨dir, isDir⟩

theorem Consistent.treeOf_child (mem : p ∈ vol.children disk dir) :
    vol.treeOf disk (path ++ [nameOf (slotAt disk p)]) = some (vol.nodeOf disk p) := by
  unfold nodeOf
  cases flag : isDirOf (slotAt disk p) with
  | true => exact inv.treeOf_dir (.child isDir mem flag)
  | false => exact inv.treeOf_eq_some_iff.mpr ⟨path, dir, p, isDir, mem, flag, rfl, rfl⟩

variable {name : Name}

theorem Consistent.treeOf_below_none (missing : vol.childAt disk dir name = none) (rest : List Name) :
    vol.treeOf disk (path ++ name :: rest) = none := by
  rw [inv.treeOf_append isDir, nodeFrom, missing]

theorem Consistent.treeOf_below_file (found : vol.childAt disk dir name = some p)
    (file : isDirOf (slotAt disk p) = false) (below : rest ≠ []) :
    vol.treeOf disk (path ++ name :: rest) = none := by
  rw [inv.treeOf_append isDir, nodeFrom, found]
  simp only [file, Bool.false_eq_true, if_false, if_neg below]

theorem Consistent.fileOn_below_none (missing : vol.childAt disk dir name = none) (rest : List Name) :
    Tree.fileOn (vol.treeOf disk) (path ++ name :: rest) = false := by
  rw [Bool.eq_false_iff]
  intro onWay
  obtain ⟨front, content, isPrefix, file⟩ := Tree.fileOn_eq_true.mp onWay
  rcases List.prefix_or_prefix_of_prefix isPrefix (prefix_append path _) with shorter | longer
  · obtain ⟨dir', isDir'⟩ := isDir.of_prefix shorter
    rw [inv.treeOf_dir isDir'] at file
    cases file
  · obtain ⟨more, rfl⟩ := longer
    cases more with
    | nil =>
      rw [append_nil, inv.treeOf_dir isDir] at file
      cases file
    | cons first more =>
      obtain ⟨rfl, _⟩ := cons_prefix_cons.mp ((prefix_append_right_inj path).mp isPrefix)
      rw [inv.treeOf_below_none isDir missing] at file
      cases file

theorem Consistent.fileOn_below_file (found : vol.childAt disk dir name = some p)
    (file : isDirOf (slotAt disk p) = false) (rest : List Name) :
    Tree.fileOn (vol.treeOf disk) (path ++ name :: rest) := by
  obtain ⟨mem, rfl⟩ := (inv.childAt_eq_some isDir).mp found
  refine Tree.fileOn_eq_true.mpr ⟨path ++ [nameOf (slotAt disk p)], vol.contentAt disk p, ?_, ?_⟩
  · exact (prefix_append_right_inj path).mpr (cons_prefix_cons.mpr ⟨rfl, List.nil_prefix⟩)
  · rw [inv.treeOf_child isDir mem, nodeOf, file]
    rfl

/-- The walk succeeds at an entry of the tree, and fails as the tree says. -/
theorem Consistent.resolve_from (some : comps ≠ []) :
    Tree.resolve (vol.treeOf disk) (path ++ comps.map shortName83) =
      (vol.entryFrom disk dir comps).map (vol.nodeOf disk) := by
  induction comps generalizing path dir with
  | nil => exact absurd rfl some
  | cons comp rest ih =>
    have search : vol.childAt disk dir (shortName83 comp) = _ := childAt_eq_findOn dir comp
    cases found : findOn disk (vol.slots disk dir) (shortName83 comp) with
    | none =>
      rw [found] at search
      have missing : Tree.resolve (vol.treeOf disk) (path ++ (comp :: rest).map shortName83) =
          .error .notFound := by
        rw [map_cons, Tree.resolve, inv.treeOf_below_none isDir search, inv.fileOn_below_none isDir search]
        rfl
      cases rest with
      | nil => rw [missing, entryFrom_singleton, found]; rfl
      | cons second rest => rw [missing, entryFrom_cons, found]; rfl
    | some p =>
      rw [found] at search
      obtain ⟨mem, named⟩ := (inv.childAt_eq_some isDir).mp search
      cases rest with
      | nil =>
        rw [entryFrom_singleton, found, map_singleton, ← named, Tree.resolve, inv.treeOf_child isDir mem]
        rfl
      | cons second rest =>
        rw [entryFrom_cons, found]
        cases flag : isDirOf (slotAt disk p) with
        | true =>
          rw [map_cons, ← singleton_append, ← append_assoc, ← named]
          simp only [flag, if_true]
          exact ih (.child isDir mem flag) (cons_ne_nil _ _)
        | false =>
          have below : (second :: rest).map shortName83 ≠ [] := cons_ne_nil _ _
          rw [map_cons, Tree.resolve, inv.treeOf_below_file isDir search flag below,
            inv.fileOn_below_file isDir search flag]
          simp only [flag, Bool.false_eq_true, if_false, if_true]
          rfl

end Walk

variable {path content : Bytes} {p : Pos}

theorem Consistent.resolve_eq (inv : vol.Consistent disk) (named : components path ≠ []) :
    Tree.resolve (vol.treeOf disk) (namesOf path) =
      (vol.entryFrom disk vol.rootCluster (components path)).map (vol.nodeOf disk) :=
  inv.resolve_from .root named

/-- The entry that a walk finds. -/
theorem entryFrom_ok (found : vol.entryFrom disk vol.rootCluster comps = .ok p) :
    ∃ parent dir, vol.DirAt disk parent dir ∧ p ∈ vol.children disk dir ∧
      comps.map shortName83 = parent ++ [nameOf (slotAt disk p)] := by
  unfold entryFrom at found
  cases resolved : vol.resolveOn disk vol.rootCluster comps with
  | error e => rw [resolved] at found; cases found
  | ok target =>
    obtain ⟨dir, name⟩ := target
    obtain ⟨parent, isDir, _, path_eq⟩ := resolveOn_dirAt .root resolved
    simp only [resolved] at found
    cases search : findOn disk (vol.slots disk dir) (shortName83 name) with
    | none => rw [search] at found; cases found
    | some q =>
      rw [search] at found
      cases found
      refine ⟨parent, dir, isDir, mem_children_of_findOn search, ?_⟩
      rw [(findOn_some search).2, ← path_eq, nil_append]

/-- The common beginning of the methods that look up a path. -/
theorem reads_entry {α : Type} {next : DirEntry → FatM α} {answer : Pos → Except FatError α}
    (reads : ∀ p, vol.entryFrom disk vol.rootCluster (components path) = .ok p →
      Reads working (next (entryOf (slotAt disk p))) disk (answer p)) :
    Reads working (do
        let (dirCluster, name) ← vol.resolveParent path
        match ← vol.findInDir dirCluster name with
        | none => throw .notFound
        | some entry => next entry) disk
      ((vol.entryFrom disk vol.rootCluster (components path)).bind answer) := by
  have parents : Reads working (vol.resolveParent path) disk _ := reads_resolveParent path
  cases resolved : vol.resolveOn disk vol.rootCluster (components path) with
  | error e =>
    rw [resolved] at parents
    rw [entryFrom, resolved]
    exact parents.stop
  | ok target =>
    obtain ⟨dir, name⟩ := target
    have search : Reads working (vol.findInDir dir name) disk _ := reads_findInDir dir name
    rw [resolved] at parents
    cases found : findOn disk (vol.slots disk dir) (shortName83 name) with
    | none =>
      have missing : vol.entryFrom disk vol.rootCluster (components path) = .error .notFound := by
        simp only [entryFrom, resolved, found]
      rw [found] at search
      rw [missing]
      exact parents.seq (search.seq Reads.throw)
    | some p =>
      have entry : vol.entryFrom disk vol.rootCluster (components path) = .ok p := by
        simp only [entryFrom, resolved, found]
      have here := reads p entry
      rw [found] at search
      rw [entry]
      exact parents.seq (search.seq here)

section

variable (inv : vol.Consistent disk) {α : Type}
include inv

theorem Consistent.walk_entry (reachable : vol.Reachable disk p) :
    vol.Walk disk (firstClusterOf (slotAt disk p)) (vol.chainAt disk p) := by
  unfold chainAt
  rcases inv.entries p reachable with ⟨_, zero⟩ | hasChain
  · rw [zero, chain_of_invalid not_valid_zero]
    exact not_valid_zero
  · exact hasChain.2.walk inv.sound

theorem Consistent.reads_content (reachable : vol.Reachable disk p) :
    Reads working (vol.readEntry (entryOf (slotAt disk p))) disk (.ok (vol.contentAt disk p)) :=
  reads_readEntry (inv.walk_entry reachable)

/-! ### What the three methods compute -/

variable (vol) in
/-- The listing of a directory. -/
def listing (disk : Disk) (dir : ℕ) : List DirItem :=
  (vol.live disk dir).map fun p => ⟨name83ToString (nameOf (slotAt disk p)), isDirOf (slotAt disk p)⟩

variable (vol) in
def readFileOn (disk : Disk) (path : Bytes) : Except FatError Bytes :=
  (vol.entryFrom disk vol.rootCluster (components path)).bind fun p =>
    if isDirOf (slotAt disk p) then .error .isADirectory else .ok (vol.contentAt disk p)

variable (vol) in
/-- What `lookup` returns. -/
def lookupOn (disk : Disk) (path : Bytes) : Except FatError Node :=
  if (trimSlashes path).isEmpty then .ok (.dir (vol.listing disk vol.rootCluster))
  else (vol.entryFrom disk vol.rootCluster (components path)).bind fun p =>
    if isDirOf (slotAt disk p) then .ok (.dir (vol.listing disk (firstClusterOf (slotAt disk p))))
    else .ok (.file (vol.contentAt disk p))

variable (vol) in
/-- What `stat` returns. -/
def statOn (disk : Disk) (path : Bytes) : Except FatError Metadata :=
  if (trimSlashes path).isEmpty then .ok ⟨true, 0, vol.rootCluster⟩
  else (vol.entryFrom disk vol.rootCluster (components path)).bind fun p =>
    .ok ⟨isDirOf (slotAt disk p), sizeOf (slotAt disk p), firstClusterOf (slotAt disk p)⟩

omit inv in
theorem reads_ite {onDir onFile : FatM α} {dirAnswer fileAnswer : Except FatError α} {flag : Bool}
    (dir : Reads working onDir disk dirAnswer) (file : flag = false → Reads working onFile disk fileAnswer) :
    Reads working (if flag then onDir else onFile) disk (if flag then dirAnswer else fileAnswer) := by
  cases flag with
  | true => exact dir
  | false => exact file rfl

/-- **`read_file`.** -/
theorem Consistent.reads_readFile (path : Bytes) :
    Reads working (vol.readFile path) disk (vol.readFileOn disk path) := by
  refine reads_entry fun p found => ?_
  obtain ⟨parent, dir, isDir, mem, _⟩ := entryFrom_ok found
  exact reads_ite Reads.throw fun _ => inv.reads_content (isDir.reachable mem)

/-- **`lookup`.** -/
theorem Consistent.reads_lookup (path : Bytes) :
    Reads working (vol.lookup path) disk (vol.lookupOn disk path) := by
  refine reads_ite ((reads_listDir vol.rootCluster).seq Reads.pure) fun _ => ?_
  refine reads_entry fun p found => ?_
  obtain ⟨parent, dir, isDir, mem, _⟩ := entryFrom_ok found
  exact reads_ite ((reads_listDir _).seq Reads.pure)
    fun _ => (inv.reads_content (isDir.reachable mem)).seq Reads.pure

omit inv in
/-- **`stat`.** -/
theorem reads_stat (path : Bytes) : Reads working (vol.stat path) disk (vol.statOn disk path) :=
  reads_ite Reads.pure fun _ => reads_entry fun _ _ => Reads.pure

/-! ### The answers are the tree's -/

omit inv in
theorem nodeOf_dir (flag : isDirOf (slotAt disk p)) : vol.nodeOf disk p = .dir :=
  if_pos flag

omit inv in
theorem nodeOf_file (file : isDirOf (slotAt disk p) = false) :
    vol.nodeOf disk p = .file (vol.contentAt disk p) :=
  if_neg (Bool.eq_false_iff.mp file)

/-- An answer that is right at every entry and at every failed walk. -/
theorem Consistent.answer_entry (named : components path ≠ []) (right : Except FatError α → Prop)
    {answer : Pos → Except FatError α}
    (onError : ∀ e, Tree.resolve (vol.treeOf disk) (namesOf path) = .error e → right (.error e))
    (onEntry : ∀ p parent dir, vol.DirAt disk parent dir → p ∈ vol.children disk dir →
      namesOf path = parent ++ [nameOf (slotAt disk p)] →
      Tree.resolve (vol.treeOf disk) (namesOf path) = .ok (vol.nodeOf disk p) → right (answer p)) :
    right ((vol.entryFrom disk vol.rootCluster (components path)).bind answer) := by
  have resolves := inv.resolve_eq named
  cases found : vol.entryFrom disk vol.rootCluster (components path) with
  | error e =>
    rw [found] at resolves
    exact onError e resolves
  | ok p =>
    rw [found] at resolves
    obtain ⟨parent, dir, isDir, mem, names⟩ := entryFrom_ok found
    exact onEntry p parent dir isDir mem names resolves

/-- The root directory has an answer of its own. -/
theorem Consistent.answer_path (path : Bytes) (right : List Name → Except FatError α → Prop)
    {root other : Except FatError α} (onRoot : Tree.resolve (vol.treeOf disk) [] = .ok .dir → right [] root)
    (onNamed : components path ≠ [] → right (namesOf path) other) :
    right (namesOf path) (if (trimSlashes path).isEmpty then root else other) := by
  by_cases isRoot : components path = []
  · have noNames : namesOf path = [] := congrArg (map shortName83) isRoot
    rw [components_eq_nil_iff.mp isRoot, noNames]
    exact onRoot (by rw [Tree.resolve, inv.treeOf_dir .root])
  · rw [if_neg (not_isEmpty_trimSlashes isRoot)]
    exact onNamed isRoot

theorem Consistent.readFileOn_answer (named : components path ≠ []) :
    (vol.treeOf disk).ReadAnswer (namesOf path) (vol.readFileOn disk path) := by
  refine inv.answer_entry named _ (fun e missing => Or.inr missing) ?_
  intro p parent dir isDir mem _ found
  cases flag : isDirOf (slotAt disk p) with
  | true =>
    rw [nodeOf_dir flag] at found
    exact .inl ⟨found, rfl⟩
  | false =>
    rw [nodeOf_file flag] at found
    exact found

/-- The kind and the content of what `lookup` returns. -/
def nodeFound : Except FatError Node → Option TreeNode
  | .ok (.file content) => some (.file content)
  | .ok (.dir _) => some .dir
  | .error _ => none

/-- **What `lookup` returns is the kind and the content of the tree's node.** -/
theorem Consistent.treeOf_lookupOn (path : Bytes) :
    vol.treeOf disk (namesOf path) = nodeFound (vol.lookupOn disk path) := by
  refine inv.answer_path path (fun names answer => vol.treeOf disk names = nodeFound answer) Tree.resolve_eq_ok
    fun named => inv.answer_entry named (_ = nodeFound ·) (fun e => Tree.resolve_eq_error) ?_
  intro p parent dir _ _ _ found
  refine (Tree.resolve_eq_ok found).trans ?_
  simp only [nodeOf]
  cases isDirOf (slotAt disk p) <;> rfl

theorem Consistent.lookupOn_file_iff :
    vol.lookupOn disk path = .ok (.file content) ↔ vol.treeOf disk (namesOf path) = some (.file content) := by
  rw [inv.treeOf_lookupOn path]
  cases vol.lookupOn disk path with
  | error e => simp [nodeFound]
  | ok node => cases node <;> simp [nodeFound]

end

section WellFormed

variable (wf : vol.WellFormed disk) {dir : ℕ}
include wf

omit wf in
theorem isDotItem_of_dotSlot (isDot : dotSlot (slotAt disk p)) :
    isDotItem ⟨name83ToString (nameOf (slotAt disk p)), isDirOf (slotAt disk p)⟩ := by
  unfold dotSlot at isDot
  rcases Bool.or_eq_true_iff.mp isDot with here | parent
  · rw [beq_iff_eq.mp here, name83ToString_dotName]
    rfl
  · rw [beq_iff_eq.mp parent, name83ToString_dotdotName]
    rfl

theorem WellFormed.isDotItem_iff {path : List Name} (isDir : vol.DirAt disk path dir)
    (mem : p ∈ vol.live disk dir) :
    isDotItem ⟨name83ToString (nameOf (slotAt disk p)), isDirOf (slotAt disk p)⟩ = dotSlot (slotAt disk p) := by
  cases isDot : dotSlot (slotAt disk p) with
  | true => exact isDotItem_of_dotSlot isDot
  | false =>
    have isChild : p ∈ vol.children disk dir := mem_filter.mpr ⟨mem, by rw [isDot]; rfl⟩
    obtain ⟨notDot, notDotdot⟩ := wf.printed p (isDir.reachable isChild)
    unfold isDotItem
    rw [beq_eq_false_iff_ne.mpr notDot, beq_eq_false_iff_ne.mpr notDotdot]
    rfl

/-- **A listing shows the children of the tree.** -/
theorem WellFormed.lists {path : List Name} (isDir : vol.DirAt disk path dir) :
    (vol.treeOf disk).Lists path (vol.listing disk dir) := by
  have inv := wf.toConsistent
  have nodup : (vol.children disk dir).Nodup :=
    (((inv.nodup_slots isDir).sublist (takeWhile_sublist _)).filter _).filter _
  refine ⟨(vol.children disk dir).map fun p => nameOf (slotAt disk p), ?_, fun name => ?_, ?_⟩
  · refine (nodup_map_iff_inj_on nodup).mpr fun p memberP q memberQ same => ?_
    exact inv.names path dir isDir p (mem_of_mem_filter memberP) q (mem_of_mem_filter memberQ) same
  · constructor
    · intro listed
      obtain ⟨p, mem, rfl⟩ := mem_map.mp listed
      rw [inv.treeOf_child isDir mem]
      exact some_ne_none _
    · intro present
      cases search : vol.childAt disk dir name with
      | none => exact absurd (inv.treeOf_below_none isDir search []) present
      | some p =>
        obtain ⟨mem, rfl⟩ := (inv.childAt_eq_some isDir).mp search
        exact mem_map_of_mem mem
  · rw [listing, List.filter_map, List.map_map]
    have kept : (vol.live disk dir).filter ((fun item => !isDotItem item) ∘ fun p =>
        ⟨name83ToString (nameOf (slotAt disk p)), isDirOf (slotAt disk p)⟩) =
        vol.children disk dir := by
      refine filter_congr fun p mem => ?_
      rw [comp_apply, wf.isDotItem_iff isDir mem]
    rw [kept]
    refine map_congr_left fun p mem => ?_
    rw [comp_apply, inv.treeOf_child isDir mem]
    cases flag : isDirOf (slotAt disk p) with
    | true => rw [nodeOf_dir flag]; rfl
    | false => rw [nodeOf_file flag]; rfl

omit wf in
theorem length_bytesOn (clusters : List ℕ) :
    (vol.bytesOn disk clusters).length = clusters.length * vol.clusterBytes := by
  induction clusters with
  | nil => rw [bytesOn, flatMap_nil, length_nil, length_nil, Nat.zero_mul]
  | cons cluster rest ih =>
    unfold bytesOn at ih ⊢
    rw [flatMap_cons, length_append, length_sectorBytes, length_sectorsOf, ih,
      length_cons, Nat.succ_mul, Nat.add_comm, clusterBytes]

theorem WellFormed.length_contentAt (reachable : vol.Reachable disk p) (file : isDirOf (slotAt disk p) = false)
    : (vol.contentAt disk p).length = sizeOf (slotAt disk p) := by
  unfold contentAt
  rw [length_take, length_bytesOn]
  exact Nat.min_eq_left (wf.sizes p reachable file)

theorem WellFormed.lookupOn_answer (path : Bytes) :
    (vol.treeOf disk).LookupAnswer (namesOf path) (vol.lookupOn disk path) := by
  refine wf.answer_path path (vol.treeOf disk).LookupAnswer (fun found => ⟨found, wf.lists .root⟩)
    fun named => wf.answer_entry named _ (fun e missing => missing) ?_
  intro p parent dir isDir mem names found
  cases flag : isDirOf (slotAt disk p) with
  | true =>
    rw [nodeOf_dir flag] at found
    refine ⟨found, ?_⟩
    rw [names]
    exact wf.lists (.child isDir mem flag)
  | false =>
    rw [nodeOf_file flag] at found
    exact found

theorem WellFormed.statOn_answer (path : Bytes) :
    (vol.treeOf disk).StatAnswer (namesOf path) (vol.statOn disk path) := by
  refine wf.answer_path path (vol.treeOf disk).StatAnswer (fun found => .inl ⟨rfl, found⟩)
    fun named => wf.answer_entry named _ (fun e missing => missing) ?_
  intro p parent dir isDir mem _ found
  cases flag : isDirOf (slotAt disk p) with
  | true =>
    rw [nodeOf_dir flag] at found
    exact .inl ⟨rfl, found⟩
  | false =>
    rw [nodeOf_file flag] at found
    exact .inr ⟨rfl, _, found, (wf.length_contentAt (isDir.reachable mem) flag).symm⟩

end WellFormed

end Fat32

end Ferros.Fat
