/-
**What is created, and what is replaced.**

`write_file` and `mkdir` put an entry under the short name of the path into its directory. Two things can go
wrong without an error: the first byte of the name may be the mark of a deleted slot, and the entry that is
replaced may be that of a directory.

* `created_found_iff` — **when a lookup finds what was created**; `marked_not_found` — a name that it does
  not find.
* `freeClusters_lt_of_rolledBack`, `le_freeClusters_of_newContent` — when there is space for new content.
* `directory_kept_iff` — **when `write_file` refuses to replace a directory**; `directory_replaced` — a run
  where it does replace one.
-/

import Ferros.Fat.Exact

namespace Ferros.Fat

open Lib List Option Function

/-! ### Names that look deleted -/

/-- A name has a first byte. -/
instance nameNeZero : NeZero 11 := ⟨by decide⟩

/-- The short name of a path begins like a deleted slot. -/
def marked (path : Bytes) : Bool :=
  match (namesOf path).getLast? with
  | some name => name 0 == 0xE5
  | none => false

theorem marked_eq {path : Bytes} {names : List Name} {name : Name} (split : namesOf path = names ++ [name]) :
    marked path = (name 0 == 0xE5) := by
  unfold marked
  rw [split, getLast?_concat]

theorem PlainPath.not_marked {path : Bytes} (plain : PlainPath path) : marked path = false := by
  unfold marked
  cases last : (namesOf path).getLast? with
  | none => rfl
  | some name =>
    obtain ⟨comp, mem, rfl⟩ := mem_map.mp (mem_of_getLast? last)
    exact beq_eq_false_iff_ne.mpr (plain comp mem).zero_ne.1

namespace Fat32

variable {vol : Fat32} {disk image : Disk} {dir c n first : ℕ} {names : List Name} {node : TreeNode}
  {path content data : Bytes} {name : Name}

/-- **Nothing is found under a name that looks deleted.** -/
theorem Consistent.treeOf_marked (inv : vol.Consistent disk) (mark : name 0 = 0xE5) :
    vol.treeOf disk (names ++ [name]) = none := by
  by_contra present
  obtain ⟨dir, p, isDir, mem, rfl⟩ := inv.exists_child_of_treeOf present
  have isLive := liveSlot_of_mem_liveOn (mem_of_mem_filter mem)
  exact (liveSlot_iff.mp isLive).2.1 mark

theorem Consistent.not_marked_of_treeOf (inv : vol.Consistent disk)
    (present : vol.treeOf disk (namesOf path) = some node) : marked path = false := by
  unfold marked
  cases last : (namesOf path).getLast? with
  | none => rfl
  | some name =>
    obtain ⟨names, split⟩ := getLast?_eq_some_iff.mp last
    refine beq_eq_false_iff_ne.mpr fun mark => ?_
    rw [split, inv.treeOf_marked mark] at present
    cases present

/-- The length of a file fits the field for it. -/
theorem Consistent.length_file_lt (inv : vol.Consistent disk)
    (file : vol.treeOf disk names = some (.file content)) : content.length < 2 ^ 32 := by
  obtain ⟨_, _, p, _, _, _, _, rfl⟩ := inv.treeOf_eq_some_iff.mp file
  exact (length_take_le _ _).trans_lt (leVal_lt 4 _)

/-! ### New entries on the tree -/

section

variable (inv : vol.Consistent disk) (write : vol.FileWrite disk path data)
include inv

section

variable (used : shortName83 write.name 0 ≠ 0)
include used

/-- The file that `write_file` leaves, if its name does not look deleted. -/
theorem FileWrite.treeOf_after_visible (visible : marked path = false) :
    vol.treeOf write.after (namesOf path) =
      some (.file ((vol.bytesOn write.mid (vol.chain write.mid write.first)).take (data.length % 2 ^ 32))) := by
  have sound := inv.sound
  have kept : shortName83 write.name 0 ≠ 0xE5 := by
    rw [marked_eq write.path_eq] at visible
    exact beq_eq_false_iff_ne.mp visible
  have isLive : liveSlot write.slot := by
    rw [write.slot_eq]
    exact (liveSlot_fill (by decide) used).mpr kept
  have size : sizeOf write.slot = data.length % 2 ^ 32 := by
    rw [write.slot_eq, sizeOf_fillDirEntry, Nat.mod_mod]
  rw [namesOf, write.path_eq, ← write.nameOf_slot]
  refine (write.write.treeOf_live (write.consistent_mid inv) isLive
    (dotSlot_of_shortName83 write.nameOf_slot)).trans ?_
  rw [write.not_isDirOf_slot, write.firstClusterOf_slot sound, size]
  rfl

/-- **What `write_file` wrote is found** exactly when the name does not look deleted and the length fits
the field for it. -/
theorem FileWrite.found_iff :
    vol.treeOf write.after (namesOf path) = some (.file data) ↔ marked path = false ∧ data.length < 2 ^ 32 := by
  cases mark : marked path with
  | true =>
    have missing : vol.treeOf write.after (namesOf path) = none := by
      rw [marked_eq write.path_eq] at mark
      rw [namesOf, write.path_eq]
      exact (write.consistent_after inv).treeOf_marked (beq_iff_eq.mp mark)
    rw [missing]
    simp
  | false =>
    rw [write.treeOf_after_visible inv used mark, some.injEq, TreeNode.file.injEq]
    simp only [true_and]
    constructor
    · intro same
      rw [← same, length_take]
      have below := Nat.mod_lt data.length (by decide : 0 < 2 ^ 32)
      omega
    · intro small
      rw [Nat.mod_eq_of_lt small]
      exact (write.content.holds small inv.sound).2

/-- **When `write_file` leaves the tree as it is**: the name looks deleted, or the file was there with this
content. -/
theorem FileWrite.treeOf_eq_iff (small : data.length < 2 ^ 32)
    (notDir : vol.treeOf disk (namesOf path) ≠ some .dir) : vol.treeOf write.after = vol.treeOf disk ↔
      marked path ∨ vol.treeOf disk (namesOf path) = some (.file data) := by
  have changed := write.treeOf_after inv (write.nodeWrite inv notDir)
  rw [← write.path_eq, ← namesOf] at changed
  have unchanged : vol.treeOf write.after (namesOf path) = vol.treeOf disk (namesOf path) →
      vol.treeOf write.after = vol.treeOf disk := by
    intro same
    rw [changed, same, update_eq_self]
  cases mark : marked path with
  | true =>
    refine iff_of_true (unchanged ?_) (.inl rfl)
    rw [marked_eq write.path_eq] at mark
    rw [namesOf, write.path_eq, inv.treeOf_marked (beq_iff_eq.mp mark),
      (write.consistent_after inv).treeOf_marked (beq_iff_eq.mp mark)]
  | false =>
    have now := (write.found_iff inv used).mpr ⟨mark, small⟩
    constructor
    · intro same
      rw [← same]
      exact .inr now
    · rintro (absurd | before)
      · cases absurd
      · exact unchanged (now.trans before.symm)

end

end

section DirMake

variable (inv : vol.Consistent disk) (make : vol.DirMake disk path)
include inv

/-- The directory that `mkdir` leaves, if its name does not look deleted. -/
theorem DirMake.dirAt_after (used : shortName83 make.name 0 ≠ 0) (visible : marked path = false) :
    ∃ dir, vol.DirAt make.after (namesOf path) dir ∧ vol.children make.after dir = [] := by
  have kept : shortName83 make.name 0 ≠ 0xE5 := by
    rw [marked_eq make.path_eq] at visible
    exact beq_eq_false_iff_ne.mp visible
  have isLive : liveSlot make.slot := by
    rw [make.slot_eq]
    exact (liveSlot_fill (by decide) used).mpr kept
  have mid := make.consistent_mid inv
  have isChild := (make.write.mem_children mid make.write.isDir make.p).mpr
    (.inl ⟨rfl, rfl, isLive, dotSlot_of_shortName83 make.nameOf_slot⟩)
  have here : slotAt make.after make.p = make.slot := slotAt_putSlot_same _ _ _
  have isDir : vol.DirAt make.after _ _ :=
    .child (make.write.dirAt_dir mid) isChild (here.symm ▸ make.isDirOf_slot)
  rw [here, make.nameOf_slot, ← make.path_eq] at isDir
  exact ⟨_, isDir, make.write.newDir_children mid isLive make.isDirOf_slot⟩

end DirMake

theorem dotSlot_of_no_children (empty : vol.children disk dir = []) {p : Pos} (mem : p ∈ vol.live disk dir) :
    dotSlot (slotAt disk p) := by
  have kept := filter_eq_nil_iff.mp empty p mem
  rwa [Bool.not_eq_true', Bool.not_eq_false] at kept

/-- A directory without children lists nothing but `.` and `..`. -/
theorem isDotItem_of_listing (empty : vol.children disk dir = []) :
    ∀ item ∈ vol.listing disk dir, isDotItem item := by
  intro item listed
  obtain ⟨p, mem, rfl⟩ := mem_map.mp listed
  exact isDotItem_of_dotSlot (dotSlot_of_no_children empty mem)

/-- The directory whose listing `lookup` returns. -/
theorem lookupOn_dir {items : List DirItem} (found : vol.lookupOn disk path = .ok (.dir items)) :
    ∃ dir, vol.DirAt disk (namesOf path) dir ∧ items = vol.listing disk dir := by
  unfold lookupOn at found
  by_cases isRoot : components path = []
  · rw [components_eq_nil_iff.mp isRoot] at found
    cases found
    rw [namesOf, isRoot]
    exact ⟨_, .root, rfl⟩
  · rw [if_neg (not_isEmpty_trimSlashes isRoot)] at found
    cases entry : vol.entryFrom disk vol.rootCluster (components path) with
    | error e =>
      rw [entry] at found
      cases found
    | ok p =>
      obtain ⟨parent, dir, isDir, mem, names⟩ := entryFrom_ok entry
      simp only [entry, Except.bind] at found
      split at found
      · cases found
        rw [namesOf, names]
        exact ⟨_, .child isDir mem ‹_›, rfl⟩
      · cases found

/-! ### What is created is found -/

/-- **What was created is found** by the next lookup exactly when its name does not look deleted and, for a
file, its length fits 32 bits. -/
theorem created_found_iff (dev : Device Sector BlkError) (wf : vol.WellFormed dev.disk)
    (working : dev.Faultless) (path : Bytes) (clean : (0 : UInt8) ∉ path) :
    (∀ data : Bytes, (exec (vol.writeFile path data) dev).1 = .ok () →
      ((exec (vol.lookup path) (exec (vol.writeFile path data) dev).2).1 = .ok (.file data) ↔
        marked path = false ∧ data.length < 2 ^ 32)) ∧ ((exec (vol.mkdir path) dev).1 = .ok () →
      ((∃ items, (exec (vol.lookup path) (exec (vol.mkdir path) dev).2).1 = .ok (.dir items) ∧
          ∀ item ∈ items, isDotItem item = true) ↔ marked path = false)) := by
  have inv := wf.toConsistent
  constructor
  · intro data created
    have runs : Runs True _ (vol.writeFile path data) dev.disk _ _ :=
      runs_writeFile inv (used_of_clean clean) data
    obtain ⟨write, agree, -⟩ := runs.of_ok (fun _ => working) created
    have after := write.consistent_after inv
    have image := after.frame agree
    rw [((image.reads_lookup path).exec_eq (runs.faultless (fun _ => working) working)).1,
      image.lookupOn_file_iff, after.treeOf_frame agree]
    exact write.found_iff inv (used_of_clean clean write.resolved)
  · intro created
    have runs : Runs True _ (vol.mkdir path) dev.disk _ _ := runs_mkdir inv clean
    obtain ⟨make, same⟩ := runs.of_ok (fun _ => working) created
    have image : vol.Consistent (exec (vol.mkdir path) dev).2.disk := same ▸ make.consistent_after inv
    have node := image.treeOf_lookupOn path
    rw [((image.reads_lookup path).exec_eq (runs.faultless (fun _ => working) working)).1]
    cases mark : marked path with
    | true =>
      refine iff_of_false ?_ (by decide)
      rintro ⟨items, found, -⟩
      rw [marked_eq make.path_eq] at mark
      rw [found, namesOf, make.path_eq, image.treeOf_marked (beq_iff_eq.mp mark)] at node
      cases node
    | false =>
      refine iff_of_true ?_ rfl
      obtain ⟨dir, isDir, empty⟩ := make.dirAt_after inv (used_of_clean clean make.resolved) mark
      rw [← same] at isDir empty
      rw [image.treeOf_dir isDir] at node
      cases found : vol.lookupOn (exec (vol.mkdir path) dev).2.disk path with
      | error e =>
        rw [found] at node
        cases node
      | ok shown =>
        rw [found] at node
        cases shown with
        | file content => cases node
        | dir items =>
          obtain ⟨dir', isDir', rfl⟩ := lookupOn_dir found
          obtain rfl := image.dirAt_functional isDir isDir'
          exact ⟨_, rfl, isDotItem_of_listing empty⟩

/-- A working device with the given content. -/
def workingDevice (disk : Disk) : Device Sector BlkError := Device.start disk fun _ _ => none

/-- The file `A` on the small volume. -/
theorem created_found_iff_small : (exec (smallVolume.lookup [0x41])
      (exec (smallVolume.writeFile [0x41] [1, 2]) (workingDevice smallDisk)).2).1 = .ok (.file [1, 2]) :=
  ((created_found_iff (workingDevice smallDisk) smallDisk_wellFormed (fun _ _ => rfl) [0x41]
    (by decide)).1 [1, 2] rfl).mpr ⟨by decide +kernel, by decide⟩

/-- **A file that is created and not found**: the first byte of U+5000 in UTF-8 is the mark of a deleted
slot. -/
theorem marked_not_found : (exec (smallVolume.writeFile [0xE5, 0x80, 0x80] [1]) (workingDevice smallDisk)).1 =
        .ok () ∧
      (exec (smallVolume.lookup [0xE5, 0x80, 0x80]) (exec (smallVolume.writeFile [0xE5, 0x80, 0x80] [1])
        (workingDevice smallDisk)).2).1 = .error .notFound :=
  ⟨rfl, rfl⟩

/-! ### Space for new content -/

variable (vol) in
/-- The clusters that `freeClusters` counts. -/
def freeList (disk : Disk) : List ℕ :=
  ((range vol.clusterCount).filter fun i => vol.nextOf disk (firstDataCluster + i) == 0).map
    (firstDataCluster + ·)

theorem length_freeList : (vol.freeList disk).length = vol.freeClusters disk := length_map _

theorem nodup_freeList : (vol.freeList disk).Nodup :=
  (nodup_range.filter _).map (add_right_injective _)

theorem mem_freeList : c ∈ vol.freeList disk ↔ vol.validCluster c ∧ vol.nextOf disk c = 0 := by
  rw [validCluster_iff]
  simp only [freeList, firstDataCluster, List.mem_map, mem_filter, mem_range, beq_iff_eq]
  constructor
  · rintro ⟨i, ⟨inside, free⟩, rfl⟩
    exact ⟨⟨by omega, by omega⟩, free⟩
  · rintro ⟨⟨low, high⟩, free⟩
    refine ⟨c - 2, ⟨by omega, ?_⟩, Nat.add_sub_cancel' low⟩
    rw [Nat.add_sub_cancel' low]
    exact free

/-- An allocation that ran out of space found fewer free clusters than it wanted. -/
theorem freeClusters_lt_of_rolledBack (sound : vol.Sound) (back : vol.RolledBack disk n image) :
    vol.freeClusters disk < n := by
  rw [← length_freeList]
  rcases back with ⟨_, asked, full⟩ | ⟨l, linked, short, built, full, _⟩
  · have none : vol.freeList disk = [] := by
      refine eq_nil_iff_forall_not_mem.mpr fun c mem => ?_
      obtain ⟨valid, free⟩ := mem_freeList.mp mem
      exact full c valid free
    rw [none]
    exact asked
  · obtain ⟨_, _, agree⟩ := built.spec sound
    have inside : vol.freeList disk ⊆ l := by
      intro c mem
      obtain ⟨valid, free⟩ := mem_freeList.mp mem
      by_contra outside
      exact full c valid ((agree.next c valid outside).trans free)
    exact lt_of_le_of_lt (nodup_freeList.subperm inside).length_le short

/-- A new chain is no longer than there are free clusters. -/
theorem Built.length_le (sound : vol.Sound) {l : List ℕ} (built : vol.Built disk l image) :
    l.length ≤ vol.freeClusters disk := by
  obtain ⟨isChain, fresh, _⟩ := built.spec sound
  have inside : l ⊆ vol.freeList disk := fun c mem => mem_freeList.mpr (fresh c mem)
  rw [← length_freeList]
  exact ((isChain.nodup sound).subperm inside).length_le

theorem le_freeClusters_of_newContent (sound : vol.Sound)
    (new : vol.NewContent disk data first image) : vol.clustersFor data ≤ vol.freeClusters disk := by
  rcases new with ⟨none, _⟩ | ⟨l, linked, length, built, _⟩
  · rw [none]
    exact Nat.zero_le _
  · rw [← length]
    exact built.length_le sound

theorem FileWrite.not_noSlot (write : vol.FileWrite disk path data) (e : FatError) :
    ¬ vol.NoSlot disk path e := by
  rintro (unresolved | ⟨dir, name, resolved, noSlot⟩)
  · cases write.resolved.symm.trans unresolved
  · cases write.resolved.symm.trans resolved
    rcases write.located with search | ⟨search, free⟩
    · simp only [slotFor, search] at noSlot
      cases noSlot
    · simp only [slotFor, search, free, none_or] at noSlot
      cases noSlot

/-! ### Directories that are replaced -/

/-- **`write_file` refuses**: it returns an error and the tree is as before. -/
def Refused (vol : Fat32) (path data : Bytes) (dev : Device Sector BlkError) : Prop :=
  (∃ e, (exec (vol.writeFile path data) dev).1 = .error e) ∧
    vol.treeOf (exec (vol.writeFile path data) dev).2.disk = vol.treeOf dev.disk

section

variable (inv : vol.Consistent disk) (named : components path ≠ [])
  (present : vol.treeOf disk (namesOf path) = some node)
include inv named present

theorem Consistent.findOn_of_treeOf :
    ∃ dir name p, vol.resolveOn disk vol.rootCluster (components path) = .ok (dir, name) ∧
      findOn disk (vol.slots disk dir) (shortName83 name) = some p := by
  have resolves := inv.resolve_eq named
  unfold entryFrom at resolves
  cases resolved : vol.resolveOn disk vol.rootCluster (components path) with
  | error e =>
    rw [resolved] at resolves
    cases (Tree.resolve_eq_error resolves).symm.trans present
  | ok target =>
    obtain ⟨dir, name⟩ := target
    simp only [resolved] at resolves
    cases search : findOn disk (vol.slots disk dir) (shortName83 name) with
    | none =>
      rw [search] at resolves
      cases (Tree.resolve_eq_error resolves).symm.trans present
    | some p => exact ⟨dir, name, p, rfl, search⟩

theorem Consistent.not_noSlot_of_treeOf (e : FatError) : ¬ vol.NoSlot disk path e := by
  obtain ⟨dir, name, p, resolved, search⟩ := inv.findOn_of_treeOf named present
  rintro (unresolved | ⟨dir', name', resolved', noSlot⟩)
  · cases resolved.symm.trans unresolved
  · cases resolved.symm.trans resolved'
    simp only [slotFor, search] at noSlot
    cases noSlot

end

/-- **When a directory is kept.** `write_file` to the path of a directory refuses exactly when it returns
an error at all, and on a working device exactly when there are not enough free clusters for the data. -/
theorem directory_kept_iff (dev : Device Sector BlkError) (wf : vol.WellFormed dev.disk)
    (path data : Bytes) (named : components path ≠ [])
    (isDir : vol.treeOf dev.disk (namesOf path) = some .dir) :
    (Refused vol path data dev ↔ (exec (vol.writeFile path data) dev).1 ≠ .ok ()) ∧ (dev.Faultless →
      (Refused vol path data dev ↔ vol.freeClusters dev.disk < vol.clustersFor data)) := by
  have inv := wf.toConsistent
  have sound := inv.sound
  obtain ⟨dir, name, p, resolved, search⟩ := inv.findOn_of_treeOf named isDir
  have used : ∀ {dir' name'}, vol.resolveOn dev.disk vol.rootCluster (components path) =
      .ok (dir', name') → shortName83 name' 0 ≠ 0 := by
    intro dir' name' resolved'
    cases resolved.symm.trans resolved'
    obtain ⟨mem, same⟩ := findOn_some search
    rw [← same]
    exact (liveSlot_iff.mp (liveSlot_of_mem_liveOn mem)).1
  have refused : Refused vol path data dev ↔ (exec (vol.writeFile path data) dev).1 ≠ .ok () := by
    constructor
    · rintro ⟨⟨e, failed⟩, _⟩ succeeded
      cases failed.symm.trans succeeded
    · intro failed
      cases outcome : (exec (vol.writeFile path data) dev).1 with
      | ok _ => exact absurd outcome failed
      | error e =>
        have runs : Runs False _ (vol.writeFile path data) dev.disk _ _ := runs_writeFile inv used data
        exact ⟨⟨e, outcome⟩, inv.treeOf_frame (runs.of_error False.elim outcome).1⟩
  refine ⟨refused, fun working => refused.trans ?_⟩
  have runs : Runs True _ (vol.writeFile path data) dev.disk _ _ := runs_writeFile inv used data
  cases outcome : (exec (vol.writeFile path data) dev).1 with
  | ok _ =>
    obtain ⟨write, -⟩ := runs.of_ok (fun _ => working) outcome
    have enough := le_freeClusters_of_newContent sound write.content
    exact iff_of_false (not_not_intro rfl) (not_lt.mpr enough)
  | error e =>
    refine iff_of_true (by simp) ?_
    rcases (runs.of_error (fun _ => working) outcome).2 trivial with ⟨_, noSlot⟩ | ⟨_, back⟩
    · exact absurd noSlot (inv.not_noSlot_of_treeOf named isDir e)
    · exact freeClusters_lt_of_rolledBack sound back

def smallTree : Disk := (exec (smallVolume.mkdir [0x41]) (workingDevice smallDisk)).2.disk

theorem smallTree_wellFormed : smallVolume.WellFormed smallTree := by
  have plain : PlainPath [0x41] := by decide +kernel
  have runs : Runs True _ (smallVolume.perform (.mkdir [0x41]))
      (workingDevice smallDisk).disk _ _ := smallDisk_wellFormed.runs_perform plain
  have created : (exec (smallVolume.perform (.mkdir [0x41])) (workingDevice smallDisk)).1 = .ok () := rfl
  exact (runs.of_ok (fun _ _ _ => rfl) created).1

/-- No cluster is free. A byte needs one, so the directory is kept; an empty file needs none. -/
theorem directory_kept_iff_small : Refused smallVolume [0x41] [1] (workingDevice smallTree) ∧
    ¬ Refused smallVolume [0x41] [] (workingDevice smallTree) := by
  have kept (data : Bytes) := (directory_kept_iff (workingDevice smallTree) smallTree_wellFormed [0x41] data
    (by decide +kernel) (by decide +kernel)).2 fun _ _ => rfl
  rw [kept, kept]
  decide +kernel

/-- **A directory that a file replaces**: writing to the path of the directory `A` succeeds, and the
directory is gone. -/
theorem directory_replaced : smallVolume.treeOf smallTree (namesOf [0x41]) = some .dir ∧
      (exec (smallVolume.writeFile [0x41] []) (workingDevice smallTree)).1 = .ok () ∧
      smallVolume.treeOf (exec (smallVolume.writeFile [0x41] [])
        (workingDevice smallTree)).2.disk (namesOf [0x41]) = some (.file []) := by
  decide +kernel

end Fat32

end Ferros.Fat
