/-
**No cluster is leaked on a working device.**

A volume is exact when the used entries of the FAT are the clusters the tree owns and every file has
as many clusters as its size takes. A `Change` takes the clusters `Change.new` and gives back the
clusters `Change.old`; exactness says that these are all that changes.

* `exact_of_ran` — exactness over every sequence of successful operations, and a file that is written
  and removed again leaves the number of free clusters as it was.
-/

import Ferros.Fat.Atomic

namespace Ferros.Fat

open Lib List

namespace Fat32

variable (vol : Fat32) {disk image disk' : Disk} {name : Name} {data path : Bytes} {kind : Bool} {c : ℕ}

/-- **A volume without leaks.** -/
structure Exact (disk : Disk) : Prop where
  used : ∀ c, vol.validCluster c = true → (vol.nextOf disk c ≠ 0 ↔ vol.Owned disk c)
  lengths : ∀ p, vol.Reachable disk p → isDirOf (slotAt disk p) = false →
    (vol.chainAt disk p).length =
      (sizeOf (slotAt disk p) + vol.clusterBytes - 1) / vol.clusterBytes

/-- The number of clusters whose entry is 0. -/
def freeClusters (disk : Disk) : ℕ :=
  ((range vol.clusterCount).filter fun i => vol.nextOf disk (firstDataCluster + i) == 0).length

variable {vol}

/-- The clusters of the entry that a change writes. -/
def Change.new (change : vol.Change disk) : List ℕ :=
  if liveSlot change.slot then vol.chain change.mid (firstClusterOf change.slot) else []

/-- What a change has taken: its new clusters, which were free, and no others. -/
structure Change.Takes (change : vol.Change disk) : Prop where
  linked : ∀ c, vol.validCluster c = true →
    (vol.nextOf change.mid c ≠ 0 ↔ vol.nextOf disk c ≠ 0 ∨ c ∈ change.new)
  fresh : ∀ c ∈ change.new, vol.nextOf disk c = 0

/-! ### What a change owns and uses -/

theorem NodeWrite.owned_iff (inv : vol.Consistent disk) {path : List Name} {dir : ℕ} {p : Pos} {slot : Slot}
    (write : vol.NodeWrite disk path dir p slot name) (c : ℕ) :
    vol.Owned (putSlot disk p slot) c ↔
      (vol.Owned disk c ∧ ¬ (p ∈ vol.children disk dir ∧ c ∈ vol.chainAt disk p)) ∨
        (liveSlot slot ∧ c ∈ vol.chain disk (firstClusterOf slot)) := by
  constructor
  · intro owned
    by_cases isNew : liveSlot slot ∧ c ∈ vol.chain disk (firstClusterOf slot)
    · exact .inr isNew
    · refine .inl ⟨?_, fun ⟨wasChild, inOld⟩ =>
        write.old_unowned inv (write.isDir.reachable wasChild) c inOld owned⟩
      rcases owned with inRoot | ⟨q, reachable, inChain⟩
      · rw [write.chain_eq inv] at inRoot
        exact .inl inRoot
      · rcases write.reachable_after inv reachable with ⟨rfl, isLive, _⟩ | ⟨ne, was⟩
        · rw [write.chainAt_same inv] at inChain
          exact absurd ⟨isLive, inChain⟩ isNew
        · rw [write.chainAt_other inv ne] at inChain
          exact .inr ⟨q, was, inChain⟩
  · rintro (⟨inRoot | ⟨q, reachable, inChain⟩, kept⟩ | ⟨isLive, inNew⟩)
    · exact .inl (by rw [write.chain_eq inv]; exact inRoot)
    · by_cases same : q = p
      · subst same
        obtain ⟨path', dir', isDir', mem⟩ := reachable
        obtain ⟨rfl, rfl⟩ := inv.dirAt_unique_slot isDir' write.isDir
          (mem_slots_of_mem_children mem) write.mem_slots
        exact absurd ⟨mem, inChain⟩ kept
      · refine .inr ⟨q, write.reachable_before inv write.empty same reachable, ?_⟩
        rw [write.chainAt_other inv same]
        exact inChain
    · refine .inr ⟨p, (write.dirAt_dir inv).reachable
        ((write.mem_children inv write.isDir p).mpr
          (.inl ⟨rfl, rfl, isLive, (write.new isLive).2⟩)), ?_⟩
      rw [write.chainAt_same inv]
      exact inNew

section Change

variable (inv : vol.Consistent disk) (change : vol.Change disk)
include inv

omit inv in
theorem Change.mem_old_iff (c : ℕ) :
    c ∈ change.old ↔ change.p ∈ vol.children disk change.dir ∧ c ∈ vol.chainAt disk change.p := by
  unfold old
  split
  · exact ⟨fun mem => ⟨‹_›, mem⟩, And.right⟩
  · exact ⟨fun mem => absurd mem not_mem_nil, fun both => absurd both.1 ‹_›⟩

theorem Change.old_used (mem : c ∈ change.old) : vol.validCluster c ∧ vol.nextOf disk c ≠ 0 := by
  obtain ⟨wasChild, inChain⟩ := (change.mem_old_iff c).mp mem
  exact inv.owned_valid (.inr ⟨_, (change.isDir inv).reachable wasChild, inChain⟩)

/-- **What is owned after a change.** -/
theorem Change.owned_after_iff
    (write : vol.NodeWrite change.mid change.names change.dir change.p change.slot name) (c : ℕ) :
    vol.Owned change.after c ↔ (vol.Owned disk c ∧ c ∉ change.old) ∨ c ∈ change.new := by
  have isDir := change.isDir inv
  have children := inv.children_frame change.before isDir
  have old : (change.p ∈ vol.children change.mid change.dir ∧ c ∈ vol.chainAt change.mid change.p) ↔
      c ∈ change.old := by
    rw [change.mem_old_iff, children]
    exact and_congr_right fun wasChild => by
      rw [inv.chainAt_frame change.before (isDir.reachable wasChild)]
  have new : (liveSlot change.slot ∧ c ∈ vol.chain change.mid (firstClusterOf change.slot)) ↔
      c ∈ change.new := by
    unfold Change.new
    split
    · exact ⟨And.right, fun mem => ⟨‹_›, mem⟩⟩
    · exact ⟨fun both => absurd both.1 ‹_›, fun mem => absurd mem not_mem_nil⟩
  refine (write.owned_iff (change.consistent_mid inv) c).trans ?_
  rw [old, new, inv.owned_frame change.before]

/-- **What is used after a change** that has released what it replaced. -/
theorem Change.nextOf_freed (takes : change.Takes) (valid : vol.validCluster c) :
    vol.nextOf (vol.freed change.after change.old) c ≠ 0 ↔
      (vol.nextOf disk c ≠ 0 ∧ c ∉ change.old) ∨ c ∈ change.new := by
  have sound := inv.sound
  have validOld : ∀ x ∈ change.old, vol.validCluster x := fun x mem => (change.old_used inv mem).1
  by_cases isOld : c ∈ change.old
  · rw [Fat32.nextOf_freed sound validOld _ c isOld]
    refine ⟨fun never => absurd rfl never, ?_⟩
    rintro (⟨_, notOld⟩ | isNew)
    · exact absurd isOld notOld
    · exact absurd (takes.fresh c isNew) (change.old_used inv isOld).2
  · have kept : vol.nextOf change.after c = vol.nextOf change.mid c :=
      nextOf_putSlot sound change.write.data valid
    rw [(fatAgree_freed sound validOld _).next c valid isOld, kept, takes.linked c valid]
    simp only [isOld, not_false_eq_true, and_true]

/-- **A change keeps a volume exact.** -/
theorem Change.exact (exact : vol.Exact disk) (takes : change.Takes)
    (write : vol.NodeWrite change.mid change.names change.dir change.p change.slot name)
    (length : liveSlot change.slot → isDirOf change.slot = false →
      change.new.length = (sizeOf change.slot + vol.clusterBytes - 1) / vol.clusterBytes) :
    vol.Exact (vol.freed change.after change.old) := by
  have sound := inv.sound
  have after := change.consistent_after inv
  have agree : vol.AgreeOn (vol.Owned change.after) change.after
      (vol.freed change.after change.old) :=
    change.released inv
      (fatAgree_freed sound (fun x mem => (change.old_used inv mem).1) _)
  constructor
  · intro c valid
    rw [change.nextOf_freed inv takes valid, after.owned_frame agree,
      change.owned_after_iff inv write, exact.used c valid]
  · intro q reachable' file
    have reachable := (after.reachable_frame agree).mp reachable'
    rw [after.slotAt_frame agree reachable] at file ⊢
    rw [after.chainAt_frame agree reachable]
    unfold Change.after at reachable file ⊢
    have mid := change.consistent_mid inv
    rcases change.write.reachable_after mid reachable with ⟨rfl, isLive, _⟩ | ⟨ne, was⟩
    · rw [slotAt_putSlot_same] at file ⊢
      rw [change.write.chainAt_same mid, ← length isLive file, Change.new, if_pos isLive]
    · rw [slotAt_putSlot_other ne] at file ⊢
      have wasReachable := (inv.reachable_frame change.before).mp was
      rw [change.write.chainAt_other mid ne, inv.chainAt_frame change.before wasReachable]
      rw [inv.slotAt_frame change.before wasReachable] at file ⊢
      exact exact.lengths q wasReachable file

end Change

/-! ### The operations -/

section

variable (sound : vol.Sound)
include sound

/-- A chain that was built aside uses its own clusters and no others. -/
theorem Built.linked {l : List ℕ} {linked mid : Disk} (built : vol.Built disk l linked)
    (agree : vol.DataAgree l linked mid) (valid : vol.validCluster c) :
    vol.nextOf mid c ≠ 0 ↔ vol.nextOf disk c ≠ 0 ∨ c ∈ l := by
  obtain ⟨isChain, fresh, before⟩ := built.spec sound
  rw [agree.nextOf sound valid]
  by_cases isNew : c ∈ l
  · exact ⟨fun _ => .inr isNew, fun _ => isChain.next_ne_zero c isNew⟩
  · rw [before.next c valid isNew]
    simp only [isNew, or_false]

theorem FileWrite.new_eq (write : vol.FileWrite disk path data) (plain : PlainPath path) :
    write.new = vol.chain write.mid write.first := by
  unfold Change.new
  rw [if_pos (write.slot_live plain), write.firstClusterOf_slot sound]

theorem FileWrite.takes (write : vol.FileWrite disk path data) (plain : PlainPath path) :
    write.toChange.Takes := by
  have new := write.new_eq sound plain
  rcases write.content with ⟨_, zero, same⟩ | ⟨l, linked, _, built, head, agree, _⟩
  · rw [zero, chain_of_invalid not_valid_zero] at new
    constructor
    · intro c _
      rw [new, same]
      simp only [not_mem_nil, or_false]
    · rw [new]
      exact forall_mem_nil _
  · rw [head, (built.isChain_data sound agree).chain_eq sound] at new
    constructor
    · intro c valid
      rw [new]
      exact built.linked sound agree valid
    · rw [new]
      exact fun c mem => ((built.spec sound).2.1 c mem).2

theorem DirMake.takes (make : vol.DirMake disk path) (plain : PlainPath path) : make.toChange.Takes := by
  have isChain := make.content.isChain sound
  obtain ⟨linked, built, agree⟩ := make.content.built
  have small : make.cluster < 2 ^ 32 := by
    have below := sound.cluster_lt (isChain.valid _ (mem_singleton_self _))
    omega
  have new : make.new = [make.cluster] := by
    unfold Change.new
    rw [if_pos (make.slot_live plain), make.slot_eq, firstClusterOf_fillDirEntry _ _ _ _ _ small,
      isChain.chain_eq sound]
  constructor
  · intro c valid
    rw [new]
    exact built.linked sound agree valid
  · rw [new]
    exact fun c mem => ((built.spec sound).2.1 c mem).2

end

theorem Removal.new_eq (gone : vol.Removal disk path kind) : gone.new = [] := by
  unfold Change.new
  rw [gone.slot_eq, not_liveSlot_deleted]
  rfl

theorem Removal.takes (gone : vol.Removal disk path kind) : gone.toChange.Takes := by
  constructor
  · intro c _
    rw [gone.new_eq, gone.mid_eq]
    simp only [not_mem_nil, or_false]
  · rw [gone.new_eq]
    exact forall_mem_nil _

theorem FileWrite.exact (write : vol.FileWrite disk path data) (wf : vol.WellFormed disk)
    (exact : vol.Exact disk) (plain : PlainPath path) (small : data.length < 2 ^ 32)
    (notDir : vol.treeOf disk (namesOf path) ≠ some .dir) : vol.Exact (vol.freed write.after write.old) := by
  have inv := wf.toConsistent
  have sound := inv.sound
  refine write.toChange.exact inv exact (write.takes sound plain) (write.nodeWrite inv notDir) fun _ _ => ?_
  rw [write.new_eq sound plain, write.sizeOf_slot small, (write.content.holds small sound).1,
    clustersFor_eq small]

/-- `mkdir` replaces no entry. -/
theorem DirMake.old_eq (make : vol.DirMake disk path) : make.old = [] :=
  if_neg (not_mem_children_of_freeOn make.located)

theorem DirMake.exact (make : vol.DirMake disk path) (wf : vol.WellFormed disk) (exact : vol.Exact disk)
    (plain : PlainPath path) : vol.Exact make.after := by
  have inv := wf.toConsistent
  have released := make.toChange.exact inv exact (make.takes inv.sound plain)
    (make.nodeWrite inv) fun _ file => by
      rw [make.isDirOf_slot] at file
      cases file
  rw [make.old_eq] at released
  exact released

theorem Removal.exact (gone : vol.Removal disk path kind) (wf : vol.WellFormed disk) (exact : vol.Exact disk)
    (empty : isDirOf (slotAt disk gone.p) → vol.children disk (firstClusterOf (slotAt disk gone.p)) = []) :
    vol.Exact (vol.freed gone.after gone.old) :=
  gone.toChange.exact wf.toConsistent exact gone.takes
    (gone.nodeWrite wf.toConsistent empty)
    fun isLive => absurd isLive (Bool.eq_false_iff.mp gone.slot_dead)

/-- **A successful operation on a working device keeps a volume exact.** -/
theorem Exact.runs_perform (exact : vol.Exact disk) (wf : vol.WellFormed disk) {op : Op}
    (admissible : op.Admissible (vol.treeOf disk)) :
    Runs True (vol.Safe disk) (vol.perform op) disk (fun _ image => vol.Exact image) (fun _ _ => True) := by
  have inv := wf.toConsistent
  cases op with
  | writeFile path data =>
    obtain ⟨plain, small, notDir⟩ := admissible
    refine (runs_writeFile inv (used_of_clean plain.clean) data).mono (fun _ safe => safe) ?_
      fun _ _ _ => trivial
    rintro _ image ⟨write, _, working⟩
    rw [working trivial]
    exact write.exact wf exact plain small notDir
  | mkdir path =>
    refine (runs_mkdir inv (PlainPath.clean admissible)).mono (fun _ safe => safe) ?_ fun _ _ _ => trivial
    rintro _ _ ⟨make, rfl⟩
    exact make.exact wf exact admissible
  | unlink path =>
    refine (runs_unlink inv).mono (fun _ safe => safe) ?_ fun _ _ _ => trivial
    rintro _ _ ⟨gone, _, rfl⟩
    refine gone.exact wf exact fun flag => ?_
    rw [gone.kind_eq] at flag
    cases flag
  | rmdir path =>
    refine (runs_rmdir inv).mono (fun _ safe => safe) ?_ fun _ _ _ => trivial
    rintro _ _ ⟨gone, dots, _, rfl⟩
    exact gone.exact wf exact fun flag => wf.children_of_listsDots
      (.child (gone.isDir inv) gone.wasChild flag) dots

/-! ### Sequences of operations -/

variable (vol) in
/-- The images that successful operations on a working device lead to. -/
inductive Ran (disk : Disk) : Disk → Prop
  | start : Ran disk disk
  | step {image : Disk} (before : Ran disk image) (op : Op)
      (admissible : op.Admissible (vol.treeOf image))
      (succeeds : answer (vol.perform op) image = .ok ()) :
      Ran disk (leaves (vol.perform op) image)

/-- The outcome of a successful operation on a working device. -/
theorem post_of_answer {m : FatM Unit} {crash : Disk → Prop} {post : Unit → Disk → Prop}
    {fail : FatError → Disk → Prop} (runs : Runs True crash m image post fail)
    (succeeds : answer m image = .ok ()) : post () (leaves m image) := by
  obtain ⟨_, _, outcome⟩ := runs (Device.start image fun _ _ => none) rfl fun _ _ _ => rfl
  unfold answer at succeeds
  rw [succeeds] at outcome
  exact outcome

theorem Ran.keeps (ran : vol.Ran disk image) (wf : vol.WellFormed disk) (exact : vol.Exact disk) :
    vol.WellFormed image ∧ vol.Exact image := by
  induction ran with
  | start => exact ⟨wf, exact⟩
  | step before op admissible succeeds ih =>
    exact ⟨(post_of_answer (ih.1.runs_perform admissible) succeeds).1,
      post_of_answer (ih.2.runs_perform ih.1 admissible) succeeds⟩

/-! ### Writing and removing a file -/

section

variable (write : vol.FileWrite disk path data) (inv : vol.Consistent disk)
  (absent : vol.treeOf disk (namesOf path) = none)
include inv absent

/-- A file with a new name replaces nothing. -/
theorem FileWrite.old_eq : write.old = [] := by
  refine if_neg fun wasChild => ?_
  have found := inv.treeOf_child (write.isDir inv) wasChild
  rw [name_of_located write.located wasChild, ← write.path_eq] at found
  rw [namesOf, found] at absent
  cases absent

theorem FileWrite.removed_eq (plain : PlainPath path) (gone : vol.Removal write.after path false) :
    gone.old = write.new := by
  have notDir : vol.treeOf disk (namesOf path) ≠ some .dir := by
    rw [absent]
    exact nofun
  have mid := write.consistent_mid inv
  have after := write.consistent_after inv
  have nodeWrite := write.nodeWrite inv notDir
  have isLive := write.slot_live plain
  have isDir : vol.DirAt write.after write.names write.dir := nodeWrite.dirAt_dir mid
  obtain ⟨sameNames, sameName⟩ := append_inj' (write.path_eq.symm.trans gone.path_eq) rfl
  have sameDir : gone.dir = write.dir := by
    have goneDir := gone.isDir after
    rw [← sameNames] at goneDir
    exact after.dirAt_functional goneDir isDir
  have written : write.p ∈ vol.children write.after write.dir :=
    (nodeWrite.mem_children mid nodeWrite.isDir write.p).mpr
      (.inl ⟨rfl, rfl, isLive, (nodeWrite.new isLive).2⟩)
  have samePos : gone.p = write.p := by
    have wasChild := gone.wasChild
    rw [sameDir] at wasChild
    refine after.names _ _ isDir _ (mem_of_mem_filter wasChild) _ (mem_of_mem_filter written) ?_
    have committed : slotAt write.after write.p = write.slot := slotAt_putSlot_same _ _ _
    rw [(findOn_some gone.located).2, committed, write.nameOf_slot]
    exact (cons.inj sameName).1.symm
  have chains : vol.chainAt write.after write.p = write.new := by
    unfold Change.new
    rw [if_pos isLive]
    exact write.write.chainAt_same mid
  unfold Change.old
  rw [if_pos gone.wasChild, samePos, chains]

/-- Every cluster that was free is free again. -/
theorem FileWrite.nextOf_removed (plain : PlainPath path) (gone : vol.Removal write.after path false)
    (valid : vol.validCluster c) :
    vol.nextOf (vol.freed gone.after gone.old) c ≠ 0 ↔ vol.nextOf disk c ≠ 0 := by
  have takes := write.takes inv.sound plain
  have first := write.nextOf_freed inv takes valid
  rw [write.old_eq inv absent] at first
  change vol.nextOf write.after c ≠ 0 ↔ _ at first
  rw [gone.nextOf_freed (write.consistent_after inv) gone.takes valid, first, gone.new_eq,
    write.removed_eq inv absent plain gone]
  have fresh := takes.fresh c
  simp only [not_mem_nil, not_false_eq_true, and_true, or_false]
  exact ⟨fun both => both.1.resolve_right both.2, fun used => ⟨.inl used, fun isNew => used (fresh isNew)⟩⟩

end

theorem freeClusters_congr (same : ∀ c, vol.validCluster c → (vol.nextOf disk' c ≠ 0 ↔ vol.nextOf disk c ≠ 0)) :
    vol.freeClusters disk' = vol.freeClusters disk := by
  unfold freeClusters
  refine congrArg length (filter_congr fun i mem => ?_)
  have valid : vol.validCluster (firstDataCluster + i) := by
    rw [validCluster_iff]
    have below := mem_range.mp mem
    unfold firstDataCluster
    omega
  rw [Bool.eq_iff_iff, beq_iff_eq, beq_iff_eq]
  exact not_iff_not.mp (same _ valid)

/-- **No cluster is leaked on a working device.** Every sequence of successful operations leaves an
exact volume exact after each of them, and writing a file under a new name and removing it again
restores the number of free clusters. -/
theorem exact_of_ran (wf : vol.WellFormed disk) (exact : vol.Exact disk) :
    (∀ image, vol.Ran disk image → vol.Exact image) ∧
    ∀ path data : Bytes, PlainPath path → data.length < 2 ^ 32 → vol.treeOf disk (namesOf path) = none →
      answer (vol.writeFile path data) disk = .ok () →
      answer (vol.unlink path) (leaves (vol.writeFile path data) disk) = .ok () →
      vol.freeClusters (leaves (vol.unlink path) (leaves (vol.writeFile path data) disk)) =
        vol.freeClusters disk := by
  have inv := wf.toConsistent
  refine ⟨fun image ran => (ran.keeps wf exact).2, ?_⟩
  intro path data plain small absent wrote removed
  obtain ⟨write, _, working⟩ := post_of_answer (runs_writeFile inv (used_of_clean plain.clean) data) wrote
  have written := working trivial
  rw [write.old_eq inv absent] at written
  change leaves (vol.writeFile path data) disk = write.after at written
  rw [written] at removed ⊢
  obtain ⟨gone, _, image⟩ := post_of_answer (runs_unlink (write.consistent_after inv)) removed
  rw [image]
  exact freeClusters_congr fun c valid => write.nextOf_removed inv absent plain gone valid

/-- An entry of a blank sector is 0. -/
theorem nextOf_blank (vol : Fat32) (c : ℕ) : vol.nextOf (fun _ _ => 0) c = 0 := by
  have zero : rawEntry (fun _ => 0) c = 0 := by
    unfold rawEntry readU32
    rfl
  unfold nextOf
  rw [zero]
  rfl

/-- A formatted volume has no leaks. -/
theorem exact_formatted (sound : vol.Sound) (valid : vol.validCluster vol.rootCluster) :
    vol.Exact (vol.formatted fun _ _ => 0) := by
  have zero : ∀ p ∈ vol.slots (vol.formatted fun _ _ => 0) vol.rootCluster, _ :=
    zero_formatted sound valid fun _ _ => rfl
  refine ⟨fun c validC => ?_, fun p reachable => absurd reachable (not_reachable_of_formatted zero p)⟩
  have root : vol.chain (vol.formatted fun _ _ => 0) vol.rootCluster = [vol.rootCluster] :=
    (isChain_formatted sound valid).chain_eq sound
  have owned : vol.Owned (vol.formatted fun _ _ => 0) c ↔ c = vol.rootCluster := by
    unfold Owned
    rw [root, mem_singleton]
    refine or_iff_left ?_
    rintro ⟨p, reachable, _⟩
    exact not_reachable_of_formatted zero p reachable
  rw [owned, formatted, nextOf_putCopies sound valid validC, nextOf_blank]
  by_cases same : c = vol.rootCluster
  · rw [if_pos ⟨same, vol.numFats_pos⟩]
    exact iff_of_true (by decide) same
  · rw [if_neg fun both => same both.1]
    exact iff_of_false (fun never => never rfl) same

theorem smallDisk_exact : smallVolume.Exact smallDisk := exact_formatted smallVolume_sound (by decide)

/-- Writing the file `A` on the small volume and removing it again. -/
theorem exact_of_ran_small : smallVolume.freeClusters (leaves (smallVolume.unlink [0x41])
      (leaves (smallVolume.writeFile [0x41] [1, 2]) smallDisk)) = smallVolume.freeClusters smallDisk :=
  (exact_of_ran smallDisk_wellFormed smallDisk_exact).2 [0x41] [1, 2] (by decide +kernel) (by decide)
    (by decide +kernel) rfl rfl

end Fat32

end Ferros.Fat
