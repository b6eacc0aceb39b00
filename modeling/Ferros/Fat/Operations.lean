/-
**The four operations that change the tree, under any faults.**

`write_file`, `mkdir`, `unlink` and `rmdir` all have one shape: something is built aside, in clusters
that no entry owns (`Change.before`); one slot of one directory is written (`Change.write`); and what
the slot owned before is released. A `Change` records the first two steps with what makes them safe.

* `runs_writeFile`, `runs_mkdir`, `runs_unlink`, `runs_rmdir` — every image such an operation leaves
  agrees with the old tree, or with the tree after its one `Change`, on all that this tree owns.
-/

import Ferros.Fat.Content

namespace Ferros.Fat

open Lib List Option

namespace Fat32

variable (vol : Fat32) {kind : Bool} {working : Prop} {disk image mid : Disk} {names : List Name}
  {dir parent cluster first size : ℕ} {name : Name} {p : Pos} {path data : Bytes} {entry : Slot}

/-! ### The shape of an operation -/

/-- A slot of a directory that the entry of a name goes to. -/
structure Target (disk : Disk) (names : List Name) (dir : ℕ) (name : Name) (p : Pos) : Prop where
  isDir : vol.DirAt disk names dir
  place : ∃ front back, vol.slots disk dir = front ++ p :: back ∧
    ∀ q ∈ front, slotAt disk q 0 ≠ 0x00
  fresh : ∀ q ∈ vol.live disk dir, q ≠ p → nameOf (slotAt disk q) ≠ name

/-- **One change of the tree**: what is built aside, and the slot that is written then. -/
structure Change (disk : Disk) where
  names : List Name
  dir : ℕ
  p : Pos
  slot : Slot
  mid : Disk
  before : vol.AgreeOn (vol.Owned disk) disk mid
  write : vol.SlotWrite mid names dir p slot

variable {vol}

/-- The image right after the slot was written. -/
def Change.after (change : vol.Change disk) : Disk := putSlot change.mid change.p change.slot

/-- The clusters of the entry that was in the slot before. -/
def Change.old (change : vol.Change disk) : List ℕ :=
  if change.p ∈ vol.children disk change.dir then vol.chainAt disk change.p else []

section Change

variable (inv : vol.Consistent disk) (change : vol.Change disk)
include inv

theorem Change.consistent_mid : vol.Consistent change.mid := inv.frame change.before

theorem Change.consistent_after : vol.Consistent change.after :=
  (change.consistent_mid inv).putSlot change.write

/-- **Every image that keeps what the new tree owns is consistent.** -/
theorem Change.consistent_image (agree : vol.AgreeOn (vol.Owned change.after) change.after image) :
    vol.Consistent image :=
  (change.consistent_after inv).frame agree

theorem Change.isDir : vol.DirAt disk change.names change.dir :=
  (inv.dirAt_frame change.before).mp change.write.isDir

theorem Change.mem_slots : change.p ∈ vol.slots disk change.dir := by
  rw [← (inv.slots_frame change.before (change.isDir inv)).1]
  exact change.write.mem_slots

theorem Change.slotAt_mid : slotAt change.mid change.p = slotAt disk change.p :=
  (inv.slots_frame change.before (change.isDir inv)).2 _ (change.mem_slots inv)

/-- What the slot owned before is owned by nothing after the change. -/
theorem Change.old_unowned : ∀ x ∈ change.old, ¬ vol.Owned change.after x := by
  intro x mem
  unfold old at mem
  split at mem
  · rename_i wasChild
    have reachable := (change.isDir inv).reachable wasChild
    rw [← inv.chainAt_frame change.before reachable] at mem
    exact change.write.old_unowned (change.consistent_mid inv)
      ((inv.reachable_frame change.before).mpr reachable) x mem
  · cases mem

/-- Releasing what the slot owned, however far it gets, keeps what the new tree owns. -/
theorem Change.released (agree : vol.FatAgree (· ∉ change.old) change.after image) :
    vol.AgreeOn (vol.Owned change.after) change.after image :=
  agree.agreeOn.mono fun x _ owned mem => change.old_unowned inv x mem owned

/-- The released clusters still form a chain after the change. -/
theorem Change.walk_old (wasChild : change.p ∈ vol.children disk change.dir) :
    vol.Walk change.after (firstClusterOf (slotAt disk change.p)) change.old ∧
      change.old.Nodup ∧ change.old.length ≤ vol.clusterCount := by
  have reachable := (change.isDir inv).reachable wasChild
  unfold old
  rw [if_pos wasChild]
  unfold chainAt
  rcases inv.entries _ reachable with ⟨_, zero⟩ | hasChain
  · rw [zero, chain_of_invalid not_valid_zero]
    exact ⟨not_valid_zero, nodup_nil, Nat.zero_le _⟩
  · obtain ⟨same, kept⟩ := hasChain.frame inv change.before fun x mem =>
      .inr ⟨_, reachable, mem⟩
    have later := (change.write.hasChain (change.consistent_mid inv) kept).2
    rw [change.write.chain_eq (change.consistent_mid inv), same] at later
    exact ⟨later.walk inv.sound, later.nodup inv.sound, later.length_le inv.sound⟩

end Change

/-- **A slot write from its parts**: the slot is chosen on the old image, the new entry is built
aside in free clusters. -/
theorem Target.slotWrite (inv : vol.Consistent disk) (target : vol.Target disk names dir name p)
    (before : vol.AgreeOn (vol.Owned disk) disk mid) {slot : Slot} (first : slot 0 ≠ 0x00)
    (named : liveSlot slot → nameOf slot = name)
    (entry : liveSlot slot → (isDirOf slot = false ∧ firstClusterOf slot = 0) ∨
      (vol.HasChain mid (firstClusterOf slot) ∧
        ∀ x ∈ vol.chain mid (firstClusterOf slot), vol.nextOf disk x = 0))
    (newDir : liveSlot slot → isDirOf slot → vol.children mid (firstClusterOf slot) = [] ∧
      (∀ q ∈ vol.live mid (firstClusterOf slot), ∀ r ∈ vol.live mid (firstClusterOf slot),
        nameOf (slotAt mid q) = nameOf (slotAt mid r) → q = r) ∧
      TailZero mid (vol.slots mid (firstClusterOf slot))) : vol.SlotWrite mid names dir p slot := by
  obtain ⟨sameSlots, sameContent⟩ := inv.slots_frame before target.isDir
  refine ⟨(inv.dirAt_frame before).mpr target.isDir, ?_, first, ?_, ?_, newDir⟩
  · obtain ⟨front, back, split, used⟩ := target.place
    refine ⟨front, back, sameSlots.trans split, fun q mem => ?_⟩
    rw [sameContent q (by rw [split]; exact mem_append_left _ mem)]
    exact used q mem
  · intro isLive q mem ne
    rw [inv.live_frame before target.isDir] at mem
    rw [sameContent q (mem_of_mem_liveOn mem), named isLive]
    exact target.fresh q mem ne
  · intro isLive
    refine (entry isLive).imp_right fun new => ⟨new.1, fun x mem owned => ?_⟩
    exact (inv.owned_valid ((inv.owned_frame before).mp owned)).2 (new.2 x mem)

theorem mem_children_of_findOn {comp : Bytes}
    (search : findOn disk (vol.slots disk dir) (shortName83 comp) = some p) : p ∈ vol.children disk dir := by
  obtain ⟨mem, named⟩ := findOn_some search
  refine mem_filter.mpr ⟨mem, ?_⟩
  unfold dotSlot
  rw [named, beq_eq_false_iff_ne.mpr (shortName83_ne_dot comp),
    beq_eq_false_iff_ne.mpr (shortName83_ne_dotdot comp)]
  rfl

theorem not_mem_children_of_freeOn (free : freeOn disk (vol.slots disk dir) = some p) :
    p ∉ vol.children disk dir := by
  intro wasChild
  have isLive := liveSlot_iff.mp (liveSlot_of_mem_liveOn (mem_of_mem_filter wasChild))
  rcases (freeOn_some free).1 with zero | mark
  · exact isLive.1 zero
  · exact isLive.2.1 mark

theorem target_of_findOn (inv : vol.Consistent disk) (isDir : vol.DirAt disk names dir)
    (search : findOn disk (vol.slots disk dir) name = some p) : vol.Target disk names dir name p := by
  obtain ⟨mem, named⟩ := findOn_some search
  refine ⟨isDir, place_of_mem_liveOn mem, fun q memberQ ne same => ne ?_⟩
  exact inv.names names dir isDir q memberQ p mem (same.trans named.symm)

theorem target_of_freeOn (isDir : vol.DirAt disk names dir)
    (search : findOn disk (vol.slots disk dir) name = none) (free : freeOn disk (vol.slots disk dir) = some p) :
    vol.Target disk names dir name p :=
  ⟨isDir, (freeOn_some free).2, fun q mem _ => findOn_none search q mem⟩

/-- **Where a path leads.** -/
theorem resolveOn_dirAt {comps : List Bytes} {name : Bytes}
    (isDir : vol.DirAt disk names dir) (resolved : vol.resolveOn disk dir comps = .ok (parent, name)) :
    ∃ names', vol.DirAt disk names' parent ∧ name ∈ comps ∧
      names ++ comps.map shortName83 = names' ++ [shortName83 name] := by
  induction comps generalizing names dir with
  | nil => cases resolved
  | cons comp rest ih =>
    cases rest with
    | nil =>
      cases resolved
      exact ⟨names, isDir, mem_singleton_self _, rfl⟩
    | cons second rest =>
      rw [resolveOn] at resolved
      · cases search : findOn disk (vol.slots disk dir) (shortName83 comp) with
        | none => rw [search] at resolved; cases resolved
        | some p =>
          simp only [search] at resolved
          split at resolved
          · rename_i flag
            obtain ⟨names', isDir', mem, same⟩ :=
              ih (.child isDir (mem_children_of_findOn search) flag) resolved
            refine ⟨names', isDir', mem_cons_of_mem _ mem, ?_⟩
            rw [← same, (findOn_some search).2, append_assoc]
            rfl
          · cases resolved
      · exact cons_ne_nil _ _

/-! ### New entries -/

theorem isDirOf_archive : isDirOf (fillDirEntry entry name attrArchive first size) = false := by
  unfold isDirOf
  rw [attrOf_fillDirEntry]
  decide

theorem isDirOf_directory : isDirOf (fillDirEntry entry name attrDirectory first size) := by
  unfold isDirOf
  rw [attrOf_fillDirEntry]
  decide

/-- A written entry is live unless its name begins like a deleted one. -/
theorem liveSlot_fill {attr : UInt8} (notSkipped : skipped attr = false) (used : name 0 ≠ 0x00) :
    liveSlot (fillDirEntry entry name attr first size) ↔ name 0 ≠ 0xE5 := by
  rw [liveSlot_iff, fillDirEntry_zero, attrOf_fillDirEntry]
  exact ⟨fun both => both.2.1, fun kept => ⟨used, kept, notSkipped⟩⟩

theorem Built.ne_nil {l : List ℕ} (built : vol.Built disk l image) : l ≠ [] := by
  cases built with
  | single valid free => exact cons_ne_nil _ _
  | extend built valid free => exact append_ne_nil_of_right_ne_nil _ (cons_ne_nil _ _)

/-- The chain of new content was free before. -/
theorem NewContent.ownChain (sound : vol.Sound) (new : vol.NewContent disk data first mid) :
    first = 0 ∨ (vol.HasChain mid first ∧ ∀ x ∈ vol.chain mid first, vol.nextOf disk x = 0) := by
  rcases new with ⟨_, zero, _⟩ | ⟨l, linked, _, built, rfl, agree, _⟩
  · exact .inl zero
  · have isChain := built.isChain_data sound agree
    refine .inr ⟨isChain.hasChain sound built.ne_nil, ?_⟩
    rw [isChain.chain_eq sound]
    exact fun x mem => ((built.spec sound).2.1 x mem).2

theorem NewContent.first_lt (sound : vol.Sound) (new : vol.NewContent disk data first mid) :
    first < 2 ^ 32 := by
  rcases new.ownChain sound with zero | ⟨hasChain, _⟩
  · omega
  · have small := sound.cluster_lt hasChain.1
    omega

theorem Consistent.agree_owned (inv : vol.Consistent disk)
    (agree : vol.AgreeOn (vol.Used disk) disk image) :
    vol.AgreeOn (vol.Owned disk) disk image :=
  agree.mono fun _ _ owned => (inv.owned_valid owned).2

variable (vol) in
/-- An image that a crash may leave: all that the old tree owns is in place, or all that the tree
after one change owns. -/
def Safe (disk image : Disk) : Prop :=
  vol.AgreeOn (vol.Owned disk) disk image ∨
    ∃ change : vol.Change disk, vol.AgreeOn (vol.Owned change.after) change.after image

theorem Safe.consistent (safe : vol.Safe disk image) (inv : vol.Consistent disk) : vol.Consistent image := by
  rcases safe with agree | ⟨change, agree⟩
  · exact inv.frame agree
  · exact change.consistent_image inv agree

/-! ### `write_file` -/

variable (vol) in
/-- A change in the directory that a path leads to, at the last name of the path. -/
structure PathChange (disk : Disk) (path : Bytes) extends vol.Change disk where
  name : Bytes
  resolved : vol.resolveOn disk vol.rootCluster (components path) = .ok (dir, name)
  path_eq : (components path).map shortName83 = names ++ [shortName83 name]

variable (vol) in
/-- **The change `write_file` makes.** -/
structure FileWrite (disk : Disk) (path data : Bytes) extends vol.PathChange disk path where
  first : ℕ
  located : findOn disk (vol.slots disk dir) (shortName83 name) = some p ∨
    (findOn disk (vol.slots disk dir) (shortName83 name) = none ∧
      freeOn disk (vol.slots disk dir) = some p)
  content : vol.NewContent disk data first mid
  slot_eq : slot = fillDirEntry (slotAt disk p) (shortName83 name) attrArchive first
    (data.length % 2 ^ 32)

/-- The change of `write_file` from what its first steps found. -/
def fileWrite (inv : vol.Consistent disk) {name : Bytes} (used : shortName83 name 0 ≠ 0)
    (resolved : vol.resolveOn disk vol.rootCluster (components path) = .ok (dir, name))
    (path_eq : (components path).map shortName83 = names ++ [shortName83 name])
    (target : vol.Target disk names dir (shortName83 name) p)
    (located : findOn disk (vol.slots disk dir) (shortName83 name) = some p ∨
      (findOn disk (vol.slots disk dir) (shortName83 name) = none ∧
        freeOn disk (vol.slots disk dir) = some p))
    (content : vol.NewContent disk data first mid) : vol.FileWrite disk path data where
  names
  dir
  p
  slot := fillDirEntry (slotAt disk p) (shortName83 name) attrArchive first (data.length % 2 ^ 32)
  mid
  before := inv.agree_owned (content.agree inv.sound)
  write := by
    refine target.slotWrite inv (inv.agree_owned (content.agree inv.sound))
      (by rw [fillDirEntry_zero]; exact used) (fun _ => nameOf_fillDirEntry _ _ _ _ _)
      (fun _ => ?_) fun _ isDir => by rw [isDirOf_archive] at isDir; cases isDir
    rw [firstClusterOf_fillDirEntry _ _ _ _ _ (content.first_lt inv.sound)]
    exact (content.ownChain inv.sound).imp_left fun zero => ⟨isDirOf_archive, zero⟩
  name
  first
  resolved
  path_eq
  located
  content
  slot_eq := rfl

/-- **The rollback**: a chain that was built aside is given back, and the error is passed on. -/
theorem runs_giveBack {α : Type} (inv : vol.Consistent disk)
    (aside : vol.AgreeOn (vol.Owned disk) disk mid) (hasChain : vol.HasChain mid first)
    (fresh : ∀ x ∈ vol.chain mid first, vol.nextOf disk x = 0) (e : FatError) (broken : ¬ working) :
    Runs working (vol.Safe disk) (do let _ ← attempt (vol.freeChain first); throw e : FatM α)
      mid (fun _ _ => False) (fun _ image => ¬ working ∧ vol.AgreeOn (vol.Owned disk) disk image) := by
  have sound := inv.sound
  have released : ∀ image, vol.FatAgree (· ∉ vol.chain mid first) mid image →
      vol.AgreeOn (vol.Owned disk) disk image := fun image agree =>
    aside.trans (agree.agreeOn.mono fun c _ owned mem =>
      (inv.owned_valid owned).2 (fresh c mem))
  refine Runs.bind (Runs.attempt ((runs_freeChain sound hasChain.2).mono
    (fun image agree => .inl (released image agree)) (fun _ _ same => same)
    fun _ _ fails => fails)) ?_
  intro outcome image result
  refine Runs.throw ⟨broken, ?_⟩
  cases outcome with
  | ok _ =>
    obtain rfl : image = vol.freed mid (vol.chain mid first) := result
    exact released _ (fatAgree_freed sound hasChain.2.valid mid)
  | error _ => exact released image result.2

/-- The release of what a slot owned, as `write_file` does it: errors are ignored. -/
theorem runs_releaseOld (inv : vol.Consistent disk) (change : vol.Change disk)
    (wasChild : change.p ∈ vol.children disk change.dir) :
    Runs working (vol.Safe disk) (vol.freeChain (firstClusterOf (slotAt disk change.p))) change.after
      (fun _ image => vol.AgreeOn (vol.Owned change.after) change.after image ∧
        image = vol.freed change.after change.old)
      (fun _ image => ¬ working ∧ vol.AgreeOn (vol.Owned change.after) change.after image) := by
  obtain ⟨walk, nodup, short⟩ := change.walk_old inv wasChild
  refine (runs_freeFrom inv.sound walk nodup short).mono
    (fun image agree => .inr ⟨change, change.released inv agree⟩) ?_
    fun _ image fails => ⟨fails.1, change.released inv fails.2⟩
  rintro _ _ rfl
  exact ⟨change.released inv (fatAgree_freed inv.sound (Lib.IsChain.valid_of_mem walk) _), rfl⟩

variable (vol) in
/-- There is no slot for the entry of a path: its directory is not found, or is full. -/
def NoSlot (disk : Disk) (path : Bytes) (e : FatError) : Prop :=
  vol.resolveOn disk vol.rootCluster (components path) = .error e ∨
    ∃ dir name, vol.resolveOn disk vol.rootCluster (components path) = .ok (dir, name) ∧
      slotFor disk (vol.slots disk dir) none (shortName83 name) = .error e

/-- The name that a NUL-free path leads to does not begin like an end mark. -/
theorem used_of_clean (clean : (0 : UInt8) ∉ path) {name : Bytes}
    (resolved : vol.resolveOn disk vol.rootCluster (components path) = .ok (dir, name)) :
    shortName83 name 0 ≠ 0 := by
  obtain ⟨_, _, mem, _⟩ := resolveOn_dirAt .root resolved
  exact shortName83_zero_ne_zero fun zero => clean (mem_of_mem_components mem 0 zero)

/-- **`write_file`.** -/
theorem runs_writeFile (inv : vol.Consistent disk)
    (used : ∀ {dir name}, vol.resolveOn disk vol.rootCluster (components path) = .ok (dir, name) →
      shortName83 name 0 ≠ 0) (data : Bytes) : Runs working (vol.Safe disk) (vol.writeFile path data) disk
      (fun _ image => ∃ write : vol.FileWrite disk path data,
        vol.AgreeOn (vol.Owned write.after) write.after image ∧
        (working → image = vol.freed write.after write.old))
      (fun e image => vol.AgreeOn (vol.Owned disk) disk image ∧
        (working → (image = disk ∧ vol.NoSlot disk path e) ∨
          (e = .noSpace ∧ vol.RolledBack disk (vol.clustersFor data) image))) := by
  have sound := inv.sound
  unfold writeFile
  refine (reads_resolveParent path).andThen ?_ fun e cause =>
    ⟨AgreeOn.refl _ _, fun works => .inl ⟨rfl, .inl (cause.resolve_right (not_not_intro works))⟩⟩
  rintro ⟨dir, name⟩ resolved
  obtain ⟨names, isDir, _, path_eq⟩ := resolveOn_dirAt .root resolved
  rw [nil_append] at path_eq
  refine (reads_locateOrFreeSlot dir (shortName83 name)).andThen ?_ fun e cause =>
    ⟨AgreeOn.refl _ _, fun works =>
      .inl ⟨rfl, .inr ⟨dir, name, resolved, cause.resolve_right (not_not_intro works)⟩⟩⟩
  rintro ⟨p, oldFirst⟩ located
  have places : findOn disk (vol.slots disk dir) (shortName83 name) = some p ∨
      (findOn disk (vol.slots disk dir) (shortName83 name) = none ∧
        freeOn disk (vol.slots disk dir) = some p) :=
    (slotFor_ok located).imp And.left fun created => ⟨created.1, created.2.1⟩
  have target : vol.Target disk names dir (shortName83 name) p := by
    rcases places with search | ⟨search, free⟩
    · exact target_of_findOn inv isDir search
    · exact target_of_freeOn isDir search free
  refine Runs.bind ((runs_buildContent sound data).mono
    (fun _ agree => .inl (inv.agree_owned agree)) (fun _ _ new => new)
    fun _ _ fails => ⟨inv.agree_owned fails.1, fun works => .inr (fails.2 works)⟩) ?_
  intro first mid content
  let write := fileWrite inv (used resolved) resolved path_eq target places content
  have aside := inv.agree_owned (content.agree sound)
  have committed : putSlot mid p (fillDirEntry (slotAt mid p) (shortName83 name) attrArchive first
      (data.length % 2 ^ 32)) = write.after := by
    have sameSlot : slotAt mid p = slotAt disk p := write.slotAt_mid inv
    rw [sameSlot]
    rfl
  have commits : Runs working (vol.Safe disk) (writeDirEntry p (shortName83 name) attrArchive first
      (data.length % 2 ^ 32)) mid (fun _ image => image = write.after)
      (fun _ image => ¬ working ∧ image = mid) :=
    runs_writeDirEntry (by rw [committed]; exact .inr ⟨write.toChange, AgreeOn.refl _ _⟩) committed
      fun e broken => ⟨broken, rfl⟩
  refine Runs.bind (Runs.attempt commits) ?_
  intro outcome image result
  cases outcome with
  | error e =>
    obtain ⟨broken, rfl⟩ := result
    rcases content.ownChain sound with zero | ⟨hasChain, fresh⟩
    · simp only [if_neg (not_not_intro zero)]
      exact Runs.throw ⟨aside, fun works => absurd works broken⟩
    · simp only [if_pos (ne_zero_of_valid hasChain.1)]
      exact (runs_giveBack inv aside hasChain fresh e broken).mono (fun _ safe => safe)
        (fun _ _ never => never.elim) fun _ _ fails => ⟨fails.2, fun works => absurd works broken⟩
  | ok _ =>
    obtain rfl : image = write.after := result
    rcases slotFor_ok located with ⟨search, rfl⟩ | ⟨search, free, rfl⟩
    · have wasChild : p ∈ vol.children disk dir := mem_children_of_findOn search
      have old : write.old = vol.chainAt disk p := if_pos wasChild
      simp only
      split
      · refine Runs.bind (Runs.attempt (runs_releaseOld inv write.toChange wasChild)) ?_
        intro outcome image result
        refine Runs.pure ⟨write, ?_⟩
        cases outcome with
        | ok _ => exact ⟨result.1, fun _ => result.2⟩
        | error _ => exact ⟨result.2, fun works => absurd works result.1⟩
      · rename_i invalid
        refine Runs.pure ⟨write, AgreeOn.refl _ _, fun _ => ?_⟩
        rw [old, chainAt, chain_of_invalid (Bool.eq_false_iff.mpr invalid)]
        rfl
    · refine Runs.pure ⟨write, AgreeOn.refl _ _, fun _ => ?_⟩
      have none : write.old = [] := if_neg (not_mem_children_of_freeOn free)
      rw [none]
      rfl

/-! ### `mkdir` -/

variable (vol) in
/-- A new directory cluster, built aside. -/
structure NewDirectory (disk : Disk) (cluster parent : ℕ) (image : Disk) : Prop where
  built : ∃ linked, vol.Built disk [cluster] linked ∧ vol.DataAgree [cluster] linked image
  empty : vol.EmptyDir cluster parent image

variable (vol) in
/-- **The change `mkdir` makes.** -/
structure DirMake (disk : Disk) (path : Bytes) extends vol.PathChange disk path where
  cluster : ℕ
  absent : findOn disk (vol.slots disk dir) (shortName83 name) = none
  located : freeOn disk (vol.slots disk dir) = some p
  content : vol.NewDirectory disk cluster dir mid
  slot_eq : slot = fillDirEntry (slotAt disk p) (shortName83 name) attrDirectory cluster 0

section

variable (sound : vol.Sound) (new : vol.NewDirectory disk cluster parent mid)
include sound new

theorem NewDirectory.isChain : vol.IsChain mid cluster [cluster] := by
  obtain ⟨linked, built, agree⟩ := new.built
  exact built.isChain_data sound agree

theorem NewDirectory.agree : vol.AgreeOn (vol.Used disk) disk mid := by
  obtain ⟨linked, built, agree⟩ := new.built
  exact built.agree_data sound agree

theorem NewDirectory.free : vol.nextOf disk cluster = 0 := by
  obtain ⟨linked, built, agree⟩ := new.built
  exact ((built.spec sound).2.1 cluster (mem_singleton_self _)).2

end

/-- The change of `mkdir` from what its first steps found. -/
def dirMake (inv : vol.Consistent disk) (clean : (0 : UInt8) ∉ path) {name : Bytes}
    (resolved : vol.resolveOn disk vol.rootCluster (components path) = .ok (dir, name))
    (mem : name ∈ components path)
    (path_eq : (components path).map shortName83 = names ++ [shortName83 name])
    (isDir : vol.DirAt disk names dir)
    (absent : findOn disk (vol.slots disk dir) (shortName83 name) = none)
    (located : freeOn disk (vol.slots disk dir) = some p)
    (content : vol.NewDirectory disk cluster dir mid) : vol.DirMake disk path where
  names
  dir
  p
  slot := fillDirEntry (slotAt disk p) (shortName83 name) attrDirectory cluster 0
  mid
  before := inv.agree_owned (content.agree inv.sound)
  write := by
    have sound := inv.sound
    have isChain := content.isChain sound
    have single := isChain.chain_eq sound
    have hasChain := isChain.hasChain sound (cons_ne_nil _ _)
    have used : shortName83 name 0 ≠ 0 :=
      shortName83_zero_ne_zero fun zero => clean (mem_of_mem_components mem 0 zero)
    have small : cluster < 2 ^ 32 := by
      have below := sound.cluster_lt hasChain.1
      omega
    refine (target_of_freeOn isDir absent located).slotWrite inv
      (inv.agree_owned (content.agree sound)) (by rw [fillDirEntry_zero]; exact used)
      (fun _ => nameOf_fillDirEntry _ _ _ _ _) (fun _ => .inr ?_) fun _ _ => ?_
    · rw [firstClusterOf_fillDirEntry _ _ _ _ _ small, single]
      refine ⟨hasChain, fun x here => ?_⟩
      rw [mem_singleton.mp here]
      exact content.free sound
    · rw [firstClusterOf_fillDirEntry _ _ _ _ _ small]
      exact content.empty.newDir single
  name
  cluster
  resolved
  path_eq
  absent
  located
  content
  slot_eq := rfl

/-- **`mkdir`.** -/
theorem runs_mkdir (inv : vol.Consistent disk) (clean : (0 : UInt8) ∉ path) :
    Runs working (vol.Safe disk) (vol.mkdir path) disk
      (fun _ image => ∃ make : vol.DirMake disk path, image = make.after)
      (fun _ image => vol.AgreeOn (vol.Owned disk) disk image ∧ (working → image = disk)) := by
  have sound := inv.sound
  unfold mkdir
  refine (reads_resolveParent path).andThen ?_ fun e _ => ⟨AgreeOn.refl _ _, fun _ => rfl⟩
  rintro ⟨dir, name⟩ resolved
  obtain ⟨names, isDir, mem, path_eq⟩ := resolveOn_dirAt .root resolved
  rw [nil_append] at path_eq
  refine (reads_locateOrFreeSlot dir (shortName83 name)).andThen ?_ fun e _ => ⟨AgreeOn.refl _ _, fun _ => rfl⟩
  rintro ⟨p, existing⟩ located
  rcases slotFor_ok located with ⟨_, rfl⟩ | ⟨absent, free, rfl⟩
  · exact Runs.throw ⟨AgreeOn.refl _ _, fun _ => rfl⟩
  · simp only [isSome_none, Bool.false_eq_true, if_false]
    refine Runs.bind ((runs_allocCluster sound).mono
      (fun _ agree => .inl (inv.agree_owned agree.agreeOn)) (fun _ _ holds => holds)
      fun _ _ fails => ⟨inv.agree_owned fails.1.agreeOn, fun works => (fails.2 works).2.1⟩) ?_
    rintro cluster _ ⟨valid, unused, _, rfl⟩
    have built : vol.Built disk [cluster] _ := .single valid unused
    have aside : ∀ image, vol.DataAgree [cluster]
        (vol.putCopies disk cluster fat32Eoc vol.numFats) image →
        vol.AgreeOn (vol.Owned disk) disk image :=
      fun image agree => inv.agree_owned (built.agree_data sound agree)
    have giveBack : ∀ (e : FatError) (mid : Disk), ¬ working →
        vol.DataAgree [cluster] (vol.putCopies disk cluster fat32Eoc vol.numFats) mid →
        Runs working (vol.Safe disk)
          (do let _ ← attempt (vol.freeChain cluster); throw e : FatM Unit) mid
          (fun _ image => ∃ make : vol.DirMake disk path, image = make.after)
          (fun _ image => vol.AgreeOn (vol.Owned disk) disk image ∧ (working → image = disk)) := by
      intro e mid broken agree
      have isChain := built.isChain_data sound agree
      refine (runs_giveBack inv (aside mid agree)
        (isChain.hasChain sound (cons_ne_nil _ _)) (fun x inside => ?_) e broken).mono
        (fun _ safe => safe) (fun _ _ never => never.elim)
        fun _ _ fails => ⟨fails.2, fun works => absurd works broken⟩
      rw [isChain.chain_eq sound] at inside
      exact ((built.spec sound).2.1 x inside).2
    refine Runs.bind (Runs.attempt (runs_initDirCluster.mono (fun image agree => .inl (aside image agree))
      (fun _ _ holds => holds) fun _ _ fails => fails)) ?_
    intro outcome mid result
    cases outcome with
    | error e => exact giveBack e mid result.1 result.2
    | ok _ =>
      have content : vol.NewDirectory disk cluster dir mid := ⟨⟨_, built, result.1⟩, result.2⟩
      let make := dirMake inv clean resolved mem path_eq isDir absent free content
      have committed : putSlot mid p (fillDirEntry (slotAt mid p) (shortName83 name) attrDirectory
          cluster 0) = make.after := by
        have sameSlot : slotAt mid p = slotAt disk p := make.slotAt_mid inv
        rw [sameSlot]
        rfl
      have commits : Runs working (vol.Safe disk) (writeDirEntry p (shortName83 name)
          attrDirectory cluster 0) mid (fun _ image => image = make.after)
          (fun _ image => ¬ working ∧ image = mid) :=
        runs_writeDirEntry (by rw [committed]; exact .inr ⟨make.toChange, AgreeOn.refl _ _⟩)
          committed fun e broken => ⟨broken, rfl⟩
      refine Runs.bind (Runs.attempt commits) ?_
      intro outcome image committedResult
      cases outcome with
      | error e =>
        obtain ⟨broken, rfl⟩ := committedResult
        exact giveBack e image broken result.1
      | ok _ => exact Runs.pure ⟨make, committedResult⟩

/-! ### `unlink` and `rmdir` -/

variable (vol) in
/-- **The change `unlink` and `rmdir` make**, on a file and on a directory. -/
structure Removal (disk : Disk) (path : Bytes) (kind : Bool) extends vol.PathChange disk path where
  located : findOn disk (vol.slots disk dir) (shortName83 name) = some p
  kind_eq : isDirOf (slotAt disk p) = kind
  mid_eq : mid = disk
  slot_eq : slot = deletedSlot (slotAt disk p)

/-- The change of a removal from what its first steps found. -/
theorem exists_removal (inv : vol.Consistent disk) {name : Bytes}
    (resolved : vol.resolveOn disk vol.rootCluster (components path) = .ok (dir, name))
    (located : findOn disk (vol.slots disk dir) (shortName83 name) = some p)
    (kind_eq : isDirOf (slotAt disk p) = kind) : ∃ gone : vol.Removal disk path kind, gone.p = p := by
  obtain ⟨names, isDir, _, path_eq⟩ := resolveOn_dirAt .root resolved
  have dead : ¬ liveSlot (deletedSlot (slotAt disk p)) = true := by
    rw [not_liveSlot_deleted]
    decide
  have write := (target_of_findOn inv isDir located).slotWrite inv (AgreeOn.refl _ _)
    (by rw [deletedSlot_zero]; decide) (fun isLive => absurd isLive dead)
    (fun isLive => absurd isLive dead) fun isLive => absurd isLive dead
  exact ⟨{
    names, dir, p, mid := disk, before := AgreeOn.refl _ _, write, name, resolved, path_eq, located, kind_eq
    slot := deletedSlot (slotAt disk p)
    mid_eq := rfl
    slot_eq := rfl }, rfl⟩

theorem Removal.wasChild (gone : vol.Removal disk path kind) : gone.p ∈ vol.children disk gone.dir :=
  mem_children_of_findOn gone.located

theorem runs_remove (inv : vol.Consistent disk) (gone : vol.Removal disk path kind) :
    Runs working (vol.Safe disk)
      (do clearDirEntry gone.p; vol.freeChain (firstClusterOf (slotAt disk gone.p))) disk
      (fun _ image => vol.AgreeOn (vol.Owned gone.after) gone.after image ∧
        image = vol.freed gone.after gone.old) (fun _ image => ¬ working ∧
        (image = disk ∨ vol.AgreeOn (vol.Owned gone.after) gone.after image)) := by
  have committed : putSlot disk gone.p (deletedSlot (slotAt disk gone.p)) = gone.after := by
    unfold Change.after
    rw [gone.mid_eq, gone.slot_eq]
  refine Runs.step (runs_clearDirEntry
    (by rw [committed]; exact .inr ⟨gone.toChange, AgreeOn.refl _ _⟩) committed
    fun e broken => ⟨broken, .inl rfl⟩) fun _ => ?_
  exact (runs_releaseOld inv gone.toChange gone.wasChild).mono (fun _ safe => safe)
    (fun _ _ holds => holds) fun _ _ fails => ⟨fails.1, .inr fails.2⟩

/-- There is nothing to release at cluster 0. -/
theorem freeChain_unless_zero (first : ℕ) :
    (if first ≠ 0 then vol.freeChain first else pure () : FatM Unit) = vol.freeChain first := by
  split
  · rfl
  · rename_i zero
    rw [not_not.mp zero, freeChain]
    cases vol.clusterCount with
    | zero => rfl
    | succ n => rw [freeFrom, if_neg (by rw [not_valid_zero]; decide)]

/-- **The first steps of a removal** find the entry that the path names, and change nothing. -/
theorem runs_located {α : Type} {crash : Disk → Prop} {post : α → Disk → Prop} {fail : FatError → Disk → Prop}
    {next : Option (Pos × DirEntry) → FatM α} (unchanged : ∀ e, fail e disk)
    (absent : Runs working crash (next none) disk post fail)
    (found : ∀ dir name p, vol.resolveOn disk vol.rootCluster (components path) = .ok (dir, name) →
      findOn disk (vol.slots disk dir) (shortName83 name) = some p →
      Runs working crash (next (some (p, entryOf (slotAt disk p)))) disk post fail) :
    Runs working crash (do
      let (dir, name) ← vol.resolveParent path
      let entry ← vol.locateEntry dir name
      next entry) disk post fail := by
  refine (reads_resolveParent path).andThen ?_ fun e _ => unchanged e
  rintro ⟨dir, name⟩ resolved
  refine (reads_locateEntry dir name).before ?_ fun e _ => unchanged e
  cases located : findOn disk (vol.slots disk dir) (shortName83 name) with
  | none => exact absent
  | some p => exact found dir name p resolved located

/-- **`unlink`.** -/
theorem runs_unlink (inv : vol.Consistent disk) : Runs working (vol.Safe disk) (vol.unlink path) disk
      (fun _ image => ∃ gone : vol.Removal disk path false,
        vol.AgreeOn (vol.Owned gone.after) gone.after image ∧ image = vol.freed gone.after gone.old)
      (fun _ image => image = disk ∨ (¬ working ∧ ∃ gone : vol.Removal disk path false,
        vol.AgreeOn (vol.Owned gone.after) gone.after image)) := by
  unfold unlink
  refine runs_located (fun _ => .inl rfl) (Runs.throw (.inl rfl)) fun dir name p resolved located => ?_
  simp only [freeChain_unless_zero]
  split
  · exact Runs.throw (.inl rfl)
  · rename_i notDir
    obtain ⟨gone, rfl⟩ := exists_removal inv resolved located (Bool.eq_false_iff.mpr notDir)
    exact (runs_remove inv gone).mono (fun _ safe => safe)
      (fun _ _ holds => ⟨gone, holds⟩)
      fun _ _ fails => fails.2.imp_right fun agree => ⟨fails.1, gone, agree⟩

/-- A directory that lists nothing but `.` and `..`. -/
def listsDots (disk : Disk) (entries : List Pos) : Bool :=
  entries.all fun p => name83ToString (nameOf (slotAt disk p)) == ['.'] ||
    name83ToString (nameOf (slotAt disk p)) == ['.', '.']

theorem reads_dirIsEmpty (dir : ℕ) :
    Reads working (vol.dirIsEmpty dir) disk (.ok (listsDots disk (vol.live disk dir))) := by
  unfold dirIsEmpty listsDots
  refine (reads_listDir dir).seq ?_
  rw [List.all_map]
  exact Reads.pure

/-- **`rmdir`.** -/
theorem runs_rmdir (inv : vol.Consistent disk) : Runs working (vol.Safe disk) (vol.rmdir path) disk
      (fun _ image => ∃ gone : vol.Removal disk path true,
        listsDots disk (vol.live disk (firstClusterOf (slotAt disk gone.p))) ∧
        vol.AgreeOn (vol.Owned gone.after) gone.after image ∧ image = vol.freed gone.after gone.old)
      (fun _ image => image = disk ∨ (¬ working ∧ ∃ gone : vol.Removal disk path true,
        vol.AgreeOn (vol.Owned gone.after) gone.after image)) := by
  unfold rmdir
  refine runs_located (fun _ => .inl rfl) (Runs.throw (.inl rfl)) fun dir name p resolved located => ?_
  simp only
  split
  · exact Runs.throw (.inl rfl)
  · rename_i isDir
    obtain ⟨gone, rfl⟩ := exists_removal inv resolved located (by simpa [entryOf] using isDir)
    refine (reads_dirIsEmpty _).before ?_ fun e _ => .inl rfl
    cases empty : listsDots disk (vol.live disk (entryOf (slotAt disk gone.p)).firstCluster) with
    | false => exact Runs.throw (.inl rfl)
    | true =>
      exact (runs_remove inv gone).mono (fun _ safe => safe)
        (fun _ _ holds => ⟨gone, empty, holds⟩)
        fun _ _ fails => fails.2.imp_right fun agree => ⟨fails.1, gone, agree⟩

end Fat32

end Ferros.Fat
