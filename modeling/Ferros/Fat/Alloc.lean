/-
**Allocation and release of clusters, under any faults.**

The methods that write the FAT, each with its specification in the program logic of `Lib.Device`:

* `runs_freeChain` — every image on the way agrees with the first one outside the chain.
* `runs_allocChain` — **a new chain** (`Built`): its clusters were free, they are linked in order,
  and no other entry has changed. A failure, wherever it strikes, has changed free entries only.
-/

import Ferros.Fat.Scan

namespace Ferros.Fat

open Lib List

namespace Fat32

variable (vol : Fat32) {working : Prop} {disk disk' disk'' image : Disk} {keep keep' : ℕ → Prop}
  {c value k n index past fuel cluster total last : ℕ} {l front : List ℕ} {crash : Disk → Prop} {hit : Bool}

/-- A cluster that is not free. -/
def Used (disk : Disk) (c : ℕ) : Prop := vol.nextOf disk c ≠ 0

/-- Two images with the same data area whose entries agree on a set of clusters. -/
structure FatAgree (keep : ℕ → Prop) (disk disk' : Disk) : Prop where
  next : ∀ c, vol.validCluster c = true → keep c → vol.nextOf disk' c = vol.nextOf disk c
  data : ∀ s, vol.dataStartSector ≤ s → disk' s = disk s

/-- The image after the entries of some clusters were set to zero, in this order. -/
def freed (disk : Disk) : List ℕ → Disk
  | [] => disk
  | c :: rest => freed (vol.putCopies disk c 0 vol.numFats) rest

/-- **A chain under construction.** Each new cluster is marked as the end of the chain and then
linked behind the last one. -/
inductive Built (disk : Disk) : List ℕ → Disk → Prop
  | single {c : ℕ} (valid : vol.validCluster c = true) (free : vol.nextOf disk c = 0) :
      Built disk [c] (vol.putCopies disk c fat32Eoc vol.numFats)
  | extend {front : List ℕ} {last c : ℕ} {image : Disk} (built : Built disk (front ++ [last]) image)
      (valid : vol.validCluster c = true) (free : vol.nextOf image c = 0) :
      Built disk (front ++ [last] ++ [c])
        (vol.putCopies (vol.putCopies image c fat32Eoc vol.numFats) last c vol.numFats)

variable {vol}

/-! ### Entries -/

section

theorem FatAgree.agreeOn (agree : vol.FatAgree keep disk disk') : vol.AgreeOn keep disk disk' :=
  ⟨agree.next, fun _ _ _ s mem => agree.data s (dataStart_le_of_mem mem)⟩

theorem FatAgree.refl (keep : ℕ → Prop) (disk : Disk) : vol.FatAgree keep disk disk :=
  ⟨fun _ _ _ => rfl, fun _ _ => rfl⟩

theorem FatAgree.trans (first : vol.FatAgree keep disk disk') (second : vol.FatAgree keep disk' disk'') :
    vol.FatAgree keep disk disk'' :=
  ⟨fun c valid kept => (second.next c valid kept).trans (first.next c valid kept),
    fun s data => (second.data s data).trans (first.data s data)⟩

theorem FatAgree.mono (agree : vol.FatAgree keep disk disk')
    (fewer : ∀ c, vol.validCluster c → keep' c → keep c) : vol.FatAgree keep' disk disk' :=
  ⟨fun c valid kept => agree.next c valid (fewer c valid kept), agree.data⟩

variable (sound : vol.Sound) (valid : vol.validCluster c)
include sound valid

theorem fatAgree_putCopies (copies : k ≤ vol.numFats) :
    vol.FatAgree (· ≠ c) disk (vol.putCopies disk c value k) := by
  refine ⟨fun c' valid' ne => ?_, fun s data => putCopies_data sound valid copies data⟩
  rw [nextOf_putCopies sound valid valid', if_neg fun both => ne both.1]

theorem nextOf_putCopies_self (small : value < 2 ^ 28) :
    vol.nextOf (vol.putCopies disk c value vol.numFats) c = value := by
  rw [nextOf_putCopies sound valid valid, if_pos ⟨rfl, vol.numFats_pos⟩, and_mask_eq_mod,
    Nat.mod_eq_of_lt small]

theorem Sound.cluster_lt : c < 2 ^ 28 := by
  have below := (validCluster_iff.mp valid).2
  have clusters := sound.clusters
  unfold firstDataCluster at clusters
  omega

end

/-- **One entry**, copy after copy. -/
theorem runs_writeFatEntry {post : Unit → Disk → Prop} {fail : FatError → Disk → Prop}
    (safe : ∀ k, k ≤ vol.numFats → crash (vol.putCopies disk c value k))
    (holds : post () (vol.putCopies disk c value vol.numFats))
    (fails : ∀ e k, ¬ working → k ≤ vol.numFats → fail e (vol.putCopies disk c value k)) :
    Runs working crash (vol.writeFatEntry c value) disk post fail := by
  have copies : ∀ n k, k + n = vol.numFats →
      Runs working crash (vol.writeFatCopies c value (range' k n))
        (vol.putCopies disk c value k) post fail := by
    intro n
    induction n with
    | zero =>
      intro k reached
      obtain rfl : k = vol.numFats := reached
      exact Runs.pure holds
    | succ n ih =>
      intro k reached
      rw [range'_succ, writeFatCopies]
      refine (reads_readSector _).before ?_ fun e broken => fails e k broken (by omega)
      exact Runs.step (Runs.writeBlock (safe (k + 1) (by omega)) rfl
        fun f broken => fails _ k broken (by omega)) fun _ => ih (k + 1) (by omega)
  have all := copies vol.numFats 0 (by omega)
  rw [← range_eq_range'] at all
  exact all

/-! ### Release -/

theorem fatAgree_freed (sound : vol.Sound) (valid : ∀ c ∈ l, vol.validCluster c) (disk : Disk) :
    vol.FatAgree (· ∉ l) disk (vol.freed disk l) := by
  induction l generalizing disk with
  | nil => exact FatAgree.refl _ _
  | cons c rest ih =>
    have here : vol.FatAgree (· ≠ c) disk (vol.putCopies disk c 0 vol.numFats) :=
      fatAgree_putCopies sound (valid c mem_cons_self) le_rfl
    have later := ih (fun x mem => valid x (mem_cons_of_mem _ mem)) (vol.putCopies disk c 0 vol.numFats)
    exact (here.mono fun x _ kept => fun same => kept (same ▸ mem_cons_self)).trans
      (later.mono fun x _ kept => fun mem => kept (mem_cons_of_mem _ mem))

/-- Released clusters are free. -/
theorem nextOf_freed (sound : vol.Sound) (valid : ∀ c ∈ l, vol.validCluster c) (disk : Disk) :
    ∀ c ∈ l, vol.nextOf (vol.freed disk l) c = 0 := by
  induction l generalizing disk with
  | nil => exact forall_mem_nil _
  | cons head rest ih =>
    have validRest : ∀ c ∈ rest, vol.validCluster c := fun c mem => valid c (mem_cons_of_mem _ mem)
    intro c mem
    rw [freed]
    by_cases later : c ∈ rest
    · exact ih validRest _ c later
    · obtain rfl := (mem_cons.mp mem).resolve_right later
      have validC := valid c mem_cons_self
      rw [(fatAgree_freed sound validRest _).next c validC later,
        nextOf_putCopies_self sound validC (by norm_num)]

theorem runs_freeFrom (sound : vol.Sound) (walk : vol.Walk disk c l) (nodup : l.Nodup) (enough : l.length ≤ n) :
    Runs working (vol.FatAgree (· ∉ l) disk) (vol.freeFrom n c) disk (fun _ image => image = vol.freed disk l)
      (fun _ image => ¬ working ∧ vol.FatAgree (· ∉ l) disk image) := by
  induction l generalizing disk c n with
  | nil =>
    have stop : vol.validCluster c = false := walk
    cases n with
    | zero => exact Runs.pure rfl
    | succ n =>
      rw [freeFrom, if_neg (by rw [stop]; decide)]
      exact Runs.pure rfl
  | cons head rest ih =>
    obtain ⟨rfl, valid, walk'⟩ := walk
    obtain ⟨notMem, distinctRest⟩ := nodup_cons.mp nodup
    obtain ⟨n, rfl⟩ : ∃ m, n = m + 1 := ⟨n - 1, by simp only [length_cons] at enough; omega⟩
    have here : ∀ k, k ≤ vol.numFats →
        vol.FatAgree (· ∉ head :: rest) disk (vol.putCopies disk head 0 k) := fun k copies =>
      (fatAgree_putCopies sound valid copies).mono
        fun x _ kept => fun same => kept (same ▸ mem_cons_self)
    rw [freeFrom, if_pos valid]
    refine (reads_nextCluster head).before ?_ fun e broken => ⟨broken, FatAgree.refl _ _⟩
    refine Runs.step (runs_writeFatEntry here rfl fun e k broken copies => ⟨broken, here k copies⟩) fun _ => ?_
    have rewalk : vol.Walk (vol.putCopies disk head 0 vol.numFats) (vol.nextOf disk head) rest :=
      Lib.IsChain.congr walk' fun x mem =>
        (fatAgree_putCopies sound valid le_rfl).next x (Lib.IsChain.valid_of_mem walk' x mem)
          fun same => notMem (same ▸ mem)
    have later : ∀ image, vol.FatAgree (· ∉ rest) (vol.putCopies disk head 0 vol.numFats) image →
        vol.FatAgree (· ∉ head :: rest) disk image := fun image agree =>
      (here vol.numFats le_rfl).trans
        (agree.mono fun x _ kept => fun mem => kept (mem_cons_of_mem _ mem))
    exact (ih rewalk distinctRest (by simpa using enough)).mono later (fun _ _ same => same)
      fun _ image broken => ⟨broken.1, later image broken.2⟩

/-- **Release of a chain.** -/
theorem runs_freeChain (sound : vol.Sound) (isChain : vol.IsChain disk c l) :
    Runs working (vol.FatAgree (· ∉ l) disk) (vol.freeChain c) disk (fun _ image => image = vol.freed disk l)
      (fun _ image => ¬ working ∧ vol.FatAgree (· ∉ l) disk image) :=
  runs_freeFrom sound (isChain.walk sound) (isChain.nodup sound) (isChain.length_le sound)

/-! ### Allocation of one cluster -/

theorem rawEntry_eq_nextOf (inSector : c / fatEntriesPerSector = index) :
    rawEntry (disk (vol.fatStartSector + index)) c &&& fat32EntryMask = vol.nextOf disk c := by
  have sector : vol.fatSector 0 c = vol.fatStartSector + index := by
    unfold fatSector
    unfold fatEntriesPerSector at inSector
    omega
  unfold nextOf
  rw [sector]

/-- What the search in one FAT sector passes over is in use. -/
theorem scanEntries_spec (index fuel cluster : ℕ)
    (scanned : vol.scanEntries (disk (vol.fatStartSector + index)) (vol.fatStartSector + index) fuel
      cluster = (past, hit)) : cluster ≤ past ∧ (∀ c, cluster ≤ c → c < past → vol.nextOf disk c ≠ 0) ∧
      (hit → past < firstDataCluster + vol.clusterCount ∧ vol.nextOf disk past = 0) ∧
      (0 < fuel → cluster < firstDataCluster + vol.clusterCount →
        cluster / fatEntriesPerSector = index → hit = false → cluster < past) := by
  induction fuel generalizing cluster with
  | zero =>
    rw [scanEntries] at scanned
    cases scanned
    exact ⟨le_rfl, fun c low high => by omega, nofun, fun never => absurd never (Nat.lt_irrefl 0)⟩
  | succ fuel ih =>
    rw [scanEntries, Nat.add_sub_cancel_left] at scanned
    split at scanned
    · rename_i inside
      rw [rawEntry_eq_nextOf inside.2] at scanned
      split at scanned
      · rename_i free
        cases scanned
        exact ⟨le_rfl, fun c low high => by omega, fun _ => ⟨inside.1, free⟩, nofun⟩
      · rename_i used
        obtain ⟨reached, passed, found, _⟩ := ih (cluster + 1) scanned
        refine ⟨by omega, fun c low high => ?_, found, fun _ _ _ _ => by omega⟩
        by_cases here : c = cluster
        · rw [here]
          exact used
        · exact passed c (by omega) high
    · rename_i outside
      cases scanned
      exact ⟨le_rfl, fun c low high => by omega, nofun, fun _ below same _ => absurd ⟨below, same⟩ outside⟩

/-- Whatever the sector holds, the search goes on behind it or finds a cluster of the volume. -/
theorem scanEntries_moves {buf : Sector} (scanned : vol.scanEntries buf
      (vol.fatStartSector + cluster / fatEntriesPerSector) fatEntriesPerSector cluster = (past, hit)) :
    cluster ≤ past ∧ (hit → past < firstDataCluster + vol.clusterCount) ∧
      (cluster < firstDataCluster + vol.clusterCount → hit = false → cluster < past) := by
  let disk : Disk := fun _ => buf
  obtain ⟨reached, -, found, advanced⟩ := scanEntries_spec (cluster / fatEntriesPerSector) _ cluster
    (show vol.scanEntries (disk (vol.fatStartSector + cluster / fatEntriesPerSector)) _ _ cluster = _ from scanned)
  exact ⟨reached, fun isHit => (found isHit).1, fun below missed => advanced (by decide) below rfl missed⟩

/-- The search for a free cluster, from a cluster on: what is written, if anything is, marks a free one. -/
theorem runs_allocFrom (sound : vol.Sound)
    (safe : ∀ c, vol.validCluster c → vol.nextOf disk c = 0 → ∀ k ≤ vol.numFats,
      crash (vol.putCopies disk c fat32Eoc k))
    (enough : firstDataCluster + vol.clusterCount ≤ cluster + fuel)
    (passed : ∀ c, vol.validCluster c → c < cluster → vol.nextOf disk c ≠ 0) (low : firstDataCluster ≤ cluster) :
    Runs working crash (vol.allocFrom fuel cluster) disk
      (fun c image => vol.validCluster c ∧ vol.nextOf disk c = 0 ∧
        (∀ c', vol.validCluster c' → c' < c → vol.nextOf disk c' ≠ 0) ∧
        image = vol.putCopies disk c fat32Eoc vol.numFats)
      (fun e image => vol.FatAgree (vol.Used disk) disk image ∧
        (working → e = .noSpace ∧ image = disk ∧ ∀ c, vol.validCluster c → vol.nextOf disk c ≠ 0)) := by
  have full : firstDataCluster + vol.clusterCount ≤ cluster →
      ∀ c, vol.validCluster c → vol.nextOf disk c ≠ 0 := fun beyond c valid =>
    passed c valid (lt_of_lt_of_le (validCluster_iff.mp valid).2 beyond)
  induction fuel generalizing cluster with
  | zero => exact Runs.throw ⟨FatAgree.refl _ _, fun _ => ⟨rfl, rfl, full enough⟩⟩
  | succ fuel ih =>
    rw [allocFrom]
    split
    · rename_i below
      refine (reads_readSector _).before ?_
        fun e broken => ⟨FatAgree.refl _ _, fun works => absurd works broken⟩
      rcases scanned : vol.scanEntries
        (disk (vol.fatStartSector + cluster / fatEntriesPerSector))
        (vol.fatStartSector + cluster / fatEntriesPerSector) fatEntriesPerSector cluster
        with ⟨past, hit⟩
      obtain ⟨reached, skipped, found, advanced⟩ := scanEntries_spec _ _ _ scanned
      have passed' : ∀ c, vol.validCluster c → c < past → vol.nextOf disk c ≠ 0 := by
        intro c valid before
        by_cases old : c < cluster
        · exact passed c valid old
        · exact skipped c (by omega) before
      cases hit with
      | true =>
        obtain ⟨inside, free⟩ := found rfl
        have valid : vol.validCluster past := validCluster_iff.mpr ⟨low.trans reached, inside⟩
        have only : ∀ k, k ≤ vol.numFats → vol.FatAgree (vol.Used disk) disk
            (vol.putCopies disk past fat32Eoc k) := fun k copies =>
          (fatAgree_putCopies sound valid copies).mono fun c _ used same => used (same ▸ free)
        exact Runs.step (runs_writeFatEntry (safe past valid free) rfl
          fun e k broken copies => ⟨only k copies, fun works => absurd works broken⟩)
          fun _ => Runs.pure ⟨valid, free, passed', rfl⟩
      | false =>
        have more := advanced (by decide) below rfl rfl
        exact ih (by omega) passed' (low.trans reached) fun beyond c valid =>
          passed' c valid (lt_of_lt_of_le (validCluster_iff.mp valid).2 beyond)
    · rename_i beyond
      exact Runs.throw ⟨FatAgree.refl _ _, fun _ => ⟨rfl, rfl, full (not_lt.mp beyond)⟩⟩

/-- **Allocation of one cluster**: the first free one, marked as the end of a chain. -/
theorem runs_allocCluster (sound : vol.Sound) :
    Runs working (vol.FatAgree (vol.Used disk) disk) vol.allocCluster disk
      (fun c image => vol.validCluster c ∧ vol.nextOf disk c = 0 ∧
        (∀ c', vol.validCluster c' → c' < c → vol.nextOf disk c' ≠ 0) ∧
        image = vol.putCopies disk c fat32Eoc vol.numFats)
      (fun e image => vol.FatAgree (vol.Used disk) disk image ∧
        (working → e = .noSpace ∧ image = disk ∧ ∀ c, vol.validCluster c → vol.nextOf disk c ≠ 0)) :=
  runs_allocFrom sound (fun _ valid free _ copies =>
      (fatAgree_putCopies sound valid copies).mono fun _ _ used same => used (same ▸ free)) (le_refl _)
    (fun _ valid below => absurd (validCluster_iff.mp valid).1 (not_le.mpr below)) le_rfl

/-! ### Allocation of a chain -/

theorem endMark_eoc : endMark fat32Eoc := by decide

/-- **The clusters of a new chain** are linked in order, were free, and are the only ones whose
entries changed. -/
theorem Built.spec (sound : vol.Sound) (built : vol.Built disk l image) : vol.IsChain image (l.headD 0) l ∧
      (∀ x ∈ l, vol.validCluster x ∧ vol.nextOf disk x = 0) ∧ vol.FatAgree (· ∉ l) disk image := by
  induction built with
  | @single c valid free =>
    refine ⟨⟨rfl, valid, ?_⟩, ?_, ?_⟩
    · change endMark (vol.nextOf (vol.putCopies disk c fat32Eoc vol.numFats) c)
      rw [nextOf_putCopies_self sound valid (by decide)]
      exact endMark_eoc
    · intro x mem
      rw [mem_singleton.mp mem]
      exact ⟨valid, free⟩
    · exact (fatAgree_putCopies sound valid le_rfl).mono
        fun x _ outside same => outside (mem_singleton.mpr same)
  | @extend front last c image built valid free ih =>
    obtain ⟨isChain, fresh, agree⟩ := ih
    have outside : c ∉ front ++ [last] := fun inside => isChain.next_ne_zero c inside free
    have inLast : last ∈ front ++ [last] := mem_append_right _ (mem_singleton_self last)
    have validLast := isChain.valid last inLast
    have marked : vol.FatAgree (· ≠ c) image (vol.putCopies image c fat32Eoc vol.numFats) :=
      fatAgree_putCopies sound valid le_rfl
    have linked : vol.FatAgree (· ≠ last) (vol.putCopies image c fat32Eoc vol.numFats)
        (vol.putCopies (vol.putCopies image c fat32Eoc vol.numFats) last c vol.numFats) :=
      fatAgree_putCopies sound validLast le_rfl
    have notLast : c ≠ last := fun same => outside (same ▸ inLast)
    refine ⟨?_, ?_, ?_⟩
    · have head : (front ++ [last] ++ [c]).headD 0 = (front ++ [last]).headD 0 := by
        cases front <;> rfl
      rw [head, append_assoc]
      refine Lib.IsChain.relink isChain (fun x inFront => ?_) ?_
      · have inside : x ∈ front ++ [last] := mem_append_left _ inFront
        have validX := isChain.valid x inside
        have nodup := isChain.nodup sound
        have notX : x ≠ last := fun same =>
          (nodup_append.mp nodup).2.2 x inFront last (mem_singleton_self last) same
        rw [linked.next x validX notX, marked.next x validX fun same => outside (same ▸ inside)]
      · rw [nextOf_putCopies_self sound validLast (sound.cluster_lt valid)]
        refine ⟨rfl, valid, ?_⟩
        rw [linked.next c valid notLast, nextOf_putCopies_self sound valid (by decide)]
        exact endMark_eoc
    · intro x mem
      rcases mem_append.mp mem with inside | here
      · exact fresh x inside
      · rw [mem_singleton.mp here]
        exact ⟨valid, (agree.next c valid outside).symm.trans free⟩
    · have keeps : ∀ x, vol.validCluster x → x ∉ front ++ [last] ++ [c] →
          x ∉ front ++ [last] ∧ x ≠ c ∧ x ≠ last := by
        intro x _ notMem
        refine ⟨fun inside => notMem (mem_append_left _ inside), ?_, ?_⟩
        · rintro rfl
          exact notMem (mem_append_right _ (mem_singleton_self x))
        · rintro rfl
          exact notMem (mem_append_left _ inLast)
      exact ((agree.mono fun x valid kept => (keeps x valid kept).1).trans
        (marked.mono fun x valid kept => (keeps x valid kept).2.1)).trans
        (linked.mono fun x valid kept => (keeps x valid kept).2.2)

/-- What happens to the free entries of an image under construction happens to free entries. -/
theorem Built.agree_used (sound : vol.Sound) (built : vol.Built disk l image)
    (agree : vol.FatAgree (vol.Used image) image disk') :
    vol.FatAgree (vol.Used disk) disk disk' := by
  obtain ⟨_, fresh, before⟩ := built.spec sound
  have outside : ∀ c, vol.nextOf disk c ≠ 0 → c ∉ l := fun c used inside =>
    used (fresh c inside).2
  refine FatAgree.trans (before.mono fun c _ used => outside c used) (agree.mono ?_)
  intro c valid used
  show vol.nextOf image c ≠ 0
  rw [before.next c valid (outside c used)]
  exact used

variable (vol) in
/-- The image of an allocation that ran out of space after fewer than `n` clusters and gave them
back. -/
def RolledBack (disk : Disk) (n : ℕ) (image : Disk) : Prop :=
  (image = disk ∧ 0 < n ∧ ∀ c, vol.validCluster c = true → vol.nextOf disk c ≠ 0) ∨
    ∃ l full, l.length < n ∧ vol.Built disk l full ∧
      (∀ c, vol.validCluster c = true → vol.nextOf full c ≠ 0) ∧ image = vol.freed full l

/-- A valid cluster number is not the 0 that stands for no cluster. -/
theorem ne_zero_of_valid (valid : vol.validCluster c) : c ≠ 0 := by
  rintro rfl
  rw [not_valid_zero] at valid
  cases valid

theorem runs_rollback (sound : vol.Sound) {e : FatError} (built : vol.Built disk l image)
    (short : l.length < total) (agree : vol.FatAgree (vol.Used image) image disk')
    (works : working → e = .noSpace ∧ disk' = image ∧ ∀ c, vol.validCluster c → vol.nextOf image c ≠ 0) :
    Runs working (vol.FatAgree (vol.Used disk) disk)
      (do let _ ← attempt (vol.freeChain (l.headD 0)); throw e : FatM ℕ) disk' (fun _ _ => False)
      (fun e image => vol.FatAgree (vol.Used disk) disk image ∧
        (working → e = .noSpace ∧ vol.RolledBack disk total image)) := by
  have isChain := (built.spec sound).1
  have kept := isChain.agree agree.agreeOn isChain.next_ne_zero
  have grow : ∀ image', vol.FatAgree (· ∉ l) disk' image' →
      vol.FatAgree (vol.Used disk) disk image' := by
    intro image' released
    obtain ⟨_, fresh, _⟩ := built.spec sound
    exact (built.agree_used sound agree).trans (released.mono fun c _ used inside => used (fresh c inside).2)
  refine Runs.bind (Runs.attempt ((runs_freeChain sound kept).mono grow (fun _ _ same => same)
    fun _ _ broken => broken)) ?_
  intro outcome image' result
  cases outcome with
  | error _ => exact Runs.throw ⟨grow image' result.2, fun holds => absurd holds result.1⟩
  | ok _ =>
    obtain rfl : image' = vol.freed disk' l := result
    refine Runs.throw ⟨grow _ (fatAgree_freed sound kept.valid disk'), fun holds => ?_⟩
    obtain ⟨cause, rfl, full⟩ := works holds
    exact ⟨cause, .inr ⟨l, disk', short, built, full, rfl⟩⟩

theorem runs_allocLoop (sound : vol.Sound) (built : vol.Built disk (front ++ [last]) image)
    (count : (front ++ [last]).length + n = total) :
    Runs working (vol.FatAgree (vol.Used disk) disk)
      (vol.allocLoop n ((front ++ [last]).headD 0) last) image
      (fun first image => ∃ l, l.length = total ∧ vol.Built disk l image ∧ first = l.headD 0)
      (fun e image => vol.FatAgree (vol.Used disk) disk image ∧
        (working → e = .noSpace ∧ vol.RolledBack disk total image)) := by
  induction n generalizing front last image with
  | zero => exact Runs.pure ⟨_, count, built, rfl⟩
  | succ n ih =>
    obtain ⟨isChain, fresh, agree⟩ := built.spec sound
    have notZero : (front ++ [last]).headD 0 ≠ 0 := by
      refine ne_zero_of_valid (isChain.valid _ ?_)
      cases front <;> exact mem_cons_self
    rw [allocLoop]
    refine Runs.bind (Runs.attempt ((runs_allocCluster sound).mono
      (fun _ => built.agree_used sound) (fun _ _ holds => holds) fun _ _ holds => holds)) ?_
    intro outcome image' result
    cases outcome with
    | error e =>
      simp only [if_pos notZero]
      exact (runs_rollback sound built (by omega) result.1 result.2).mono (fun _ safe => safe)
        (fun _ _ never => never.elim) fun _ _ fails => fails
    | ok c =>
      obtain ⟨valid, free, _, rfl⟩ := result
      have inLast : last ∈ front ++ [last] := mem_append_right _ (mem_singleton_self last)
      have only : ∀ k, k ≤ vol.numFats → vol.FatAgree (vol.Used disk) disk
          (vol.putCopies (vol.putCopies image c fat32Eoc vol.numFats) last c k) := by
        intro k copies
        have marked : vol.FatAgree (vol.Used disk) disk
            (vol.putCopies image c fat32Eoc vol.numFats) :=
          built.agree_used sound ((fatAgree_putCopies sound valid le_rfl).mono
            fun x _ used same => used (same ▸ free))
        exact marked.trans ((fatAgree_putCopies sound (fresh last inLast).1 copies).mono
          fun x _ used same => used (same ▸ (fresh last inLast).2))
      simp only [if_neg notZero]
      refine Runs.step (runs_writeFatEntry only rfl
        fun e k broken copies => ⟨only k copies, fun holds => absurd holds broken⟩) fun _ => ?_
      have head : (front ++ [last]).headD 0 = (front ++ [last] ++ [c]).headD 0 := by
        cases front <;> rfl
      rw [head]
      exact ih (.extend built valid free) (by rw [length_append, length_singleton]; omega)

/-- **Allocation of a chain.** -/
theorem runs_allocChain (sound : vol.Sound) (n : ℕ) :
    Runs working (vol.FatAgree (vol.Used disk) disk) (vol.allocChain n) disk
      (fun first image => (n = 0 ∧ first = 0 ∧ image = disk) ∨
        ∃ l, l.length = n ∧ vol.Built disk l image ∧ first = l.headD 0)
      (fun e image => vol.FatAgree (vol.Used disk) disk image ∧
        (working → e = .noSpace ∧ vol.RolledBack disk n image)) := by
  unfold allocChain
  cases n with
  | zero => exact Runs.pure (.inl ⟨rfl, rfl, rfl⟩)
  | succ n =>
    rw [allocLoop]
    refine Runs.bind (Runs.attempt (runs_allocCluster sound)) ?_
    intro outcome image result
    cases outcome with
    | error e =>
      refine Runs.throw ⟨result.1, fun holds => ?_⟩
      obtain ⟨cause, rfl, full⟩ := result.2 holds
      exact ⟨cause, .inl ⟨rfl, Nat.succ_pos n, full⟩⟩
    | ok c =>
      obtain ⟨valid, free, _, rfl⟩ := result
      have start : vol.Built disk ([] ++ [c]) _ := .single valid free
      exact (runs_allocLoop sound start (Nat.add_comm 1 n)).mono (fun _ safe => safe)
        (fun _ _ holds => .inr holds) fun _ _ fails => fails

end Fat32

end Ferros.Fat
