/-
**Writing clusters and directory slots, under any faults.**

* `runs_writeFrom` — the data goes to the sectors of the chain, in order, and nowhere else.
* `runs_initDirCluster` — a new directory cluster holds its dot slots and is zero behind them.
* `runs_writeDirEntry`, `runs_clearDirEntry` — **the commits**: one slot changes, in one write.
-/

import Ferros.Fat.Alloc

namespace Ferros.Fat

open Lib List Function

/-- What was written before and what is written now lie one behind the other. -/
theorem take_append_written {data front back : Bytes} {written size rest : ℕ} (length : front.length = size)
    (first : front.take (data.length - written) = (data.drop written).take size)
    (second : back.take (data.length - min data.length (written + size)) =
      (data.drop (min data.length (written + size))).take rest) :
    (front ++ back).take (data.length - written) = (data.drop written).take (size + rest) := by
  rw [take_append, length, first, take_add]
  congr 1
  rw [drop_drop]
  by_cases room : written + size ≤ data.length
  · rw [Nat.min_eq_right room] at second
    rw [Nat.sub_sub, second]
  · rw [Nat.sub_sub, Nat.sub_eq_zero_of_le (by omega), take_zero, drop_eq_nil_of_le (by omega), take_nil]

theorem take_ofFn_padSector {chunk : Bytes} (small : chunk.length ≤ 512) :
    (List.ofFn (padSector chunk)).take chunk.length = chunk := by
  refine ext_getElem ?_ fun i low high => ?_
  · rw [length_take, length_ofFn]
    omega
  · rw [List.getElem_take, List.getElem_ofFn]
    simp [padSector, high]

namespace Fat32

variable (vol : Fat32) {written c n cluster parent first size : ℕ} {crash aside : Disk → Prop}
  {sectors l l' : List ℕ} {pos : Pos} {post : Unit → Disk → Prop} {working : Prop}
  {disk disk' disk'' image linked : Disk} {fail : FatError → Disk → Prop} {data : Bytes}

/-- Two images that differ only in the sectors of some clusters. -/
def DataAgree (l : List ℕ) (disk disk' : Disk) : Prop :=
  ∀ s, (∀ c ∈ l, s ∉ vol.sectorsOf c) → disk' s = disk s

variable {vol}

theorem DataAgree.refl (l : List ℕ) (disk : Disk) : vol.DataAgree l disk disk := fun _ _ => rfl

theorem DataAgree.trans (first : vol.DataAgree l disk disk') (second : vol.DataAgree l disk' disk'') :
    vol.DataAgree l disk disk'' :=
  fun s outside => (second s outside).trans (first s outside)

theorem DataAgree.mono (agree : vol.DataAgree l disk disk') (more : l ⊆ l') : vol.DataAgree l' disk disk' :=
  fun s outside => agree s fun c mem => outside c (more mem)

theorem DataAgree.nextOf (sound : vol.Sound) (agree : vol.DataAgree l disk disk') (valid : vol.validCluster c) :
    vol.nextOf disk' c = vol.nextOf disk c := by
  unfold Fat32.nextOf
  rw [agree]
  intro x _ mem
  have data := dataStart_le_of_mem mem
  have fat := sound.fatSector_lt vol.numFats_pos valid
  omega

theorem DataAgree.agreeOn (sound : vol.Sound) (agree : vol.DataAgree l disk disk')
    (valid : ∀ c ∈ l, vol.validCluster c) : vol.AgreeOn (· ∉ l) disk disk' := by
  refine ⟨fun c validC _ => agree.nextOf sound validC, fun c validC outside s inside => ?_⟩
  refine agree s fun x mem here => outside ?_
  rw [mem_sectorsOf_unique validC (valid x mem) inside here]
  exact mem

/-! ### Data -/

/-- After the write of one sector, an image that differs in the remaining ones only. -/
theorem eq_of_eq_update {sector : ℕ} {rest : List ℕ} {block : Sector}
    (same : ∀ s, s ∉ rest → image s = update disk sector block s) :
    ∀ s, s ∉ sector :: rest → image s = disk s := by
  intro s notMem
  obtain ⟨other, later⟩ := not_or.mp (mt mem_cons.mpr notMem)
  rw [same s later, update_of_ne other]

theorem runs_writeSectors (nodup : sectors.Nodup) (below : written ≤ data.length) :
    Runs working (fun image => ∀ s, s ∉ sectors → image s = disk s) (writeSectors data sectors written) disk
      (fun written' image => written' = min data.length (written + sectors.length * 512) ∧
        (∀ s, s ∉ sectors → image s = disk s) ∧ (sectorBytes image sectors).take (data.length - written) =
          (data.drop written).take (sectors.length * 512))
      (fun _ image => ¬ working ∧ ∀ s, s ∉ sectors → image s = disk s) := by
  induction sectors generalizing disk written with
  | nil =>
    refine Runs.pure ⟨?_, fun _ _ => rfl, ?_⟩
    · rw [length_nil, Nat.zero_mul, Nat.add_zero, Nat.min_eq_right below]
    · rw [sectorBytes, flatMap_nil, take_nil, length_nil, Nat.zero_mul, take_zero]
  | cons sector rest ih =>
    obtain ⟨outside, distinctRest⟩ := nodup_cons.mp nodup
    rw [writeSectors]
    split
    · rename_i full
      refine Runs.pure ⟨by omega, fun _ _ => rfl, ?_⟩
      rw [Nat.sub_eq_zero_of_le full, take_zero, drop_eq_nil_of_le full, take_nil]
    · let take := min (data.length - written) 512
      let chunk := (data.drop written).take take
      have size : chunk.length = take := by
        simp only [chunk, take, length_take, length_drop]
        omega
      refine Runs.step (Runs.writeBlock (eq_of_eq_update fun _ _ => rfl) rfl fun f broken =>
        ⟨broken, fun _ _ => rfl⟩) fun _ => ?_
      have next : written + take = min data.length (written + 512) := by
        simp only [take]
        omega
      refine (ih distinctRest (by omega)).mono (fun _ => eq_of_eq_update) ?_ fun _ _ broken =>
        ⟨broken.1, eq_of_eq_update broken.2⟩
      rintro written' image ⟨rfl, same, bytes⟩
      refine ⟨?_, eq_of_eq_update same, ?_⟩
      · rw [length_cons, next]
        omega
      · have here : image sector = padSector chunk := by
          rw [same sector outside, update_self]
        have whole : sectorBytes image (sector :: rest) =
            ofFn (padSector chunk) ++ sectorBytes image rest := by
          rw [sectorBytes, flatMap_cons, here]
          rfl
        have first : (ofFn (padSector chunk)).take (data.length - written) =
            (data.drop written).take 512 := by
          have cut : (ofFn (padSector chunk)).take (data.length - written) =
              (ofFn (padSector chunk)).take chunk.length := by
            rw [take_eq_take_iff, length_ofFn, size]
            simp only [take]
            omega
          rw [cut, take_ofFn_padSector (by omega), take_eq_take_iff, length_drop]
          simp only [take]
          omega
        rw [next] at bytes
        rw [whole, length_cons, Nat.succ_mul, Nat.add_comm (rest.length * 512)]
        exact take_append_written length_ofFn first bytes

theorem runs_writeFrom (sound : vol.Sound) (walk : vol.Walk disk c l)
    (nodup : l.Nodup) (enough : l.length ≤ n) (below : written ≤ data.length) :
    Runs working (vol.DataAgree l disk) (vol.writeFrom data n c written) disk
      (fun _ image => vol.DataAgree l disk image ∧ (vol.bytesOn image l).take (data.length - written) =
          (data.drop written).take (l.length * vol.clusterBytes))
      (fun _ image => ¬ working ∧ vol.DataAgree l disk image) := by
  induction l generalizing disk c n written with
  | nil =>
    have stop : vol.validCluster c = false := walk
    have nothing : vol.DataAgree [] disk disk ∧
        (vol.bytesOn disk []).take (data.length - written) =
          (data.drop written).take (([] : List ℕ).length * vol.clusterBytes) := by
      refine ⟨DataAgree.refl _ _, ?_⟩
      rw [bytesOn, flatMap_nil, take_nil, length_nil, Nat.zero_mul, take_zero]
    cases n with
    | zero => exact Runs.pure nothing
    | succ n =>
      rw [writeFrom, if_neg fun both => by simp [stop] at both]
      exact Runs.pure nothing
  | cons head rest ih =>
    obtain ⟨rfl, valid, walk'⟩ := walk
    obtain ⟨notMem, distinctRest⟩ := nodup_cons.mp nodup
    obtain ⟨n, rfl⟩ : ∃ m, n = m + 1 := ⟨n - 1, by simp only [length_cons] at enough; omega⟩
    have validRest := Lib.IsChain.valid_of_mem walk'
    rw [writeFrom]
    split
    · have ofHead : ∀ image : Disk, (∀ s, s ∉ vol.sectorsOf head → image s = disk s) →
          vol.DataAgree (head :: rest) disk image := fun image same s outside =>
        same s (outside head mem_cons_self)
      refine Runs.bind ((runs_writeSectors (nodup_sectorsOf head) below).mono ofHead
        (fun _ _ holds => holds) fun _ image broken => ⟨broken.1, ofHead image broken.2⟩) ?_
      rintro written' image ⟨rfl, same, bytes⟩
      rw [length_sectorsOf] at bytes ⊢
      have agree := ofHead image same
      refine (reads_nextCluster head).before ?_ fun e broken => ⟨broken, agree⟩
      rw [agree.nextOf sound valid]
      have rewalk : vol.Walk image (vol.nextOf disk head) rest :=
        Lib.IsChain.congr walk' fun x mem => agree.nextOf sound (validRest x mem)
      have grow : ∀ image', vol.DataAgree rest image image' →
          vol.DataAgree (head :: rest) disk image' := fun image' later =>
        agree.trans (later.mono (subset_cons_self _ _))
      refine (ih rewalk distinctRest (by simpa using enough) (Nat.min_le_left _ _)).mono grow ?_
        fun _ image' broken => ⟨broken.1, grow image' broken.2⟩
      rintro _ image' ⟨later, bytes'⟩
      refine ⟨grow image' later, ?_⟩
      have kept : sectorBytes image' (vol.sectorsOf head) =
          sectorBytes image (vol.sectorsOf head) := by
        refine flatMap_congr fun s mem => ?_
        rw [later s fun x inRest inside =>
          notMem (mem_sectorsOf_unique valid (validRest x inRest) mem inside ▸ inRest)]
      have whole : vol.bytesOn image' (head :: rest) =
          sectorBytes image (vol.sectorsOf head) ++ vol.bytesOn image' rest := by
        rw [bytesOn, flatMap_cons, kept]
        rfl
      rw [whole, length_cons, Nat.succ_mul, Nat.add_comm (rest.length * _)]
      refine take_append_written ?_ bytes bytes'
      rw [length_sectorBytes, length_sectorsOf]
      rfl
    · rename_i done
      have full : data.length ≤ written := by
        by_contra more
        exact done ⟨by omega, valid⟩
      refine Runs.pure ⟨DataAgree.refl _ _, ?_⟩
      rw [Nat.sub_eq_zero_of_le full, take_zero, drop_eq_nil_of_le full, take_nil]

/-! ### Slots -/

theorem runs_writeDirEntry {name : Name} {attr : UInt8}
    (safe : crash (putSlot disk pos (fillDirEntry (slotAt disk pos) name attr first size)))
    (holds : post () (putSlot disk pos (fillDirEntry (slotAt disk pos) name attr first size)))
    (fails : ∀ e, ¬ working → fail e disk) :
    Runs working crash (writeDirEntry pos name attr first size) disk post fail :=
  (reads_readSector pos.1).before (Runs.writeBlock safe holds fun _ => fails _) fails

def deletedSlot (slot : Slot) : Slot := splice slot 0 (fun _ => 0xE5 : Block 1)

theorem runs_clearDirEntry (safe : crash (putSlot disk pos (deletedSlot (slotAt disk pos))))
    (holds : post () (putSlot disk pos (deletedSlot (slotAt disk pos)))) (fails : ∀ e, ¬ working → fail e disk)
    : Runs working crash (clearDirEntry pos) disk post fail := by
  have same : putSlot disk pos (deletedSlot (slotAt disk pos)) =
      update disk pos.1
        (splice (disk pos.1) (32 * pos.2.1) (fun _ => 0xE5 : Block 1)) := by
    rw [splice_deleted]
    rfl
  rw [same] at safe holds
  exact (reads_readSector pos.1).before (Runs.writeBlock safe holds fun _ => fails _) fails

theorem deletedSlot_zero (slot : Slot) : deletedSlot slot 0 = 0xE5 := rfl

theorem not_liveSlot_deleted (slot : Slot) : liveSlot (deletedSlot slot) = false := by
  rw [Bool.eq_false_iff]
  exact fun isLive => (liveSlot_iff.mp isLive).2.1 (deletedSlot_zero slot)

/-! ### A new directory -/

theorem runs_zeroSectors :
    Runs working (fun image => ∀ s, s ∉ sectors → image s = disk s) (zeroSectors sectors) disk
      (fun _ image => (∀ s, s ∉ sectors → image s = disk s) ∧ ∀ s ∈ sectors, image s = fun _ => 0)
      (fun _ image => ¬ working ∧ ∀ s, s ∉ sectors → image s = disk s) := by
  induction sectors generalizing disk with
  | nil => exact Runs.pure ⟨fun _ _ => rfl, forall_mem_nil _⟩
  | cons sector rest ih =>
    rw [zeroSectors]
    refine Runs.step (Runs.writeBlock (eq_of_eq_update fun _ _ => rfl) rfl fun f broken =>
      ⟨broken, fun _ _ => rfl⟩) fun _ => ?_
    refine ih.mono (fun _ => eq_of_eq_update) ?_ fun _ _ broken => ⟨broken.1, eq_of_eq_update broken.2⟩
    rintro _ image ⟨same, zero⟩
    refine ⟨eq_of_eq_update same, fun s mem => ?_⟩
    by_cases later : s ∈ rest
    · exact zero s later
    · obtain rfl := (mem_cons.mp mem).resolve_right later
      rw [same s later, update_self]

theorem sectorsOf_eq_cons (c : ℕ) : vol.sectorsOf c = vol.firstSectorOfCluster c :: (vol.sectorsOf c).tail := by
  have positive := vol.sectorsPerCluster_pos
  unfold sectorsOf
  obtain ⟨n, more⟩ : ∃ n, vol.sectorsPerCluster = n + 1 := ⟨vol.sectorsPerCluster - 1, by omega⟩
  rw [more, range_succ_eq_map]
  rfl

variable (vol) in
/-- A cluster that holds the dot slots of a new directory and zeros. -/
structure EmptyDir (cluster parent : ℕ) (image : Disk) : Prop where
  dots : image (vol.firstSectorOfCluster cluster) = vol.dotSector cluster parent
  zeros : ∀ s ∈ (vol.sectorsOf cluster).tail, image s = fun _ => 0

theorem runs_initDirCluster :
    Runs working (vol.DataAgree [cluster] disk) (vol.initDirCluster cluster parent) disk
      (fun _ image => vol.DataAgree [cluster] disk image ∧ vol.EmptyDir cluster parent image)
      (fun _ image => ¬ working ∧ vol.DataAgree [cluster] disk image) := by
  have nodup : (vol.sectorsOf cluster).Nodup := nodup_sectorsOf cluster
  rw [sectorsOf_eq_cons] at nodup
  have notLater := (nodup_cons.mp nodup).1
  have grow : ∀ image : Disk, (∀ s, s ∉ (vol.sectorsOf cluster).tail → image s =
      update disk (vol.firstSectorOfCluster cluster) (vol.dotSector cluster parent) s) →
      vol.DataAgree [cluster] disk image := by
    intro image same s outside
    refine eq_of_eq_update same s ?_
    rw [← sectorsOf_eq_cons]
    exact outside cluster (mem_singleton_self _)
  unfold initDirCluster
  refine Runs.step (Runs.writeBlock (grow _ fun _ _ => rfl) rfl fun f broken => ⟨broken, DataAgree.refl _ _⟩)
    fun _ => ?_
  refine runs_zeroSectors.mono grow ?_ fun _ image broken => ⟨broken.1, grow image broken.2⟩
  rintro _ image ⟨same, zero⟩
  exact ⟨grow image same, by rw [same _ notLater, update_self], zero⟩

theorem dotSector_eq : vol.dotSector cluster parent = splice (splice (fun _ => 0 : Sector) (32 * (0 : Fin 16).1)
          (fillDirEntry (slotOf (fun _ => 0) 0) dotName attrDirectory cluster 0)) (32 * (1 : Fin 16).1)
        (fillDirEntry (slotOf (splice (fun _ => 0 : Sector) (32 * (0 : Fin 16).1)
            (fillDirEntry (slotOf (fun _ => 0) 0) dotName attrDirectory cluster 0)) 1)
          dotdotName attrDirectory (if parent = vol.rootCluster then 0 else parent) 0) := rfl

theorem nameOf_dotSector_zero : nameOf (slotOf (vol.dotSector cluster parent) 0) = dotName := by
  rw [dotSector_eq, slotOf_splice_other _ le_rfl (by decide), slotOf_splice_same, nameOf_fillDirEntry]

theorem nameOf_dotSector_one : nameOf (slotOf (vol.dotSector cluster parent) 1) = dotdotName := by
  rw [dotSector_eq, slotOf_splice_same, nameOf_fillDirEntry]

theorem slotOf_dotSector_other {i : Fin 16} (notDot : i ≠ 0) (notDotdot : i ≠ 1) :
    slotOf (vol.dotSector cluster parent) i = fun _ => 0 := by
  rw [dotSector_eq, slotOf_splice_other _ le_rfl notDotdot, slotOf_splice_other _ le_rfl notDot]
  rfl

/-- Behind its dot slots a new directory is zero. -/
theorem EmptyDir.slots (empty : vol.EmptyDir cluster parent image) : ∃ rest, vol.slotsOn [cluster] =
        [(vol.firstSectorOfCluster cluster, 0), (vol.firstSectorOfCluster cluster, 1)] ++ rest ∧
      ∀ q ∈ rest, slotAt image q 0 = 0x00 := by
  refine ⟨((finRange 16).drop 2).map (fun i => (vol.firstSectorOfCluster cluster, i)) ++
    (vol.sectorsOf cluster).tail.flatMap fun s => (finRange 16).map fun i => (s, i), ?_, ?_⟩
  · rw [slotsOn, flatMap_singleton, sectorsOf_eq_cons, flatMap_cons]
    rfl
  · intro q mem
    rcases mem_append.mp mem with here | later
    · obtain ⟨i, high, rfl⟩ := mem_map.mp here
      have range : ∀ i ∈ (finRange 16).drop 2, i ≠ 0 ∧ i ≠ 1 := by decide
      unfold slotAt
      rw [empty.dots, slotOf_dotSector_other (range i high).1 (range i high).2]
    · obtain ⟨s, inTail, inside⟩ := mem_flatMap.mp later
      obtain ⟨i, _, rfl⟩ := mem_map.mp inside
      unfold slotAt
      rw [empty.zeros s inTail]
      rfl

/-- **A new directory is empty** and well formed. -/
theorem EmptyDir.newDir (empty : vol.EmptyDir cluster parent image)
    (single : vol.chain image cluster = [cluster]) : vol.children image cluster = [] ∧
    (∀ q ∈ vol.live image cluster, ∀ r ∈ vol.live image cluster,
      nameOf (slotAt image q) = nameOf (slotAt image r) → q = r) ∧
    TailZero image (vol.slots image cluster) := by
  obtain ⟨rest, split, zero⟩ := empty.slots
  let dotPos : Pos := (vol.firstSectorOfCluster cluster, 0)
  let dotdotPos : Pos := (vol.firstSectorOfCluster cluster, 1)
  have dotNamed : nameOf (slotAt image dotPos) = dotName := by
    unfold slotAt
    rw [empty.dots, nameOf_dotSector_zero]
  have dotdotNamed : nameOf (slotAt image dotdotPos) = dotdotName := by
    unfold slotAt
    rw [empty.dots, nameOf_dotSector_one]
  have firstByte : ∀ q, slotAt image q 0 = nameOf (slotAt image q) 0 := fun _ => rfl
  have slotsEq : vol.slots image cluster = [dotPos, dotdotPos] ++ rest := by
    unfold Fat32.slots
    rw [single, split]
  have used : ∀ q ∈ [dotPos, dotdotPos], slotAt image q 0 ≠ 0x00 := by
    intro q mem
    rw [firstByte]
    rcases mem_pair.mp mem with rfl | rfl
    · rw [dotNamed]
      decide
    · rw [dotdotNamed]
      decide
  have inUse : ∀ q ∈ vol.live image cluster, q = dotPos ∨ q = dotdotPos := by
    intro q mem
    have inside := mem_of_mem_filter mem
    rw [slotsEq, usedOn_append used, usedOn_nil_of_zero zero, append_nil] at inside
    exact mem_pair.mp inside
  refine ⟨?_, ?_, ?_⟩
  · refine filter_eq_nil_iff.mpr fun q mem => ?_
    unfold dotSlot
    rcases inUse q mem with rfl | rfl
    · rw [dotNamed]
      decide
    · rw [dotdotNamed]
      decide
  · intro q memberQ r memberR same
    rcases inUse q memberQ with rfl | rfl <;> rcases inUse r memberR with rfl | rfl
    · rfl
    · rw [dotNamed, dotdotNamed] at same
      exact absurd same (by decide)
    · rw [dotNamed, dotdotNamed] at same
      exact absurd same (by decide)
    · rfl
  · rw [slotsEq]
    unfold TailZero
    rw [pairwise_append]
    refine ⟨?_, ?_, fun q mem r _ zeroQ => absurd zeroQ (used q mem)⟩
    · exact pairwise_of_forall_mem_list fun q mem _ _ zeroQ => absurd zeroQ (used q mem)
    · exact pairwise_of_forall_mem_list fun _ _ r mem _ => zero r mem

/-! ### The content of a file -/

variable (vol) in
/-- The number of clusters `write_file` asks for: `div_ceil`, cast to `u32`. -/
def clustersFor (data : Bytes) : ℕ :=
  (data.length + vol.clusterBytes - 1) / vol.clusterBytes % 2 ^ 32

theorem clusterBytes_pos : 0 < vol.clusterBytes := Nat.mul_pos vol.sectorsPerCluster_pos (by decide)

theorem clustersFor_nil : vol.clustersFor [] = 0 := by
  have positive := vol.clusterBytes_pos
  rw [clustersFor, length_nil, Nat.zero_add, Nat.div_eq_of_lt (by omega), Nat.zero_mod]

variable (vol) in
/-- **New content**: no cluster, or a chain of its own that holds the data as far as it goes. -/
def NewContent (disk : Disk) (data : Bytes) (first : ℕ) (image : Disk) : Prop :=
  (vol.clustersFor data = 0 ∧ first = 0 ∧ image = disk) ∨
    ∃ l linked, l.length = vol.clustersFor data ∧ vol.Built disk l linked ∧ first = l.headD 0 ∧
      vol.DataAgree l linked image ∧
      (vol.bytesOn image l).take data.length = data.take (l.length * vol.clusterBytes)

section

variable (sound : vol.Sound)
include sound

/-- A new chain with any data in its sectors leaves every used cluster alone. -/
theorem Built.agree_data (built : vol.Built disk l linked)
    (agree : vol.DataAgree l linked image) : vol.AgreeOn (vol.Used disk) disk image := by
  obtain ⟨isChain, fresh, before⟩ := built.spec sound
  have outside : ∀ c, vol.validCluster c → vol.nextOf disk c ≠ 0 → c ∉ l :=
    fun c _ used inside => used (fresh c inside).2
  exact (before.agreeOn.mono outside).trans ((agree.agreeOn sound isChain.valid).mono outside)

theorem Built.isChain_data (built : vol.Built disk l linked)
    (agree : vol.DataAgree l linked image) : vol.IsChain image (l.headD 0) l := by
  have isChain := (built.spec sound).1
  exact Lib.IsChain.congr isChain fun x mem => agree.nextOf sound (isChain.valid x mem)

theorem NewContent.agree (new : vol.NewContent disk data first image) :
    vol.AgreeOn (vol.Used disk) disk image := by
  rcases new with ⟨_, _, rfl⟩ | ⟨l, linked, _, built, _, agree, _⟩
  · exact AgreeOn.refl _ _
  · exact built.agree_data sound agree

/-- The data part of step 2 of `write_file`, with its rollback. -/
theorem runs_fillContent (data : Bytes) (done : Disk → Prop) (walk : vol.Walk image first l) (nodup : l.Nodup)
    (short : l.length ≤ vol.clusterCount) (safe : ∀ image', vol.AgreeOn (· ∉ l) image image' → aside image')
    (holds : ∀ image', vol.DataAgree l image image' →
      (vol.bytesOn image' l).take data.length = data.take (l.length * vol.clusterBytes) → done image')
    (fails : ∀ e image', ¬ working → aside image' → fail e image') :
    Runs working aside (do
        match ← attempt (vol.writeChain first data) with
        | .error e =>
          let _ ← attempt (vol.freeChain first)
          throw e
        | .ok _ => return first : FatM ℕ) image
      (fun first' image' => first' = first ∧ done image') fail := by
  have valid := Lib.IsChain.valid_of_mem walk
  refine Runs.bind (Runs.attempt ((runs_writeFrom sound walk nodup short (Nat.zero_le _)).mono
    (fun image' agree => safe image' (agree.agreeOn sound valid)) (fun _ _ holds => holds)
    fun _ _ broken => broken)) ?_
  intro outcome image' result
  cases outcome with
  | ok _ => exact Runs.pure ⟨rfl, holds image' result.1 result.2⟩
  | error e =>
    obtain ⟨broken, agree⟩ := result
    have rewalk : vol.Walk image' first l :=
      Lib.IsChain.congr walk fun x mem => agree.nextOf sound (valid x mem)
    have released : ∀ image'', vol.FatAgree (· ∉ l) image' image'' → aside image'' :=
      fun image'' free => safe image'' ((agree.agreeOn sound valid).trans free.agreeOn)
    refine Runs.bind (Runs.attempt ((runs_freeFrom sound rewalk nodup short).mono released
      (fun _ _ holds => holds) fun _ _ broken => broken)) ?_
    intro outcome image'' result
    refine Runs.throw (fails e image'' broken ?_)
    cases outcome with
    | ok _ =>
      obtain rfl : image'' = vol.freed image' l := result
      exact released _ (fatAgree_freed sound valid image')
    | error _ => exact released image'' result.2

/-- **The new content of a file**, built aside. -/
theorem runs_buildContent (data : Bytes) :
    Runs working (vol.AgreeOn (vol.Used disk) disk) (vol.buildContent data) disk
      (vol.NewContent disk data) (fun e image => vol.AgreeOn (vol.Used disk) disk image ∧
        (working → e = .noSpace ∧ vol.RolledBack disk (vol.clustersFor data) image)) := by
  unfold buildContent
  split
  · rename_i isEmpty
    rw [isEmpty_iff.mp isEmpty]
    exact Runs.pure (.inl ⟨vol.clustersFor_nil, rfl, rfl⟩)
  · refine Runs.bind ((runs_allocChain sound _).mono (fun _ agree => agree.agreeOn)
      (fun _ _ holds => holds) fun _ _ fails => ⟨fails.1.agreeOn, fails.2⟩) ?_
    intro first image alloc
    rcases alloc with ⟨none, rfl, rfl⟩ | ⟨l, length, built, rfl⟩
    · refine (runs_fillContent sound data (fun image' => image' = image) (l := []) not_valid_zero
        nodup_nil (Nat.zero_le _)
        (fun image' agree => agree.mono fun _ _ _ => not_mem_nil) (fun image' agree _ => ?_)
        fun e image' broken aside => ⟨aside, fun works => absurd works broken⟩).mono
        (fun _ safe => safe) ?_ fun _ _ fails => fails
      · exact funext fun s => agree s (forall_mem_nil _)
      · rintro _ _ ⟨rfl, rfl⟩
        exact .inl ⟨none, rfl, rfl⟩
    · obtain ⟨isChain, fresh, before⟩ := built.spec sound
      have outside : ∀ c, vol.validCluster c → vol.nextOf disk c ≠ 0 → c ∉ l :=
        fun c _ used inside => used (fresh c inside).2
      refine (runs_fillContent sound data (vol.NewContent disk data (l.headD 0))
        (isChain.walk sound) (isChain.nodup sound) (isChain.length_le sound)
        (fun image' agree => (before.agreeOn.mono outside).trans (agree.mono outside))
        (fun image' agree bytes => ?_)
        fun e image' broken aside => ⟨aside, fun works => absurd works broken⟩).mono
        (fun _ safe => safe) ?_ fun _ _ fails => fails
      · exact .inr ⟨l, image, length, built, rfl, agree, bytes⟩
      · rintro _ image' ⟨rfl, new⟩
        exact new

end

end Fat32

end Ferros.Fat
