/-
**Allocation, with one request that fails.**

* `leaks` — **the requests that must not fail**; `accounted_allocLoop` — these are all: if another one fails,
  what was allocated is given back.

By induction on the rounds, with the clusters held between them (`Held`). The failed request is in the mark of a
round, in its link, or later (`accounted_round`, `traced_link`).
-/

import Ferros.Fat.Atomic
import Ferros.Lib.Transient

namespace Ferros.Fat

open Lib List

namespace Fat32

variable (vol : Fat32) {disk image image' after : Disk} {n k j head first x prev reads marking count : ℕ}
  {α : Type} {l : List ℕ}

/-- **Every cluster that is free on the first image is free on the second one.** -/
def FreeKept (disk image : Disk) : Prop :=
  ∀ c, vol.validCluster c = true → vol.nextOf disk c = 0 → vol.nextOf image c = 0

/-- The first FAT is the same. -/
def SameFat (disk image : Disk) : Prop :=
  ∀ c, vol.validCluster c = true → vol.nextOf image c = vol.nextOf disk c

/-- The clusters that `alloc_chain` holds between two rounds, and the image then. -/
def Held (disk : Disk) (l : List ℕ) (image : Disk) : Prop := (l = [] ∧ image = disk) ∨ vol.Built disk l image

/-- The requests of the link from the cluster before, if there is one. -/
def linking (held : ℕ) : ℕ := if held = 0 then 0 else 2 * vol.numFats

/-- The image after the link. -/
def linkedTo (marked : Disk) (prev held c : ℕ) : Disk :=
  if held = 0 then marked else leaves (vol.writeFatEntry prev c) marked

/-- **The requests that must not fail.** The rounds of `alloc_chain` on a working device, with the last one and
the number of the clusters that are held. A round marks a cluster and links it; if there is none left it gives
back those that are held. Clusters leak if the failed request `k` comes

* after the mark has reached the first FAT: at another copy of it, or at the link;
* or as clusters are given back, up to the entry of the last one in the first FAT. -/
def leaks : ℕ → Disk → ℕ → ℕ → ℕ → Bool
  | 0, _, _, _, _ => false
  | n + 1, disk, prev, held, k =>
    let marking := requests vol.allocCluster disk
    match answer vol.allocCluster disk with
    | .error _ =>
      decide (marking ≤ k) &&
        decide (k + 2 * (vol.numFats - 1) < marking + held * (1 + 2 * vol.numFats))
    | .ok c =>
      if k < marking + vol.linking held then decide (marking ≤ k + 2 * (vol.numFats - 1))
      else leaks n (vol.linkedTo (leaves vol.allocCluster disk) prev held c) c (held + 1)
        (k - (marking + vol.linking held))

variable {vol}

/-! ### One entry -/

section

variable (c value : ℕ) {held : ℕ}

theorem traced_writeFatCopies (n k : ℕ) :
    Traced (vol.writeFatCopies c value (range' k n)) (vol.putCopies disk c value k) (.ok ())
      (vol.putCopies disk c value (k + n)) (2 * n) fun j => (· = vol.putCopies disk c value (k + j / 2)) := by
  induction n generalizing k with
  | zero => exact .pure
  | succ n ih =>
    rw [range'_succ, writeFatCopies]
    have rest := ih (k + 1)
    rw [Nat.add_right_comm] at rest
    refine .counts (.bind (.readBlock rfl) (.bind (.writeBlock rfl) (rest.mono ?_))) (by omega)
    rintro j - _ rfl
    congr 1
    omega

/-- **One entry**: two requests for each copy. -/
theorem traced_writeFatEntry :
    Traced (vol.writeFatEntry c value) disk (.ok ()) (vol.putCopies disk c value vol.numFats)
      (2 * vol.numFats) fun j => (· = vol.putCopies disk c value (j / 2)) := by
  have all : Traced _ (vol.putCopies disk c value 0) _ _ _ _ := traced_writeFatCopies c value vol.numFats 0
  simp only [Nat.zero_add, ← range_eq_range'] at all
  exact all

theorem linkedTo_some (nonzero : held ≠ 0) (marked : Disk) (prev : ℕ) :
    vol.linkedTo marked prev held c = vol.putCopies marked prev c vol.numFats := by
  unfold linkedTo
  rw [if_neg nonzero]
  exact (traced_writeFatEntry prev c).clean.start_disk

end

/-! ### Release -/

theorem traced_nextCluster (c : ℕ) {left : ℕ → Disk → Prop} (holds : left 0 disk) :
    Traced (vol.nextCluster c) disk (.ok (vol.nextOf disk c)) disk 1 left := by
  unfold nextCluster nextOf
  rw [← fatSector_zero]
  show Traced _ disk _ disk (1 + 0) _
  exact .bind (.readBlock holds) .pure

variable (vol) in
/-- **A release that is cut off** at request `j`: the clusters, which were in use, are all released only if what
failed was another copy of the last entry. -/
def CutOff (disk : Disk) (l : List ℕ) (j : ℕ) (image : Disk) : Prop :=
  (∀ x ∈ l, vol.nextOf disk x ≠ 0) →
    (∀ x, vol.validCluster x → x ∉ l → vol.nextOf image x = vol.nextOf disk x) ∧
    ((∀ x ∈ l, vol.nextOf image x = 0) ↔ l.length * (1 + 2 * vol.numFats) ≤ j + 2 * (vol.numFats - 1))

section Release

variable (sound : vol.Sound) {c : ℕ}
include sound

/-- A walk after its first cluster was released. -/
theorem walk_putCopies {rest : List ℕ} (valid : vol.validCluster head)
    (walk : vol.Walk disk (vol.nextOf disk head) rest) (notMem : head ∉ rest) (k : ℕ) :
    vol.Walk (vol.putCopies disk head 0 k) (vol.nextOf disk head) rest :=
  Lib.IsChain.congr walk fun x mem => by
    rw [nextOf_putCopies sound valid (Lib.IsChain.valid_of_mem walk x mem), if_neg]
    exact fun both => notMem (both.1 ▸ mem)

theorem traced_freeFrom (walk : vol.Walk disk c l) (nodup : l.Nodup) (enough : l.length ≤ n) :
    Traced (vol.freeFrom n c) disk (.ok ()) (vol.freed disk l) (l.length * (1 + 2 * vol.numFats))
      (vol.CutOff disk l) := by
  have copies := vol.numFats_pos
  induction l generalizing disk c n with
  | nil =>
    have stop : vol.validCluster c = false := walk
    refine .counts ?_ (Nat.zero_mul _).symm
    cases n with
    | zero => exact .pure
    | succ n =>
      rw [freeFrom, if_neg (by rw [stop]; decide)]
      exact .pure
  | cons head rest ih =>
    obtain ⟨rfl, valid, walk'⟩ := walk
    obtain ⟨notMem, distinctRest⟩ := nodup_cons.mp nodup
    obtain ⟨n, rfl⟩ : ∃ m, n = m + 1 := ⟨n - 1, by simp only [length_cons] at enough; omega⟩
    have other : ∀ k x, vol.validCluster x → x ≠ head →
        vol.nextOf (vol.putCopies disk head 0 k) x = vol.nextOf disk x := by
      intro k x validX ne
      rw [nextOf_putCopies sound valid validX, if_neg fun both => ne both.1]
    have here : vol.nextOf disk head ≠ 0 → ∀ k, vol.nextOf (vol.putCopies disk head 0 k) head = 0 ↔ 0 < k := by
      intro used k
      rw [nextOf_putCopies sound valid valid]
      by_cases some : 0 < k
      · rw [if_pos ⟨rfl, some⟩]
        exact iff_of_true rfl some
      · rw [if_neg fun both => some both.2]
        exact iff_of_false used some
    have restUsed : (∀ x ∈ rest, vol.nextOf disk x ≠ 0) →
        ∀ k, ∀ x ∈ rest, vol.nextOf (vol.putCopies disk head 0 k) x ≠ 0 := by
      intro used k x mem
      rw [other k x (Lib.IsChain.valid_of_mem walk' x mem) fun same => notMem (same ▸ mem)]
      exact used x mem
    -- the entry of `head`, or the read before it, is cut off
    have cut : ∀ j < 1 + 2 * vol.numFats,
        vol.CutOff disk (head :: rest) j (vol.putCopies disk head 0 ((j - 1) / 2)) := by
      intro j early used
      obtain ⟨usedHead, usedRest⟩ := forall_mem_cons.mp used
      refine ⟨fun x validX outside => other _ x validX fun same => outside (same ▸ mem_cons_self), ?_⟩
      rw [forall_mem_cons, here usedHead, length_cons]
      cases rest with
      | nil =>
        simp only [not_mem_nil, false_imp_iff, implies_true, and_true, length_nil]
        omega
      | cons second rest =>
        refine iff_of_false (fun both => restUsed usedRest _ second mem_cons_self (both.2 second mem_cons_self)) ?_
        rw [length_cons, Nat.add_mul, Nat.add_mul]
        omega
    have later := ih (walk_putCopies sound valid walk' notMem vol.numFats) distinctRest
      (Nat.le_of_succ_le_succ enough)
    rw [freeFrom, if_pos valid, length_cons]
    refine .counts (.bind (traced_nextCluster head (cut 0 (by omega))) (.bind
      ((traced_writeFatEntry head 0).mono fun j below image same => ?_) (later.mono ?_))) ?_
    · have whole := cut (1 + j) (by omega)
      rwa [Nat.add_sub_cancel_left, ← same] at whole
    · intro j _ image holds used
      obtain ⟨usedHead, usedRest⟩ := forall_mem_cons.mp used
      obtain ⟨outside, all⟩ := holds (restUsed usedRest _)
      have headNow : vol.nextOf image head = 0 := by
        rw [outside head valid notMem, here usedHead]
        exact copies
      refine ⟨fun x validX notHere => ?_, ?_⟩
      · rw [mem_cons, not_or] at notHere
        rw [outside x validX notHere.2, other _ x validX notHere.1]
      · rw [forall_mem_cons, and_iff_right headNow, all, length_cons, Nat.add_mul]
        omega
    · rw [Nat.add_mul]
      omega

/-- What is given back is released, and nothing else changes. -/
theorem traced_giveBack (walk : vol.Walk disk first l) (nodup : l.Nodup) (e : FatError) :
    Traced (do let _ ← attempt (vol.freeChain first); throw e : FatM α) disk (.error e) (vol.freed disk l)
      (l.length * (1 + 2 * vol.numFats)) (vol.CutOff disk l) := by
  have enough : l.length ≤ vol.clusterCount := length_le_clusterCount nodup (Lib.IsChain.valid_of_mem walk)
  show Traced _ disk _ _ (l.length * (1 + 2 * vol.numFats) + 0) _
  exact .recover (traced_freeFrom sound walk nodup enough) (fun _ _ _ _ cut => Clean.throw.settles cut) .throw

theorem traced_giveBackSome (walk : vol.Walk disk first l) (nodup : l.Nodup) (e : FatError) :
    Traced (if first ≠ 0 then do let _ ← attempt (vol.freeChain first); throw e else throw e : FatM α) disk
      (.error e) (vol.freed disk l) (l.length * (1 + 2 * vol.numFats)) (vol.CutOff disk l) := by
  split
  · exact traced_giveBack sound walk nodup e
  · rename_i zero
    cases l with
    | nil => exact .counts .throw (Nat.zero_mul _).symm
    | cons head rest =>
      obtain ⟨rfl, valid, -⟩ := walk
      exact absurd (ne_zero_of_valid valid) zero

end Release

/-! ### Allocation -/

/-- The entries are read, and if one is free it is marked. -/
theorem allocFrom_cases (vol : Fat32) (disk : Disk) (fuel start : ℕ) : ∃ reads,
    Traced (vol.allocFrom fuel start) disk (.error .noSpace) disk reads (fun _ => (· = disk)) ∨
    ∃ c, Traced (vol.allocFrom fuel start) disk (.ok c) (vol.putCopies disk c fat32Eoc vol.numFats)
      (reads + 2 * vol.numFats) fun j => (· = vol.putCopies disk c fat32Eoc ((j - reads) / 2)) := by
  induction fuel generalizing start with
  | zero => exact ⟨0, .inl .throw⟩
  | succ fuel ih =>
    rw [allocFrom]
    split
    · simp only
      rcases scanned : vol.scanEntries (disk (vol.fatStartSector + start / fatEntriesPerSector))
        (vol.fatStartSector + start / fatEntriesPerSector) fatEntriesPerSector start with ⟨past, hit⟩
      cases hit with
      | true =>
        refine ⟨1, .inr ⟨past, .bind (.readBlock rfl) ?_⟩⟩
        simp only [scanned, Nat.add_sub_cancel_left]
        show Traced _ disk _ _ (2 * vol.numFats + 0) _
        exact .bind (traced_writeFatEntry past fat32Eoc) .pure
      | false =>
        obtain ⟨reads, full | ⟨c, found⟩⟩ := ih past
        · refine ⟨1 + reads, .inl (.bind (.readBlock rfl) ?_)⟩
          rw [scanned]
          exact full
        · refine ⟨1 + reads, .inr ⟨c, ?_⟩⟩
          rw [Nat.add_assoc]
          refine .bind (.readBlock ?_) ?_
          · rw [Nat.zero_sub]
            rfl
          · simp only [scanned, Nat.add_sub_add_left]
            exact found
    · exact ⟨0, .inl .throw⟩

/-- **Allocation of one cluster**, cut off anywhere. -/
theorem allocCluster_cases (sound : vol.Sound) (disk : Disk) : ∃ reads,
    Traced vol.allocCluster disk (.error .noSpace) disk reads (fun _ => (· = disk)) ∨
    ∃ c, vol.validCluster c ∧ vol.nextOf disk c = 0 ∧
      Traced vol.allocCluster disk (.ok c) (vol.putCopies disk c fat32Eoc vol.numFats)
        (reads + 2 * vol.numFats) fun j => (· = vol.putCopies disk c fat32Eoc ((j - reads) / 2)) := by
  obtain ⟨reads, full | ⟨c, found⟩⟩ := vol.allocFrom_cases disk vol.clusterCount firstDataCluster
  · exact ⟨reads, .inl full⟩
  · have runs : Runs False _ vol.allocCluster disk _ _ := runs_allocCluster sound
    obtain ⟨valid, free, -, -⟩ : vol.validCluster c ∧ vol.nextOf disk c = 0 ∧ _ :=
      Runs.of_ok (show Runs False _ _ (Device.start disk fun _ _ => none).disk _ _ from runs) False.elim
        found.clean.start_eq
    exact ⟨reads, .inr ⟨c, valid, free, found⟩⟩

section Held

variable (sound : vol.Sound) (held : vol.Held disk l image) {c : ℕ}
include sound held

theorem Held.walk : vol.Walk image (l.headD 0) l := by
  rcases held with ⟨rfl, -⟩ | built
  · exact not_valid_zero
  · exact (built.spec sound).1.walk sound

theorem Held.nodup : l.Nodup := by
  rcases held with ⟨rfl, -⟩ | built
  · exact nodup_nil
  · exact (built.spec sound).1.nodup sound

theorem Held.fresh : ∀ x ∈ l, vol.validCluster x ∧ vol.nextOf disk x = 0 := by
  rcases held with ⟨rfl, -⟩ | built
  · exact forall_mem_nil _
  · exact (built.spec sound).2.1

theorem Held.used : ∀ x ∈ l, vol.nextOf image x ≠ 0 := by
  rcases held with ⟨rfl, -⟩ | built
  · exact forall_mem_nil _
  · exact (built.spec sound).1.next_ne_zero

theorem Held.next_eq (valid : vol.validCluster x) (outside : x ∉ l) :
    vol.nextOf image x = vol.nextOf disk x := by
  rcases held with ⟨rfl, rfl⟩ | built
  · rfl
  · exact (built.spec sound).2.2.next x valid outside

theorem Held.not_mem (free : vol.nextOf image c = 0) : c ∉ l :=
  fun mem => held.used sound c mem free

theorem Held.freeKept_iff (same : ∀ x, vol.validCluster x → x ∉ l → vol.nextOf image' x = vol.nextOf image x) :
    vol.FreeKept disk image' ↔ ∀ x ∈ l, vol.nextOf image' x = 0 := by
  refine ⟨fun kept x mem => ?_, fun all c valid free => ?_⟩
  · obtain ⟨valid, free⟩ := held.fresh sound x mem
    exact kept x valid free
  · by_cases mem : c ∈ l
    · exact all c mem
    · rw [same c valid mem, held.next_eq sound valid mem, free]

/-- **What is held can be given back**, whatever became of the data. -/
theorem Held.released (same : vol.SameFat image image') :
    vol.Walk image' (l.headD 0) l ∧ vol.FreeKept disk (vol.freed image' l) := by
  have walk : vol.Walk image' (l.headD 0) l :=
    Lib.IsChain.congr (held.walk sound) fun x mem => same x (held.fresh sound x mem).1
  have validAll := Lib.IsChain.valid_of_mem walk
  refine ⟨walk, (held.freeKept_iff sound fun x valid outside => ?_).mpr (nextOf_freed sound validAll _)⟩
  rw [(fatAgree_freed sound validAll _).next x valid outside, same x valid]

/-- **A mark that was not taken back**: the cluster stays used if the mark has reached the first FAT. -/
theorem Held.freeKept_marked (valid : vol.validCluster c) (free : vol.nextOf image c = 0) (k : ℕ) :
    vol.FreeKept disk (vol.freed (vol.putCopies image c fat32Eoc k) l) ↔ k = 0 := by
  have notHeld := held.not_mem sound free
  have validAll : ∀ x ∈ l, vol.validCluster x := fun x mem => (held.fresh sound x mem).1
  have kept : ∀ x, vol.validCluster x → x ∉ l →
      vol.nextOf (vol.freed (vol.putCopies image c fat32Eoc k) l) x =
        vol.nextOf (vol.putCopies image c fat32Eoc k) x :=
    fun x validX outside => (fatAgree_freed sound validAll _).next x validX outside
  constructor
  · intro freeKept
    have now := freeKept c valid ((held.next_eq sound valid notHeld).symm.trans free)
    rw [kept c valid notHeld, nextOf_putCopies sound valid valid] at now
    by_contra some
    rw [if_pos ⟨rfl, Nat.pos_of_ne_zero some⟩] at now
    exact absurd now (by decide)
  · rintro rfl
    rw [held.freeKept_iff sound kept]
    exact nextOf_freed sound validAll _

omit sound in
/-- **The next round.** -/
theorem Held.extend (valid : vol.validCluster c) (free : vol.nextOf image c = 0) : vol.Held disk (l ++ [c])
      (vol.linkedTo (vol.putCopies image c fat32Eoc vol.numFats) (l.getLastD 0) l.length c) := by
  rcases held with ⟨rfl, rfl⟩ | built
  · exact .inr (.single valid free)
  · obtain ⟨front, last, rfl⟩ : ∃ front last, l = front ++ [last] := by
      cases built with
      | single _ _ => exact ⟨[], _, rfl⟩
      | extend _ _ _ => exact ⟨_, _, rfl⟩
    have length : (front ++ [last]).length ≠ 0 := by simp
    rw [getLastD_concat, linkedTo_some c length]
    exact .inr (.extend built valid free)

theorem Held.leaks_link (valid : vol.validCluster c) (free : vol.nextOf image c = 0) (nonzero : l ≠ []) (k : ℕ) :
    ¬ vol.FreeKept disk (vol.putCopies (vol.putCopies image c fat32Eoc vol.numFats) (l.getLastD 0) c k) := by
  intro kept
  have notHeld := held.not_mem sound free
  have mem : l.getLastD 0 ∈ l := by
    rw [getLastD_eq_getLast?, getLast?_eq_getLast_of_ne_nil nonzero]
    exact getLast_mem nonzero
  have now := kept c valid ((held.next_eq sound valid notHeld).symm.trans free)
  have ne : ¬ (c = l.getLastD 0 ∧ 0 < k) := fun both => notHeld (both.1 ▸ mem)
  rw [nextOf_putCopies sound (held.fresh sound _ mem).1 valid, if_neg ne,
    nextOf_putCopies_self sound valid (by decide)] at now
  exact absurd now (by decide)

end Held

variable (vol) in
/-- **A program whose leaks are accounted for**: `leaky` says of each of its requests whether clusters that are
free on `disk` stay used if it fails. -/
def Accounted (disk : Disk) (m : FatM ℕ) (image : Disk) (leaky : ℕ → Bool) : Prop :=
  ∃ outcome after count,
    Traced m image outcome after count (fun j image' => vol.FreeKept disk image' ↔ leaky j = false) ∧
    (∀ first, outcome = .ok first →
      ∃ l linked, vol.Held disk l linked ∧ vol.SameFat linked after ∧ first = l.headD 0) ∧
    ∀ j, count ≤ j → leaky j = false

section Rounds

variable {held c : ℕ}

theorem leaks_full {e : FatError} (clean : Clean vol.allocCluster image (.error e) after reads) (n k : ℕ) :
    vol.leaks (n + 1) image prev held k = (decide (reads ≤ k) &&
      decide (k + 2 * (vol.numFats - 1) < reads + held * (1 + 2 * vol.numFats))) := by
  have failed : answer vol.allocCluster image = .error e := clean.start_eq
  simp only [leaks, failed, clean.requests_eq]

theorem leaks_round (clean : Clean vol.allocCluster image (.ok c) after reads) (n k : ℕ) :
    vol.leaks (n + 1) image prev held k =
      if k < reads + vol.linking held then decide (reads ≤ k + 2 * (vol.numFats - 1))
      else vol.leaks n (vol.linkedTo after prev held c) c (held + 1) (k - (reads + vol.linking held)) := by
  have found : answer vol.allocCluster image = .ok c := clean.start_eq
  have marked : leaves vol.allocCluster image = after := clean.start_disk
  simp only [leaks, found, marked, clean.requests_eq]

/-- The window of the later rounds begins behind the first one. -/
theorem leaks_later (clean : Clean vol.allocCluster image (.ok c) after reads) (n i : ℕ) :
    vol.leaks (n + 1) image prev held (reads + vol.linking held + i) =
      vol.leaks n (vol.linkedTo after prev held c) c (held + 1) i := by
  rw [leaks_round clean, if_neg (Nat.not_lt.mpr (Nat.le_add_right _ i)), Nat.add_sub_cancel_left]

end Rounds

section Loop

variable (sound : vol.Sound) (held : vol.Held disk l image)
include sound held

/-- **The volume is full**, and what is held is given back. -/
theorem accounted_full
    (full : Traced vol.allocCluster image (.error .noSpace) image reads (fun _ => (· = image))) (n : ℕ) :
    vol.Accounted disk (vol.allocLoop (n + 1) (l.headD 0) (l.getLastD 0)) image
      (vol.leaks (n + 1) image (l.getLastD 0) l.length) := by
  have walk := held.walk sound
  have nodup := held.nodup sound
  rw [allocLoop]
  refine ⟨_, _, _, .recover full (fun j early e image' same => ?_)
    ((traced_giveBackSome sound walk nodup _).mono fun i _ image' cut => ?_), fun first wrong => (by cases wrong),
    fun j beyond => ?_⟩
  · subst same
    have kept := (held.released sound fun _ _ => rfl).2
    refine (traced_giveBackSome sound walk nodup e).clean.settles (iff_of_true kept ?_)
    rw [leaks_full full.clean, decide_eq_false (not_le.mpr early), Bool.false_and]
  · obtain ⟨outside, all⟩ := cut (held.used sound)
    rw [held.freeKept_iff sound outside, all, leaks_full full.clean]
    simp only [Nat.le_add_right, decide_true, Bool.true_and, decide_eq_false_iff_not]
    omega
  · rw [leaks_full full.clean, decide_eq_false (by omega : ¬ j + 2 * (vol.numFats - 1) <
      reads + l.length * (1 + 2 * vol.numFats)), Bool.and_false]

variable {c : ℕ} (valid : vol.validCluster c) (free : vol.nextOf image c = 0)
include valid free

/-- **The link**, which nothing takes back, and the rounds after it. -/
theorem traced_link {outcome : Except FatError ℕ}
    (clean : Clean vol.allocCluster image (.ok c) (vol.putCopies image c fat32Eoc vol.numFats) marking)
    (rest : Traced (vol.allocLoop n ((l ++ [c]).headD 0) c)
      (vol.linkedTo (vol.putCopies image c fat32Eoc vol.numFats) (l.getLastD 0) l.length c) outcome after count
      fun i image' => vol.FreeKept disk image' ↔
        vol.leaks (n + 1) image (l.getLastD 0) l.length (marking + (vol.linking l.length + i)) = false) :
    Traced (if l.headD 0 = 0 then vol.allocLoop n c c else do
        vol.writeFatEntry (l.getLastD 0) c; vol.allocLoop n (l.headD 0) c)
      (vol.putCopies image c fat32Eoc vol.numFats) outcome after (vol.linking l.length + count)
      fun i image' => vol.FreeKept disk image' ↔
        vol.leaks (n + 1) image (l.getLastD 0) l.length (marking + i) = false := by
  by_cases none : l = []
  · subst none
    have noLink : vol.linking ([] : List ℕ).length = 0 := rfl
    simp only [noLink, Nat.zero_add] at rest ⊢
    exact rest
  · have length : l.length ≠ 0 := fun zero => none (length_eq_zero_iff.mp zero)
    have link : vol.linking l.length = 2 * vol.numFats := if_neg length
    obtain ⟨notZero, sameHead⟩ : l.headD 0 ≠ 0 ∧ (l ++ [c]).headD 0 = l.headD 0 := by
      obtain ⟨head, tail, rfl⟩ := exists_cons_of_ne_nil none
      exact ⟨ne_zero_of_valid (held.fresh sound head mem_cons_self).1, rfl⟩
    rw [sameHead, linkedTo_some _ length, link] at rest
    rw [if_neg notZero, link]
    refine .bind ((traced_writeFatEntry _ _).mono ?_) rest
    rintro i inLink _ rfl
    refine iff_of_false (held.leaks_link sound valid free none _) ?_
    rw [leaks_round clean, link, if_pos (Nat.add_lt_add_left inLink _), decide_eq_true (by omega)]
    decide

/-- **A round**, followed by the others. A mark that is cut off stays, and what was held before is given back. -/
theorem accounted_round
    (found : Traced vol.allocCluster image (.ok c) (vol.putCopies image c fat32Eoc vol.numFats)
      (reads + 2 * vol.numFats) fun j => (· = vol.putCopies image c fat32Eoc ((j - reads) / 2)))
    (later : ∀ {image'}, vol.Held disk (l ++ [c]) image' →
      vol.Accounted disk (vol.allocLoop n ((l ++ [c]).headD 0) c) image'
        (vol.leaks n image' c (l.length + 1))) :
    vol.Accounted disk (vol.allocLoop (n + 1) (l.headD 0) (l.getLastD 0)) image
      (vol.leaks (n + 1) image (l.getLastD 0) l.length) := by
  obtain ⟨outcome, after, count, rest, ends, beyond⟩ := later (held.extend valid free)
  have copies := vol.numFats_pos
  have notHeld := held.not_mem sound free
  rw [allocLoop]
  refine ⟨outcome, after, _, .recover found (fun j below e image' same => ?_)
    (traced_link sound held valid free found.clean (rest.mono fun i _ image' kept => ?_)), ends, fun j past => ?_⟩
  · subst same
    have walk : vol.Walk (vol.putCopies image c fat32Eoc ((j - reads) / 2)) (l.headD 0) l :=
      Lib.IsChain.congr (held.walk sound) fun x mem => by
        rw [nextOf_putCopies sound valid (held.fresh sound x mem).1, if_neg]
        exact fun both => notHeld (both.1 ▸ mem)
    refine (traced_giveBackSome sound walk (held.nodup sound) e).clean.settles ?_
    rw [held.freeKept_marked sound valid free, leaks_round found.clean, if_pos (Nat.lt_add_right _ below),
      decide_eq_false_iff_not]
    omega
  · rw [← Nat.add_assoc, leaks_later found.clean]
    exact kept
  · rw [← Nat.add_assoc] at past
    obtain ⟨i, rfl⟩ := Nat.exists_eq_add_of_le ((Nat.le_add_right _ count).trans past)
    rw [leaks_later found.clean]
    exact beyond i (Nat.le_of_add_le_add_left past)

end Loop

theorem accounted_allocLoop (sound : vol.Sound) (held : vol.Held disk l image)
    (n : ℕ) : vol.Accounted disk (vol.allocLoop n (l.headD 0) (l.getLastD 0)) image
      (vol.leaks n image (l.getLastD 0) l.length) := by
  induction n generalizing l image with
  | zero =>
    exact ⟨_, _, _, .pure, fun first same => ⟨l, image, held, fun _ _ => rfl, (Except.ok.inj same).symm⟩,
      fun _ _ => rfl⟩
  | succ n ih =>
    obtain ⟨reads, full | ⟨c, valid, free, found⟩⟩ := allocCluster_cases sound image
    · exact accounted_full sound held full n
    · refine accounted_round sound held valid free found fun {image'} held' => ?_
      have later := ih held'
      rw [getLastD_concat, length_append, length_singleton] at later
      exact later

end Fat32

end Ferros.Fat
