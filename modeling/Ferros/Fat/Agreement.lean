/-
**The four directory scans agree.**

`find_in_dir`, `locate_entry`, `locate_or_free_slot` and `list_dir` are four copies of one triple loop. Here
they run on any image, with chains that may be cyclic and blocks that cannot be read.

* `Fat32.seen` — the slots that a scan meets until it has to stop reading, and the error that stops it.
* `scans_agree` — the three searches report the same entry, or all absence, or all the same error; and
  `list_dir` lists a slot with the name exactly if they find one.
-/

import Ferros.Fat.Crash

namespace Ferros.Fat

open Lib List Option

namespace Fat32

variable {vol : Fat32} {disk : Disk} {bad : ℕ → Option BlkError} {σ β γ : Type} {dev : Device Sector BlkError}
  {stops : Pos → Prop} {state deleted : σ} {finish : Step σ β → FatM γ} {c : ℕ} {e : BlkError}

/-! ### What a scan meets -/

/-- The slots of the sectors up to the first one that cannot be read. -/
def slotsUntil (bad : ℕ → Option BlkError) : List ℕ → List Pos × Option BlkError
  | [] => ([], none)
  | sector :: rest =>
    match bad sector with
    | some e => ([], some e)
    | none =>
      (((finRange 16).map fun i => (sector, i)) ++ (slotsUntil bad rest).1, (slotsUntil bad rest).2)

variable (vol) in
/-- The slots of at most `n` clusters of a chain, up to the first sector or entry of the FAT that cannot be
read. -/
def slotsAlong (disk : Disk) (bad : ℕ → Option BlkError) : ℕ → ℕ → List Pos × Option BlkError
  | 0, _ => ([], none)
  | n + 1, c =>
    if vol.validCluster c then
      match slotsUntil bad (vol.sectorsOf c) with
      | (slots, some e) => (slots, some e)
      | (slots, none) =>
        match bad (vol.fatSector 0 c) with
        | some e => (slots, some e)
        | none => (slots ++ (slotsAlong disk bad n (vol.nextOf disk c)).1,
            (slotsAlong disk bad n (vol.nextOf disk c)).2)
    else ([], none)

variable (vol) in
/-- **What the scans of a directory meet.** -/
def seen (disk : Disk) (bad : ℕ → Option BlkError) (dir : ℕ) : List Pos × Option BlkError :=
  vol.slotsAlong disk bad vol.clusterCount dir

/-- A scan that gets past all slots meets the error. -/
def conclude {σ β : Type} : Step σ β → Option BlkError → Except FatError (Step σ β)
  | .done result, _ => .ok (.done result)
  | .next state, none => .ok (.next state)
  | .next _, some e => .error (.block e)

section Chain

variable (visit : σ → Pos → Slot → Step σ β)

theorem steadily_scanSectors (sectors : List ℕ) (state : σ) :
    ReadsSteadily disk bad (scanSectors visit sectors state)
      (conclude (scanList visit disk (slotsUntil bad sectors).1 state) (slotsUntil bad sectors).2) := by
  induction sectors generalizing state with
  | nil => exact ReadsSteadily.pure
  | cons sector rest ih =>
    rw [scanSectors, slotsUntil]
    cases isBad : bad sector with
    | some e => exact (ReadsSteadily.readBad isBad).stop
    | none =>
      refine (ReadsSteadily.readBlock isBad).seq ?_
      simp only [scanSlots_eq, scanList_append]
      cases scanList visit disk ((finRange 16).map fun i => (sector, i)) state with
      | next state' => exact ih state'
      | done result => exact ReadsSteadily.pure

theorem steadily_nextCluster (good : bad (vol.fatSector 0 c) = none) :
    ReadsSteadily disk bad (vol.nextCluster c) (.ok (vol.nextOf disk c)) := by
  unfold nextCluster nextOf
  rw [← fatSector_zero]
  exact (ReadsSteadily.readBlock good).seq ReadsSteadily.pure

theorem steadily_nextCluster_bad (isBad : bad (vol.fatSector 0 c) = some e) :
    ReadsSteadily disk bad (vol.nextCluster c) (.error (.block e)) := by
  unfold nextCluster
  rw [← fatSector_zero]
  exact (ReadsSteadily.readBad isBad).stop

/-- **A scan is a fold over the slots that it meets.** -/
theorem steadily_scanChain (n c : ℕ) (state : σ) : ReadsSteadily disk bad (vol.scanChain visit n c state)
      (conclude (scanList visit disk (vol.slotsAlong disk bad n c).1 state)
      (vol.slotsAlong disk bad n c).2) := by
  induction n generalizing c state with
  | zero => exact ReadsSteadily.pure
  | succ n ih =>
    rw [scanChain, slotsAlong]
    split
    · have sectors : ReadsSteadily disk bad (scanSectors visit (vol.sectorsOf c) state) _ :=
        steadily_scanSectors visit (vol.sectorsOf c) state
      rcases met : slotsUntil bad (vol.sectorsOf c) with ⟨slots, _ | e⟩
      · -- all sectors of the cluster can be read
        cases isBad : bad (vol.fatSector 0 c) with
        | some e =>
          cases scanned : scanList visit disk slots state with
          | done result =>
            simp only [met, scanned, conclude] at sectors
            exact sectors.seq ReadsSteadily.pure
          | next state' =>
            simp only [met, scanned, conclude] at sectors
            exact sectors.seq (steadily_nextCluster_bad isBad).stop
        | none =>
          simp only [scanList_append]
          cases scanned : scanList visit disk slots state with
          | done result =>
            simp only [met, scanned, conclude] at sectors
            exact sectors.seq ReadsSteadily.pure
          | next state' =>
            simp only [met, scanned, conclude] at sectors
            exact sectors.seq ((steadily_nextCluster isBad).seq (ih _ state'))
      · cases scanned : scanList visit disk slots state with
        | done result =>
          simp only [met, scanned, conclude] at sectors
          exact sectors.seq ReadsSteadily.pure
        | next state' =>
          simp only [met, scanned, conclude] at sectors
          exact sectors.stop
    · exact ReadsSteadily.pure

end Chain

/-! ### Where the scans stop -/

/-- The slot at which a search for a name ends. -/
def Stops (disk : Disk) (target : Name) (p : Pos) : Prop :=
  slotAt disk p 0 = 0x00 ∨ liveSlot (slotAt disk p) = true ∧ nameOf (slotAt disk p) = target

section Stops

variable {visit : σ → Pos → Slot → Step σ β}

/-- A scan runs through exactly if none of the slots stops it. -/
theorem scanList_next_iff
    (isNext : ∀ state p, (∃ state', visit state p (slotAt disk p) = .next state') ↔ ¬ stops p)
    (slots : List Pos) (state : σ) :
    (∃ state', scanList visit disk slots state = .next state') ↔ ∀ p ∈ slots, ¬ stops p := by
  induction slots generalizing state with
  | nil => exact ⟨fun _ p mem => absurd mem not_mem_nil, fun _ => ⟨state, rfl⟩⟩
  | cons p rest ih =>
    rw [scanList, forall_mem_cons]
    cases visited : visit state p (slotAt disk p) with
    | next state' =>
      simp only [ih state', (isNext state p).mp ⟨state', visited⟩, not_false_eq_true, true_and]
    | done result =>
      constructor
      · rintro ⟨_, wrong⟩
        cases wrong
      · rintro ⟨notHere, -⟩
        obtain ⟨state', next⟩ := (isNext state p).mpr notHere
        cases visited.symm.trans next

/-- What the slot visitors share: they stop at the end of the directory, or where `live` does. -/
theorem visitSlot_next_iff {atEnd : β} {live : Step σ β} {slot : Slot} :
    (∃ state', visitSlot atEnd state deleted live slot = .next state') ↔
      ¬ (slot 0 = 0x00 ∨ liveSlot slot ∧ ∃ result, live = .done result) := by
  by_cases zero : slot 0 = 0x00
  · rw [visitSlot_end zero]
    exact ⟨fun ⟨_, wrong⟩ => (nomatch wrong), fun other => absurd (.inl zero) other⟩
  · by_cases isLive : liveSlot slot
    · rw [visitSlot_live isLive]
      cases live with
      | next state' => exact ⟨fun _ => by simp [zero], fun _ => ⟨state', rfl⟩⟩
      | done result =>
        exact ⟨fun ⟨_, wrong⟩ => (nomatch wrong), fun other => absurd (.inr ⟨isLive, result, rfl⟩) other⟩
    · refine ⟨fun _ => by simp [zero, isLive], fun _ => ?_⟩
      by_cases mark : slot 0 = 0xE5
      · exact ⟨_, visitSlot_deleted mark⟩
      · exact ⟨_, visitSlot_skipped zero mark isLive⟩

/-- A branch that stops at a name. -/
theorem ite_done_iff {same : Prop} [Decidable same] {result : β} :
    (∃ r, (if same then .done result else .next state : Step σ β) = .done r) ↔ same := by
  split
  · rename_i holds
    exact ⟨fun _ => holds, fun _ => ⟨result, rfl⟩⟩
  · rename_i fails
    exact ⟨fun ⟨_, wrong⟩ => (nomatch wrong), fun holds => absurd holds fails⟩

end Stops

/-! ### The searches -/

section

variable {visit : σ → Pos → Slot → Step σ β} (collapse : Step σ β → Except FatError γ)
  (finishes : ∀ step, ReadsSteadily disk bad (finish step) (collapse step))
  (isNext : ∀ state p, (∃ state', visit state p (slotAt disk p) = .next state') ↔ ¬ stops p)
  (steady : dev.Steady disk bad) {dir : ℕ}
include finishes isNext steady

/-- A scan that does not meet the error, or is stopped before. -/
theorem exec_scan (ends : (vol.seen disk bad dir).2 = none ∨ ∃ p ∈ (vol.seen disk bad dir).1, stops p)
    (state : σ) : (exec (vol.scanChain visit vol.clusterCount dir state >>= finish) dev).1 =
      collapse (scanList visit disk (vol.seen disk bad dir).1 state) := by
  have scan : ReadsSteadily disk bad (vol.scanChain visit vol.clusterCount dir state)
      (conclude (scanList visit disk (vol.seen disk bad dir).1 state) (vol.seen disk bad dir).2) :=
    steadily_scanChain visit vol.clusterCount dir state
  have next := scanList_next_iff isNext (vol.seen disk bad dir).1 state
  cases scanned : scanList visit disk (vol.seen disk bad dir).1 state with
  | done result =>
    rw [scanned] at scan
    exact (scan.seq (finishes _) dev steady).1
  | next state' =>
    rcases ends with quiet | ⟨p, mem, stop⟩
    · rw [scanned, quiet] at scan
      exact (scan.seq (finishes _) dev steady).1
    · exact absurd stop (next.mp ⟨state', scanned⟩ p mem)

omit collapse finishes in
theorem exec_scan_error (failure : (vol.seen disk bad dir).2 = some e)
    (through : ∀ p ∈ (vol.seen disk bad dir).1, ¬ stops p) (state : σ) :
    (exec (vol.scanChain visit vol.clusterCount dir state >>= finish) dev).1 = .error (.block e) := by
  have scan : ReadsSteadily disk bad (vol.scanChain visit vol.clusterCount dir state)
      (conclude (scanList visit disk (vol.seen disk bad dir).1 state) (vol.seen disk bad dir).2) :=
    steadily_scanChain visit vol.clusterCount dir state
  obtain ⟨state', scanned⟩ := (scanList_next_iff isNext (vol.seen disk bad dir).1 state).mpr through
  rw [scanned, failure] at scan
  exact (scan.stop dev steady).1

end

/-! ### The four scans -/

theorem findVisit_next_iff (target : Name) (state : Unit) (p : Pos) :
    (∃ state', findVisit target state p (slotAt disk p) = .next state') ↔ ¬ Stops disk target p := by
  rw [findVisit, visitSlot_next_iff, ite_done_iff, Stops]

theorem locateVisit_next_iff (target : Name) (state : Unit) (p : Pos) :
    (∃ state', locateVisit target state p (slotAt disk p) = .next state') ↔ ¬ Stops disk target p := by
  rw [locateVisit, visitSlot_next_iff, ite_done_iff, Stops]

theorem slotVisit_next_iff (target : Name) (state : Option Pos) (p : Pos) :
    (∃ state', slotVisit target state p (slotAt disk p) = .next state') ↔ ¬ Stops disk target p := by
  rw [slotVisit, visitSlot_next_iff, ite_done_iff, Stops]

theorem listVisit_next_iff (state : List DirItem) (p : Pos) :
    (∃ state', listVisit state p (slotAt disk p) = .next state') ↔ ¬ slotAt disk p 0 = 0x00 := by
  rw [listVisit, visitSlot_next_iff]
  simp

/-- **What the three searches report**, each as far as it returns it. -/
inductive Agree (disk : Disk) (target : Name) : Except FatError (Option DirEntry) →
    Except FatError (Option (Pos × DirEntry)) → Except FatError (Pos × Option ℕ) → Prop
  /-- The same entry. -/
  | present (p : Pos) (isLive : liveSlot (slotAt disk p) = true) (named : nameOf (slotAt disk p) = target) :
      Agree disk target (.ok (some (entryOf (slotAt disk p)))) (.ok (some (p, entryOf (slotAt disk p))))
        (.ok (p, some (entryOf (slotAt disk p)).firstCluster))
  /-- Absence, with a slot that is not in use. -/
  | free (p : Pos) (notLive : liveSlot (slotAt disk p) = false) :
      Agree disk target (.ok none) (.ok none) (.ok (p, none))
  /-- Absence, and no slot for a new entry. -/
  | full : Agree disk target (.ok none) (.ok none) (.error .dirFull)
  /-- The same error of the device. -/
  | failed (e : BlkError) : Agree disk target (.error (.block e)) (.error (.block e)) (.error (.block e))

theorem agree_of_slots (slots : List Pos) (target : Name) :
    Agree disk target (.ok ((findOn disk slots target).map fun p => entryOf (slotAt disk p)))
      (.ok ((findOn disk slots target).map fun p => (p, entryOf (slotAt disk p))))
      (slotFor disk slots none target) := by
  unfold slotFor
  cases search : findOn disk slots target with
  | some p =>
    obtain ⟨mem, named⟩ := findOn_some search
    exact .present p (mem_filter.mp mem).2 named
  | none =>
    rw [none_or]
    cases free : freeOn disk slots with
    | none => exact .full
    | some p =>
      refine .free p (Bool.eq_false_iff.mpr fun isLive => ?_)
      obtain ⟨used, kept, -⟩ := liveSlot_iff.mp isLive
      exact (freeOn_some free).1.elim used kept

section Agreement

variable (steady : dev.Steady disk bad) (dir : ℕ) (name : Bytes)
include steady

section

variable
  (ends : (vol.seen disk bad dir).2 = none ∨ ∃ p ∈ (vol.seen disk bad dir).1, Stops disk (shortName83 name) p)
include ends

/-- The outcome of `find_in_dir` where no error is met. -/
theorem exec_findInDir : (exec (vol.findInDir dir name) dev).1 =
      .ok ((findOn disk (vol.seen disk bad dir).1 (shortName83 name)).map fun p => entryOf (slotAt disk p)) := by
  unfold findInDir
  rw [← scanList_find (fun _ slot => entryOf slot) disk (shortName83 name) (vol.seen disk bad dir).1]
  refine exec_scan (fun step => .ok (found step)) (fun step => ?_) (findVisit_next_iff _) steady ends ()
  cases step with
  | next _ => exact ReadsSteadily.pure
  | done result => exact ReadsSteadily.pure

theorem exec_locateEntry : (exec (vol.locateEntry dir name) dev).1 =
      .ok ((findOn disk (vol.seen disk bad dir).1 (shortName83 name)).map
        fun p => (p, entryOf (slotAt disk p))) := by
  unfold locateEntry
  rw [← scanList_find (fun p slot => (p, entryOf slot)) disk (shortName83 name) (vol.seen disk bad dir).1]
  refine exec_scan (fun step => .ok (found step)) (fun step => ?_) (locateVisit_next_iff _) steady ends ()
  cases step with
  | next _ => exact ReadsSteadily.pure
  | done result => exact ReadsSteadily.pure

end

theorem exec_locateOrFreeSlot (target : Name)
    (ends : (vol.seen disk bad dir).2 = none ∨ ∃ p ∈ (vol.seen disk bad dir).1, Stops disk target p) :
    (exec (vol.locateOrFreeSlot dir target) dev).1 = slotFor disk (vol.seen disk bad dir).1 none target := by
  unfold locateOrFreeSlot
  rw [← scanList_slot]
  refine exec_scan located (fun step => ?_) (slotVisit_next_iff target) steady ends none
  rcases step with (_ | pos) | result
  · exact ReadsSteadily.throw
  · exact ReadsSteadily.pure
  · exact ReadsSteadily.pure

theorem exec_listDir
    (ends : (vol.seen disk bad dir).2 = none ∨ ∃ p ∈ (vol.seen disk bad dir).1, slotAt disk p 0 = 0x00) :
    (exec (vol.listDir dir) dev).1 = .ok ((liveOn disk (vol.seen disk bad dir).1).map fun p =>
      ⟨name83ToString (nameOf (slotAt disk p)), isDirOf (slotAt disk p)⟩) := by
  have listed := scanList_list disk (vol.seen disk bad dir).1 []
  have run : (exec (vol.listDir dir) dev).1 = .ok (Step.rec (motive := fun _ => List DirItem) id id
      (scanList listVisit disk (vol.seen disk bad dir).1 [])) := by
    unfold listDir
    refine exec_scan (fun step => .ok (Step.rec (motive := fun _ => List DirItem) id id step))
      (fun step => ?_) listVisit_next_iff steady ends []
    cases step with
    | next items => exact ReadsSteadily.pure
    | done items => exact ReadsSteadily.pure
  rw [run]
  cases scanned : scanList listVisit disk (vol.seen disk bad dir).1 [] with
  | next items =>
    rw [scanned] at listed
    exact congrArg Except.ok listed
  | done items =>
    rw [scanned] at listed
    exact congrArg Except.ok listed

/-- A listing that succeeds met no error. -/
theorem exec_listDir_ok {items : List DirItem} (listed : (exec (vol.listDir dir) dev).1 = .ok items) :
    (items = (liveOn disk (vol.seen disk bad dir).1).map fun p =>
      ⟨name83ToString (nameOf (slotAt disk p)), isDirOf (slotAt disk p)⟩) ∧
    ((vol.seen disk bad dir).2 = none ∨ ∃ p ∈ (vol.seen disk bad dir).1, slotAt disk p 0 = 0x00) := by
  by_cases ends : (vol.seen disk bad dir).2 = none ∨ ∃ p ∈ (vol.seen disk bad dir).1, slotAt disk p 0 = 0x00
  · rw [exec_listDir steady dir ends] at listed
    exact ⟨(Except.ok.inj listed).symm, ends⟩
  · obtain ⟨failure, through⟩ := not_or.mp ends
    obtain ⟨e, failure⟩ := ne_none_iff_exists'.mp failure
    have failed : (exec (vol.listDir dir) dev).1 = .error (.block e) :=
      exec_scan_error listVisit_next_iff steady failure (fun p mem zero => through ⟨p, mem, zero⟩) []
    cases failed.symm.trans listed

end Agreement

theorem exists_findOn_iff (f : Pos → β) (slots : List Pos) (target : Name) :
    (∃ entry, (.ok ((findOn disk slots target).map f) : Except FatError (Option β)) = .ok (some entry)) ↔
      ∃ p ∈ liveOn disk slots, nameOf (slotAt disk p) = target := by
  cases search : findOn disk slots target with
  | some p => exact ⟨fun _ => ⟨p, findOn_some search⟩, fun _ => ⟨f p, rfl⟩⟩
  | none =>
    refine ⟨fun ⟨_, wrong⟩ => (nomatch wrong), fun ⟨p, mem, named⟩ => ?_⟩
    exact absurd named (findOn_none search p mem)

/-- **The scans of a directory agree**, on every image and whatever sectors cannot be read, as long as each
sector gives the same answer every time. The three searches report the same entry, or all report absence, or
all fail with the same error. If `list_dir` succeeds, it lists the entries it met in order, and the searches
find the name exactly if one of these has it. -/
theorem scans_agree (vol : Fat32) (disk : Disk) (bad : ℕ → Option BlkError) (dir : ℕ) (name : Bytes)
    {dev₁ dev₂ dev₃ dev₄ : Device Sector BlkError} (steady₁ : dev₁.Steady disk bad)
    (steady₂ : dev₂.Steady disk bad) (steady₃ : dev₃.Steady disk bad) (steady₄ : dev₄.Steady disk bad) :
    Agree disk (shortName83 name) (exec (vol.findInDir dir name) dev₁).1
      (exec (vol.locateEntry dir name) dev₂).1 (exec (vol.locateOrFreeSlot dir (shortName83 name)) dev₃).1 ∧
    ∀ items, (exec (vol.listDir dir) dev₄).1 = .ok items →
      items = ((liveOn disk (vol.seen disk bad dir).1).map fun p =>
        ⟨name83ToString (nameOf (slotAt disk p)), isDirOf (slotAt disk p)⟩) ∧
      ((∃ entry, (exec (vol.findInDir dir name) dev₁).1 = .ok (some entry)) ↔
        ∃ p ∈ liveOn disk (vol.seen disk bad dir).1, nameOf (slotAt disk p) = shortName83 name) := by
  refine ⟨?_, fun items listed => ?_⟩
  · by_cases ends : (vol.seen disk bad dir).2 = none ∨
        ∃ p ∈ (vol.seen disk bad dir).1, Stops disk (shortName83 name) p
    · rw [exec_findInDir steady₁ dir name ends, exec_locateEntry steady₂ dir name ends,
        exec_locateOrFreeSlot steady₃ dir _ ends]
      exact agree_of_slots _ _
    · obtain ⟨failure, through⟩ := not_or.mp ends
      obtain ⟨e, failure⟩ := ne_none_iff_exists'.mp failure
      have passes : ∀ p ∈ (vol.seen disk bad dir).1, ¬ Stops disk (shortName83 name) p :=
        fun p mem stops => through ⟨p, mem, stops⟩
      rw [findInDir, locateEntry, locateOrFreeSlot,
        exec_scan_error (findVisit_next_iff _) steady₁ failure passes,
        exec_scan_error (locateVisit_next_iff _) steady₂ failure passes,
        exec_scan_error (slotVisit_next_iff _) steady₃ failure passes]
      exact .failed e
  · obtain ⟨same, ends⟩ := exec_listDir_ok steady₄ dir listed
    rw [exec_findInDir steady₁ dir name (ends.imp_right fun ⟨p, mem, zero⟩ => ⟨p, mem, .inl zero⟩)]
    exact ⟨same, exists_findOn_iff _ _ _⟩

/-- A directory of deleted slots, in front of a FAT that cannot be read: every search fails. -/
def unreadableFat : Device Sector BlkError :=
  Device.start (fun _ _ => 0xE5) fun _ lba => if lba = 0 then some .outOfRange else none

theorem scans_agree_unreadable :
    Agree (fun _ _ => 0xE5) (shortName83 [0x41]) (exec (smallVolume.findInDir 2 [0x41]) unreadableFat).1
      (exec (smallVolume.locateEntry 2 [0x41]) unreadableFat).1
      (exec (smallVolume.locateOrFreeSlot 2 (shortName83 [0x41])) unreadableFat).1 ∧
    (exec (smallVolume.findInDir 2 [0x41]) unreadableFat).1 = .error (.block .outOfRange) := by
  have steady : unreadableFat.Steady (fun _ _ => 0xE5) fun lba => if lba = 0 then some .outOfRange else none :=
    ⟨rfl, fun _ _ => rfl⟩
  exact ⟨(scans_agree smallVolume _ _ 2 [0x41] steady steady steady steady).1, rfl⟩

end Fat32

end Ferros.Fat
