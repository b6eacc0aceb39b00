/-
**What the reading methods compute.**

Every method of the driver that only reads is a function of the image (`Lib.Reads`): the four
directory scans are folds over the slots of the directory, and these folds are searches in the list
of live entries.

* `reads_findInDir`, `reads_locateEntry`, `reads_listDir`, `reads_locateOrFreeSlot` — the scans.
* `reads_resolveParent` — the walk to the parent directory.
* `reads_readEntry` — the content of a file is its chain, cut to the size.
-/

import Ferros.Fat.Consistent

namespace Ferros.Fat

open Lib List Option

variable {σ β γ : Type} {slot : Slot} {disk disk' : Disk} {slots : List Pos} {p : Pos} {target : Name}
  {vol : Fat32} {working : Prop} {c fuel remaining : ℕ} {l : List ℕ} {atEnd : β} {deleted state : σ}
  {onLive : Step σ β}

/-! ### A scan as a fold -/

/-- A scan over a list of positions. -/
def scanList (visit : σ → Pos → Slot → Step σ β) (disk : Disk) : List Pos → σ → Step σ β
  | [], state => .next state
  | p :: rest, state =>
    match visit state p (slotAt disk p) with
    | .next state' => scanList visit disk rest state'
    | .done result => .done result

theorem scanList_append (visit : σ → Pos → Slot → Step σ β) (disk : Disk) (front back : List Pos) (state : σ) :
    scanList visit disk (front ++ back) state = match scanList visit disk front state with
      | .next state' => scanList visit disk back state' | .done result => .done result := by
  induction front generalizing state with
  | nil => rfl
  | cons p rest ih =>
    rw [cons_append, scanList, scanList]
    cases visit state p (slotAt disk p) with
    | next state' => exact ih state'
    | done result => rfl

/-- The sixteen slots of a sector are visited in the order of the positions. -/
theorem scanSlots_eq (visit : σ → Pos → Slot → Step σ β) (disk : Disk) (sector : ℕ) (indices : List (Fin 16))
    (state : σ) : Fat32.scanSlots visit sector (disk sector) indices state =
      scanList visit disk (indices.map fun i => (sector, i)) state := by
  induction indices generalizing state with
  | nil => rfl
  | cons i rest ih =>
    rw [map_cons, scanList, Fat32.scanSlots]
    have here : slotAt disk (sector, i) = slotOf (disk sector) i := rfl
    rw [here]
    cases visit state (sector, i) (slotOf (disk sector) i) with
    | next state' => exact ih state'
    | done result => rfl

theorem visitSlot_end (zero : slot 0 = 0x00) : Fat32.visitSlot atEnd state deleted onLive slot = .done atEnd :=
  if_pos zero

theorem visitSlot_deleted (mark : slot 0 = 0xE5) :
    Fat32.visitSlot atEnd state deleted onLive slot = .next deleted := by
  unfold Fat32.visitSlot
  rw [if_neg (by rw [mark]; decide), if_pos mark]

theorem visitSlot_live (isLive : liveSlot slot) : Fat32.visitSlot atEnd state deleted onLive slot = onLive := by
  obtain ⟨used, kept, notSkipped⟩ := liveSlot_iff.mp isLive
  unfold Fat32.visitSlot
  rw [if_neg used, if_neg kept, if_neg (by rw [notSkipped]; decide)]

theorem visitSlot_skipped (used : slot 0 ≠ 0x00) (kept : slot 0 ≠ 0xE5) (notLive : ¬ liveSlot slot) :
    Fat32.visitSlot atEnd state deleted onLive slot = .next state := by
  unfold Fat32.visitSlot
  rw [if_neg used, if_neg kept, if_pos (skipped_of_not_liveSlot used kept notLive)]

/-- **A scan that passes over deleted slots is a scan of the live entries.** `collapse` forgets
whether the scan ran into the end of the directory. -/
theorem scanList_live (collapse : Step σ β → γ) (atEnd : σ → β) (onLive : σ → Pos → Slot → Step σ β)
    (ends : ∀ state, collapse (.done (atEnd state)) = collapse (.next state)) (disk : Disk) (slots : List Pos)
    (state : σ) : collapse (scanList (fun state p slot =>
        Fat32.visitSlot (atEnd state) state state (onLive state p slot) slot) disk slots state) =
      collapse (scanList onLive disk (liveOn disk slots) state) := by
  induction slots generalizing state with
  | nil => rfl
  | cons p rest ih =>
    rw [scanList, liveOn_cons]
    by_cases zero : slotAt disk p 0 = 0x00
    · rw [visitSlot_end zero, if_pos zero]
      exact ends state
    · rw [if_neg zero]
      by_cases isLive : liveSlot (slotAt disk p)
      · rw [visitSlot_live isLive, if_pos isLive, scanList]
        cases onLive state p (slotAt disk p) with
        | next state' => exact ih state'
        | done result => rfl
      · rw [if_neg isLive]
        by_cases mark : slotAt disk p 0 = 0xE5
        · rw [visitSlot_deleted mark]
          exact ih state
        · rw [visitSlot_skipped zero mark isLive]
          exact ih state

/-! ### What the scans find -/

/-- The first live entry with a name. -/
def findOn (disk : Disk) (slots : List Pos) (target : Name) : Option Pos :=
  (liveOn disk slots).find? fun p => nameOf (slotAt disk p) == target

/-- The slot a new entry goes to: the first one that is deleted or ends the directory. -/
def freeOn (disk : Disk) (slots : List Pos) : Option Pos :=
  slots.find? fun p => slotAt disk p 0 == 0x00 || slotAt disk p 0 == 0xE5

theorem findOn_cons (disk : Disk) (p : Pos) (rest : List Pos) (target : Name) : findOn disk (p :: rest) target =
      if slotAt disk p 0 = 0x00 then none
      else if liveSlot (slotAt disk p) ∧ nameOf (slotAt disk p) = target then some p
      else findOn disk rest target := by
  unfold findOn
  rw [liveOn_cons]
  by_cases zero : slotAt disk p 0 = 0x00
  · rw [if_pos zero, if_pos zero]
    rfl
  · rw [if_neg zero, if_neg zero]
    by_cases isLive : liveSlot (slotAt disk p)
    · rw [if_pos isLive, find?_cons]
      by_cases same : nameOf (slotAt disk p) = target
      · rw [beq_iff_eq.mpr same, if_pos ⟨isLive, same⟩]
      · rw [beq_eq_false_iff_ne.mpr same, if_neg fun both => same both.2]
    · rw [if_neg isLive, if_neg fun both => isLive both.1]

theorem freeOn_cons (disk : Disk) (p : Pos) (rest : List Pos) : freeOn disk (p :: rest) =
      if slotAt disk p 0 = 0x00 ∨ slotAt disk p 0 = 0xE5 then some p else freeOn disk rest := by
  unfold freeOn
  rw [find?_cons]
  by_cases free : slotAt disk p 0 = 0x00 ∨ slotAt disk p 0 = 0xE5
  · have test : (slotAt disk p 0 == 0x00 || slotAt disk p 0 == 0xE5) := by simpa using free
    rw [if_pos free, test]
  · have test : (slotAt disk p 0 == 0x00 || slotAt disk p 0 == 0xE5) = false := by simpa using free
    rw [if_neg free, test]

theorem findOn_congr (same : ∀ p ∈ slots, slotAt disk' p = slotAt disk p) (target : Name) :
    findOn disk' slots target = findOn disk slots target := by
  induction slots with
  | nil => rfl
  | cons p rest ih =>
    rw [findOn_cons, findOn_cons, same p mem_cons_self, ih fun q mem => same q (mem_cons_of_mem _ mem)]

/-- What a search finds is live and has the name. -/
theorem findOn_some (search : findOn disk slots target = some p) :
    p ∈ liveOn disk slots ∧ nameOf (slotAt disk p) = target :=
  ⟨mem_of_find?_eq_some search, by simpa using find?_some search⟩

/-- A search that finds nothing has seen every live entry. -/
theorem findOn_none (search : findOn disk slots target = none) :
    ∀ p ∈ liveOn disk slots, nameOf (slotAt disk p) ≠ target := by
  intro p mem
  simpa using find?_eq_none.mp search p mem

/-- A free slot lies before the end mark or is it. -/
theorem freeOn_some (search : freeOn disk slots = some p) : (slotAt disk p 0 = 0x00 ∨ slotAt disk p 0 = 0xE5) ∧
      ∃ front back, slots = front ++ p :: back ∧ ∀ q ∈ front, slotAt disk q 0 ≠ 0x00 := by
  obtain ⟨free, front, back, split, before⟩ := find?_eq_some_iff_append.mp search
  refine ⟨by simpa using free, front, back, split, fun q mem => ?_⟩
  have used := before q mem
  simp only [Bool.not_eq_true', Bool.or_eq_false_iff, beq_eq_false_iff_ne] at used
  exact used.1

theorem place_of_mem_liveOn (mem : p ∈ liveOn disk slots) :
    ∃ front back, slots = front ++ p :: back ∧ ∀ q ∈ front, slotAt disk q 0 ≠ 0x00 := by
  obtain ⟨front, middle, split⟩ := append_of_mem (mem_of_mem_filter mem)
  obtain ⟨back, whole⟩ := List.takeWhile_prefix (l := slots) fun p => slotAt disk p 0 != 0x00
  refine ⟨front, middle ++ back, ?_, fun q inFront => ?_⟩
  · rw [← whole]
    change usedOn disk slots ++ back = _
    rw [split, append_assoc, cons_append]
  · have inUsed : q ∈ usedOn disk slots := by
      rw [split]
      exact mem_append_left _ inFront
    simpa using mem_takeWhile_imp inUsed

/-- The outcome of a search: a scan that ran through found nothing. -/
def found {β : Type} : Step Unit (Option β) → Option β
  | .next _ => none
  | .done result => result

/-- A scan for a name finds the first live entry with it. -/
theorem scanList_find (result : Pos → Slot → β) (disk : Disk) (target : Name) (slots : List Pos) :
    found (scanList (fun (_ : Unit) p slot => Fat32.visitSlot none () ()
        (if nameOf slot = target then .done (some (result p slot)) else .next ()) slot) disk slots ()) =
      (findOn disk slots target).map fun p => result p (slotAt disk p) := by
  refine (scanList_live found (fun _ => none) _ (fun _ => rfl) disk slots ()).trans ?_
  unfold findOn
  induction liveOn disk slots with
  | nil => rfl
  | cons p rest ih =>
    rw [scanList, find?_cons]
    by_cases same : nameOf (slotAt disk p) = target
    · rw [if_pos same, beq_iff_eq.mpr same]
      rfl
    · rw [if_neg same, beq_eq_false_iff_ne.mpr same]
      exact ih

theorem scanList_list (disk : Disk) (slots : List Pos) (items : List DirItem) :
    (match scanList Fat32.listVisit disk slots items with | .next items => items | .done items => items) =
      items ++ (liveOn disk slots).map fun p =>
        ⟨name83ToString (nameOf (slotAt disk p)), isDirOf (slotAt disk p)⟩ := by
  let collapse : Step (List DirItem) (List DirItem) → List DirItem
    | .next items => items
    | .done items => items
  refine (scanList_live collapse (fun items => items) _ (fun _ => rfl) disk slots items).trans ?_
  induction liveOn disk slots generalizing items with
  | nil => exact (append_nil items).symm
  | cons p rest ih =>
    rw [scanList, map_cons]
    refine (ih _).trans ?_
    rw [append_assoc]
    rfl

namespace Fat32

section Chain

variable (visit : σ → Pos → Slot → Step σ β)

theorem reads_readSector (lba : ℕ) : Reads working (readSector lba) disk (.ok (disk lba)) :=
  Reads.readBlock

theorem reads_nextCluster (c : ℕ) : Reads working (vol.nextCluster c) disk (.ok (vol.nextOf disk c)) := by
  unfold nextCluster nextOf
  rw [← fatSector_zero]
  exact (reads_readSector _).seq Reads.pure

theorem reads_scanSectors (sectors : List ℕ) (state : σ) :
    Reads working (scanSectors visit sectors state) disk (.ok (scanList visit disk
      (sectors.flatMap fun s => (finRange 16).map fun i => (s, i)) state)) := by
  induction sectors generalizing state with
  | nil => exact Reads.pure
  | cons sector rest ih =>
    rw [scanSectors, flatMap_cons, scanList_append]
    refine (reads_readSector sector).seq ?_
    rw [scanSlots_eq]
    cases scanList visit disk ((finRange 16).map fun i => (sector, i)) state with
    | next state' => exact ih state'
    | done result => exact Reads.pure

/-- A scan of a chain is a fold over its slots. -/
theorem reads_scanChain (n c : ℕ) (state : σ) :
    Reads working (vol.scanChain visit n c state) disk (.ok (scanList visit disk
      (vol.slotsOn (follow (vol.nextOf disk) vol.validCluster n c)) state)) := by
  induction n generalizing c state with
  | zero => exact Reads.pure
  | succ n ih =>
    rw [scanChain, follow]
    split
    · rw [slotsOn, flatMap_cons, scanList_append]
      refine (reads_scanSectors visit _ state).seq ?_
      cases scanList visit disk
          ((vol.sectorsOf c).flatMap fun s => (finRange 16).map fun i => (s, i)) state with
      | next state' => exact (reads_nextCluster c).seq (ih _ state')
      | done result => exact Reads.pure
    · exact Reads.pure

end Chain

/-- **A scan** visits the slots of the directory in order. -/
theorem reads_scan (visit : σ → Pos → Slot → Step σ β) (dir : ℕ) (state : σ) :
    Reads working (vol.scanChain visit vol.clusterCount dir state) disk
      (.ok (scanList visit disk (vol.slots disk dir) state)) :=
  reads_scanChain visit _ _ _

theorem reads_findInDir (dir : ℕ) (name : Bytes) : Reads working (vol.findInDir dir name) disk
      (.ok ((findOn disk (vol.slots disk dir) (shortName83 name)).map fun p => entryOf (slotAt disk p))) := by
  have search := scanList_find (fun _ slot => entryOf slot) disk (shortName83 name) (vol.slots disk dir)
  change found (scanList (findVisit _) _ _ _) = _ at search
  unfold findInDir
  refine (reads_scan _ _ _).seq ?_
  rw [← search]
  cases scanList (findVisit (shortName83 name)) disk (vol.slots disk dir) () with
  | next _ => exact Reads.pure
  | done result => exact Reads.pure

theorem reads_locateEntry (dir : ℕ) (name : Bytes) : Reads working (vol.locateEntry dir name) disk
      (.ok ((findOn disk (vol.slots disk dir) (shortName83 name)).map
        fun p => (p, entryOf (slotAt disk p)))) := by
  have search := scanList_find (fun p slot => (p, entryOf slot)) disk (shortName83 name) (vol.slots disk dir)
  change found (scanList (locateVisit _) _ _ _) = _ at search
  unfold locateEntry
  refine (reads_scan _ _ _).seq ?_
  rw [← search]
  cases scanList (locateVisit (shortName83 name)) disk (vol.slots disk dir) () with
  | next _ => exact Reads.pure
  | done result => exact Reads.pure

theorem reads_listDir (dir : ℕ) : Reads working (vol.listDir dir) disk (.ok ((vol.live disk dir).map fun p =>
        ⟨name83ToString (nameOf (slotAt disk p)), isDirOf (slotAt disk p)⟩)) := by
  have listed := scanList_list disk (vol.slots disk dir) []
  rw [nil_append] at listed
  unfold listDir live
  refine (reads_scan _ _ _).seq ?_
  rw [← listed]
  cases scanList listVisit disk (vol.slots disk dir) [] with
  | next items => exact Reads.pure
  | done items => exact Reads.pure

/-- What `locate_or_free_slot` returns. -/
def slotFor (disk : Disk) (slots : List Pos) (firstFree : Option Pos) (target : Name) :
    Except FatError (Pos × Option ℕ) :=
  match findOn disk slots target with
  | some p => .ok (p, some (firstClusterOf (slotAt disk p)))
  | none =>
    match firstFree.or (freeOn disk slots) with
    | some p => .ok (p, none)
    | none => .error .dirFull

/-- The slot is reused with its old chain, or it is free. -/
theorem slotFor_ok {old : Option ℕ} (located : slotFor disk slots none target = .ok (p, old)) :
    (findOn disk slots target = some p ∧ old = some (firstClusterOf (slotAt disk p))) ∨
      (findOn disk slots target = none ∧ freeOn disk slots = some p ∧ old = none) := by
  unfold slotFor at located
  cases search : findOn disk slots target with
  | some q =>
    rw [search] at located
    cases located
    exact .inl ⟨rfl, rfl⟩
  | none =>
    rw [search, none_or] at located
    cases free : freeOn disk slots with
    | some q =>
      rw [free] at located
      cases located
      exact .inr ⟨rfl, rfl, rfl⟩
    | none =>
      rw [free] at located
      cases located

/-- The end of `locate_or_free_slot`. -/
def located : Step (Option Pos) (Pos × Option ℕ) → Except FatError (Pos × Option ℕ)
  | .next (some pos) => .ok (pos, none)
  | .next none => .error .dirFull
  | .done result => .ok result

theorem scanList_slot (target : Name) (slots : List Pos) (firstFree : Option Pos) :
    located (scanList (slotVisit target) disk slots firstFree) = slotFor disk slots firstFree target := by
  induction slots generalizing firstFree with
  | nil => cases firstFree <;> rfl
  | cons p rest ih =>
    rw [scanList, slotVisit, slotFor, findOn_cons, freeOn_cons]
    by_cases zero : slotAt disk p 0 = 0x00
    · rw [visitSlot_end zero, if_pos zero, if_pos (.inl zero)]
      cases firstFree <;> rfl
    · rw [if_neg zero]
      by_cases mark : slotAt disk p 0 = 0xE5
      · have notLive : ¬ liveSlot (slotAt disk p) := fun isLive =>
          (liveSlot_iff.mp isLive).2.1 mark
        rw [visitSlot_deleted mark, if_neg fun both => notLive both.1, if_pos (.inr mark)]
        refine (ih _).trans ?_
        rw [slotFor]
        cases firstFree <;> rfl
      · rw [if_neg (not_or.mpr ⟨zero, mark⟩)]
        by_cases isLive : liveSlot (slotAt disk p)
        · rw [visitSlot_live isLive]
          by_cases same : nameOf (slotAt disk p) = target
          · rw [if_pos same, if_pos ⟨isLive, same⟩]
            rfl
          · rw [if_neg same, if_neg fun both => same both.2]
            exact ih firstFree
        · rw [visitSlot_skipped zero mark isLive, if_neg fun both => isLive both.1]
          exact ih firstFree

/-- The slot for a name: the one that has it, or the first free one. -/
theorem reads_locateOrFreeSlot (dir : ℕ) (target : Name) : Reads working (vol.locateOrFreeSlot dir target) disk
      (slotFor disk (vol.slots disk dir) none target) := by
  unfold locateOrFreeSlot
  refine (reads_scan _ _ _).seq ?_
  rw [← scanList_slot]
  cases scanList (slotVisit target) disk (vol.slots disk dir) none with
  | next firstFree =>
    cases firstFree with
    | none => exact Reads.throw
    | some p => exact Reads.pure
  | done result => exact Reads.pure

/-! ### The walk to the parent -/

variable (vol) in
/-- What `resolve_parent` returns. -/
def resolveOn (disk : Disk) : ℕ → List Bytes → Except FatError (ℕ × Bytes)
  | _, [] => .error .notFound
  | dir, [name] => .ok (dir, name)
  | dir, comp :: rest =>
    match findOn disk (vol.slots disk dir) (shortName83 comp) with
    | none => .error .notFound
    | some p =>
      if isDirOf (slotAt disk p) then resolveOn disk (firstClusterOf (slotAt disk p)) rest
      else .error .notADirectory

theorem reads_resolveComponents (dir : ℕ) (comps : List Bytes) :
    Reads working (vol.resolveComponents dir comps) disk (vol.resolveOn disk dir comps) := by
  induction comps generalizing dir with
  | nil => exact Reads.throw
  | cons comp rest ih =>
    cases rest with
    | nil => exact Reads.pure
    | cons second rest =>
      rw [resolveComponents, resolveOn]
      · refine (reads_findInDir dir comp).seq ?_
        cases findOn disk (vol.slots disk dir) (shortName83 comp) with
        | none => exact Reads.throw
        | some p =>
          simp only [map_some, entryOf]
          cases isDirOf (slotAt disk p) with
          | false => exact Reads.throw
          | true => exact ih _
      · exact cons_ne_nil _ _
      · exact cons_ne_nil _ _

theorem reads_resolveParent (path : Bytes) : Reads working (vol.resolveParent path) disk
      (vol.resolveOn disk vol.rootCluster (components path)) :=
  reads_resolveComponents _ _

/-! ### The content of a file -/

def sectorBytes (disk : Disk) (sectors : List ℕ) : Bytes :=
  sectors.flatMap fun s => ofFn (disk s)

variable (vol) in
def bytesOn (disk : Disk) (clusters : List ℕ) : Bytes :=
  clusters.flatMap fun c => sectorBytes disk (vol.sectorsOf c)

variable (vol) in
/-- The content of the file at a position. -/
def contentAt (disk : Disk) (p : Pos) : Bytes :=
  (vol.bytesOn disk (vol.chainAt disk p)).take (sizeOf (slotAt disk p))

variable (vol) in
/-- The clusters from `c` to the first value that is no valid cluster. -/
def Walk (disk : Disk) (c : ℕ) (l : List ℕ) : Prop :=
  Lib.IsChain (vol.nextOf disk) vol.validCluster (fun c => vol.validCluster c = false) c l

theorem IsChain.walk (sound : vol.Sound) (isChain : vol.IsChain disk c l) : vol.Walk disk c l :=
  Lib.IsChain.weaken isChain sound.endMark_invalid

theorem length_sectorBytes (disk : Disk) (sectors : List ℕ) :
    (sectorBytes disk sectors).length = sectors.length * 512 := by
  induction sectors with
  | nil => rw [sectorBytes, flatMap_nil, length_nil, length_nil, Nat.zero_mul]
  | cons sector rest ih =>
    unfold sectorBytes at ih ⊢
    rw [flatMap_cons, length_append, length_ofFn, ih, length_cons, Nat.succ_mul, Nat.add_comm]

theorem length_sectorsOf (c : ℕ) : (vol.sectorsOf c).length = vol.sectorsPerCluster := by
  unfold sectorsOf
  rw [length_map, length_range]

theorem reads_readSectors (sectors : List ℕ) (remaining : ℕ) (data : Bytes) :
    Reads working (readSectors sectors remaining data) disk (.ok (remaining - sectors.length * 512,
        data ++ (sectorBytes disk sectors).take remaining)) := by
  induction sectors generalizing remaining data with
  | nil =>
    rw [readSectors, sectorBytes, flatMap_nil, take_nil, append_nil]
    exact Reads.pure
  | cons sector rest ih =>
    rw [readSectors]
    split
    · rename_i none
      rw [none, take_zero, append_nil, Nat.zero_sub]
      exact Reads.pure
    · refine (reads_readSector sector).seq ?_
      have left : remaining - min remaining 512 - rest.length * 512 =
          remaining - (sector :: rest).length * 512 := by
        rw [length_cons]
        omega
      have bytes : data ++ (ofFn (disk sector)).take (min remaining 512) ++
          (sectorBytes disk rest).take (remaining - min remaining 512) =
          data ++ (sectorBytes disk (sector :: rest)).take remaining := by
        have whole : sectorBytes disk (sector :: rest) =
            ofFn (disk sector) ++ sectorBytes disk rest := flatMap_cons
        have cut : (ofFn (disk sector)).take (min remaining 512) =
            (ofFn (disk sector)).take remaining := by
          rw [take_eq_take_iff, length_ofFn]
          omega
        rw [whole, take_append, length_ofFn, cut, append_assoc,
          show remaining - min remaining 512 = remaining - 512 by omega]
      rw [← left, ← bytes]
      exact ih _ _

/-- `read_entry` reads the chain up to the size. -/
theorem reads_readChain (walk : vol.Walk disk c l) (enough : remaining ≤ fuel) (data : Bytes) :
    Reads working (vol.readChain fuel c remaining data) disk
      (.ok (data ++ (vol.bytesOn disk l).take remaining)) := by
  induction l generalizing c fuel remaining data with
  | nil =>
    have stop : vol.validCluster c = false := walk
    rw [bytesOn, flatMap_nil, take_nil, append_nil]
    cases fuel with
    | zero => exact Reads.pure
    | succ fuel =>
      rw [readChain, if_neg fun both => by simp [stop] at both]
      exact Reads.pure
  | cons head rest ih =>
    obtain ⟨rfl, valid, walk'⟩ := walk
    by_cases none : remaining = 0
    · rw [none, take_zero, append_nil]
      cases fuel with
      | zero => exact Reads.pure
      | succ fuel =>
        rw [readChain, if_neg fun both => Nat.lt_irrefl 0 both.1]
        exact Reads.pure
    · obtain ⟨fuel, rfl⟩ : ∃ fuel', fuel = fuel' + 1 := ⟨fuel - 1, by omega⟩
      rw [readChain, if_pos ⟨Nat.pos_of_ne_zero none, valid⟩]
      refine (reads_readSectors _ _ _).seq ((reads_nextCluster head).seq ?_)
      have positive := vol.sectorsPerCluster_pos
      have whole : vol.bytesOn disk (head :: rest) =
          sectorBytes disk (vol.sectorsOf head) ++ vol.bytesOn disk rest := flatMap_cons
      rw [whole, take_append, length_sectorBytes, ← append_assoc, length_sectorsOf]
      exact ih walk' (by omega) _

/-- The content of a file is the first `size` bytes of its chain. -/
theorem reads_readEntry {entry : DirEntry} (walk : vol.Walk disk entry.firstCluster l) :
    Reads working (vol.readEntry entry) disk (.ok ((vol.bytesOn disk l).take entry.size)) :=
  reads_readChain walk le_rfl []

/-! ### Programs built of reads -/

section

theorem fetches_readSector (lba : ℕ) : Fetches (readSector lba) := .readBlock

theorem fetches_nextCluster (c : ℕ) : Fetches (vol.nextCluster c) :=
  (fetches_readSector _).bind fun _ => .pure _

section Scan

variable (visit : σ → Pos → Slot → Step σ β)

theorem fetches_scanSectors (sectors : List ℕ) (state : σ) : Fetches (scanSectors visit sectors state) := by
  induction sectors generalizing state with
  | nil => exact .pure _
  | cons sector rest ih =>
    rw [scanSectors]
    refine (fetches_readSector sector).bind fun buf => ?_
    cases scanSlots visit sector buf (finRange 16) state with
    | next state' => exact ih state'
    | done result => exact .pure _

theorem fetches_scanChain (n c : ℕ) (state : σ) : Fetches (vol.scanChain visit n c state) := by
  induction n generalizing c state with
  | zero => exact .pure _
  | succ n ih =>
    rw [scanChain]
    split
    · refine (fetches_scanSectors visit _ _).bind fun step => ?_
      cases step with
      | done result => exact .pure _
      | next state' => exact (fetches_nextCluster c).bind fun next => ih next state'
    · exact .pure _

end Scan

theorem fetches_findInDir (dir : ℕ) (name : Bytes) : Fetches (vol.findInDir dir name) := by
  refine (fetches_scanChain _ _ _ _).bind fun step => ?_
  cases step with
  | next _ => exact .pure _
  | done _ => exact .pure _

theorem fetches_locateEntry (dir : ℕ) (name : Bytes) : Fetches (vol.locateEntry dir name) := by
  refine (fetches_scanChain _ _ _ _).bind fun step => ?_
  cases step with
  | next _ => exact .pure _
  | done _ => exact .pure _

theorem fetches_locateOrFreeSlot (dir : ℕ) (target : Name) : Fetches (vol.locateOrFreeSlot dir target) := by
  refine (fetches_scanChain _ _ _ _).bind fun step => ?_
  rcases step with (_ | _) | _
  · exact .throw _
  · exact .pure _
  · exact .pure _

theorem fetches_listDir (dir : ℕ) : Fetches (vol.listDir dir) := by
  refine (fetches_scanChain _ _ _ _).bind fun step => ?_
  cases step with
  | next _ => exact .pure _
  | done _ => exact .pure _

theorem fetches_dirIsEmpty (dir : ℕ) : Fetches (vol.dirIsEmpty dir) :=
  (fetches_listDir dir).bind fun _ => .pure _

theorem fetches_resolveComponents (dir : ℕ) (comps : List Bytes) :
    Fetches (vol.resolveComponents dir comps) := by
  induction comps generalizing dir with
  | nil => exact .throw _
  | cons comp rest ih =>
    cases rest with
    | nil => exact .pure _
    | cons second rest =>
      rw [resolveComponents]
      · refine (fetches_findInDir dir comp).bind fun found => ?_
        cases found with
        | none => exact .throw _
        | some entry =>
          simp only
          split
          · exact .throw _
          · exact ih _
      · exact cons_ne_nil _ _

end

end Fat32

end Ferros.Fat
