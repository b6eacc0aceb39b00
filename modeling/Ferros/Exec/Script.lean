/-
**What a file tells the loader to do.**

The program headers of a file, read without any check, are its segments. When `load` succeeds it has done for
each of them, in the order of the table, the same two things: mapped the pages that it had not mapped yet, and
stored the segment's content.

* `headerExact`, `segmentExact` — the same reads and computations with the bounds of machine words and of the
  file: **they always have a value**.
* `script` — the pages to map and the content to store; `load_script` — **`load` performs it**.
-/

import Ferros.Exec.Elf
import Ferros.Lib.Stores

namespace Ferros.Exec

open Lib Mm List Option

variable {width off ph : ℕ} {h : Header}

/-! ### Bounds -/

/-- A program with the error of the loader, which has no value where a word overflows or a read leaves the
file. -/
abbrev Bounded := ExceptT ElfError Option

/-- `read_u16`, `read_u32` and `read_u64`. -/
def readExact (width : ℕ) (bytes : List UInt8) (off : ℕ) : Bounded ℕ := do
  let stop ← fitting 64 (off + width)
  if stop ≤ bytes.length then return fieldAt width bytes off else ExceptT.lift none

/-- A check of the loader. -/
def check (holds : Prop) [Decidable holds] (e : ElfError) : Bounded Unit := if holds then return () else throw e

/-- `checked_add` and `checked_mul`, with the error that is returned instead. -/
def checked (n : ℕ) (e : ElfError) : Bounded ℕ := if n < 2 ^ 64 then return n else throw e

def headerExact (bytes : List UInt8) : Bounded Header := do
  check (64 ≤ bytes.length) .tooSmall
  -- `bytes[0..4]` and `bytes[4]`
  let magic ← ExceptT.lift (if 4 ≤ bytes.length then some (bytes.take 4) else none)
  check (magic = [0x7F, 0x45, 0x4C, 0x46]) .badMagic
  let kind ← ExceptT.lift bytes[4]?
  check (kind = 2) .notElf64
  check ((← readExact 2 bytes 0x10) = 2) .notExecutable
  check ((← readExact 2 bytes 0x12) = 0x3E) .notX86_64
  let entry ← readExact 8 bytes 0x18
  let phoff ← readExact 8 bytes 0x20
  let phentsize ← readExact 2 bytes 0x36
  let phnum ← readExact 2 bytes 0x38
  check (56 ≤ phentsize) .badProgramHeaderSize
  let size ← checked (phnum * phentsize) .tooSmall
  let tableEnd ← checked (phoff + size) .tooSmall
  check (tableEnd ≤ bytes.length) .tooSmall
  return ⟨entry, phoff, phentsize, phnum⟩

/-- `phoff + i * phentsize` -/
def Header.programHeaderExact (h : Header) (i : ℕ) : Option ℕ := do
  let distance ← fitting 64 (i * h.phentsize)
  fitting 64 (h.phoff + distance)

def segmentExact (bytes : List UInt8) (ph : ℕ) : Bounded (Option Segment) := do
  let kind ← readExact 4 bytes ph
  if kind ≠ 1 then return none
  let offset ← readExact 8 bytes (← fitting 64 (ph + 0x08))
  let vaddr ← readExact 8 bytes (← fitting 64 (ph + 0x10))
  let filesz ← readExact 8 bytes (← fitting 64 (ph + 0x20))
  let memsz ← readExact 8 bytes (← fitting 64 (ph + 0x28))
  let fileEnd ← checked (offset + filesz) .segmentOutOfFile
  check (fileEnd ≤ bytes.length) .segmentOutOfFile
  check (filesz ≤ memsz) .fileSizeExceedsMemSize
  let memEnd ← checked (vaddr + memsz) .segmentNotInUserSpace
  check (memEnd ≤ userSpaceEnd) .segmentNotInUserSpace
  if memsz = 0 then return none
  -- the last address, and what is left to fill with zeros
  let _ ← taking memEnd 1
  let _ ← taking memsz filesz
  return some ⟨offset, vaddr, filesz, memsz⟩

/-- The program has a value, and it is this. -/
def Yields {α : Type} (m : Bounded α) (result : Except ElfError α) : Prop := m.run = some result

section Yields

variable {α β : Type} {m : Bounded α} {k : α → Bounded β} {result : Except ElfError α}
  {k' : α → Except ElfError β} {result' : Except ElfError β} {a : α} {n i : ℕ} {e : ElfError}

theorem Yields.bind (first : Yields m result) (rest : ∀ a, result = .ok a → Yields (k a) (k' a)) :
    Yields (m >>= k) (result >>= k') := by
  unfold Yields at first ⊢
  rw [ExceptT.run_bind, first]
  cases result with
  | error e => rfl
  | ok a => exact rest a rfl

theorem Yields.value (first : Yields m (.ok a)) (rest : Yields (k a) result') : Yields (m >>= k) result' := by
  unfold Yields at first ⊢
  rw [ExceptT.run_bind, first]
  exact rest

theorem yields_lift {o : Option α} (has : o = some a) : Yields (ExceptT.lift o) (.ok a) := by
  rw [has]
  rfl

theorem yields_check {holds holds' : Prop} [Decidable holds] [Decidable holds'] (same : holds ↔ holds') :
    Yields (check holds e) (require holds' e) := by
  unfold check require
  by_cases passed : holds
  · rw [if_pos passed, if_pos (same.mp passed)]
    rfl
  · rw [if_neg passed, if_neg (mt same.mpr passed)]
    rfl

/-- An overflow is found where the error is due anyway. -/
theorem yields_checked {k : ℕ → Bounded β} (fits : n < 2 ^ 64 → Yields (k n) result')
    (overflow : 2 ^ 64 ≤ n → result' = .error e) : Yields (checked n e >>= k) result' := by
  by_cases small : n < 2 ^ 64
  · have passes : Yields (checked n e) (.ok n) := by
      rw [checked, if_pos small]
      rfl
    exact passes.value (fits small)
  · rw [overflow (Nat.le_of_not_lt small), checked, if_neg small]
    rfl

variable {bytes : List UInt8}

theorem yields_read (small : bytes.length < 2 ^ 64) (fits : off + width ≤ bytes.length) :
    Yields (readExact width bytes off) (readLe width bytes off) := by
  rw [readLe_eq fits]
  refine Yields.value (yields_lift (fitting_of_lt (by omega))) ?_
  rw [if_pos fits]
  rfl

/-- **The reads of the header stay in the file, and its computations in a word.** -/
theorem yields_header (small : bytes.length < 2 ^ 64) : Yields (headerExact bytes) (header bytes) := by
  rw [headerExact, header]
  refine (yields_check Iff.rfl).bind fun _ large => ?_
  have large := of_require large
  have classByte : bytes[4]? = some bytes[4] := getElem?_eq_getElem (by omega)
  refine (yields_lift (if_pos (by omega))).value ?_
  refine (yields_check Iff.rfl).bind fun _ _ => ?_
  refine (yields_lift classByte).value ?_
  refine (yields_check (by rw [classByte, some.injEq])).bind fun _ _ => ?_
  refine (yields_read small (by omega)).bind fun _ _ => ?_
  refine (yields_check Iff.rfl).bind fun _ _ => ?_
  refine (yields_read small (by omega)).bind fun _ _ => ?_
  refine (yields_check Iff.rfl).bind fun _ _ => ?_
  refine (yields_read small (by omega)).bind fun entry _ => ?_
  refine (yields_read small (by omega)).bind fun phoff _ => ?_
  refine (yields_read small (by omega)).bind fun phentsize _ => ?_
  refine (yields_read small (by omega)).bind fun phnum _ => ?_
  refine (yields_check Iff.rfl).bind fun _ _ => ?_
  have outside (beyond : 2 ^ 64 ≤ phoff + phnum * phentsize) :
      (require (phoff + phnum * phentsize ≤ bytes.length) .tooSmall) = .error .tooSmall := if_neg (by omega)
  refine yields_checked (fun _ => yields_checked (fun _ => ?_) fun beyond => ?_) fun beyond => ?_
  · exact (yields_check Iff.rfl).bind fun _ _ => rfl
  · rw [outside beyond]
    rfl
  · rw [outside (by omega)]
    rfl

theorem yields_segment (small : bytes.length < 2 ^ 64) (inFile : ph + 56 ≤ bytes.length) :
    Yields (segmentExact bytes ph) (segment bytes ph) := by
  have fits (i : ℕ) (inside : i + 8 ≤ 56) : fitting 64 (ph + i) = some (ph + i) := fitting_of_lt (by omega)
  rw [segmentExact, segment]
  refine (yields_read small (by omega)).bind fun kind _ => ?_
  by_cases other : kind ≠ 1
  · rw [if_pos other, if_pos other]
    rfl
  rw [if_neg other, if_neg other]
  refine (yields_lift (fits 0x08 (by decide))).value ((yields_read small (by omega)).bind fun offset _ => ?_)
  refine (yields_lift (fits 0x10 (by decide))).value ((yields_read small (by omega)).bind fun vaddr _ => ?_)
  refine (yields_lift (fits 0x20 (by decide))).value ((yields_read small (by omega)).bind fun filesz _ => ?_)
  refine (yields_lift (fits 0x28 (by decide))).value ((yields_read small (by omega)).bind fun memsz _ => ?_)
  refine yields_checked (fun _ => (yields_check Iff.rfl).bind fun _ _ => ?_) fun beyond => ?_
  · refine (yields_check Iff.rfl).bind fun _ filled => ?_
    have filled := of_require filled
    refine yields_checked (fun _ => (yields_check Iff.rfl).bind fun _ _ => ?_) fun beyond => ?_
    · by_cases nothing : memsz = 0
      · rw [if_pos nothing, if_pos nothing]
        rfl
      · rw [if_neg nothing, if_neg nothing]
        refine (yields_lift (taking_of_le (by omega))).value ?_
        exact (yields_lift (taking_of_le filled)).value rfl
    · have outside : ¬ vaddr + memsz ≤ userSpaceEnd := by
        rw [userSpaceEnd]
        omega
      rw [require, if_neg outside]
      rfl
  · have outside : ¬ offset + filesz ≤ bytes.length := by omega
    rw [require, if_neg outside]
    rfl

theorem programHeader_fits (read : header bytes = .ok h) (inTable : i < h.phnum) :
    h.phoff + i * h.phentsize + 56 ≤ bytes.length := by
  obtain ⟨_, large, inFile⟩ := header_ok read
  have upTo : (i + 1) * h.phentsize ≤ h.phnum * h.phentsize := Nat.mul_le_mul_right _ inTable
  rw [Nat.succ_mul] at upTo
  omega

theorem programHeaderExact_eq (small : bytes.length < 2 ^ 64) (read : header bytes = .ok h)
    (inTable : i < h.phnum) : h.programHeaderExact i = some (h.phoff + i * h.phentsize) := by
  have fits := programHeader_fits read inTable
  rw [Header.programHeaderExact, fitting_of_lt (by omega)]
  exact fitting_of_lt (by omega)

end Yields

/-! ### The script -/

inductive Event
  | map (va : ℕ)
  | store (w : Store UInt8)
  deriving DecidableEq, Repr

/-- `map_user_page`, or a copy to user memory; `none` is a panic or a page fault. -/
def Event.perform [Mapper] (root : Frame) : Event → Ram → Option Ram
  | .map va => mapUserPage root va
  | .store w => Ram.pokes root w.start w.cells

def performs [Mapper] (root : Frame) : List Event → Ram → Option Ram
  | [], ram => some ram
  | event :: rest, ram => (event.perform root ram).bind (performs root rest)

/-- The pages that are not mapped yet. -/
def freshPages : List ℕ → List ℕ → List ℕ
  | [], _ => []
  | va :: rest, mapped =>
    if va ∈ mapped then freshPages rest mapped else va :: freshPages rest (va :: mapped)

def Segment.store (s : Segment) (bytes : List UInt8) : Store UInt8 := ⟨s.vaddr, s.content bytes⟩

def script (bytes : List UInt8) : List Segment → List ℕ → List Event
  | [], _ => []
  | s :: rest, mapped =>
    (freshPages s.pages mapped).map .map ++
      .store (s.store bytes) :: script bytes rest ((freshPages s.pages mapped).reverse ++ mapped)

section Script

variable {gap : Bool} {bytes : List UInt8} {root : Frame} {pages mapped mapped₁ headers : List ℕ}
  {ram ram₁ : Ram} {entry : ℕ}

theorem performs_append [Mapper] (first second : List Event) :
    performs root (first ++ second) ram = (performs root first ram).bind (performs root second) := by
  induction first generalizing ram with
  | nil => rfl
  | cons event rest ih =>
    rw [cons_append, performs, performs]
    cases event.perform root ram with
    | none => rfl
    | some ram₁ => exact ih

theorem mapPages_ok [Mapper] (done : mapPages gap root pages mapped ram = some (.ok mapped₁, ram₁)) :
    mapped₁ = (freshPages pages mapped).reverse ++ mapped ∧
      performs root ((freshPages pages mapped).map .map) ram = some ram₁ := by
  induction pages generalizing mapped ram with
  | nil =>
    obtain ⟨same, rfl⟩ := Prod.mk.inj (some.inj done)
    cases same
    exact ⟨rfl, rfl⟩
  | cons va rest ih =>
    rw [mapPages] at done
    split at done
    · cases done
    rw [freshPages]
    split at done
    · rename_i isMapped
      rw [if_pos isMapped]
      exact ih done
    rename_i new
    split at done
    · cases (Prod.mk.inj (some.inj done)).1
    obtain ⟨ram₂, mapsOne, done⟩ := bind_eq_some_iff.mp done
    obtain ⟨same, ran⟩ := ih done
    rw [if_neg new, map_cons, performs, Event.perform, mapsOne, bind_some, reverse_cons, append_assoc]
    exact ⟨same, ran⟩

theorem loadSegments_ok [Mapper] (done : loadSegments gap bytes root headers mapped ram = some (.ok (), ram₁)) :
    (∀ ph ∈ headers, ∀ s, ptLoad bytes ph = some s → s.Sound bytes) ∧
      performs root (script bytes (headers.filterMap (loadable bytes)) mapped) ram = some ram₁ := by
  induction headers generalizing mapped ram with
  | nil =>
    cases done
    exact ⟨forall_mem_nil _, rfl⟩
  | cons ph rest ih =>
    rw [loadSegments] at done
    cases read : segment bytes ph with
    | error e =>
      rw [read] at done
      cases (Prod.mk.inj (some.inj done)).1
    | ok found =>
      obtain ⟨isFound, sound⟩ := segment_ok read
      rw [read] at done
      cases found with
      | none =>
        obtain ⟨later, ran⟩ := ih done
        rw [filterMap_cons_none isFound.symm]
        exact ⟨forall_mem_cons.mpr ⟨sound, later⟩, ran⟩
      | some s =>
        simp only at done
        split at done
        · cases done
        · cases (Prod.mk.inj (some.inj done)).1
        rename_i mapped₂ ram₂ mapsAll
        obtain ⟨ram₃, copied, done⟩ := bind_eq_some_iff.mp done
        obtain ⟨rfl, performed₂⟩ := mapPages_ok mapsAll
        obtain ⟨later, ran⟩ := ih done
        have stores : (Event.store (s.store bytes)).perform root ram₂ = some ram₃ := copied
        rw [filterMap_cons_some isFound.symm, script, performs_append, performed₂, bind_some,
          performs, stores, bind_some]
        exact ⟨forall_mem_cons.mpr ⟨sound, later⟩, ran⟩

/-- **`load` performs the script** of the segments that are not empty. -/
theorem load_script [Mapper] (done : load gap bytes root ram = some (.ok entry, ram₁)) :
    entry = (headerOf bytes).entry ∧ (∀ s ∈ segments bytes, s.Sound bytes) ∧
      performs root (script bytes ((segments bytes).filter (0 < ·.memsz)) []) ram = some ram₁ := by
  rw [load] at done
  cases read : header bytes with
  | error e =>
    rw [read] at done
    cases (Prod.mk.inj (some.inj done)).1
  | ok h =>
    obtain ⟨rfl, _, _⟩ := header_ok read
    rw [read] at done
    obtain ⟨⟨result, ram₂⟩, loaded, same⟩ := map_eq_some_iff.mp done
    obtain ⟨isEntry, rfl⟩ := Prod.mk.inj same
    cases result with
    | error e => cases isEntry
    | ok _ =>
      obtain ⟨sound, ran⟩ := loadSegments_ok loaded
      refine ⟨(Except.ok.inj isEntry).symm, fun s mem => ?_, ?_⟩
      · obtain ⟨ph, inTable, isLoad⟩ := mem_filterMap.mp mem
        exact sound ph inTable s isLoad
      · rw [segments, filter_filterMap]
        exact ran

end Script

end Ferros.Exec
