/-
**Loading a program.**

`load` reads the headers of an ELF file and, one program header after the other, maps the pages of a segment
into the space that is being built and copies the segment there. It may find an error when some segments
are already in memory, and it panics where `map_user_page` does.

* `header`, `segment` — what is read from the file, and the checks.
* `mapPages`, `copySegment`, `load` — over the tables in memory.
* `segments` — the program headers of a file, read without any check; `header_ok`, `segment_ok` — what the
  checks of `load` say about them.
-/

import Ferros.Mm.Isolation
import Ferros.Mm.Translation

namespace Ferros.Exec

open Lib Mm List
open Option (filter_some filter_eq_some_iff)

inductive ElfError
  | tooSmall
  | badMagic
  | notElf64
  | notExecutable
  | notX86_64
  | badProgramHeaderSize
  | segmentOutOfFile
  | fileSizeExceedsMemSize
  | segmentNotInUserSpace
  | segmentOverlapsExisting
  deriving DecidableEq, Repr

/-! ### The file -/

/-- The common body of `read_u16`, `read_u32` and `read_u64`. -/
def readLe (width : ℕ) (bytes : List UInt8) (off : ℕ) : Except ElfError ℕ :=
  if fits : off + width ≤ bytes.length then .ok (leVal width fun i => bytes.get ⟨off + i, by omega⟩)
  else .error .tooSmall

def readU16 : List UInt8 → ℕ → Except ElfError ℕ := readLe 2
def readU32 : List UInt8 → ℕ → Except ElfError ℕ := readLe 4
def readU64 : List UInt8 → ℕ → Except ElfError ℕ := readLe 8

structure Header where
  entry : ℕ
  phoff : ℕ
  phentsize : ℕ
  phnum : ℕ
  deriving DecidableEq, Repr

/-- A check that ends the load with an error. -/
def require (holds : Prop) [Decidable holds] (e : ElfError) : Except ElfError Unit :=
  if holds then .ok () else .error e

/-- The first part of `load`. Sums that overflow are larger than any file, which is the error that the overflow
is reported as. -/
def header (bytes : List UInt8) : Except ElfError Header := do
  require (64 ≤ bytes.length) .tooSmall
  require (bytes.take 4 = [0x7F, 0x45, 0x4C, 0x46]) .badMagic
  require (bytes[4]? = some 2) .notElf64
  require ((← readU16 bytes 0x10) = 2) .notExecutable
  require ((← readU16 bytes 0x12) = 0x3E) .notX86_64
  let entry ← readU64 bytes 0x18
  let phoff ← readU64 bytes 0x20
  let phentsize ← readU16 bytes 0x36
  let phnum ← readU16 bytes 0x38
  require (56 ≤ phentsize) .badProgramHeaderSize
  require (phoff + phnum * phentsize ≤ bytes.length) .tooSmall
  return ⟨entry, phoff, phentsize, phnum⟩

/-- A segment that passed the checks. -/
structure Segment where
  offset : ℕ
  vaddr : ℕ
  filesz : ℕ
  memsz : ℕ
  deriving DecidableEq, Repr

/-- The program header at `ph`; `none` if there is nothing to load. -/
def segment (bytes : List UInt8) (ph : ℕ) : Except ElfError (Option Segment) := do
  let kind ← readU32 bytes ph
  if kind ≠ 1 then return none
  let offset ← readU64 bytes (ph + 0x08)
  let vaddr ← readU64 bytes (ph + 0x10)
  let filesz ← readU64 bytes (ph + 0x20)
  let memsz ← readU64 bytes (ph + 0x28)
  require (offset + filesz ≤ bytes.length) .segmentOutOfFile
  require (filesz ≤ memsz) .fileSizeExceedsMemSize
  require (vaddr + memsz ≤ userSpaceEnd) .segmentNotInUserSpace
  if memsz = 0 then return none
  return some ⟨offset, vaddr, filesz, memsz⟩

/-- `Page::range_inclusive(first, last)`, as the addresses of the pages. -/
def Segment.pages (s : Segment) : List ℕ :=
  (range' (s.vaddr / 4096) ((s.vaddr + s.memsz - 1) / 4096 - s.vaddr / 4096 + 1)).map (4096 * ·)

/-- What the segment contains: the bytes of the file, then zeros. -/
def Segment.content (s : Segment) (bytes : List UInt8) : List UInt8 :=
  (bytes.drop s.offset).take s.filesz ++ replicate (s.memsz - s.filesz) 0

/-! ### Into memory -/

/-- The last page of the lower half. -/
def lastPage : ℕ := userSpaceEnd - 4096

/-- The loop over the pages of a segment; `none` is a panic. `mapped` are the pages that this load has mapped
so far. The range is advanced before its page is returned: with `gap`, the addition that leaves the lower
half panics, as it does on addresses that are checked to be canonical. -/
def mapPages [Mapper] (gap : Bool) (root : Frame) : List ℕ → List ℕ → Ram → Option (Except ElfError (List ℕ) × Ram)
  | [], mapped, ram => some (.ok mapped, ram)
  | va :: rest, mapped, ram =>
    if gap = true ∧ va = lastPage then none
    else if va ∈ mapped then mapPages gap root rest mapped ram
    else if translatePage ram.memory root va ≠ none then some (.error .segmentOverlapsExisting, ram)
    else (mapUserPage root va ram).bind (mapPages gap root rest (va :: mapped))

/-- The copy and the zeros behind it, written through the space that is active. -/
def copySegment (bytes : List UInt8) (root : Frame) (s : Segment) (ram : Ram) : Option Ram :=
  ram.pokes root s.vaddr (s.content bytes)

/-- The loop over the program headers. -/
def loadSegments [Mapper] (gap : Bool) (bytes : List UInt8) (root : Frame) :
    List ℕ → List ℕ → Ram → Option (Except ElfError Unit × Ram)
  | [], _, ram => some (.ok (), ram)
  | ph :: rest, mapped, ram =>
    match segment bytes ph with
    | .error e => some (.error e, ram)
    | .ok none => loadSegments gap bytes root rest mapped ram
    | .ok (some s) =>
      match mapPages gap root s.pages mapped ram with
      | none => none
      | some (.error e, ram) => some (.error e, ram)
      | some (.ok mapped, ram) =>
        (copySegment bytes root s ram).bind (loadSegments gap bytes root rest mapped)

def Header.programHeaders (h : Header) : List ℕ := (range h.phnum).map fun i => h.phoff + i * h.phentsize

/-- `load` into the space of `root`, which is active; `none` is a panic. -/
def load [Mapper] (gap : Bool) (bytes : List UInt8) (root : Frame) (ram : Ram) : Option (Except ElfError ℕ × Ram) :=
  match header bytes with
  | .error e => some (.error e, ram)
  | .ok h =>
    (loadSegments gap bytes root h.programHeaders [] ram).map fun (result, ram) =>
      (result.map fun _ => h.entry, ram)

/-! ### The plan -/

/-- What becomes of the pages of a segment, if `state` is what the kernel has at a page. -/
def planPages (gap : Bool) (state : ℕ → PageState) : List ℕ → List ℕ → Option (Except ElfError Unit × List ℕ)
  | [], mapped => some (.ok (), mapped)
  | va :: rest, mapped =>
    if gap = true ∧ va = lastPage then none
    else if va ∈ mapped then planPages gap state rest mapped
    else
      match state va with
      | .mapped => some (.error .segmentOverlapsExisting, mapped)
      | .blocked => none
      | .free => planPages gap state rest (va :: mapped)

def planSegments (gap : Bool) (bytes : List UInt8) (state : ℕ → PageState) :
    List ℕ → List ℕ → Option (Except ElfError Unit × List ℕ)
  | [], mapped => some (.ok (), mapped)
  | ph :: rest, mapped =>
    match segment bytes ph with
    | .error e => some (.error e, mapped)
    | .ok none => planSegments gap bytes state rest mapped
    | .ok (some s) =>
      match planPages gap state s.pages mapped with
      | none => none
      | some (.error e, mapped) => some (.error e, mapped)
      | some (.ok (), mapped) => planSegments gap bytes state rest mapped

/-- What becomes of a file, and the pages that are mapped for it; `none` is a panic. -/
def plan (gap : Bool) (bytes : List UInt8) (state : ℕ → PageState) : Option (Except ElfError ℕ × List ℕ) :=
  match header bytes with
  | .error e => some (.error e, [])
  | .ok h =>
    (planSegments gap bytes state h.programHeaders []).map fun (result, mapped) =>
      (result.map fun _ => h.entry, mapped)

/-! ### What the checks say -/

/-- A number in the file; what is not there is zero. -/
def fieldAt (width : ℕ) (bytes : List UInt8) (off : ℕ) : ℕ := leVal width fun i => bytes.getD (off + i) 0

section

variable (bytes : List UInt8)

/-- The fields of the header. -/
def headerOf : Header where
  entry := fieldAt 8 bytes 0x18
  phoff := fieldAt 8 bytes 0x20
  phentsize := fieldAt 2 bytes 0x36
  phnum := fieldAt 2 bytes 0x38

/-- The fields of a program header that is `PT_LOAD`. -/
def ptLoad (ph : ℕ) : Option Segment :=
  if fieldAt 4 bytes ph = 1 then
    some ⟨fieldAt 8 bytes (ph + 0x08), fieldAt 8 bytes (ph + 0x10), fieldAt 8 bytes (ph + 0x20),
      fieldAt 8 bytes (ph + 0x28)⟩
  else none

/-- The segments of a file, in the order of the table. -/
def segments : List Segment := (headerOf bytes).programHeaders.filterMap (ptLoad bytes)

/-- A program header that there is something to load for. -/
def loadable (ph : ℕ) : Option Segment := (ptLoad bytes ph).filter (0 < ·.memsz)

/-- What the checks are about. -/
structure Segment.Sound (s : Segment) : Prop where
  inFile : s.offset + s.filesz ≤ bytes.length
  filled : s.filesz ≤ s.memsz
  inUser : s.vaddr + s.memsz ≤ userSpaceEnd

end

variable {bytes : List UInt8} {width off ph : ℕ} {s : Segment}

theorem Except.bind_eq_ok_iff {ε α β : Type} {x : Except ε α} {f : α → Except ε β} {b : β} :
    (x >>= f) = .ok b ↔ ∃ a, x = .ok a ∧ f a = .ok b := by
  cases x <;> simp [bind, Except.bind]

theorem of_require {holds : Prop} [Decidable holds] {e : ElfError} {u : Unit} (passed : require holds e = .ok u)
    : holds := by
  unfold require at passed
  split at passed
  · assumption
  · cases passed

theorem readLe_eq (fits : off + width ≤ bytes.length) :
    readLe width bytes off = .ok (fieldAt width bytes off) := by
  rw [readLe, dif_pos fits, fieldAt]
  congr 2
  funext i
  rw [getD_eq_getElem?_getD, getElem?_eq_getElem (by omega)]
  rfl

theorem eq_of_readLe {value : ℕ} (read : readLe width bytes off = .ok value) : value = fieldAt width bytes off := by
  by_cases fits : off + width ≤ bytes.length
  · exact Except.ok.inj (read.symm.trans (readLe_eq fits))
  · rw [readLe, dif_neg fits] at read
    cases read

/-- **The checks of the header.** -/
theorem header_ok {h : Header} (read : header bytes = .ok h) :
    h = headerOf bytes ∧ 56 ≤ h.phentsize ∧ h.phoff + h.phnum * h.phentsize ≤ bytes.length := by
  simp only [header, Except.bind_eq_ok_iff] at read
  obtain ⟨_, -, _, -, _, -, _, -, _, -, _, -, _, -, entry, isEntry, phoff, isPhoff, phentsize, isPhentsize,
    phnum, isPhnum, _, large, _, inFile, ⟨⟩⟩ := read
  refine ⟨?_, of_require large, of_require inFile⟩
  rw [headerOf, eq_of_readLe isEntry, eq_of_readLe isPhoff, eq_of_readLe isPhentsize, eq_of_readLe isPhnum]

/-- **The checks of a program header**, also of one that is empty. -/
theorem segment_ok {found : Option Segment} (read : segment bytes ph = .ok found) :
    found = loadable bytes ph ∧ ∀ s, ptLoad bytes ph = some s → s.Sound bytes := by
  rw [segment] at read
  obtain ⟨kind, isKind, read⟩ := Except.bind_eq_ok_iff.mp read
  obtain rfl := eq_of_readLe isKind
  split at read
  · rename_i other
    cases read
    rw [loadable, ptLoad, if_neg other]
    exact ⟨rfl, fun s wrong => by cases wrong⟩
  · rename_i isLoad
    simp only [Except.bind_eq_ok_iff] at read
    obtain ⟨offset, isOffset, vaddr, isVaddr, filesz, isFilesz, memsz, isMemsz, _, inFile, _, filled, _, inUser,
      read⟩ := read
    have fields : ptLoad bytes ph = some ⟨offset, vaddr, filesz, memsz⟩ := by
      rw [ptLoad, if_pos (not_not.mp isLoad), eq_of_readLe isOffset, eq_of_readLe isVaddr,
        eq_of_readLe isFilesz, eq_of_readLe isMemsz]
    rw [loadable, fields]
    refine ⟨?_, fun s same => ?_⟩
    · split at read
      · rename_i nothing
        cases read
        rw [filter_some, if_neg (by simp only [nothing]; decide)]
      · rename_i nonzero
        cases read
        rw [filter_some, if_pos (decide_eq_true (Nat.pos_of_ne_zero nonzero))]
    · cases same
      exact ⟨of_require inFile, of_require filled, of_require inUser⟩

theorem sound_of_segment (checked : segment bytes ph = .ok (some s)) : s.Sound bytes ∧ 0 < s.memsz := by
  obtain ⟨found, sound⟩ := segment_ok checked
  obtain ⟨isLoad, positive⟩ := filter_eq_some_iff.mp found.symm
  exact ⟨sound s isLoad, of_decide_eq_true positive⟩

theorem Segment.Sound.length_content (sound : s.Sound bytes) : (s.content bytes).length = s.memsz := by
  have inFile := sound.inFile
  have filled := sound.filled
  rw [Segment.content, length_append, length_take, length_drop, length_replicate]
  omega

/-- The pages of a segment are those that its bytes lie in. -/
theorem mem_pages {va : ℕ} (positive : 0 < s.memsz) :
    va ∈ s.pages ↔ ∃ x, s.vaddr ≤ x ∧ x < s.vaddr + s.memsz ∧ va = 4096 * (x / 4096) := by
  rw [Segment.pages, mem_map]
  constructor
  · rintro ⟨page, mem, rfl⟩
    obtain ⟨low, high⟩ := mem_range'_1.mp mem
    by_cases first : page = s.vaddr / 4096
    · exact ⟨s.vaddr, le_rfl, by omega, by rw [first]⟩
    · exact ⟨4096 * page, by omega, by omega, by omega⟩
  · rintro ⟨x, low, high, rfl⟩
    exact ⟨x / 4096, mem_range'_1.mpr (by omega), rfl⟩

/-! ### A small file -/

def leList (width value : ℕ) : List UInt8 := ofFn (leBytes width value)

def programHeader (s : Segment) : List UInt8 :=
  leList 4 1 ++ leList 4 7 ++ leList 8 s.offset ++ leList 8 s.vaddr ++ leList 8 0 ++ leList 8 s.filesz ++
    leList 8 s.memsz ++ leList 8 0

/-- A file of headers only. -/
def smallFile (entry : ℕ) (segments : List Segment) : List UInt8 :=
  [0x7F, 0x45, 0x4C, 0x46, 2] ++ replicate 11 0 ++ leList 2 2 ++ leList 2 0x3E ++ leList 4 1 ++
    leList 8 entry ++ leList 8 64 ++ leList 8 0 ++ leList 4 0 ++ leList 2 64 ++ leList 2 56 ++
    leList 2 segments.length ++ replicate 6 0 ++ segments.flatMap programHeader

example : header (smallFile 0x1000 [⟨0, 0x1000, 4, 8⟩]) = .ok ⟨0x1000, 64, 56, 1⟩ := by decide +kernel

example : segment (smallFile 0x1000 [⟨0, 0x1000, 4, 8⟩]) 64 = .ok (some ⟨0, 0x1000, 4, 8⟩) := by decide +kernel

end Ferros.Exec
