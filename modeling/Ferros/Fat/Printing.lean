/-
**Short names and how they are printed.**

A short name is two fields, padded with spaces; it is printed without them. `rmdir` tells an empty directory by
the texts of its entries, so no component may print like a dot slot.

* `short_name_codec` — **a short name is printed so that it is found again**, and which components share one.
* `name83ToString_dotName`, `name83ToString_dotdotName` — the dot slots print as `.` and `..`.
-/

import Ferros.Fat.Names
import Mathlib.Data.List.OfFn

namespace Ferros.Fat

open Lib List

/-! ### ASCII text -/

theorem utf8EncodeChar_ascii (byte : UInt8) (low : byte.toNat < 128) :
    String.utf8EncodeChar (Char.ofUInt8 byte) = [byte] := by
  have checked : ∀ n < 128, String.utf8EncodeChar (Char.ofUInt8 (UInt8.ofNat n)) = [UInt8.ofNat n] := by decide
  have here := checked byte.toNat low
  rwa [UInt8.ofNat_toNat] at here

theorem toByteArray_eq (bytes : Bytes) : ByteArray.mk bytes.toArray = bytes.toByteArray :=
  ByteArray.ext (by rw [data_toByteArray])

variable {bytes path comp part part' base : Bytes} {byte : UInt8} {size : ℕ}

section

variable (ascii : ∀ byte ∈ bytes, byte.toNat < 128)
include ascii

theorem flatMap_utf8EncodeChar : (bytes.map Char.ofUInt8).flatMap String.utf8EncodeChar = bytes := by
  induction bytes with
  | nil => rfl
  | cons byte rest ih =>
    rw [map_cons, flatMap_cons, utf8EncodeChar_ascii byte (ascii byte mem_cons_self),
      ih fun other mem => ascii other (mem_cons_of_mem _ mem)]
    rfl

/-- **The text of ASCII bytes**: their characters, without the white space at the end. -/
theorem textOf_ascii : textOf bytes = (bytes.map Char.ofUInt8).rdropWhile isWhitespace := by
  have encoded : (bytes.map Char.ofUInt8).utf8Encode = ByteArray.mk bytes.toArray := by
    rw [toByteArray_eq, utf8Encode, flatMap_utf8EncodeChar ascii]
  unfold textOf
  rw [← encoded, utf8Decode?_utf8Encode]
  rfl

end

/-! ### The dot slots -/

theorem name83ToString_dotName : name83ToString dotName = ['.'] := by
  have base : ofFn (slice dotName 0 8 (by decide)) = dot :: replicate 7 space := rfl
  have ext : ofFn (slice dotName 8 3 (by decide)) = replicate 3 space := rfl
  unfold name83ToString
  rw [base, ext, textOf_ascii (by simp [dot, space]), textOf_ascii (by simp [space])]
  decide

theorem name83ToString_dotdotName : name83ToString dotdotName = ['.', '.'] := by
  have base : ofFn (slice dotdotName 0 8 (by decide)) = dot :: dot :: replicate 6 space :=
    rfl
  have ext : ofFn (slice dotdotName 8 3 (by decide)) = replicate 3 space := rfl
  unfold name83ToString
  rw [base, ext, textOf_ascii (by simp [dot, space]), textOf_ascii (by simp [space])]
  decide

/-! ### The fields of a short name -/

/-- The bytes from the space to the tilde. -/
def Printable (bytes : Bytes) : Prop := ∀ byte ∈ bytes, 0x20 ≤ byte.toNat ∧ byte.toNat ≤ 0x7E

instance (bytes : Bytes) : Decidable (Printable bytes) := decidableBAll _ bytes

theorem mem_extOf (mem : byte ∈ extOf comp) : byte ∈ comp := (dropWhile_suffix _).subset (mem_of_mem_drop mem)

/-- What is stored of a part. -/
def field (size : ℕ) (part : Bytes) : Block size := fun i => (part[i.1]?.map toAsciiUppercase).getD space

/-- **The part up to case, length and trailing spaces.** -/
def canonical (size : ℕ) (part : Bytes) : Bytes :=
  ((part.take size).map toAsciiUppercase).rdropWhile (· == space)

/-- A name of two parts. -/
def joined (base ext : Bytes) : Bytes := if ext.isEmpty then base else base ++ dot :: ext

theorem toAsciiUppercase_cases (byte : UInt8) : toAsciiUppercase byte = byte ∨
    (0x41 ≤ (toAsciiUppercase byte).toNat ∧ (toAsciiUppercase byte).toNat ≤ 0x5A) := by
  unfold toAsciiUppercase
  split
  · rename_i letter
    obtain ⟨first, last⟩ := letter
    rw [UInt8.le_iff_toNat_le] at first last
    simp only [UInt8.toNat_sub, UInt8.reduceToNat] at first last ⊢
    omega
  · exact .inl rfl

theorem toAsciiUppercase_idem (byte : UInt8) :
    toAsciiUppercase (toAsciiUppercase byte) = toAsciiUppercase byte := by
  rcases toAsciiUppercase_cases byte with same | ⟨low, high⟩
  · rw [same, same]
  · refine if_neg fun letter => ?_
    have first := UInt8.le_iff_toNat_le.mp letter.1
    simp only [UInt8.reduceToNat] at first
    omega

theorem ofFn_field (size : ℕ) (part : Bytes) :
    ofFn (field size part) = (part.take size).map toAsciiUppercase ++ replicate (size - part.length) space := by
  induction size generalizing part with
  | zero => rw [ofFn_zero, take_zero, Nat.zero_sub]; rfl
  | succ size ih =>
    cases part with
    | nil => exact ofFn_const (size + 1) space
    | cons head rest =>
      rw [ofFn_succ, take_succ_cons, map_cons, length_cons, Nat.add_sub_add_right, cons_append, ← ih rest]
      rfl

theorem rdropWhile_field : (ofFn (field size part)).rdropWhile (· == space) = canonical size part := by
  rw [ofFn_field]
  induction size - part.length with
  | zero => rw [replicate_zero, append_nil, canonical]
  | succ n ih => rw [replicate_succ', ← append_assoc, rdropWhile_concat_pos _ _ _ rfl, ih]

/-- **A field is known from its canonical form.** -/
theorem field_eq_iff : field size part = field size part' ↔ canonical size part = canonical size part' := by
  constructor
  · intro same
    rw [← rdropWhile_field, ← rdropWhile_field, same]
  · intro same
    have padded : ∀ part, ofFn (field size part) =
        canonical size part ++ replicate (size - (canonical size part).length) space := by
      intro part
      have split := rdropWhile_append_rtakeWhile (p := (· == space)) (l := ofFn (field size part))
      have pad : (ofFn (field size part)).rtakeWhile (· == space) =
          replicate (size - (canonical size part).length) space := by
        refine eq_replicate_iff.mpr ⟨?_, fun byte mem => ?_⟩
        · have whole := congrArg length split
          rw [length_append, rdropWhile_field, length_ofFn] at whole
          omega
        · have isPad := mem_rtakeWhile_imp mem
          exact eq_of_beq isPad
      rw [pad, rdropWhile_field] at split
      exact split.symm
    refine ofFn_injective ?_
    rw [padded part, padded part', same]

theorem slice_shortName83 (comp : Bytes) :
    slice (shortName83 comp) 0 8 (by decide) = field 8 (baseOf comp) ∧
      slice (shortName83 comp) 8 3 (by decide) = field 3 (extOf comp) := by
  constructor
  · funext i
    unfold slice shortName83
    simp only [Nat.zero_add]
    exact if_pos i.2
  · funext i
    unfold slice shortName83
    simp only [Nat.add_sub_cancel_left]
    exact if_neg (Nat.not_lt.mpr (Nat.le_add_right 8 i))

theorem shortName83_eq_iff (first second : Bytes) : shortName83 first = shortName83 second ↔
    canonical 8 (baseOf first) = canonical 8 (baseOf second) ∧
      canonical 3 (extOf first) = canonical 3 (extOf second) := by
  rw [← field_eq_iff, ← field_eq_iff]
  constructor
  · intro same
    rw [← (slice_shortName83 first).1, ← (slice_shortName83 first).2, same]
    exact slice_shortName83 second
  · rintro ⟨sameBase, sameExt⟩
    funext i
    unfold shortName83
    split
    · rename_i inBase
      exact congrFun sameBase ⟨i.1, inBase⟩
    · exact congrFun sameExt ⟨i.1 - 8, by omega⟩

/-! ### The text of a short name -/

theorem Printable.field (printable : Printable part) : Printable (ofFn (field size part)) := by
  rw [ofFn_field]
  intro byte mem
  rcases mem_append.mp mem with mem | mem
  · obtain ⟨before, inPart, rfl⟩ := mem_map.mp mem
    have range := printable before (mem_of_mem_take inPart)
    rcases toAsciiUppercase_cases before with same | upper
    · rwa [same]
    · omega
  · rw [eq_of_mem_replicate mem]
    decide

theorem Printable.textOf (printable : Printable bytes) :
    textOf bytes = (bytes.rdropWhile (· == space)).map Char.ofUInt8 := by
  rw [textOf_ascii fun byte mem => Nat.lt_of_le_of_lt (printable byte mem).2 (by decide)]
  have blank : ∀ n < 0x7F, 0x20 ≤ n →
      isWhitespace (Char.ofUInt8 (UInt8.ofNat n)) = (UInt8.ofNat n == space) := by decide
  induction bytes using reverseRecOn with
  | nil => rfl
  | append_singleton front byte ih =>
    have range := printable byte (mem_append_right _ mem_cons_self)
    have here := blank byte.toNat (by omega) range.1
    rw [UInt8.ofNat_toNat] at here
    rw [map_append, map_singleton, rdropWhile_concat, rdropWhile_concat, here,
      ih fun other mem => printable other (mem_append_left _ mem)]
    split
    · rfl
    · rw [map_append, map_singleton]

theorem parts_joined (noDot : dot ∉ base) (ext : Bytes) :
    baseOf (joined base ext) = base ∧ extOf (joined base ext) = ext := by
  have before : ∀ byte ∈ base, byte != dot := fun byte mem =>
    bne_iff_ne.mpr fun same => noDot (same ▸ mem)
  unfold baseOf extOf joined
  split
  · rename_i none
    rw [takeWhile_eq_self_iff.mpr before, dropWhile_eq_nil_iff.mpr before, isEmpty_iff.mp none]
    exact ⟨rfl, rfl⟩
  · rw [takeWhile_append_of_pos before, dropWhile_append_of_pos before]
    exact ⟨append_nil base, rfl⟩

theorem dot_notMem_canonical (size : ℕ) (comp : Bytes) : dot ∉ canonical size (baseOf comp) := by
  intro mem
  obtain ⟨byte, inBase, same⟩ := mem_map.mp (( rdropWhile_prefix _ _).subset mem)
  have isDot := eq_of_toAsciiUppercase_eq (by decide) same
  exact (mem_baseOf (mem_of_mem_take inBase)).2 isDot

theorem canonical_idem (size : ℕ) (part : Bytes) : canonical size (canonical size part) = canonical size part := by
  have cut : canonical size part <+: (part.take size).map toAsciiUppercase := rdropWhile_prefix _ _
  have short : (canonical size part).length ≤ size := by
    refine cut.length_le.trans ?_
    rw [length_map]
    exact length_take_le _ _
  have upper : (canonical size part).map toAsciiUppercase = canonical size part := by
    refine (map_congr_left fun byte mem => ?_).trans (map_id _)
    obtain ⟨before, -, rfl⟩ := mem_map.mp (cut.subset mem)
    exact toAsciiUppercase_idem before
  have again := rdropWhile_idempotent (· == space) ((part.take size).map toAsciiUppercase)
  unfold canonical at short upper again ⊢
  rw [take_of_length_le short, upper, again]

theorem Printable.canonical (printable : Printable part) : Printable (canonical size part) := by
  rw [← rdropWhile_field]
  exact fun byte mem => printable.field byte (( rdropWhile_prefix _ _).subset mem)

/-- **What a short name prints**: its parts, with a dot between them if there is an extension. -/
theorem bytes_of_text (printable : Printable comp) :
    (name83ToString (shortName83 comp)).flatMap String.utf8EncodeChar =
      joined (canonical 8 (baseOf comp)) (canonical 3 (extOf comp)) := by
  have inBase : Printable (baseOf comp) := fun byte mem => printable byte (mem_baseOf mem).1
  have inExt : Printable (extOf comp) := fun byte mem => printable byte (mem_extOf mem)
  have text : name83ToString (shortName83 comp) =
      (joined (canonical 8 (baseOf comp)) (canonical 3 (extOf comp))).map Char.ofUInt8 := by
    unfold name83ToString joined
    rw [(slice_shortName83 comp).1, (slice_shortName83 comp).2, inBase.field.textOf, inExt.field.textOf,
      rdropWhile_field, rdropWhile_field]
    simp only [isEmpty_map]
    split
    · rfl
    · rw [map_append, map_cons]
      rfl
  rw [text]
  refine flatMap_utf8EncodeChar fun byte mem => ?_
  have range : 0x20 ≤ byte.toNat ∧ byte.toNat ≤ 0x7E := by
    unfold joined at mem
    split at mem
    · exact inBase.canonical byte mem
    · rcases mem_append.mp mem with mem | mem
      · exact inBase.canonical byte mem
      · rcases mem_cons.mp mem with rfl | mem
        · decide
        · exact inExt.canonical byte mem
  omega

theorem parts_of_text (printable : Printable comp) :
    baseOf ((name83ToString (shortName83 comp)).flatMap String.utf8EncodeChar) = canonical 8 (baseOf comp) ∧
      extOf ((name83ToString (shortName83 comp)).flatMap String.utf8EncodeChar) = canonical 3 (extOf comp) := by
  rw [bytes_of_text printable]
  exact parts_joined (dot_notMem_canonical 8 comp) _

/-- **The codec of 8.3 names.** What a listing prints for the short name of a component is found under that
short name again; and two components have the same short name exactly if their parts before and after the first
dot agree up to case, to the length of the field and to trailing spaces. -/
theorem short_name_codec (comp other : Bytes) (printable : Printable comp) :
    shortName83 ((name83ToString (shortName83 comp)).flatMap String.utf8EncodeChar) = shortName83 comp ∧
    (shortName83 comp = shortName83 other ↔ canonical 8 (baseOf comp) = canonical 8 (baseOf other) ∧
      canonical 3 (extOf comp) = canonical 3 (extOf other)) := by
  refine ⟨?_, shortName83_eq_iff comp other⟩
  obtain ⟨base, ext⟩ := parts_of_text printable
  rw [shortName83_eq_iff, base, ext, canonical_idem, canonical_idem]
  exact ⟨rfl, rfl⟩

/-- `a b .c` and `A B.C`, with a space at the end of the base. -/
theorem short_name_codec_spaces :
    shortName83 [0x61, 0x20, 0x62, 0x20, 0x2E, 0x63] = shortName83 [0x41, 0x20, 0x42, 0x2E, 0x43] :=
  (short_name_codec _ _ (by decide)).2.mpr (by decide)

/-! ### Plain components -/

/-- A component of printable ASCII without spaces that is neither `.` nor `..`. -/
structure Plain (comp : Bytes) : Prop where
  printable : ∀ byte ∈ comp, 0x21 ≤ byte.toNat ∧ byte.toNat ≤ 0x7E
  notDot : comp ≠ [dot]
  notDotdot : comp ≠ [dot, dot]

/-- The paths the tree is about: all components are plain. -/
def PlainPath (path : Bytes) : Prop := ∀ comp ∈ components path, Plain comp

instance (comp : Bytes) : Decidable (Plain comp) :=
  haveI : Decidable (∀ byte ∈ comp, 0x21 ≤ byte.toNat ∧ byte.toNat ≤ 0x7E) :=
    decidableBAll _ comp
  decidable_of_iff ((∀ byte ∈ comp, 0x21 ≤ byte.toNat ∧ byte.toNat ≤ 0x7E) ∧ comp ≠ [dot] ∧
    comp ≠ [dot, dot]) ⟨fun h => ⟨h.1, h.2.1, h.2.2⟩, fun h => ⟨h.1, h.2, h.3⟩⟩

instance (path : Bytes) : Decidable (PlainPath path) :=
  decidableBAll Plain (components path)

/-- A path has no bytes besides slashes and those of its components. -/
theorem exists_component_of_mem (mem : byte ∈ path) (notSlash : byte ≠ slash) :
    ∃ comp ∈ components path, byte ∈ comp := by
  have inPieces : byte ∈ (path.splitOn slash).flatten := by
    rw [flatten_splitOn]
    exact mem_filter.mpr ⟨mem, by simpa using notSlash⟩
  obtain ⟨piece, inside, inPiece⟩ := mem_flatten.mp inPieces
  refine ⟨piece, ?_, inPiece⟩
  rw [components_eq_filter]
  refine mem_filter.mpr ⟨inside, ?_⟩
  cases piece with
  | nil => exact absurd inPiece not_mem_nil
  | cons _ _ => rfl

theorem PlainPath.clean (plain : PlainPath path) : (0 : UInt8) ∉ path := by
  intro mem
  obtain ⟨comp, inPath, inComp⟩ := exists_component_of_mem mem (by decide)
  exact absurd ((plain comp inPath).printable 0 inComp).1 (by decide)

theorem eq_dot_cons_extOf (noBase : baseOf comp = []) (some : comp ≠ []) : comp = dot :: extOf comp := by
  cases comp with
  | nil => exact absurd rfl some
  | cons head tail =>
    unfold baseOf at noBase
    unfold extOf
    rw [takeWhile_cons] at noBase
    split at noBase
    · cases noBase
    · rename_i isDot
      rw [dropWhile_cons, if_neg isDot]
      rw [bne_iff_ne, not_not] at isDot
      rw [isDot]
      rfl

section Plain

variable (plain : Plain comp)
include plain

theorem Plain.isPrintable : Printable comp := fun byte mem => by
  have range := plain.printable byte mem
  omega

/-- The slot of a plain name is neither deleted nor an end mark. -/
theorem Plain.zero_ne : shortName83 comp 0 ≠ 0xE5 ∧ shortName83 comp 0 ≠ 0x00 := by
  have inBase : Printable (baseOf comp) := fun byte mem => plain.isPrintable byte (mem_baseOf mem).1
  have range : 0x20 ≤ (shortName83 comp 0).toNat ∧ (shortName83 comp 0).toNat ≤ 0x7E :=
    inBase.field _ (mem_ofFn.mpr ⟨(0 : Fin 8), rfl⟩)
  constructor
  · intro same
    rw [same] at range
    exact absurd range.2 (by decide)
  · intro same
    rw [same] at range
    exact absurd range.1 (by decide)

/-- A plain part has no spaces to lose. -/
theorem Plain.canonical_eq (inside : part ⊆ comp) :
    canonical size part = (part.take size).map toAsciiUppercase := by
  refine rdropWhile_eq_self_iff.mpr fun some isSpace => ?_
  obtain ⟨byte, mem, upper⟩ := mem_map.mp (getLast_mem some)
  have space := eq_of_toAsciiUppercase_eq (by decide) (upper.trans (eq_of_beq isSpace))
  have range := plain.printable byte (inside (mem_of_mem_take mem))
  rw [space] at range
  exact absurd range.1 (by decide)

/-- **No plain component prints like a dot slot.** -/
theorem Plain.prints :
    name83ToString (shortName83 comp) ≠ ['.'] ∧ name83ToString (shortName83 comp) ≠ ['.', '.'] := by
  have bytes := bytes_of_text plain.isPrintable
  have parts := parts_of_text plain.isPrintable
  constructor
  · intro same
    rw [same] at bytes parts
    rw [← parts.1, ← parts.2] at bytes
    exact absurd bytes (by decide)
  · intro same
    rw [same, plain.canonical_eq fun _ mem => (mem_baseOf mem).1, plain.canonical_eq fun _ => mem_extOf] at parts
    have noBase : (baseOf comp).take 8 = [] := map_eq_nil_iff.mp parts.1.symm
    have some : comp ≠ [] := by
      rintro rfl
      exact nomatch parts.2
    have whole := eq_dot_cons_extOf ((take_eq_nil_iff.mp noBase).resolve_left (by decide)) some
    cases isExt : extOf comp with
    | nil =>
      rw [isExt] at parts
      exact nomatch parts.2
    | cons head tail =>
      rw [isExt] at parts whole
      obtain ⟨isDot, none⟩ := cons.inj parts.2
      have noTail := (take_eq_nil_iff.mp (map_eq_nil_iff.mp none.symm)).resolve_left (by decide)
      rw [eq_of_toAsciiUppercase_eq (by decide) isDot.symm, noTail] at whole
      exact plain.notDotdot whole

end Plain

end Ferros.Fat
