/-
**Paths and 8.3 names of `fs/fat.rs`.**

A Rust `&str` is modelled by its bytes: the driver only splits at `/` and `.`, which are single
bytes of UTF-8, and compares bytes. The one place where the driver decodes bytes is
`name_83_to_string`, whose result is a list of characters here.

* `shortName83` — the 11-byte form a component is stored and looked up under.
* `name83ToString` — the text a listing prints for an 11-byte name.
* `components` — the non-empty parts of a path, as `resolve_parent` walks them.
* `shortName83_ne_dot`, `shortName83_ne_dotdot` — no component is looked up under the name of a
  `.` or `..` slot: the part before the first dot has no dot in it.
-/

import Ferros.Lib.Bytes
import Mathlib.Data.List.DropRight

namespace Ferros.Fat

open Lib List Option

/-- The bytes of a string. -/
abbrev Bytes := List UInt8

/-- An 11-byte directory name. -/
abbrev Name := Block 11

/-- `b' '`. -/
def space : UInt8 := 0x20

/-- `b'.'`. -/
def dot : UInt8 := 0x2E

/-- `b'/'`. -/
def slash : UInt8 := 0x2F

def toAsciiUppercase (byte : UInt8) : UInt8 :=
  if 0x61 ≤ byte ∧ byte ≤ 0x7A then byte - 0x20 else byte

/-- The part before the first dot: the first piece of `splitn(2, '.')`. -/
def baseOf (name : Bytes) : Bytes := name.takeWhile (· != dot)

/-- The part after the first dot, empty if there is none. -/
def extOf (name : Bytes) : Bytes := (name.dropWhile (· != dot)).drop 1

/-- `short_name_83`: eight bytes of the base and three of the extension, in upper case and padded
with spaces. -/
def shortName83 (name : Bytes) : Name := fun i =>
  if i.1 < 8 then ((baseOf name)[i.1]?.map toAsciiUppercase).getD space
  else ((extOf name)[i.1 - 8]?.map toAsciiUppercase).getD space

/-- `char::is_whitespace`: the Unicode property `White_Space`. -/
def isWhitespace (c : Char) : Bool :=
  (0x09 ≤ c.toNat && c.toNat ≤ 0x0D) || c.toNat == 0x20 || c.toNat == 0x85 || c.toNat == 0xA0 ||
    c.toNat == 0x1680 || (0x2000 ≤ c.toNat && c.toNat ≤ 0x200A) || c.toNat == 0x2028 ||
    c.toNat == 0x2029 || c.toNat == 0x202F || c.toNat == 0x205F || c.toNat == 0x3000

/-- `core::str::from_utf8(bytes).unwrap_or("").trim_end()`. -/
def textOf (bytes : Bytes) : List Char :=
  (((ByteArray.mk bytes.toArray).utf8Decode?.map Array.toList).getD []).rdropWhile isWhitespace

def name83ToString (name : Name) : List Char :=
  let base := textOf (ofFn (slice name 0 8 (by decide)))
  let ext := textOf (ofFn (slice name 8 3 (by decide)))
  if ext.isEmpty then base else base ++ '.' :: ext

/-- The name of a `.` slot, `b".          "`. -/
def dotName : Name := fun i => if i.1 < 1 then dot else space

/-- The name of a `..` slot, `b"..         "`. -/
def dotdotName : Name := fun i => if i.1 < 2 then dot else space

/-- `str::trim_matches('/')`. -/
def trimSlashes (path : Bytes) : Bytes :=
  (path.dropWhile (· == slash)).rdropWhile (· == slash)

/-- `split('/').filter(|c| !c.is_empty())` of the trimmed path. -/
def components (path : Bytes) : List Bytes :=
  ((trimSlashes path).splitOn slash).filter fun comp => !comp.isEmpty

/-! ### No component is looked up as a dot slot -/

variable {name path comp : Bytes} {byte target sep : UInt8}

theorem mem_baseOf (mem : byte ∈ baseOf name) : byte ∈ name ∧ byte ≠ dot := by
  have notDot := mem_takeWhile_imp mem
  exact ⟨(List.takeWhile_prefix _).subset mem, by simpa using notDot⟩

/-- Upper-casing produces a byte below the letters only from that byte. -/
theorem eq_of_toAsciiUppercase_eq (low : target < 0x41) (same : toAsciiUppercase byte = target) :
    byte = target := by
  unfold toAsciiUppercase at same
  split at same
  · rename_i letter
    obtain ⟨first, last⟩ := letter
    have value := congrArg UInt8.toNat same
    rw [UInt8.le_iff_toNat_le] at first last
    rw [UInt8.lt_iff_toNat_lt] at low
    simp only [UInt8.toNat_sub, UInt8.reduceToNat] at value first last low
    omega
  · exact same

/-- A first byte below the letters, other than the padding, is a byte of the base. -/
theorem mem_baseOf_of_shortName83_zero (low : target < 0x41) (notPad : target ≠ space)
    (same : shortName83 name 0 = target) : target ∈ baseOf name := by
  unfold shortName83 at same
  rw [if_pos (by decide)] at same
  cases first : (baseOf name)[0]? with
  | none =>
    simp only [Fin.val_zero, first, map_none, getD_none] at same
    exact absurd same.symm notPad
  | some byte =>
    simp only [Fin.val_zero, first, map_some, getD_some] at same
    rw [← eq_of_toAsciiUppercase_eq low same]
    exact mem_of_getElem? first

/-- The first byte of a short name is never a dot. -/
theorem shortName83_zero_ne_dot (name : Bytes) : shortName83 name 0 ≠ dot := fun same =>
  (mem_baseOf (mem_baseOf_of_shortName83_zero (by decide) (by decide) same)).2 rfl

theorem shortName83_ne_dot (name : Bytes) : shortName83 name ≠ dotName := fun same =>
  shortName83_zero_ne_dot name (by rw [same]; rfl)

theorem shortName83_ne_dotdot (name : Bytes) : shortName83 name ≠ dotdotName := fun same =>
  shortName83_zero_ne_dot name (by rw [same]; rfl)

/-- The short name of a NUL-free component does not begin like an end mark. -/
theorem shortName83_zero_ne_zero (clean : (0 : UInt8) ∉ name) : shortName83 name 0 ≠ 0 := fun same =>
  clean (mem_baseOf (mem_baseOf_of_shortName83_zero (by decide) (by decide) same)).1

/-- The pieces hold what the separators leave. -/
theorem flatten_splitOn (path : Bytes) (sep : UInt8) : (path.splitOn sep).flatten = path.filter (· != sep) := by
  induction path with
  | nil => rfl
  | cons head rest ih =>
    rw [splitOn_cons_eq_if_modifyHead, filter_cons]
    split
    · rename_i isSep
      rw [if_neg (by simpa using isSep), flatten_cons, nil_append, ih]
    · rename_i other
      rw [if_pos (by simpa using other)]
      cases pieces : rest.splitOn sep with
      | nil => exact absurd pieces (splitOn_ne_nil _ _)
      | cons piece more =>
        rw [pieces] at ih
        rw [← ih]
        rfl

theorem mem_of_mem_splitOn (mem : comp ∈ path.splitOn sep) (inside : byte ∈ comp) : byte ∈ path := by
  have inPieces := mem_flatten_of_mem mem inside
  rw [flatten_splitOn] at inPieces
  exact mem_of_mem_filter inPieces

/-- Trimming takes away empty pieces only. -/
theorem components_eq_filter (path : Bytes) :
    components path = (path.splitOn slash).filter fun comp => !comp.isEmpty := by
  have front : ∀ path : Bytes, ((path.dropWhile (· == slash)).splitOn slash).filter
      (fun comp => !comp.isEmpty) = (path.splitOn slash).filter fun comp => !comp.isEmpty := by
    intro path
    induction path with
    | nil => rfl
    | cons head rest ih =>
      rw [dropWhile_cons, splitOn_cons_eq_if_modifyHead]
      split
      · exact ih
      · rw [splitOn_cons_eq_if_modifyHead, if_neg ‹_›]
  have back : ∀ path : Bytes, ((path.rdropWhile (· == slash)).splitOn slash).filter
      (fun comp => !comp.isEmpty) = (path.splitOn slash).filter fun comp => !comp.isEmpty := by
    intro path
    induction path using reverseRecOn with
    | nil => rfl
    | append_singleton front last ih =>
      rw [rdropWhile_concat]
      split
      · rename_i isSlash
        rw [beq_iff_eq.mp isSlash, splitOn_append_cons_self, filter_append, ih]
        exact (append_nil _).symm
      · rfl
  rw [components, trimSlashes, back, front]

theorem mem_of_mem_components (mem : comp ∈ components path) : ∀ byte ∈ comp, byte ∈ path := by
  intro byte inside
  rw [components_eq_filter] at mem
  exact mem_of_mem_splitOn (mem_of_mem_filter mem) inside

end Ferros.Fat
