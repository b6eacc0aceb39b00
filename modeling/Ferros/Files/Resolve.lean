/-
**Paths as the file system gets them.**

A path argument comes out of user memory, must be UTF-8 and not empty, and is resolved against the working
directory: `normalize` leaves no empty component, no `.` and no `..`.

* `pathArg` — the path argument of `open`, `mkdir`, `unlink` and `rmdir`.
-/

import Ferros.Fat.Printing
import Ferros.Files.Private

namespace Ferros.Files

open List

open Fat (Bytes components PlainPath)

/-! ### The argument -/

/-- `core::str::from_utf8(bytes).is_ok()` -/
def isUtf8 (bytes : List UInt8) : Bool := (ByteArray.mk bytes.toArray).utf8Decode?.isSome

/-- `path_arg`; `open` and `mkdir` begin the same way. The path is what can be read from user memory, or an
errno. -/
def pathArg (key : Key) (path : Except ℤ (List UInt8)) (r : Registry) : Except ℤ (List UInt8) × Registry :=
  match path with
  | .error e => (.error e, r)
  | .ok path =>
    if !isUtf8 path then (.error ENOENT, r)
    else if path = [] then (.error ENOENT, r)
    else
      let (resolved, r) := resolvePath key path r
      (.ok resolved, r)

/-! ### Resolved paths -/

/-- What `normalize` keeps. -/
theorem mem_collapse {parts : List (List UInt8)} {part : List UInt8} (kept : part ∈ collapse parts) :
    part ∈ parts ∧ part ≠ [] ∧ part ≠ [0x2E] ∧ part ≠ [0x2E, 0x2E] := by
  suffices all : ∀ comps : List (List UInt8),
      (∀ comp ∈ comps, comp ∈ parts ∧ comp ≠ [] ∧ comp ≠ [0x2E] ∧ comp ≠ [0x2E, 0x2E]) →
      ∀ rest : List (List UInt8), rest ⊆ parts →
        ∀ part ∈ rest.foldl (fun comps part =>
          if part = [] ∨ part = [0x2E] then comps
          else if part = [0x2E, 0x2E] then comps.dropLast
          else comps ++ [part]) comps,
        part ∈ parts ∧ part ≠ [] ∧ part ≠ [0x2E] ∧ part ≠ [0x2E, 0x2E] by
    exact all [] (forall_mem_nil _) parts (Subset.refl _) part kept
  intro comps good rest inside
  induction rest generalizing comps with
  | nil => exact good
  | cons head rest ih =>
    obtain ⟨here, later⟩ := cons_subset.mp inside
    rw [foldl_cons]
    refine ih _ ?_ later
    split
    · exact good
    · rename_i kept
      split
      · exact fun comp mem => good comp (mem_of_mem_dropLast mem)
      · rename_i notDots
        intro comp mem
        rcases mem_append.mp mem with earlier | now
        · exact good comp earlier
        · rw [mem_singleton.mp now]
          exact ⟨here, fun empty => kept (.inl empty), fun dot => kept (.inr dot), notDots⟩

theorem slash_notMem_of_mem_splitOn {path piece : List UInt8} (mem : piece ∈ path.splitOn slash) :
    slash ∉ piece := by
  intro inside
  have inPieces := mem_flatten_of_mem mem inside
  rw [Fat.flatten_splitOn] at inPieces
  exact absurd (mem_filter.mp inPieces).2 (by decide)

/-- **The components of a resolved path** are the parts that `normalize` kept. -/
theorem components_normalize (path : List UInt8) :
    components (normalize path) = collapse (path.splitOn slash) := by
  rw [Fat.components_eq_filter, normalize]
  have first : (slash :: intercalate [slash] (collapse (path.splitOn slash))).splitOn Fat.slash =
      [] :: (intercalate [slash] (collapse (path.splitOn slash))).splitOn slash :=
    splitOn_cons_eq_if_modifyHead ..
  rw [first]
  by_cases none : collapse (path.splitOn slash) = []
  · rw [none]
    rfl
  · rw [splitOn_intercalate slash (fun comp kept =>
      slash_notMem_of_mem_splitOn (mem_collapse kept).1) none]
    refine (filter_cons_of_neg (by decide)).trans (filter_eq_self.mpr fun comp kept => ?_)
    simpa using (mem_collapse kept).2.1

theorem mem_normalize {path : List UInt8} {byte : UInt8} (mem : byte ∈ normalize path) (notSlash : byte ≠ slash)
    : byte ∈ path := by
  obtain ⟨comp, inside, inComp⟩ := Fat.exists_component_of_mem mem notSlash
  rw [components_normalize] at inside
  exact Fat.mem_of_mem_splitOn (mem_collapse inside).1 inComp

/-- **A resolved path is plain** if its bytes are printable. -/
theorem plain_of_printable {path : List UInt8}
    (printable : ∀ comp ∈ components (normalize path), ∀ byte ∈ comp, 0x21 ≤ byte.toNat ∧ byte.toNat ≤ 0x7E) :
    PlainPath (normalize path) := by
  intro comp inside
  have kept := inside
  rw [components_normalize] at kept
  obtain ⟨_, _, notDot, notDots⟩ := mem_collapse kept
  exact ⟨printable comp inside, notDot, notDots⟩

variable {key : Key} {path : Except ℤ (List UInt8)} {r : Registry} {resolved given : List UInt8}

/-- A path argument that is accepted is a normal one, with bytes of the path and of the working
directory. -/
theorem pathArg_ok (accepted : (pathArg key path r).1 = .ok resolved) :
    ∃ given whole, path = .ok given ∧ resolved = normalize whole ∧
      ∀ byte ∈ whole, byte = slash ∨ byte ∈ given ∨ byte ∈ (r.proc key).cwd := by
  unfold pathArg at accepted
  cases path with
  | error e => cases accepted
  | ok given =>
    simp only at accepted
    split at accepted
    · cases accepted
    · split at accepted
      · cases accepted
      · unfold resolvePath at accepted
        split at accepted
        · cases accepted
          exact ⟨given, given, rfl, rfl, fun byte mem => .inr (.inl mem)⟩
        · cases accepted
          refine ⟨given, _, rfl, rfl, fun byte mem => ?_⟩
          unfold combine at mem
          split at mem
          · exact .inr (mem_append.mp mem).symm
          · rw [append_assoc, mem_append, mem_append, mem_singleton] at mem
            tauto

/-- A path that can be read is refused as one that names nothing. -/
theorem pathArg_error {e : ℤ} (refused : (pathArg key (.ok given) r).1 = .error e) : e = ENOENT := by
  simp only [pathArg] at refused
  split at refused
  · cases refused
    rfl
  · split at refused
    · cases refused
      rfl
    · cases refused

/-- Looking at the argument leaves every process and what they share as it was. -/
theorem pathArg_registry : (pathArg key path r).2.shared = r.shared ∧
    ∀ other, (pathArg key path r).2.proc other = r.proc other := by
  unfold pathArg
  cases path with
  | error e => exact ⟨rfl, fun _ => rfl⟩
  | ok given =>
    simp only
    split
    · exact ⟨rfl, fun _ => rfl⟩
    · split
      · exact ⟨rfl, fun _ => rfl⟩
      · unfold resolvePath
        split
        · exact ⟨rfl, fun _ => rfl⟩
        · exact ⟨rfl, fun other => proc_put_proc r key other⟩

theorem clean_of_pathArg (accepted : (pathArg key path r).1 = .ok resolved)
    (clean : ∀ given, path = .ok given → (0 : UInt8) ∉ given) (cwd : (0 : UInt8) ∉ (r.proc key).cwd) :
    (0 : UInt8) ∉ resolved := by
  obtain ⟨given, whole, rfl, rfl, bytes⟩ := pathArg_ok accepted
  intro mem
  rcases bytes 0 (mem_normalize mem (by decide)) with slash | given | inCwd
  · exact absurd slash (by decide)
  · exact clean _ rfl given
  · exact cwd inCwd

end Ferros.Files
