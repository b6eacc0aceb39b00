/-
**Normal paths, and the working directory.**

`normalize` is a stack machine over the parts of a path: a name is pushed, two dots pop, and nothing happens
at an empty part or a dot. Two facts carry everything here: the machine on a joined path runs on the parts of
both paths in turn, and on a normal path it pushes every name.

* `normalize_append`, `normalize_normalize` — **`normalize` composes** and is idempotent.
-/

import Ferros.Files.Resolve
import Ferros.Files.Table

namespace Ferros.Files

open Lib List Option

/-! ### The stack machine -/

/-- A name in a normal path. -/
def IsName (part : List UInt8) : Prop :=
  part ≠ [] ∧ slash ∉ part ∧ part ≠ [0x2E] ∧ part ≠ [0x2E, 0x2E]

/-- **A normal path**: the root, or names after single slashes. -/
def IsNormal (path : List UInt8) : Prop :=
  ∃ names, (∀ name ∈ names, IsName name) ∧ path = slash :: intercalate [slash] names

/-- One turn of the loop of `normalize`. -/
def pushPart (comps : List (List UInt8)) (part : List UInt8) : List (List UInt8) :=
  if part = [] ∨ part = [0x2E] then comps
  else if part = [0x2E, 0x2E] then comps.dropLast
  else comps ++ [part]

theorem pushPart_name {comps : List (List UInt8)} {part : List UInt8} (isName : IsName part) :
    pushPart comps part = comps ++ [part] := by
  obtain ⟨nonempty, _, notDot, notDots⟩ := isName
  rw [pushPart, if_neg (not_or.mpr ⟨nonempty, notDot⟩), if_neg notDots]

variable {names comps : List (List UInt8)} {path name path' rest : List UInt8} {key : Key} {r : Registry}

/-- The machine pushes the names of a normal path. -/
theorem foldl_pushPart_names (areNames : ∀ name ∈ names, IsName name) :
    names.foldl pushPart comps = comps ++ names := by
  induction names generalizing comps with
  | nil => rw [foldl_nil, append_nil]
  | cons name rest ih =>
    rw [foldl_cons, pushPart_name (areNames name mem_cons_self),
      ih fun other mem => areNames other (mem_cons_of_mem _ mem), append_assoc, singleton_append]

/-- What the machine leaves for a path. -/
def partsOf (path : List UInt8) : List (List UInt8) := collapse (path.splitOn slash)

theorem normalize_eq (path : List UInt8) : normalize path = slash :: intercalate [slash] (partsOf path) := rfl

/-- **The machine on a joined path**: first the one path, then the parts of the other. -/
theorem partsOf_join (path rest : List UInt8) :
    partsOf (path ++ slash :: rest) = (rest.splitOn slash).foldl pushPart (partsOf path) := by
  rw [partsOf, splitOn_append_cons_self]
  exact foldl_append

theorem isName_of_mem_partsOf (mem : name ∈ partsOf path) : IsName name := by
  obtain ⟨inside, nonempty, notDot, notDots⟩ := mem_collapse mem
  exact ⟨nonempty, slash_notMem_of_mem_splitOn inside, notDot, notDots⟩

/-- **The machine reads back what was printed.** -/
theorem partsOf_print (areNames : ∀ name ∈ names, IsName name) :
    partsOf (slash :: intercalate [slash] names) = names := by
  have split := partsOf_join [] (intercalate [slash] names)
  rw [nil_append] at split
  rw [split]
  by_cases none : names = []
  · rw [none]
    rfl
  · rw [splitOn_intercalate slash (fun name mem => (areNames name mem).2.1) none]
    exact foldl_pushPart_names areNames

theorem partsOf_normalize (path : List UInt8) : partsOf (normalize path) = partsOf path :=
  partsOf_print fun _ mem => isName_of_mem_partsOf mem

theorem normalize_congr (same : partsOf path = partsOf path') : normalize path = normalize path' := by
  rw [normalize_eq, normalize_eq, same]

/-- **`normalize` composes.** -/
theorem normalize_append (path rest : List UInt8) :
    normalize (path ++ slash :: rest) = normalize (normalize path ++ slash :: rest) := by
  refine normalize_congr ?_
  rw [partsOf_join, partsOf_join, partsOf_normalize]

theorem normalize_normalize (path : List UInt8) : normalize (normalize path) = normalize path :=
  normalize_congr (partsOf_normalize path)

theorem isNormal_normalize (path : List UInt8) : IsNormal (normalize path) :=
  ⟨partsOf path, fun _ mem => isName_of_mem_partsOf mem, rfl⟩

/-- Printed names end with a byte of a name. -/
theorem getLast?_intercalate (areNames : ∀ name ∈ names, IsName name) (nonempty : names ≠ []) :
    ∃ name ∈ names, ∃ byte ∈ name, (intercalate [slash] names).getLast? = some byte := by
  induction names with
  | nil => exact absurd rfl nonempty
  | cons name rest ih =>
    cases rest with
    | nil =>
      have filled : name ≠ [] := (areNames name mem_cons_self).1
      refine ⟨name, mem_cons_self, name.getLast filled, getLast_mem filled, ?_⟩
      rw [intercalate_singleton, getLast?_eq_some_getLast filled]
    | cons second rest =>
      obtain ⟨last, mem, byte, inLast, ends⟩ :=
        ih (fun other mem => areNames other (mem_cons_of_mem _ mem)) (cons_ne_nil _ _)
      refine ⟨last, mem_cons_of_mem _ mem, byte, inLast, ?_⟩
      rw [intercalate_cons_cons, getLast?_append, ends]
      rfl

/-- Only the root ends with a slash. -/
theorem IsNormal.getLast (normal : IsNormal path) : path = [slash] ∨ path.getLast? ≠ some slash := by
  obtain ⟨names, areNames, rfl⟩ := normal
  by_cases none : names = []
  · rw [none]
    exact .inl rfl
  · obtain ⟨name, mem, byte, inName, ends⟩ := getLast?_intercalate areNames none
    refine .inr fun slashed => (areNames name mem).2.1 ?_
    rw [getLast?_cons, ends] at slashed
    obtain rfl : byte = slash := some.inj slashed
    exact inName

/-! ### Resolving -/

/-- Joining with the slash that is missing, or without one, makes no difference. -/
theorem normalize_combine (cwd path : List UInt8) :
    normalize (combine cwd path) = normalize (cwd ++ slash :: path) := by
  rw [combine]
  split
  · rename_i ends
    obtain ⟨front, rfl⟩ := getLast?_eq_some_iff.mp ends
    refine normalize_congr ?_
    rw [partsOf_join, append_assoc, singleton_append, partsOf_join, partsOf_join]
    rfl
  · rw [append_assoc, singleton_append]

/-- **What a path resolves to**: an absolute one from the root on, another one from the working directory on. -/
theorem resolvePath_eq (key : Key) (path : List UInt8) (r : Registry) : (resolvePath key path r).1 =
      normalize ((if path.head? = some slash then [] else (r.proc key).cwd) ++ slash :: path) := by
  rw [resolvePath]
  split
  · refine normalize_congr ?_
    rw [partsOf_join]
    rfl
  · exact normalize_combine _ _

/-- **A relative path after `chdir`** is the path behind the argument of `chdir` before it. -/
theorem resolvePath_chdir {lookup : List UInt8 → Option ℤ} (nonempty : path ≠ [])
    (isDirectory : lookup (resolvePath key path r).1 = none) (relative : rest.head? ≠ some slash) :
    (resolvePath key rest (sysChdir key (.ok path) lookup r).2).1 =
      (resolvePath key (path ++ slash :: rest) r).1 := by
  have entered : ((sysChdir key (.ok path) lookup r).2.proc key).cwd = (resolvePath key path r).1 := by
    obtain ⟨first, path, rfl⟩ := exists_cons_of_ne_nil nonempty
    simp only [sysChdir, isDirectory]
    rw [proc_put]
  have sameHead : (path ++ slash :: rest).head? = path.head? := head?_append_of_ne_nil _ nonempty
  rw [resolvePath_eq key rest, if_neg relative, entered, resolvePath_eq key path, resolvePath_eq, sameHead,
    ← normalize_append, append_assoc, cons_append]

/-! ### Working directories over runs -/

theorem isNormal_root : IsNormal [slash] := ⟨[], forall_mem_nil _, rfl⟩

/-- **Every stored working directory is a normal path.** -/
theorem isNormal_cwd {l : Logged} (reached : registryRuns.Reached l) (key : Key) :
    IsNormal (l.registry.proc key).cwd := by
  refine every_of_reached (P := fun p => IsNormal p.cwd) isNormal_root
    (fun p p' normal evolves => ?_) reached key
  cases evolves with
  | table _ => exact normal
  | cwd path => exact isNormal_normalize path
  | brk _ => exact normal

/-- **Path normalization composes**, is idempotent and has normal results; hence every working directory that
calls of any processes reach is normal, and after `chdir` a relative path leads where the path behind the
argument of `chdir` led before. -/
theorem normalize_composes : (∀ a b, normalize (a ++ slash :: b) = normalize (normalize a ++ slash :: b)) ∧
    (∀ a, normalize (normalize a) = normalize a) ∧
    (∀ a, IsNormal (normalize a) ∧ (normalize a = [slash] ∨ (normalize a).getLast? ≠ some slash)) ∧
    ∀ l, registryRuns.Reached l → ∀ key, IsNormal (l.registry.proc key).cwd ∧
      ∀ path lookup, path ≠ [] → lookup (resolvePath key path l.registry).1 = none →
        (sysChdir key (.ok path) lookup l.registry).1 = 0 ∧ ∀ rest : List UInt8, rest.head? ≠ some slash →
          (resolvePath key rest (sysChdir key (.ok path) lookup l.registry).2).1 =
            (resolvePath key (path ++ slash :: rest) l.registry).1 := by
  refine ⟨normalize_append, normalize_normalize, fun a => ?_, fun l reached key => ?_⟩
  · exact ⟨isNormal_normalize a, (isNormal_normalize a).getLast⟩
  · refine ⟨isNormal_cwd reached key, fun path lookup nonempty isDirectory => ⟨?_, fun rest relative => ?_⟩⟩
    · obtain ⟨first, path, rfl⟩ := exists_cons_of_ne_nil nonempty
      simp only [sysChdir, isDirectory]
    · exact resolvePath_chdir nonempty isDirectory relative

end Ferros.Files
