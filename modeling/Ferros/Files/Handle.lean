/-
**Calls on one open file.**

`fileAt key fd` is the open file behind a descriptor. A call on the descriptor of a file returns what the
operation on the file says, and leaves the file that the operation leaves.

* `sysLseek_file`, `sysRead_file`, `sysWrite_file` — the calls through the descriptor.
-/

import Ferros.Files.Count
import Ferros.Files.Private

namespace Ferros.Files

open Option

variable {key : Key} {fd : ℕ} {r : Registry} {f : OpenFile}

/-- The open file behind a descriptor. -/
def fileAt (key : Key) (fd : ℕ) (r : Registry) : Option OpenFile :=
  match slotAt (r.proc key).fds fd with
  | some (.file f) => some f
  | _ => none

theorem fileAt_eq_some : fileAt key fd r = some f ↔ slotAt (r.proc key).fds fd = some (.file f) := by
  unfold fileAt
  split
  · rename_i g slot
    rw [slot]
    exact ⟨fun same => by rw [some.inj same], fun same => by cases same; rfl⟩
  · rename_i notFile
    exact iff_of_false (some_ne_none f).symm (notFile f)

theorem fileAt_put_proc (r : Registry) : fileAt key fd (r.put key (r.proc key)) = fileAt key fd r := by
  rw [fileAt, proc_put]
  rfl

/-- Replacing the file behind a descriptor. -/
theorem fileAt_put (isOpen : fileAt key fd r = some f) (g : OpenFile) :
    fileAt key fd (r.put key { r.proc key with fds := (r.proc key).fds.set fd (some (.file g)) }) = some g := by
  have slot := slotAt_eq_some.mp (fileAt_eq_some.mp isOpen)
  refine fileAt_eq_some.mpr (slotAt_eq_some.mpr ?_)
  rw [proc_put]
  exact List.getElem?_set_self (List.getElem?_eq_some_iff.mp slot).1

/-- `lseek` on the file itself. -/
def seekFile (f : OpenFile) (offset : ℤ) (whence : Whence) : ℤ × OpenFile :=
  match seekBase f whence with
  | none => (-EINVAL, f)
  | some base =>
    if 0 ≤ base + offset ∧ base + offset < 2 ^ 63 then
      (base + offset, { f with offset := (base + offset).toNat })
    else (-EINVAL, f)

variable (isOpen : fileAt key fd r = some f)
include isOpen

theorem sysLseek_file (offset : ℤ) (whence : Whence) :
    (sysLseek key fd offset whence r).1 = (seekFile f offset whence).1 ∧
      fileAt key fd (sysLseek key fd offset whence r).2 = some (seekFile f offset whence).2 := by
  have slot := fileAt_eq_some.mp isOpen
  have stays := (fileAt_put_proc r).trans isOpen
  unfold sysLseek seekFile
  simp only [slot]
  cases seekBase f whence with
  | none => exact ⟨rfl, stays⟩
  | some base =>
    simp only
    split
    · exact ⟨rfl, fileAt_put isOpen _⟩
    · exact ⟨rfl, stays⟩

theorem sysRead_file (count : ℕ) (copies : Bool) :
    (sysRead key fd count copies r).1 = (readFile f count copies).1 ∧
      fileAt key fd (sysRead key fd count copies r).2 = some (readFile f count copies).2 := by
  have slot := fileAt_eq_some.mp isOpen
  unfold sysRead
  simp only [slot, put_put, true_and]
  exact fileAt_put isOpen _

theorem sysWrite_file (writable : f.writable) (notDir : f.isDir = false) (l : List UInt8) :
    (sysWrite key fd (.bytes l) r).1 = l.length ∧
      fileAt key fd (sysWrite key fd (.bytes l) r).2 = some (writeFile f l) := by
  have slot := fileAt_eq_some.mp isOpen
  unfold sysWrite
  simp only [slot, writable, notDir, put_put]
  exact ⟨rfl, fileAt_put isOpen _⟩

theorem sysWrite_refused (readOnly : f.writable = false) (l : List UInt8) :
    (sysWrite key fd (.bytes l) r).1 = -EBADF ∧ fileAt key fd (sysWrite key fd (.bytes l) r).2 = some f := by
  have slot := fileAt_eq_some.mp isOpen
  unfold sysWrite
  simp only [slot, readOnly]
  exact ⟨rfl, (fileAt_put_proc r).trans isOpen⟩

end Ferros.Files
