/-
**File positions as allocation sizes.**

`lseek` accepts every position up to `i64::MAX`, and `write` resizes the buffer of the file to the position
plus the number of bytes. A length above `isize::MAX` is a panic of `Vec::resize`.

* `PosOp.perform` — a call on a writable file, with the panic as "no next state".
* `resize_fits_iff` — **no call of a sequence panics exactly if the arithmetic fits**;
  `resize_overflows` — one seek and one byte are enough.
-/

import Ferros.Files.Handle

namespace Ferros.Files

open Lib List Option

/-- `isize::MAX` -/
def isizeMax : ℕ := 2 ^ 63 - 1

/-- `lseek` and `write` of an accessible buffer. -/
inductive PosOp
  | lseek (offset : ℤ) (whence : Whence)
  | write (bytes : List UInt8)

/-- `Vec::resize` to `stop`, as `write` calls it when the buffer is shorter. -/
def resizePanics (f : OpenFile) (stop : ℕ) : Bool := f.data.length < stop ∧ isizeMax < stop

/-- A call on a descriptor; `none` is the panic of `resize`. -/
def PosOp.perform (key : Key) (fd : ℕ) (op : PosOp) (r : Registry) : Option Registry :=
  match op with
  | .lseek offset whence => some (sysLseek key fd offset whence r).2
  | .write bytes =>
    match fileAt key fd r with
    | some f =>
      if f.writable && !f.isDir && resizePanics f (f.offset + bytes.length) then none
      else some (sysWrite key fd (.bytes bytes) r).2
    | none => some (sysWrite key fd (.bytes bytes) r).2

/-- The position after a seek in a file of `length` bytes. -/
def seekPos (pos length : ℕ) (offset : ℤ) (whence : Whence) : ℕ :=
  let base : Option ℤ := match whence with
    | .set => some 0
    | .cur => some pos
    | .fromEnd => some length
    | .other => none
  match base with
  | some base => if 0 ≤ base + offset ∧ base + offset < 2 ^ 63 then (base + offset).toNat else pos
  | none => pos

/-- **Every write of a sequence ends at or below `isize::MAX`**, from a position and a length on. -/
def Fits : ℕ → ℕ → List PosOp → Prop
  | _, _, [] => True
  | pos, length, .lseek offset whence :: rest => Fits (seekPos pos length offset whence) length rest
  | pos, length, .write bytes :: rest =>
    pos + bytes.length ≤ isizeMax ∧
      Fits (pos + bytes.length) (max length (pos + bytes.length)) rest

theorem seekFile_eq (f : OpenFile) (offset : ℤ) (whence : Whence) : (seekFile f offset whence).2 =
      { f with offset := seekPos f.offset f.data.length offset whence } := by
  unfold seekFile seekPos seekBase
  cases whence <;> simp only
  all_goals split <;> rfl

theorem length_writeFile (f : OpenFile) (bytes : List UInt8) :
    (writeFile f bytes).data.length = max f.data.length (f.offset + bytes.length) := by
  unfold writeFile
  simp only [length_append, length_take, length_drop, length_replicate]
  omega

variable {key : Key} {fd : ℕ}

/-- **No write of a sequence makes `resize` panic exactly if the positions fit**, for every writable open
file and every sequence of seeks and writes. -/
theorem resize_fits_iff {r : Registry} {f : OpenFile} (isOpen : fileAt key fd r = some f)
    (writable : f.writable = true) (notDir : f.isDir = false) (small : f.data.length ≤ isizeMax)
    (ops : List PosOp) : replay (PosOp.perform key fd) ops r ≠ none ↔ Fits f.offset f.data.length ops := by
  induction ops generalizing r f with
  | nil => exact iff_of_true (some_ne_none r) trivial
  | cons op rest ih =>
    cases op with
    | lseek offset whence =>
      have left := (sysLseek_file isOpen offset whence).2
      rw [seekFile_eq] at left
      exact ih left writable notDir small
    | write bytes =>
      have ran : PosOp.perform key fd (.write bytes) r =
          if resizePanics f (f.offset + bytes.length) then none
          else some (sysWrite key fd (.bytes bytes) r).2 := by
        simp only [PosOp.perform, isOpen, writable, notDir, Bool.not_false, Bool.true_and]
      by_cases fits : f.offset + bytes.length ≤ isizeMax
      · have calm : resizePanics f (f.offset + bytes.length) = false := by
          rw [resizePanics, decide_eq_false_iff_not]
          omega
        obtain ⟨-, left⟩ := sysWrite_file isOpen writable notDir bytes
        have later := ih left writable notDir (by rw [length_writeFile]; omega)
        rw [length_writeFile] at later
        rw [replay, ran, calm]
        exact later.trans (and_iff_right fits).symm
      · have panics : resizePanics f (f.offset + bytes.length) = true := by
          rw [resizePanics, decide_eq_true_iff]
          omega
        rw [replay, ran, panics]
        exact iff_of_false (fun resized => resized rfl) fun both => fits both.1

/-- An empty file, open for writing as descriptor 0 of process 7. -/
def oneFile : Registry :=
  ⟨Finmap.singleton 7 ⟨[some (.file ⟨[0x2F, 0x41], [], 0, true, false, false⟩)], [0x2F], userHeapBase⟩,
    ⟨[], [], [], false⟩⟩

theorem resize_fits_iff_one : replay (PosOp.perform 7 0) [.lseek 3 .set, .write [1, 2]] oneFile ≠ none :=
  (resize_fits_iff (f := ⟨[0x2F, 0x41], [], 0, true, false, false⟩) rfl rfl rfl (by decide) _).mpr
    ⟨by decide +kernel, trivial⟩

/-- **A seek to `i64::MAX` and one byte.** -/
theorem resize_overflows : replay (PosOp.perform 7 0) [.lseek (2 ^ 63 - 1) .set, .write [0]] oneFile = none :=
  rfl

end Ferros.Files
