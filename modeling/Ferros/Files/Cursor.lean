/-
**An open file as a byte array with a cursor.**

A descriptor on a regular file holds the whole content in memory and writes it back at `close`. The reference
model is an array of bytes with a cursor; the calls on the descriptor answer as it does, and what `close`
writes is what the model holds.

* `Cursor`, `Cursor.perform` — the reference model; `Cursor.overwrite` — what a write makes of the bytes, byte
  by byte.
* `file_refines_cursor` — **an open regular file refines it**, from `open` to `close`.
* `length_after_calls` — how long the writes of a sequence of calls make it.
-/

import Ferros.Files.Open
import Ferros.Files.Position

namespace Ferros.Files

open Lib List Option
open Fat (Bytes Fat32 Sector BlkError components namesOf marked)

variable {key : Key} {fd flags : ℕ} {name content : Bytes} {vol : Fat32}

/-! ### The reference model -/

/-- The calls on a descriptor, with accessible buffers. -/
inductive FileOp
  | lseek (offset : ℤ) (whence : Whence)
  | read (count : ℕ)
  | write (bytes : List UInt8)

/-- **Bytes with a cursor**; `written` says whether anything was written. -/
structure Cursor where
  bytes : List UInt8
  pos : ℕ
  written : Bool
  deriving DecidableEq, Repr

namespace Cursor

/-- The bytes after a write at a position: the new ones where they go, zeros in a gap before them. -/
def overwrite (bytes : List UInt8) (pos : ℕ) (new : List UInt8) : List UInt8 :=
  (range (max bytes.length (pos + new.length))).map fun i =>
    if pos ≤ i ∧ i < pos + new.length then new.getD (i - pos) 0 else bytes.getD i 0

/-- Where a seek counts from. -/
def base (c : Cursor) : Whence → Option ℕ
  | .set => some 0
  | .cur => some c.pos
  | .fromEnd => some c.bytes.length
  | .other => none

def seek (c : Cursor) (offset : ℤ) (whence : Whence) : ℤ × Cursor :=
  match c.base whence with
  | none => (-EINVAL, c)
  | some base =>
    if 0 ≤ base + offset then (base + offset, { c with pos := (base + offset).toNat }) else (-EINVAL, c)

/-- The bytes from the cursor to `min(cursor + count, length)`; the cursor moves past them. -/
def read (c : Cursor) (count : ℕ) : (ℤ × List UInt8) × Cursor :=
  let got := (c.bytes.drop c.pos).take count
  ((got.length, got), { c with pos := c.pos + got.length })

def write (c : Cursor) (new : List UInt8) : (ℤ × List UInt8) × Cursor :=
  ((new.length, []), ⟨overwrite c.bytes c.pos new, c.pos + new.length, true⟩)

/-- One call on the model; a descriptor that is not writable refuses writes. -/
def perform (writable : Bool) (op : FileOp) (c : Cursor) : (ℤ × List UInt8) × Cursor :=
  match op with
  | .lseek offset whence =>
    let (value, c) := c.seek offset whence
    ((value, []), c)
  | .read count => c.read count
  | .write bytes => if writable then c.write bytes else ((-EBADF, []), c)

end Cursor

/-! ### The calls -/

/-- The value and the bytes that reach the user; the descriptor of a file never waits. -/
def ReadResult.answer : ReadResult → ℤ × List UInt8
  | .returned value bytes => (value, bytes)
  | .stdin => (0, [])
  | .blocks _ => (0, [])

/-- One call on a descriptor. -/
def FileOp.perform (key : Key) (fd : ℕ) (op : FileOp) (r : Registry) : (ℤ × List UInt8) × Registry :=
  match op with
  | .lseek offset whence =>
    let (value, r) := sysLseek key fd offset whence r
    ((value, []), r)
  | .read count =>
    let (result, r) := sysRead key fd count true r
    (result.answer, r)
  | .write bytes =>
    let (value, r) := sysWrite key fd (.bytes bytes) r
    ((value, []), r)

/-- `close` with the disk: a dirty file is written back, and what `write_file` reports is returned. -/
def closeOn (key : Key) (fd : ℕ) (s : Storage) : Option (ℤ × Storage) :=
  let device := match fileAt key fd s.registry with
    | some f => if f.writable && f.dirty then (exec (Fs.writeFile f.name f.data) s.device).2 else s.device
    | none => s.device
  let reported (f : OpenFile) : Option ℤ := match (exec (Fs.writeFile f.name f.data) s.device).1 with
    | .ok _ => none
    | .error e => some (fatErrno e)
  (sysClose key fd reported s.registry).map fun (value, registry) => (value, ⟨registry, device⟩)

/-! ### One call -/

theorem length_overwrite (bytes new : List UInt8) (pos : ℕ) :
    (Cursor.overwrite bytes pos new).length = max bytes.length (pos + new.length) := by
  rw [Cursor.overwrite, length_map, length_range]

/-- The buffer after a write holds what the model says, byte by byte. -/
theorem writeFile_data (f : OpenFile) (new : List UInt8) :
    (writeFile f new).data = Cursor.overwrite f.data f.offset new := by
  refine ext_getElem ?_ fun i inside inside' => ?_
  · rw [length_writeFile, length_overwrite]
  · rw [length_overwrite] at inside'
    simp only [writeFile, Cursor.overwrite, getElem_map, getElem_range, getElem_append, getElem_take,
      length_take, length_append, length_replicate, getElem_drop, getElem_replicate]
    -- a byte is one of the new ones, or it is an old one or a zero of the gap
    by_cases within : f.offset ≤ i ∧ i < f.offset + new.length
    · rw [if_pos within]
      grind
    · rw [if_neg within]
      grind

/-- Reading past the end gives nothing, wherever the cursor is. -/
theorem drop_min_length (l : List UInt8) (n : ℕ) : l.drop (min n l.length) = l.drop n := by
  rcases le_total n l.length with inside | past
  · rw [min_eq_left inside]
  · rw [min_eq_right past, drop_length, drop_of_length_le past]

/-- The open file that holds what the model holds. -/
def Cursor.fileOf (c : Cursor) (name : Bytes) (writable : Bool) : OpenFile :=
  ⟨name, c.bytes, c.pos, writable, c.written, false⟩

theorem writeFile_fileOf (c : Cursor) (name : Bytes) (new : List UInt8) :
    writeFile (c.fileOf name true) new = (c.write new).2.fileOf name true := by
  have data := writeFile_data (c.fileOf name true) new
  calc writeFile (c.fileOf name true) new
      = ⟨name, (writeFile (c.fileOf name true) new).data, c.pos + new.length, true, true, false⟩ := rfl
    _ = (c.write new).2.fileOf name true := by rw [data]; rfl

theorem seekFile_fileOf {c : Cursor} {offset : ℤ} {whence : Whence} (name : Bytes) (writable : Bool)
    (below : (c.seek offset whence).2.pos < 2 ^ 32) : seekFile (c.fileOf name writable) offset whence =
      ((c.seek offset whence).1, (c.seek offset whence).2.fileOf name writable) := by
  have base : seekBase (c.fileOf name writable) whence = (c.base whence).map Nat.cast := by
    cases whence <;> rfl
  unfold seekFile
  unfold Cursor.seek at below ⊢
  rw [base]
  cases start : c.base whence with
  | none => rfl
  | some b =>
    simp only [start, map_some] at below ⊢
    by_cases inside : 0 ≤ (b : ℤ) + offset
    · rw [if_pos inside] at below ⊢
      have small : (b : ℤ) + offset < 2 ^ 63 := by
        simp only at below
        omega
      rw [if_pos ⟨inside, small⟩]
      rfl
    · rw [if_neg inside, if_neg fun both => inside both.1]

theorem Cursor.seek_bytes (c : Cursor) (offset : ℤ) (whence : Whence) :
    (c.seek offset whence).2.bytes = c.bytes := by
  unfold Cursor.seek
  split
  · rfl
  · split <;> rfl

/-- A descriptor that holds what the model holds. -/
structure Holds (key : Key) (fd : ℕ) (name : Bytes) (writable : Bool) (r : Registry) (c : Cursor) : Prop where
  file : fileAt key fd r = some (c.fileOf name writable)
  length : c.bytes.length < 2 ^ 32

section Step

variable {writable : Bool} {r : Registry} {c : Cursor}

/-- **One call answers as the model does**, as long as the position stays below `2 ^ 32`. -/
theorem Holds.perform (op : FileOp) (holds : Holds key fd name writable r c)
    (below : (c.perform writable op).2.pos < 2 ^ 32) : (op.perform key fd r).1 = (c.perform writable op).1 ∧
      Holds key fd name writable (op.perform key fd r).2 (c.perform writable op).2 := by
  cases op with
  | lseek offset whence =>
    obtain ⟨value, file⟩ := sysLseek_file holds.file offset whence
    rw [seekFile_fileOf name writable below] at value file
    refine ⟨Prod.ext value rfl, file, ?_⟩
    exact (congrArg List.length (c.seek_bytes offset whence)).trans_lt holds.length
  | read count =>
    obtain ⟨value, file⟩ := sysRead_file holds.file count true
    simp only [readFile, Cursor.fileOf, Bool.false_eq_true, if_false, if_true, drop_min_length] at value file
    exact ⟨congrArg ReadResult.answer value, file, holds.length⟩
  | write bytes =>
    cases writable with
    | true =>
      obtain ⟨value, file⟩ := sysWrite_file holds.file rfl rfl bytes
      rw [writeFile_fileOf] at file
      refine ⟨Prod.ext value rfl, file, ?_⟩
      · rw [Cursor.perform, if_pos rfl, Cursor.write, length_overwrite]
        exact max_lt holds.length below
    | false =>
      obtain ⟨value, file⟩ := sysWrite_refused holds.file rfl bytes
      exact ⟨Prod.ext value rfl, file, holds.length⟩

end Step

/-! ### From `open` to `close` -/

section

variable {path : Bytes} {dev dev' : Device Sector BlkError} {f g : OpenFile} (inv : vol.Consistent dev.disk)
  (mounted : vol.Mounted dev.disk) (clean : (0 : UInt8) ∉ path) (visible : marked path = false)
include inv mounted clean visible

theorem emptied_found (opened : emptied path f dev = (.ok g, dev')) :
    g = f ∧ vol.treeOf dev'.disk (namesOf path) = some (.file []) := by
  have runs : Runs False _ (Fs.writeFile path []) dev.disk _ _ := runs_writeEmpty inv mounted clean
  obtain ⟨_, _, outcome⟩ := runs dev rfl False.elim
  unfold emptied at opened
  rcases written : exec (Fs.writeFile path []) dev with ⟨answer, left⟩
  rw [written] at outcome opened
  cases answer with
  | error e => cases opened
  | ok _ =>
    cases opened
    obtain ⟨write, agree⟩ := outcome
    refine ⟨rfl, ?_⟩
    simp only at agree
    rw [(write.consistent_after inv).treeOf_frame agree]
    exact (write.found_iff inv (Fat32.used_of_clean clean write.resolved)).mpr ⟨visible, by decide⟩

/-- **What is opened on a file** is its content, with the cursor at the start or the end. -/
theorem openOn_file (opened : openOn path flags dev = (.ok f, dev'))
    (file : vol.treeOf dev'.disk (namesOf path) = some (.file content)) :
    f = Cursor.fileOf ⟨content, if appends flags then content.length else 0, false⟩ path (writes flags) := by
  have reads : Reads False (Fs.lookup path) dev.disk _ := Fat32.reads_mounted mounted (inv.reads_lookup path)
  obtain ⟨_, disk, right⟩ := reads.outcome
  have found := inv.treeOf_lookupOn path
  unfold openOn at opened
  rcases looked : exec (Fs.lookup path) dev with ⟨answer, middle⟩
  rw [looked] at disk right opened
  simp only at disk right opened
  rw [← disk] at inv mounted found right
  have empty : ∀ {g : OpenFile}, emptied path g middle = (.ok f, dev') →
      f = g ∧ content = [] := by
    intro g emptied
    obtain ⟨same, now⟩ := emptied_found inv mounted clean visible emptied
    cases now.symm.trans file
    exact ⟨same, rfl⟩
  cases answer with
  | ok node =>
    cases node with
    | file existing =>
      simp only at opened
      split at opened
      · obtain ⟨rfl, rfl⟩ := empty opened
        simp [Cursor.fileOf]
      · cases opened
        rw [found, right _ rfl] at file
        cases file
        rfl
    | dir items =>
      simp only at opened
      split at opened
      · cases opened
      · cases opened
        rw [found, right _ rfl] at file
        cases file
  | error e =>
    cases e with
    | notFound =>
      simp only at opened
      split at opened
      · obtain ⟨rfl, rfl⟩ := empty opened
        simp [Cursor.fileOf]
      · cases opened
    | _ => cases opened

end

theorem openOn_error_pos {path : Bytes} {dev : Device Sector BlkError} {e : ℤ}
    (failed : (openOn path flags dev).1 = .error e) : 0 < e := by
  have emptied : ∀ {f dev}, (emptied path f dev).1 = .error e → 0 < e := by
    intro f dev failed
    unfold Files.emptied at failed
    split at failed
    · cases failed
      exact fatErrno_pos _
    · cases failed
  unfold openOn at failed
  split at failed
  · split at failed
    · exact emptied failed
    · cases failed
  · split at failed
    · cases failed
      decide
    · cases failed
  · split at failed
    · exact emptied failed
    · cases failed
      decide
  · cases failed
    exact fatErrno_pos _

section Closing

variable {path : Except ℤ (List UInt8)} {s s' : Storage}

/-- **A descriptor on a file holds its content.** -/
theorem holds_of_sysOpen (inv : vol.Consistent s.device.disk) (mounted : vol.Mounted s.device.disk)
    (accepted : (pathArg key path s.registry).1 = .ok name) (clean : (0 : UInt8) ∉ name)
    (visible : marked name = false) (opened : sysOpen key path flags s = some ((fd : ℤ), s'))
    (file : vol.treeOf s'.device.disk (namesOf name) = some (.file content)) :
    vol.Consistent s'.device.disk ∧ vol.Mounted s'.device.disk ∧ Holds key fd name (writes flags) s'.registry
        ⟨content, if appends flags then content.length else 0, false⟩ := by
  rcases sysOpen_cases opened with ⟨e, refused, _⟩ | ⟨name', accepted', device, registry⟩
  · cases refused.symm.trans accepted
  cases accepted'.symm.trans accepted
  have effect : OpenEffect vol name flags s.device _ := openOn_effect inv mounted clean
  have after : vol.Consistent s'.device.disk := by
    rw [device]
    rcases effect.effect with agree | ⟨_, _, write, agree⟩
    · exact inv.frame agree
    · exact (write.consistent_after inv).frame agree
  refine ⟨after, device ▸ effect.mounted, ?_⟩
  rcases registry with ⟨e, failed, value, _⟩ | ⟨f, opened, alloc⟩
  · have positive := openOn_error_pos failed
    omega
  · have isFile := openOn_file inv mounted clean visible (Prod.ext opened device.symm) file
    have placed := allocCurrent_file key f (pathArg key path s.registry).2
    split at placed
    · have value := congrArg Prod.fst (some.inj (placed.symm.trans alloc))
      have negative : -EMFILE < 0 := by decide
      simp only at value
      omega
    · obtain ⟨fd', fds, inTable, placed⟩ := placed
      obtain ⟨value, registry⟩ := Prod.mk.inj (some.inj (placed.symm.trans alloc))
      obtain rfl := Int.natCast_inj.mp value
      refine ⟨?_, after.length_file_lt file⟩
      rw [← registry, fileAt_eq_some, proc_put, ← isFile]
      exact slotAt_eq_some.mpr (allocFd_eq_some inTable).2

/-- **What `close` writes back** is what the descriptor holds. -/
theorem Holds.closeOn {c : Cursor} (holds : Holds key fd name true s.registry c) (written : c.written)
    (inv : vol.Consistent s.device.disk) (mounted : vol.Mounted s.device.disk) (clean : (0 : UInt8) ∉ name)
    (visible : marked name = false) : ∃ v s', closeOn key fd s = some (v, s') ∧
      (v = 0 → vol.treeOf s'.device.disk (namesOf name) = some (.file c.bytes) ∧
        (s'.device.Faultless → (exec (Fs.readAll name) s'.device).1 = .ok c.bytes)) := by
  have slot := fileAt_eq_some.mp holds.file
  have runs : Runs False _ (Fs.writeFile name c.bytes) s.device.disk _ _ := Fat32.runs_mounted mounted
    (Fat32.runs_writeFile inv (Fat32.used_of_clean clean) c.bytes)
    fun e _ => ⟨Fat32.AgreeOn.refl _ _, False.elim⟩
  have stays : vol.Mounted (exec (Fs.writeFile name c.bytes) s.device).2.disk :=
    mounted.exec (fun vol => vol.writeFile name c.bytes)
      (Fat32.spares_perform inv.sound (.writeFile name c.bytes))
  simp only [Files.closeOn, holds.file, sysClose, slot, dropFd, closeValue, Cursor.fileOf, written,
    Bool.and_self, if_true, bind_eq_bind, bind_some, Option.pure_def, map_some]
  refine ⟨_, _, rfl, fun value => ?_⟩
  cases outcome : (exec (Fs.writeFile name c.bytes) s.device).1 with
  | error e =>
    have positive := fatErrno_pos e
    simp only [outcome, getD_some] at value
    omega
  | ok _ =>
    obtain ⟨write, agree, _⟩ := runs.of_ok False.elim outcome
    have after := write.consistent_after inv
    have image := after.frame agree
    have found : vol.treeOf (exec (Fs.writeFile name c.bytes) s.device).2.disk (namesOf name) =
        some (.file c.bytes) := by
      rw [after.treeOf_frame agree]
      exact (write.found_iff inv (Fat32.used_of_clean clean write.resolved)).mpr ⟨visible, holds.length⟩
    refine ⟨found, fun working => ?_⟩
    have reads : Reads True (Fs.readAll name) (exec (Fs.writeFile name c.bytes) s.device).2.disk _ :=
      Fat32.reads_mounted stays (image.reads_readFile name)
    rw [(reads.exec_eq working).1]
    exact image.readFileOn_of_file found

end Closing

/-- **An open regular file refines bytes with a cursor.** For every file opened under a printable path, and
every sequence of calls on its descriptor whose positions stay below `2 ^ 32`, every value and every byte read
is the model's; and if `close` returns 0 after something was written, the file on the volume is the model's
bytes. -/
theorem file_refines_cursor (vol : Fat32) (key : Key) (path : Except ℤ (List UInt8)) (flags fd : ℕ)
    (s s' : Storage) (inv : vol.Consistent s.device.disk) (mounted : vol.Mounted s.device.disk)
    (name : Bytes) (accepted : (pathArg key path s.registry).1 = .ok name)
    (printable : ∀ comp ∈ components name, ∀ byte ∈ comp, 0x21 ≤ byte.toNat ∧ byte.toNat ≤ 0x7E)
    (opened : sysOpen key path flags s = some ((fd : ℤ), s')) (content : Bytes)
    (file : vol.treeOf s'.device.disk (namesOf name) = some (.file content)) (ops : List FileOp)
    (below : Along (fun c => c.pos < 2 ^ 32) (Cursor.perform (writes flags)) ops
      ⟨content, if appends flags then content.length else 0, false⟩) :
    let model := answers (Cursor.perform (writes flags)) ops
      ⟨content, if appends flags then content.length else 0, false⟩
    let calls := answers (FileOp.perform key fd) ops s'.registry
    calls.1 = model.1 ∧
      (writes flags = true → model.2.written = true →
        ∃ v s'', closeOn key fd { s' with registry := calls.2 } = some (v, s'') ∧
          (v = 0 → vol.treeOf s''.device.disk (namesOf name) = some (.file model.2.bytes) ∧
            (s''.device.Faultless → (exec (Fs.readAll name) s''.device).1 = .ok model.2.bytes))) := by
  obtain ⟨_, whole, _, rfl, _⟩ := pathArg_ok accepted
  have plain := plain_of_printable printable
  obtain ⟨after, stays, holds⟩ := holds_of_sysOpen inv mounted accepted plain.clean plain.not_marked opened file
  obtain ⟨same, finish⟩ := answers_simulates (Holds key fd _ (writes flags))
    (fun op _ _ holds below => holds.perform op below) ops holds below
  refine ⟨same, fun writable written => ?_⟩
  rw [writable] at finish written ⊢
  exact Holds.closeOn (s := { s' with registry := _ }) finish written after stays plain.clean plain.not_marked

/-- The new volume after `open("/A", O_CREAT | O_RDWR)`. -/
def newFile : Storage :=
  ((sysOpen 0 (.ok [slash, 0x41]) 0x42 ⟨Registry.empty, Fat32.workingDevice Fat32.bootDisk⟩).get
    (by decide +kernel)).2

/-- Two bytes past a gap, read back from the start and from the volume. -/
theorem file_refines_cursor_new :
    (answers (FileOp.perform 0 3) [.lseek 1 .set, .write [7, 8], .lseek 0 .set, .read 5] newFile.registry).1 =
        [(1, []), (2, []), (0, []), (3, [0, 7, 8])] ∧
      ∃ v s', closeOn 0 3 { newFile with registry := (answers (FileOp.perform 0 3)
          [.lseek 1 .set, .write [7, 8], .lseek 0 .set, .read 5] newFile.registry).2 } = some (v, s') ∧
        (v = 0 → Fat32.bootVolume.treeOf s'.device.disk (namesOf [slash, 0x41]) = some (.file [0, 7, 8])) := by
  have opened : sysOpen 0 (.ok [slash, 0x41]) 0x42 ⟨Registry.empty, Fat32.workingDevice Fat32.bootDisk⟩ =
      some (((3 : ℕ) : ℤ), newFile) := rfl
  obtain ⟨same, closes⟩ := file_refines_cursor Fat32.bootVolume 0 (.ok [slash, 0x41]) 0x42 3 _ newFile
    Fat32.bootDisk_wellFormed.toConsistent Fat32.bootDisk_mounted [slash, 0x41] (by decide +kernel)
    (by decide +kernel) opened [] (by decide +kernel) [.lseek 1 .set, .write [7, 8], .lseek 0 .set, .read 5]
    ⟨by decide, by decide, by decide, by decide, trivial⟩
  obtain ⟨v, s', closed, found⟩ := closes rfl rfl
  exact ⟨same, v, s', closed, fun zero => (found zero).1⟩

/-! ### The length -/

/-- Where the writes of a sequence of calls end. -/
def Cursor.ends : List FileOp → Cursor → List ℕ
  | [], _ => []
  | .write bytes :: rest, c => (c.pos + bytes.length) :: ends rest (c.write bytes).2
  | op :: rest, c => ends rest (c.perform true op).2

theorem Cursor.length_answers (ops : List FileOp) (c : Cursor) :
    (answers (Cursor.perform true) ops c).2.bytes.length = (c.ends ops).foldl max c.bytes.length := by
  induction ops generalizing c with
  | nil => rfl
  | cons op rest ih =>
    refine (ih (c.perform true op).2).trans ?_
    cases op with
    | lseek offset whence =>
      have same : (c.perform true (.lseek offset whence)).2.bytes = c.bytes := c.seek_bytes offset whence
      rw [same]
      rfl
    | read count => rfl
    | write bytes =>
      have longer : (c.perform true (.write bytes)).2.bytes.length = max c.bytes.length (c.pos + bytes.length) :=
        length_overwrite ..
      rw [longer]
      rfl

/-- **The length of an open file** is the greatest end of its writes, if not what it was, and `close` puts a file
of that length on the volume. An empty write past the end makes the file longer, a seek or a read does not. -/
theorem length_after_calls {s : Storage} {c : Cursor} (inv : vol.Consistent s.device.disk)
    (mounted : vol.Mounted s.device.disk) (clean : (0 : UInt8) ∉ name) (visible : marked name = false)
    (holds : Holds key fd name true s.registry c) (ops : List FileOp)
    (below : Along (fun c => c.pos < 2 ^ 32) (Cursor.perform true) ops c) :
    let length := (c.ends ops).foldl max c.bytes.length
    let calls := (answers (FileOp.perform key fd) ops s.registry).2
    ∃ f, fileAt key fd calls = some f ∧ f.data.length = length ∧ (f.dirty = true →
      ∃ v s', closeOn key fd { s with registry := calls } = some (v, s') ∧
        (v = 0 → ∃ bytes, vol.treeOf s'.device.disk (namesOf name) = some (.file bytes) ∧ bytes.length = length)) := by
  intro length calls
  obtain ⟨_, finish⟩ := answers_simulates (Holds key fd name true)
    (fun op _ _ holds below => holds.perform op below) ops holds below
  refine ⟨_, finish.file, c.length_answers ops, fun written => ?_⟩
  obtain ⟨v, s', closed, found⟩ :=
    Holds.closeOn (s := { s with registry := calls }) finish written inv mounted clean visible
  exact ⟨v, s', closed, fun zero => ⟨_, (found zero).1, c.length_answers ops⟩⟩

/-- An empty write at position 5 of the new file. -/
theorem length_after_calls_empty : ∃ f, fileAt 0 3 (answers (FileOp.perform 0 3)
    [.lseek 5 .set, .write []] newFile.registry).2 = some f ∧ f.data.length = 5 := by
  have opened : sysOpen 0 (.ok [slash, 0x41]) 0x42 ⟨Registry.empty, Fat32.workingDevice Fat32.bootDisk⟩ =
      some (((3 : ℕ) : ℤ), newFile) := rfl
  have file : Fat32.bootVolume.treeOf newFile.device.disk (namesOf [slash, 0x41]) = some (.file []) := by
    decide +kernel
  obtain ⟨inv, mounted, holds⟩ := holds_of_sysOpen Fat32.bootDisk_wellFormed.toConsistent Fat32.bootDisk_mounted
    (by decide +kernel) (by decide +kernel) (by decide +kernel) opened file
  obtain ⟨f, found, length, _⟩ := length_after_calls inv mounted (by decide +kernel) (by decide +kernel) holds
    [.lseek 5 .set, .write []] ⟨by decide, by decide, trivial⟩
  exact ⟨f, found, length⟩

end Ferros.Files
