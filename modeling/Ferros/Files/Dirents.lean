/-
**Directory records.**

`open` of a directory serialises its listing into records (`serializeDirents`), and `getdents64` hands out
as many whole records as fit, from a byte cursor that `lseek` may move anywhere.

* `reclenAt_startOf` — the length field of a record, read back where the record starts.
* `getdents_safe_of_careful` — in a run whose seeks land on record starts, or past the end, nothing goes
  wrong; `getdents_unsafe_in_record` — a seek into the middle of a record is enough for both failures.
-/

import Ferros.Files.Handle
import Ferros.Fat.Query

namespace Ferros.Files

open Lib List Option
open Fat (DirItem Name name83ToString textOf)

def ENOTDIR : ℤ := 20

/-! ### Records -/

/-- `HEADER` -/
def direntHeader : ℕ := 19

/-- `item.name.as_bytes()` -/
def nameBytes (item : DirItem) : List UInt8 := item.name.flatMap String.utf8EncodeChar

/-- The length of a record, with the zero after the name and a multiple of 8. -/
def recLen (item : DirItem) : ℕ := (direntHeader + (nameBytes item).length + 1 + 7) / 8 * 8

/-- `DT_DIR` or `DT_REG` -/
def direntType (item : DirItem) : UInt8 := if item.isDir then 4 else 8

/-- The record of item number `i`, which starts at `start`: `d_ino`, `d_off`, `d_reclen`, `d_type` and the
name, filled up with zeros. -/
def dirent (i start : ℕ) (item : DirItem) : List UInt8 :=
  ofFn (leBytes 8 (i + 1)) ++ (ofFn (leBytes 8 (start + recLen item)) ++
    (ofFn (leBytes 2 (recLen item)) ++ (direntType item :: (nameBytes item ++
      replicate (recLen item - direntHeader - (nameBytes item).length) 0))))

/-- The loop of `serialize_dirents`, from item number `i` on. -/
def serializeFrom : ℕ → ℕ → List DirItem → List UInt8
  | _, _, [] => []
  | i, start, item :: rest => dirent i start item ++ serializeFrom (i + 1) (start + recLen item) rest

def serializeDirents (items : List DirItem) : List UInt8 := serializeFrom 0 0 items

/-- What `list_dir` returns: the texts of 8.3 names. -/
def Listed (items : List DirItem) : Prop :=
  ∀ item ∈ items, ∃ name : Name, item.name = name83ToString name

/-! ### `getdents64` -/

/-- The length field of the record at `pos`; `none` is an index out of range. -/
def reclenAt (data : List UInt8) (pos : ℕ) : Option ℕ := do
  let low ← data[pos + 16]?
  let high ← data[pos + 17]?
  return low.toNat + 256 * high.toNat

/-- How the record loop ends. -/
inductive SpanResult
  | done (span : ℕ)
  | panics
  | unfinished
  deriving DecidableEq, Repr

/-- The record loop of `getdents64`, cut off after `fuel` turns. -/
def spanFrom (data : List UInt8) (offset count : ℕ) : ℕ → ℕ → SpanResult
  | 0, _ => .unfinished
  | fuel + 1, span =>
    if offset + span < data.length then
      match reclenAt data (offset + span) with
      | none => .panics
      | some reclen =>
        if count < span + reclen then .done span else spanFrom data offset count fuel (span + reclen)
    else .done span

inductive DentsOutcome
  /-- The value returned, with the bytes that reached the user. -/
  | returned (value : ℤ) (bytes : List UInt8)
  | panicked
  | loops
  deriving DecidableEq, Repr

/-- `getdents64` on a directory. Every turn of the record loop that does not repeat for ever passes at
least one byte, so it takes at most one turn more than the buffer has bytes; a record of length 0 repeats
(`spanFrom_stuck`). -/
def readDents (f : OpenFile) (count : ℕ) (copies : Bool) : DentsOutcome × OpenFile :=
  match spanFrom f.data f.offset count (f.data.length + 1) 0 with
  | .unfinished => (.loops, f)
  | .panics => (.panicked, f)
  | .done 0 => (.returned (if f.data.length ≤ f.offset then 0 else -EINVAL) [], f)
  | .done span =>
    -- `&data[file.offset..file.offset + span]`
    if f.data.length < f.offset + span then (.panicked, f)
    else if copies then
      (.returned span ((f.data.drop f.offset).take span), { f with offset := f.offset + span })
    else (.returned (-EFAULT) [], f)

def sysGetdents64 (key : Key) (fd count : ℕ) (copies : Bool) (r : Registry) : DentsOutcome × Registry :=
  let p := r.proc key
  match slotAt p.fds fd with
  | some (.file f) =>
    if f.isDir then
      let (outcome, f) := readDents f count copies
      (outcome, r.put key { p with fds := p.fds.set fd (some (.file f)) })
    else (.returned (-ENOTDIR) [], r.put key p)
  | some _ => (.returned (-ENOTDIR) [], r.put key p)
  | none => (.returned (-EBADF) [], r.put key p)

variable {count offset span reclen k value i start fuel fd : ℕ} {data front back : List UInt8} {item : DirItem}
  {items : List DirItem} {key : Key} {r r' : Registry} {f : OpenFile}

/-- A turn of the record loop that goes on. -/
theorem spanFrom_turn (inside : offset + span < data.length)
    (field : reclenAt data (offset + span) = some reclen) (fits : span + reclen ≤ count) (fuel : ℕ) :
    spanFrom data offset count (fuel + 1) span = spanFrom data offset count fuel (span + reclen) := by
  rw [spanFrom, if_pos inside, field]
  exact if_neg fits.not_gt

theorem spanFrom_past (past : data.length ≤ offset + span) (fuel : ℕ) :
    spanFrom data offset count (fuel + 1) span = .done span := by
  rw [spanFrom, if_neg past.not_gt]

/-- A record of length 0 keeps the loop where it is. -/
theorem spanFrom_stuck (inside : offset + span < data.length) (field : reclenAt data (offset + span) = some 0)
    (fits : span ≤ count) (fuel : ℕ) : spanFrom data offset count fuel span = .unfinished := by
  induction fuel with
  | zero => rfl
  | succ fuel ih => rw [spanFrom_turn inside field fits, Nat.add_zero, ih]

/-- **What a cursor must not do**: the record loop ends, without an index outside the buffer, and what it
spans lies inside the buffer. -/
def GetdentsSafe (f : OpenFile) (count : ℕ) : Prop :=
  ∃ fuel span, spanFrom f.data f.offset count fuel 0 = .done span ∧
    (span = 0 ∨ f.offset + span ≤ f.data.length)

/-! ### Record starts -/

/-- Where record number `k` starts; past the last one, where the buffer ends. -/
def startOf (items : List DirItem) (k : ℕ) : ℕ := ((items.take k).map recLen).sum

theorem length_dirent (i start : ℕ) (item : DirItem) : (dirent i start item).length = recLen item := by
  have room : direntHeader + (nameBytes item).length ≤ recLen item := by
    unfold recLen
    omega
  unfold dirent
  simp only [length_append, length_ofFn, length_cons, length_replicate]
  unfold direntHeader at room ⊢
  omega

theorem length_serializeFrom (items : List DirItem) (i start : ℕ) :
    (serializeFrom i start items).length = (items.map recLen).sum := by
  induction items generalizing i start with
  | nil => rfl
  | cons item rest ih =>
    rw [serializeFrom, length_append, length_dirent, ih, map_cons, sum_cons]

theorem length_serializeDirents (items : List DirItem) :
    (serializeDirents items).length = startOf items items.length := by
  rw [serializeDirents, length_serializeFrom, startOf, take_length]

theorem length_le_serializeDirents (items : List DirItem) : items.length ≤ (serializeDirents items).length := by
  have lengths : items.length = (items.map recLen).length := (length_map recLen).symm
  rw [serializeDirents, length_serializeFrom, lengths]
  refine length_le_sum_of_one_le _ fun n mem => ?_
  obtain ⟨item, _, rfl⟩ := mem_map.mp mem
  unfold recLen
  omega

theorem startOf_succ (here : items[k]? = some item) :
    startOf items (k + 1) = startOf items k + recLen item := by
  rw [startOf, startOf, take_add_one, here, toList_some, map_append, sum_append, map_singleton, sum_singleton]

theorem startOf_past (past : items[k]? = none) : startOf items k = (serializeDirents items).length := by
  rw [length_serializeDirents, startOf, startOf, take_length, take_of_length_le (getElem?_eq_none_iff.mp past)]

/-- The buffer cut where record number `k` starts. -/
theorem serializeFrom_split (here : items[k]? = some item) (i start : ℕ) :
    ∃ front back start', serializeFrom i start items = front ++ (dirent (i + k) start' item ++ back) ∧
      front.length = startOf items k := by
  induction items generalizing k i start with
  | nil => cases here
  | cons head rest ih =>
    cases k with
    | zero =>
      cases here
      exact ⟨[], _, start, rfl, rfl⟩
    | succ k =>
      obtain ⟨front, back, start', split, length⟩ := ih here (i + 1) (start + recLen head)
      refine ⟨dirent i start head ++ front, back, start', ?_, ?_⟩
      · rw [serializeFrom, split, append_assoc, Nat.add_right_comm, Nat.add_assoc]
      · rw [length_append, length_dirent, length, startOf, startOf, take_succ_cons, map_cons, sum_cons]

theorem toNat_leBytes_two (small : value < 2 ^ 16) :
    (leBytes 2 value 0).toNat + 256 * (leBytes 2 value 1).toNat = value := by
  have low : (leBytes 2 value 0).toNat = value % 256 := by
    simp [leBytes]
  have high : (leBytes 2 value 1).toNat = value / 256 % 256 := by
    simp [leBytes]
  rw [low, high]
  omega

theorem reclenAt_dirent (small : recLen item < 2 ^ 16) :
    reclenAt (front ++ (dirent i start item ++ back)) front.length = some (recLen item) := by
  have field : ∀ j, (front ++ (dirent i start item ++ back))[front.length + (16 + j)]? =
      (ofFn (leBytes 2 (recLen item)) ++ (direntType item :: (nameBytes item ++
        replicate (recLen item - direntHeader - (nameBytes item).length) 0) ++ back))[j]? := by
    intro j
    rw [getElem?_append_right (Nat.le_add_right _ _), Nat.add_sub_cancel_left, dirent]
    simp only [append_assoc]
    rw [getElem?_append_right (by rw [length_ofFn]; omega),
      getElem?_append_right (by rw [length_ofFn, length_ofFn]; omega)]
    congr 1
    simp only [length_ofFn]
    omega
  unfold reclenAt
  rw [show front.length + 16 = front.length + (16 + 0) from rfl, field,
    show front.length + 17 = front.length + (16 + 1) from rfl, field]
  exact congrArg some (toNat_leBytes_two small)

/-! ### Listings have short names -/

theorem length_encode_textOf (bytes : List UInt8) :
    ((textOf bytes).flatMap String.utf8EncodeChar).length ≤ bytes.length := by
  unfold textOf
  cases decoded : (ByteArray.mk bytes.toArray).utf8Decode? with
  | none => exact Nat.zero_le _
  | some chars =>
    obtain ⟨text, same⟩ := ByteArray.isSome_utf8Decode?_iff.mp (isSome_of_eq_some decoded)
    rw [same, utf8Decode?_utf8Encode] at decoded
    cases decoded
    have encoded : (text.flatMap String.utf8EncodeChar).length = bytes.length := by
      have sizes := congrArg ByteArray.size same
      rw [utf8Encode, size_toByteArray] at sizes
      exact sizes.symm
    rw [← rdropWhile_append_rtakeWhile (p := Fat.isWhitespace) (l := text),
      flatMap_append, length_append] at encoded
    exact Nat.le.intro encoded

theorem length_nameBytes_le (listed : Listed items) (mem : item ∈ items) : (nameBytes item).length ≤ 12 := by
  obtain ⟨name, printed⟩ := listed item mem
  have base := length_encode_textOf (ofFn (slice name 0 8 (by decide)))
  have ext := length_encode_textOf (ofFn (slice name 8 3 (by decide)))
  rw [length_ofFn] at base ext
  rw [nameBytes, printed, name83ToString]
  split
  · omega
  · rw [flatMap_append, flatMap_cons, length_append, length_append]
    have dot : (String.utf8EncodeChar '.').length = 1 := rfl
    omega

/-- The length of every record fits into its field. -/
def Measured (items : List DirItem) : Prop := ∀ item ∈ items, recLen item < 2 ^ 16

theorem Listed.measured (listed : Listed items) : Measured items := by
  intro item mem
  have short := length_nameBytes_le listed mem
  unfold recLen direntHeader
  omega

/-! ### The record loop -/

section

variable (measured : Measured items)
include measured

theorem reclenAt_startOf (here : items[k]? = some item) :
    reclenAt (serializeDirents items) (startOf items k) = some (recLen item) := by
  obtain ⟨front, back, start, split, length⟩ := serializeFrom_split here 0 0
  rw [serializeDirents, split, ← length]
  exact reclenAt_dirent (measured _ (mem_of_getElem? here))

omit measured in
theorem startOf_lt (here : items[k]? = some item) : startOf items k < (serializeDirents items).length := by
  obtain ⟨front, back, start, split, length⟩ := serializeFrom_split here 0 0
  rw [serializeDirents, split, length_append, length_append, length_dirent, length]
  unfold recLen
  omega

/-- **The record loop from a record start** ends after at most one turn more than there are records, and
at a record start. -/
theorem spanFrom_aligned (aligned : offset + span = startOf items k) (enough : items.length - k < fuel) :
    ∃ span' k', spanFrom (serializeDirents items) offset count fuel span = .done span' ∧
      offset + span' = startOf items k' ∧ span ≤ span' := by
  induction fuel generalizing k span with
  | zero => exact absurd enough (Nat.not_lt_zero _)
  | succ fuel ih =>
    cases here : items[k]? with
    | none =>
      refine ⟨span, k, spanFrom_past ?_ fuel, aligned, le_rfl⟩
      rw [aligned, startOf_past here]
    | some item =>
      have inside : offset + span < (serializeDirents items).length := aligned ▸ startOf_lt here
      have field : reclenAt (serializeDirents items) (offset + span) = some (recLen item) :=
        aligned ▸ reclenAt_startOf measured here
      by_cases fits : span + recLen item ≤ count
      · rw [spanFrom_turn inside field fits]
        have next : offset + (span + recLen item) = startOf items (k + 1) := by
          rw [startOf_succ here, ← aligned, Nat.add_assoc]
        have few : items.length - (k + 1) < fuel := by
          have small := (List.getElem?_eq_some_iff.mp here).1
          omega
        obtain ⟨span', k', done, aligned', onward⟩ := ih next few
        exact ⟨span', k', done, aligned', (Nat.le_add_right _ _).trans onward⟩
      · refine ⟨span, k, ?_, aligned, le_rfl⟩
        rw [spanFrom, if_pos inside, field]
        exact if_pos (Nat.lt_of_not_le fits)

omit measured in
theorem startOf_le (k : ℕ) : startOf items k ≤ (serializeDirents items).length := by
  cases here : items[k]? with
  | none => exact (startOf_past here).le
  | some item => exact (startOf_lt here).le

end

/-- Where a cursor does no harm: at a record start, or past the end. -/
def Aligned (items : List DirItem) (pos : ℕ) : Prop :=
  (∃ k, pos = startOf items k) ∨ (serializeDirents items).length ≤ pos

/-- A descriptor of a directory with the given listing and a harmless cursor. -/
structure AlignedDir (items : List DirItem) (f : OpenFile) : Prop where
  isDir : f.isDir = true
  data : f.data = serializeDirents items
  aligned : Aligned items f.offset

section Directory

variable (measured : Measured items) (dir : AlignedDir items f)
include measured dir

/-- The record loop in time, from a harmless cursor. -/
theorem AlignedDir.spanFrom (count : ℕ) :
    ∃ span, Files.spanFrom f.data f.offset count (f.data.length + 1) 0 = .done span ∧
      Aligned items (f.offset + span) ∧ (span = 0 ∨ f.offset + span ≤ f.data.length) := by
  rw [dir.data]
  rcases dir.aligned with ⟨k, start⟩ | past
  · have few := length_le_serializeDirents items
    have aligned : f.offset + 0 = startOf items k := start
    obtain ⟨span, k', done, start', -⟩ := spanFrom_aligned measured aligned
      (show items.length - k < (serializeDirents items).length + 1 by omega)
    refine ⟨span, done, .inl ⟨k', start'⟩, .inr ?_⟩
    rw [start']
    exact startOf_le k'
  · exact ⟨0, spanFrom_past past _, .inr past, .inl rfl⟩

theorem AlignedDir.safe (count : ℕ) : GetdentsSafe f count := by
  obtain ⟨span, done, _, inside⟩ := dir.spanFrom measured count
  exact ⟨_, span, done, inside⟩

/-- From a harmless cursor `getdents64` returns, and leaves a harmless cursor. -/
theorem AlignedDir.readDents (count : ℕ) (copies : Bool) :
    ∃ value bytes, (Files.readDents f count copies).1 = .returned value bytes ∧
      AlignedDir items (Files.readDents f count copies).2 := by
  obtain ⟨span, done, aligned, inside⟩ := dir.spanFrom measured count
  cases span with
  | zero =>
    simp only [Files.readDents, done]
    exact ⟨_, _, rfl, dir⟩
  | succ span =>
    have within := inside.resolve_left (Nat.succ_ne_zero span)
    simp only [Files.readDents, done, if_neg within.not_gt]
    cases copies with
    | true => exact ⟨_, _, rfl, dir.isDir, dir.data, aligned⟩
    | false => exact ⟨_, _, rfl, dir⟩

end Directory

theorem AlignedDir.seekFile (dir : AlignedDir items f) {offset : ℤ} {whence : Whence}
    (careful : 0 ≤ (seekFile f offset whence).1 → Aligned items (seekFile f offset whence).1.toNat) :
    AlignedDir items (Files.seekFile f offset whence).2 := by
  unfold Files.seekFile at careful ⊢
  split
  · exact dir
  · rename_i base known
    simp only [known] at careful
    split
    · rename_i inRange
      rw [if_pos inRange] at careful
      exact ⟨dir.isDir, dir.data, careful inRange.1⟩
    · exact dir

/-! ### Runs -/

/-- The calls on a descriptor of a directory. -/
inductive DirOp
  | lseek (offset : ℤ) (whence : Whence)
  | getdents (count : ℕ) (copies : Bool)

/-- A call that panics or does not return has no next state. -/
def DirOp.perform (key : Key) (fd : ℕ) (op : DirOp) (r : Registry) : Option Registry :=
  match op with
  | .lseek offset whence => some (sysLseek key fd offset whence r).2
  | .getdents count copies =>
    match sysGetdents64 key fd count copies r with
    | (.returned _ _, r) => some r
    | _ => none

/-- A freshly opened directory. -/
def openDir (name : List UInt8) (items : List DirItem) : OpenFile :=
  ⟨name, serializeDirents items, 0, false, false, true⟩

/-- Every sequence of `lseek` and `getdents64` on a descriptor that was opened on a directory. -/
def directoryRuns (items : List DirItem) (key : Key) (fd : ℕ) : System Registry :=
  .ofOps (fun r => ∃ name, fileAt key fd r = some (openDir name items)) (DirOp.perform key fd)

/-- A seek that fails, or that lands on a record start or past the end. -/
def CarefulStep (items : List DirItem) (key : Key) (fd : ℕ) (r r' : Registry) : Prop :=
  ∃ op : DirOp, op.perform key fd r = some r' ∧ ∀ offset whence, op = .lseek offset whence →
    0 ≤ (sysLseek key fd offset whence r).1 → Aligned items (sysLseek key fd offset whence r).1.toNat

theorem sysGetdents64_file (isOpen : fileAt key fd r = some f) (isDir : f.isDir) (count : ℕ)
    (copies : Bool) : (sysGetdents64 key fd count copies r).1 = (readDents f count copies).1 ∧
      fileAt key fd (sysGetdents64 key fd count copies r).2 = some (readDents f count copies).2 := by
  have slot := fileAt_eq_some.mp isOpen
  unfold sysGetdents64
  simp only [slot, isDir, if_true, true_and]
  exact fileAt_put isOpen _

/-- A careful step keeps the cursor harmless. -/
theorem AlignedDir.step (measured : Measured items) (isOpen : fileAt key fd r = some f)
    (dir : AlignedDir items f) (careful : CarefulStep items key fd r r') :
    ∃ f', fileAt key fd r' = some f' ∧ AlignedDir items f' := by
  obtain ⟨op, ran, lands⟩ := careful
  cases op with
  | lseek offset whence =>
    obtain ⟨value, left⟩ := sysLseek_file isOpen offset whence
    cases ran
    refine ⟨_, left, dir.seekFile fun accepted => ?_⟩
    rw [← value] at accepted ⊢
    exact lands offset whence rfl accepted
  | getdents count copies =>
    obtain ⟨outcome, left⟩ := sysGetdents64_file isOpen dir.isDir count copies
    obtain ⟨value, bytes, returned, later⟩ := dir.readDents measured count copies
    simp only [DirOp.perform] at ran
    split at ran
    · rename_i same
      cases ran
      rw [same] at left
      exact ⟨_, left, later⟩
    · cases ran

/-- **`getdents64` is safe in every run of careful seeks.** In every state that a descriptor opened on any
directory reaches by `getdents64` with any counts and by seeks that fail or land on a record start or past
the end, for every count the record loop ends, uses no index outside the buffer and spans no byte beyond
its end, and the call returns. -/
theorem getdents_safe_of_careful {items : List DirItem} (listed : Listed items) {key : Key} {fd : ℕ}
    {r : Registry} (reached : ((directoryRuns items key fd).restrict (CarefulStep items key fd)).Reached r) :
    ∃ f, fileAt key fd r = some f ∧ f.data = serializeDirents items ∧ ∀ count, GetdentsSafe f count ∧
      ∀ copies, ∃ value bytes, (sysGetdents64 key fd count copies r).1 = .returned value bytes := by
  have aligned : ∃ f, fileAt key fd r = some f ∧ AlignedDir items f := by
    refine ((directoryRuns items key fd).restrict (CarefulStep items key fd)).invariant
      (fun r => ∃ f, fileAt key fd r = some f ∧ AlignedDir items f) ?_ ?_ reached
    · rintro r ⟨name, isOpen⟩
      exact ⟨_, isOpen, rfl, rfl, .inl ⟨0, rfl⟩⟩
    · rintro r r' - ⟨f, isOpen, dir⟩ ⟨-, careful⟩
      exact dir.step listed.measured isOpen careful
  obtain ⟨f, isOpen, dir⟩ := aligned
  refine ⟨f, isOpen, dir.data, fun count => ⟨dir.safe listed.measured count, fun copies => ?_⟩⟩
  obtain ⟨value, bytes, returned, _⟩ := dir.readDents listed.measured count copies
  exact ⟨value, bytes, (sysGetdents64_file isOpen dir.isDir count copies).1.trans returned⟩

/-- A directory with one file, `A`. -/
def oneItem : List DirItem := [⟨['A'], false⟩]

theorem listed_oneItem : Listed oneItem := by
  intro item mem
  rw [mem_singleton.mp mem]
  refine ⟨Fat.shortName83 [0x41], Eq.symm ?_⟩
  have base : ofFn (slice (Fat.shortName83 [0x41]) 0 8 (by decide)) = 0x41 :: replicate 7 Fat.space := rfl
  have ext : ofFn (slice (Fat.shortName83 [0x41]) 8 3 (by decide)) = replicate 3 Fat.space := rfl
  unfold name83ToString
  rw [base, ext, Fat.textOf_ascii (by simp [Fat.space]), Fat.textOf_ascii (by simp [Fat.space])]
  decide

/-- Process 7 has the directory open as descriptor 0. -/
def oneDirectory : Registry :=
  ⟨Finmap.singleton 7 ⟨[some (.file (openDir [0x2F] oneItem))], [0x2F], userHeapBase⟩, ⟨[], [], [], false⟩⟩

/-- After a seek to the end of the directory. -/
theorem getdents_safe_of_careful_end :
    ∃ f, fileAt 7 0 (sysLseek 7 0 0 .fromEnd oneDirectory).2 = some f ∧ f.offset = 24 ∧
      ∀ count, GetdentsSafe f count := by
  have start : ((directoryRuns oneItem 7 0).restrict (CarefulStep oneItem 7 0)).Reached oneDirectory :=
    .start ⟨[0x2F], rfl⟩
  have reached := start.step (t := (sysLseek 7 0 0 .fromEnd oneDirectory).2)
    ⟨⟨.lseek 0 .fromEnd, rfl⟩, .lseek 0 .fromEnd, rfl, fun offset whence same _ => by
      cases same
      exact .inr (by decide +kernel)⟩
  obtain ⟨f, isOpen, -, safe⟩ := getdents_safe_of_careful listed_oneItem reached
  refine ⟨f, isOpen, ?_, fun count => (safe count).1⟩
  have left : fileAt 7 0 (sysLseek 7 0 0 .fromEnd oneDirectory).2 =
      some { openDir [0x2F] oneItem with offset := 24 } := rfl
  rw [some.inj (isOpen.symm.trans left)]

/-- **A seek into the middle of a record is enough.** From byte 20 of the only record, which has 24, the
length field lies outside the buffer; from byte 4 it reads as 0, and the loop never ends. -/
theorem getdents_unsafe_in_record : Listed oneItem ∧
    (∃ r f, (directoryRuns oneItem 7 0).Reached r ∧ fileAt 7 0 r = some f ∧
      (sysGetdents64 7 0 100 true r).1 = .panicked ∧ ¬ GetdentsSafe f 100) ∧
    ∃ r f, (directoryRuns oneItem 7 0).Reached r ∧ fileAt 7 0 r = some f ∧
      (sysGetdents64 7 0 100 true r).1 = .loops ∧ ¬ GetdentsSafe f 100 := by
  have start : (directoryRuns oneItem 7 0).Reached oneDirectory := .start ⟨[0x2F], rfl⟩
  have sought : ∀ offset, (directoryRuns oneItem 7 0).Reached (sysLseek 7 0 offset .set oneDirectory).2 :=
    fun offset => start.step ⟨.lseek offset .set, rfl⟩
  refine ⟨listed_oneItem, ⟨_, { openDir [0x2F] oneItem with offset := 20 }, sought 20, rfl, rfl, ?_⟩,
    _, { openDir [0x2F] oneItem with offset := 4 }, sought 4, rfl, rfl, ?_⟩
  · rintro ⟨fuel, span, done, -⟩
    cases fuel with
    | zero => cases done
    | succ fuel =>
      have panics : spanFrom (serializeDirents oneItem) 20 100 (fuel + 1) 0 = .panics := rfl
      cases panics.symm.trans done
  · rintro ⟨fuel, span, done, -⟩
    have stuck : spanFrom (serializeDirents oneItem) 4 100 fuel 0 = .unfinished :=
      spanFrom_stuck (by decide +kernel) (by decide +kernel) (by decide) fuel
    cases stuck.symm.trans done

end Ferros.Files
