/-
**A listing is delivered exactly once.**

A program reads a directory in chunks: `getdents64` copies whole records, and the program walks over what it
got by the length that each record carries (`walkRecords`, the loop of `ls`).

* `walkRecords_serializeFrom` — the walk gives back the records that were serialised.
* `readDents_end`, `readDents_small`, `readDents_fits` — one call from a record start: nothing is left, the
  next record does not fit, or it fits.
* `listing_delivered_once` — over all runs: what was delivered is the front of the buffer up to a record, and
  the value of the next call tells whether anything is left.

A descriptor only ever stands at the start of a record (`Delivered`, the invariant of the runs): the record
loop adds up whole lengths, so where it stops is again a start. The three cases of one call from there are
the answers, and each of them leads to the invariant with the bytes added that the call gave out.
-/

import Ferros.Files.Dirents

namespace Ferros.Files

open Lib List Option
open Fat (DirItem)

/-! ### The walk over records -/

/-- A record as a program reads it: `d_ino`, `d_off`, `d_type` and the name. -/
structure Record where
  ino : ℕ
  off : ℕ
  kind : UInt8
  name : List UInt8
  deriving DecidableEq, Repr

/-- The number in the first bytes. -/
def leTake (width : ℕ) (data : List UInt8) : ℕ := leVal width fun i => data.getD i 0

/-- The record at the start of `data`; the name ends before a zero or with the data. -/
def recordOf (data : List UInt8) : Record :=
  ⟨leTake 8 data, leTake 8 (data.drop 8), data.getD 18 0, (data.drop direntHeader).takeWhile (· ≠ 0)⟩

/-- The loop over the records of a chunk, as in `ls`. Every turn passes at least one byte, so there are at
most as many as there are bytes. -/
def walkRecords : ℕ → List UInt8 → List Record
  | 0, _ => []
  | turns + 1, data =>
    if data.length < direntHeader then []
    else
      let reclen := leTake 2 (data.drop 16)
      if reclen = 0 then [] else recordOf data :: walkRecords turns (data.drop reclen)

def walk (data : List UInt8) : List Record := walkRecords data.length data

/-- Names as programs expect them: at most 255 bytes, no zero among them. -/
def Plain (items : List DirItem) : Prop :=
  ∀ item ∈ items, (nameBytes item).length ≤ 255 ∧ (0 : UInt8) ∉ nameBytes item

variable {items : List DirItem} {f : OpenFile} {k count fd : ℕ} {item : DirItem} {key : Key} {r r' : Registry}
  {out : List UInt8}

theorem Plain.measured (plain : Plain items) : Measured items := by
  intro item mem
  have short := (plain item mem).1
  unfold recLen direntHeader
  omega

/-- The records of items from number `i` on, the first of which starts at `start`. -/
def recordsFrom : ℕ → ℕ → List DirItem → List Record
  | _, _, [] => []
  | i, start, item :: rest =>
    ⟨(i + 1) % 2 ^ 64, (start + recLen item) % 2 ^ 64, direntType item, nameBytes item⟩ ::
      recordsFrom (i + 1) (start + recLen item) rest

theorem leTake_append (width value : ℕ) (rest : List UInt8) :
    leTake width (List.ofFn (leBytes width value) ++ rest) = value % 256 ^ width := by
  have window : (fun i : Fin width => (ofFn (leBytes width value) ++ rest).getD i 0) =
      leBytes width value := by
    funext i
    have inside : (i : ℕ) < (ofFn (leBytes width value)).length := by
      rw [length_ofFn]
      exact i.2
    rw [List.getD_eq_getElem?_getD, List.getElem?_append_left inside, List.getElem?_ofFn, dif_pos i.2]
    rfl
  rw [leTake, window, leVal_leBytes]

/-- What stands after the fields of fixed size. -/
theorem takeWhile_name {name : List UInt8} (plain : (0 : UInt8) ∉ name) (zeros : ℕ) (rest : List UInt8) :
    (name ++ (replicate (zeros + 1) 0 ++ rest)).takeWhile (· ≠ 0) = name := by
  have nonzero : ∀ b ∈ name, decide (b ≠ 0) := fun b mem =>
    decide_eq_true fun zero => plain (zero ▸ mem)
  rw [takeWhile_append_of_pos nonzero, replicate_succ, cons_append,
    takeWhile_cons_of_neg (by decide), append_nil]

/-- **The walk reads a record and goes on behind it.** -/
theorem walkRecords_dirent (small : recLen item < 2 ^ 16)
    (plain : (0 : UInt8) ∉ nameBytes item) (turns i start : ℕ) (rest : List UInt8) :
    walkRecords (turns + 1) (dirent i start item ++ rest) =
      ⟨(i + 1) % 2 ^ 64, (start + recLen item) % 2 ^ 64, direntType item, nameBytes item⟩ ::
        walkRecords turns rest := by
  have length := length_dirent i start item
  obtain ⟨zeros, padding⟩ : ∃ zeros, recLen item - direntHeader - (nameBytes item).length = zeros + 1 := by
    refine Nat.exists_eq_succ_of_ne_zero ?_
    unfold recLen direntHeader
    omega
  have long : direntHeader ≤ recLen item := by
    unfold recLen direntHeader
    omega
  -- the fields one after the other
  have parts : dirent i start item ++ rest = ofFn (leBytes 8 (i + 1)) ++
      (ofFn (leBytes 8 (start + recLen item)) ++ (ofFn (leBytes 2 (recLen item)) ++
        (direntType item :: (nameBytes item ++ (replicate (zeros + 1) 0 ++ rest))))) := by
    rw [dirent, padding]
    simp only [append_assoc, cons_append]
  have behind : ∀ {width value : ℕ} {tail : List UInt8} (n : ℕ),
      (ofFn (leBytes width value) ++ tail).drop (width + n) = tail.drop n := by
    intro width value tail n
    rw [← drop_drop, drop_left' (length_ofFn)]
  have reclen : leTake 2 ((dirent i start item ++ rest).drop 16) = recLen item := by
    rw [parts, behind 8, behind 0, drop_zero, leTake_append]
    exact Nat.mod_eq_of_lt small
  have record : recordOf (dirent i start item ++ rest) =
      ⟨(i + 1) % 2 ^ 64, (start + recLen item) % 2 ^ 64, direntType item, nameBytes item⟩ := by
    have kind : (dirent i start item ++ rest).getD 18 0 = direntType item := by
      rw [getD_eq_getElem?_getD, ← head?_drop, parts, behind 10, behind 2, behind 0]
      rfl
    have name : ((dirent i start item ++ rest).drop direntHeader).takeWhile (· ≠ 0) = nameBytes item := by
      rw [parts, direntHeader, behind 11, behind 3, behind 1, drop_succ_cons, drop_zero, takeWhile_name plain]
    rw [recordOf, kind, name, parts, leTake_append, behind 0, drop_zero, leTake_append]
    rfl
  rw [walkRecords, if_neg (by rw [length_append, length]; omega), reclen, record]
  simp only [if_neg (show recLen item ≠ 0 by unfold direntHeader at long; omega)]
  rw [drop_left' length]

/-- **The walk gives back what was serialised.** -/
theorem walkRecords_serializeFrom (plain : Plain items) {turns : ℕ} (enough : items.length ≤ turns)
    (i start : ℕ) : walkRecords turns (serializeFrom i start items) = recordsFrom i start items := by
  induction items generalizing turns i start with
  | nil => cases turns <;> rfl
  | cons item rest ih =>
    obtain ⟨turns, rfl⟩ : ∃ n, turns = n + 1 := Nat.exists_eq_succ_of_ne_zero (by
      rw [length_cons] at enough
      omega)
    have first := mem_cons_self (a := item) (l := rest)
    rw [serializeFrom, recordsFrom, walkRecords_dirent (plain.measured item first) (plain item first).2,
      ih (fun other mem => plain other (mem_cons_of_mem item mem)) (Nat.le_of_succ_le_succ enough)]

theorem walk_serializeDirents (plain : Plain items) : walk (serializeDirents items) = recordsFrom 0 0 items :=
  walkRecords_serializeFrom plain (length_le_serializeDirents items) 0 0

theorem map_recordsFrom (items : List DirItem) (i start : ℕ) :
    ((recordsFrom i start items).map fun record => (record.name, record.kind)) =
      items.map fun item => (nameBytes item, direntType item) := by
  induction items generalizing i start with
  | nil => rfl
  | cons item rest ih => rw [recordsFrom, map_cons, map_cons, ih]

/-- The field `d_off` is where the record ends. -/
theorem off_recordsFrom {i start : ℕ} {record : Record} (here : (recordsFrom i start items)[k]? = some record)
    : record.off = (start + startOf items (k + 1)) % 2 ^ 64 := by
  induction items generalizing i start k with
  | nil => cases here
  | cons item rest ih =>
    rw [startOf, take_succ_cons, map_cons, sum_cons, ← Nat.add_assoc]
    cases k with
    | zero =>
      rw [recordsFrom, getElem?_cons_zero] at here
      rw [← some.inj here]
      rfl
    | succ k =>
      rw [recordsFrom, getElem?_cons_succ] at here
      exact ih here

/-! ### One call -/

section

/-- A call that finds all records delivered. -/
theorem readDents_end (data : f.data = serializeDirents items) (start : f.offset = startOf items k)
    (none : items[k]? = none) (count : ℕ) (copies : Bool) :
    readDents f count copies = (.returned 0 [], f) := by
  have past : f.data.length ≤ f.offset + 0 := by rw [data, start, startOf_past none, Nat.add_zero]
  simp only [readDents, spanFrom_past past, if_pos (show f.data.length ≤ f.offset from past)]

section Inside

variable (measured : Measured items) (data : f.data = serializeDirents items)
  (start : f.offset = startOf items k) (here : items[k]? = some item)
include measured data start here

/-- A call whose buffer does not hold the next record. -/
theorem readDents_small (small : count < recLen item) (copies : Bool) :
    readDents f count copies = (.returned (-EINVAL) [], f) := by
  have inside : f.offset < f.data.length := by
    rw [data, start]
    exact startOf_lt here
  have field : reclenAt f.data (f.offset + 0) = some (recLen item) := by
    rw [data, start]
    exact reclenAt_startOf measured here
  have stops : spanFrom f.data f.offset count (f.data.length + 1) 0 = .done 0 := by
    rw [spanFrom, if_pos (show f.offset + 0 < f.data.length from inside), field]
    exact if_pos (by omega)
  simp only [readDents, stops, if_neg inside.not_ge]

/-- **A call whose buffer holds the next record** passes some records, and gives them out if the copy
succeeds. -/
theorem readDents_fits (fits : recLen item ≤ count) :
    ∃ span k', 0 < span ∧ startOf items k + span = startOf items k' ∧ ∀ copies, readDents f count copies =
      if copies then (.returned span ((f.data.drop f.offset).take span), { f with offset := startOf items k' })
      else (.returned (-EFAULT) [], f) := by
  have inside : f.offset + 0 < f.data.length := by
    rw [data, start]
    exact startOf_lt here
  have field : reclenAt f.data (f.offset + 0) = some (recLen item) := by
    rw [data, start]
    exact reclenAt_startOf measured here
  have next : f.offset + (0 + recLen item) = startOf items (k + 1) := by
    rw [start, startOf_succ here, Nat.zero_add]
  have enough : items.length - (k + 1) < f.data.length := by
    have few := length_le_serializeDirents items
    rw [← data] at few
    omega
  obtain ⟨span, k', done, aligned, passed⟩ :
      ∃ span k', spanFrom (serializeDirents items) f.offset count f.data.length (0 + recLen item) = .done span ∧
        f.offset + span = startOf items k' ∧ 0 + recLen item ≤ span := spanFrom_aligned measured next enough
  rw [← data, ← spanFrom_turn inside field (show 0 + recLen item ≤ count by omega)] at done
  have positive : 0 < recLen item := by
    unfold recLen direntHeader
    omega
  obtain ⟨span, rfl⟩ : ∃ n, span = n + 1 := Nat.exists_eq_succ_of_ne_zero (by omega)
  have within : f.offset + (span + 1) ≤ f.data.length := by
    rw [aligned, data]
    exact startOf_le k'
  refine ⟨span + 1, k', Nat.succ_pos span, start ▸ aligned, fun copies => ?_⟩
  simp only [readDents, done, if_neg within.not_gt]
  rw [aligned]

end Inside

end

/-! ### Runs -/

/-- The calls of `getdents64` on one descriptor that was opened on a directory, with what they delivered so
far. A call that panics or does not return has no next state. -/
def listingRuns (items : List DirItem) (key : Key) (fd : ℕ) : System (Registry × List UInt8) where
  start s := (∃ name, fileAt key fd s.1 = some (openDir name items)) ∧ s.2 = []
  step s t := ∃ count copies value bytes,
    sysGetdents64 key fd count copies s.1 = (.returned value bytes, t.1) ∧ t.2 = s.2 ++ bytes

/-- The descriptor stands before record `k`, and what was delivered are the records before. -/
structure Delivered (items : List DirItem) (key : Key) (fd k : ℕ) (f : OpenFile) (r : Registry)
    (out : List UInt8) : Prop where
  isOpen : fileAt key fd r = some f
  isDir : f.isDir = true
  data : f.data = serializeDirents items
  cursor : f.offset = startOf items k
  out : out = (serializeDirents items).take (startOf items k)

/-- What one more call returns, and where it leaves the descriptor. -/
structure Answers (items : List DirItem) (key : Key) (fd k : ℕ) (f : OpenFile) (out : List UInt8)
    (count : ℕ) (copies : Bool) (value : ℤ) (bytes : List UInt8) (r' : Registry) : Prop where
  /-- All records were delivered. -/
  zero_iff : value = 0 ↔ out = serializeDirents items
  /-- The next record is longer than the buffer. -/
  einval_iff : value = -EINVAL ↔ ∃ item, items[k]? = some item ∧ count < recLen item
  length : 0 ≤ value → (bytes.length : ℤ) = value
  /-- The buffer is writable and holds the next record. -/
  delivers : copies = true → ∀ item, items[k]? = some item → recLen item ≤ count → 0 < value
  failed : copies = false → bytes = [] ∧ fileAt key fd r' = some f
  onward : ∃ k' f', Delivered items key fd k' f' r' (out ++ bytes)

theorem Delivered.all_iff (delivered : Delivered items key fd k f r out) :
    out = serializeDirents items ↔ items[k]? = none := by
  rw [delivered.out]
  cases here : items[k]? with
  | none => exact ⟨fun _ => rfl, fun _ => by rw [startOf_past here, take_length]⟩
  | some item =>
    refine ⟨fun all => ?_, fun wrong => nomatch wrong⟩
    have lengths := congrArg length all
    have left := startOf_lt here
    rw [length_take] at lengths
    omega

/-- A call that hands out nothing and leaves the descriptor as it is. -/
theorem Delivered.stays (delivered : Delivered items key fd k f r out) (left : fileAt key fd r' = some f) :
    ∃ k' f', Delivered items key fd k' f' r' (out ++ []) :=
  ⟨k, f, left, delivered.isDir, delivered.data, delivered.cursor, (append_nil out).trans delivered.out⟩

/-- **One more call.** -/
theorem Delivered.answers (measured : Measured items) (delivered : Delivered items key fd k f r out) (count : ℕ)
    (copies : Bool) : ∃ value bytes r', sysGetdents64 key fd count copies r = (.returned value bytes, r') ∧
      Answers items key fd k f out count copies value bytes r' := by
  obtain ⟨outcome, left⟩ := sysGetdents64_file delivered.isOpen delivered.isDir count copies
  have all := delivered.all_iff
  cases here : items[k]? with
  | none =>
    rw [readDents_end delivered.data delivered.cursor here] at outcome left
    refine ⟨0, [], _, Prod.ext outcome rfl, ?_, ?_, fun _ => rfl, fun _ item found => ?_,
      fun _ => ⟨rfl, left⟩, delivered.stays left⟩
    · exact ⟨fun _ => all.mpr here, fun _ => rfl⟩
    · rw [here]
      exact ⟨fun wrong => absurd wrong (by decide), fun ⟨_, found, _⟩ => nomatch found⟩
    · cases here.symm.trans found
  | some item =>
    have more : out ≠ serializeDirents items := by
      rw [ne_eq, all, here]
      exact nofun
    by_cases fits : recLen item ≤ count
    · have room : ¬ ∃ item, items[k]? = some item ∧ count < recLen item := by
        rintro ⟨_, found, long⟩
        cases here.symm.trans found
        exact long.not_ge fits
      obtain ⟨span, k', positive, aligned, call⟩ :=
        readDents_fits measured delivered.data delivered.cursor here fits
      rw [call copies] at outcome left
      cases copies with
      | false =>
        refine ⟨-EFAULT, [], _, Prod.ext outcome rfl, ?_, ?_, fun wrong => absurd wrong (by decide),
          nofun, fun _ => ⟨rfl, left⟩, delivered.stays left⟩
        · exact ⟨fun wrong => absurd wrong (by decide), fun done => absurd done more⟩
        · exact ⟨fun wrong => absurd wrong (by decide), fun wrong => absurd wrong room⟩
      | true =>
        have within : span ≤ (f.data.drop f.offset).length := by
          have inside : startOf items k' ≤ (serializeDirents items).length := startOf_le k'
          rw [length_drop, delivered.data, delivered.cursor]
          omega
        refine ⟨span, _, _, Prod.ext outcome rfl, ?_, ?_, fun _ => ?_,
          fun _ _ _ _ => Int.natCast_pos.mpr positive, nofun, k', _, left, delivered.isDir,
          delivered.data, rfl, ?_⟩
        · exact ⟨fun wrong => absurd (Int.ofNat_eq_zero.mp wrong) positive.ne', fun done => absurd done more⟩
        · refine ⟨fun wrong => absurd wrong ?_, fun wrong => absurd wrong room⟩
          unfold EINVAL
          omega
        · rw [length_take_of_le within]
        · rw [delivered.out, delivered.data, delivered.cursor, ← take_add, aligned]
    · have small := Nat.lt_of_not_le fits
      rw [readDents_small measured delivered.data delivered.cursor here small] at outcome left
      refine ⟨-EINVAL, [], _, Prod.ext outcome rfl, ?_, ?_, fun wrong => absurd wrong (by decide),
        fun _ other found => ?_, fun _ => ⟨rfl, left⟩, delivered.stays left⟩
      · exact ⟨fun wrong => absurd wrong (by decide), fun done => absurd done more⟩
      · exact ⟨fun _ => ⟨item, here, small⟩, fun _ => rfl⟩
      · cases here.symm.trans found
        exact fun room => absurd room fits

theorem delivered_of_reached (measured : Measured items) (reached : (listingRuns items key fd).Reached (r, out))
    : ∃ k f, Delivered items key fd k f r out := by
  refine (listingRuns items key fd).invariant (fun s => ∃ k f, Delivered items key fd k f s.1 s.2) ?_ ?_ reached
  · rintro ⟨r, out⟩ ⟨⟨name, isOpen⟩, rfl⟩
    exact ⟨0, _, isOpen, rfl, rfl, rfl, rfl⟩
  · rintro ⟨r, out⟩ ⟨r', out'⟩ - ⟨k, f, delivered⟩ ⟨count, copies, value, bytes, called, rfl⟩
    obtain ⟨value', bytes', r'', same, answers⟩ := delivered.answers measured count copies
    obtain ⟨returned, rfl⟩ := Prod.mk.inj (called.symm.trans same)
    cases returned
    exact answers.onward

/-- **A listing is delivered exactly once.** The walk over the whole buffer gives every name and kind in order,
with `d_off` where the record ends (the field has 64 bits). In every run of calls with any buffers, what was
delivered is the buffer up to the start of a record, and the next call returns 0 if that is all of it,
`-EINVAL` if its buffer is smaller than the next record, the length of what it delivers if its buffer is
writable and holds the next record, and leaves the descriptor alone if its copy fails. -/
theorem listing_delivered_once {items : List DirItem} (plain : Plain items) :
    ((walk (serializeDirents items)).map fun record => (record.name, record.kind)) =
      (items.map fun item => (nameBytes item, direntType item)) ∧
    (∀ (k : ℕ) (record : Record), (walk (serializeDirents items))[k]? = some record →
      record.off = startOf items (k + 1) % 2 ^ 64) ∧
    ∀ key fd r out, (listingRuns items key fd).Reached (r, out) → ∃ k f, Delivered items key fd k f r out ∧
      ∀ count copies, ∃ value bytes r', sysGetdents64 key fd count copies r = (.returned value bytes, r') ∧
        Answers items key fd k f out count copies value bytes r' := by
  rw [walk_serializeDirents plain]
  refine ⟨map_recordsFrom items 0 0, fun k record here => ?_, fun key fd r out reached => ?_⟩
  · rw [off_recordsFrom here, Nat.zero_add]
  · obtain ⟨k, f, delivered⟩ := delivered_of_reached plain.measured reached
    exact ⟨k, f, delivered, fun count copies => delivered.answers plain.measured count copies⟩

/-- The directory with one file: its record is read back, a buffer of 23 bytes is too small for it, and a
buffer of 24 bytes gets it. -/
theorem listing_delivered_once_file :
    ((walk (serializeDirents oneItem)).map fun record => (record.name, record.kind)) = [([0x41], 8)] ∧
      (∃ bytes r', sysGetdents64 7 0 23 true oneDirectory = (.returned (-EINVAL) bytes, r')) ∧
      ∃ value bytes r', sysGetdents64 7 0 24 true oneDirectory = (.returned value bytes, r') ∧ 0 < value := by
  have plain : Plain oneItem := by
    intro item mem
    rw [mem_singleton.mp mem]
    decide
  have reached : (listingRuns oneItem 7 0).Reached (oneDirectory, []) := .start ⟨⟨[0x2F], rfl⟩, rfl⟩
  obtain ⟨read, -, runs⟩ := listing_delivered_once plain
  obtain ⟨k, f, delivered, next⟩ := runs 7 0 oneDirectory [] reached
  obtain ⟨value, bytes, r', called, answers⟩ := next 23 true
  obtain ⟨value', bytes', r'', called', answers'⟩ := next 24 true
  have first : k = 0 := by
    have cursor := delivered.cursor
    cases delivered.isOpen.symm.trans (show fileAt 7 0 oneDirectory = _ from rfl)
    cases k with
    | zero => rfl
    | succ k =>
      rw [startOf, oneItem, take_succ_cons, take_nil] at cursor
      cases cursor
  have item : oneItem[k]? = some ⟨['A'], false⟩ := by
    rw [first]
    rfl
  rw [answers.einval_iff.mpr ⟨_, item, by decide⟩] at called
  exact ⟨read, ⟨bytes, r', called⟩, value', bytes', r'', called', answers'.delivers rfl _ item (by decide)⟩

end Ferros.Files
