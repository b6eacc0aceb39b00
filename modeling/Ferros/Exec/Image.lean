/-
**The image of a program.**

After a load that succeeds, the memory of the program is what the segments of the file say. The load may be
into any space, whatever else is mapped there, and the pages may lie in slots of the kernel's.

* `Image` — the pages mapped and the stores made so far; `Image.map`, `Image.pokes` — one page, one store more.
* `load_depicts` — **the image is the one that the file describes, and the loader never reads outside the
  file**.
-/

import Ferros.Exec.Confined
import Ferros.Exec.Script

namespace Ferros.Exec

open Lib Mm List Option

variable {kernel root f leaf : Frame} {roots taken : List Frame} {ram₀ ram ram₁ : Ram} {a a₁ : FrameAllocator}
  {mapped pages : List ℕ} {log log' : List (Store UInt8)} {va x : ℕ} {bytes : List UInt8} {s : Segment}
  {rest segs : List Segment}

/-- The byte at `va`, read through the tables with the given root; `none` is a page fault. -/
def peek (root : Frame) (va : ℕ) (ram : Ram) : Option UInt8 :=
  (translate ram.memory root va).map (byteAt ram.memory)

/-- Since `ram₀`, the pages `mapped` were mapped in the space of `root`, and `log` was stored in them. -/
structure Image (kernel : Frame) (roots : List Frame) (root : Frame) (ram₀ : Ram) (mapped : List ℕ)
    (log : List (Store UInt8)) (ram : Ram) (a : FrameAllocator) : Prop where
  valid : Valid kernel ram a roots []
  tables : KernelTables ram.memory kernel
  states : ∀ va, pageState ram.memory root va =
    if pageKey va ∈ mapped.map pageKey then .mapped else pageState ram₀.memory root va
  free : ∀ va ∈ mapped, pageState ram₀.memory root va = .free
  data : ∀ va, pageKey va ∈ mapped.map pageKey → ∃ f, DataPage ram.memory kernel root va f
  apart : ∀ va va' f, pageKey va ∈ mapped.map pageKey → pageKey va' ∈ mapped.map pageKey →
    DataPage ram.memory kernel root va f → DataPage ram.memory kernel root va' f → pageKey va = pageKey va'
  bytes : ∀ x b, written log x = some b →
    x < userSpaceEnd ∧ pageKey x ∈ mapped.map pageKey ∧ peek root x ram = some b

theorem peek_data (data : DataPage ram.memory kernel root va f) (valid : Valid kernel ram a roots [])
    (isRoot : root ∈ roots) (i : Fin 4096) (place : i.val = va % 4096) :
    peek root va ram = some (ram.memory f i) := by
  have byte (g : ℕ) : byteAt ram.memory (4096 * g + va % 4096) = ram.memory g i := by
    have frame : containing (4096 * g + va % 4096) = g := by
      have bits : (4096 * g + va % 4096) / 4096 = g := by omega
      exact bits
    unfold byteAt
    rw [frame]
    exact congrArg (ram.memory g) (Fin.ext (show (4096 * g + va % 4096) % 4096 = i.val by omega))
  rw [peek, translate_of_walk (data.walk valid isRoot), map_some, byte f]

theorem Image.start (valid : Valid kernel ram a roots []) (tables : KernelTables ram.memory kernel) :
    Image kernel roots root ram [] [] ram a := by
  refine ⟨valid, tables, fun va => ?_, forall_mem_nil _,
    fun va mem => absurd mem not_mem_nil, fun va va' f mem => absurd mem not_mem_nil,
    fun x b wrong => by cases wrong⟩
  rw [map_nil, if_neg not_mem_nil]

/-- **One page more.** -/
theorem Image.gains (isRoot : root ∈ roots) (image : Image kernel roots root ram₀ mapped log ram a)
    (gains : Gains kernel roots root va ram a ram₁ a₁ leaf taken) :
    Image kernel roots root ram₀ (va :: mapped) log ram₁ a₁ := by
  have here := image.states va
  rw [gains.free] at here
  have fresh : pageKey va ∉ mapped.map pageKey := by
    intro mem
    rw [if_pos mem] at here
    cases here
  rw [if_neg fresh] at here
  -- what was a page before is the same page now
  have old {va' : ℕ} {g : Frame} (mem : pageKey va' ∈ mapped.map pageKey)
      (data : DataPage ram₁.memory kernel root va' g) : DataPage ram.memory kernel root va' g := by
    obtain ⟨g', before⟩ := image.data va' mem
    rwa [data.unique (gains.keeps va' g' before).1]
  have new {va' : ℕ} {g : Frame} (isKey : pageKey va' = pageKey va)
      (data : DataPage ram₁.memory kernel root va' g) : g = leaf := (data.congr isKey).unique gains.data
  refine ⟨gains.valid, gains.tables, fun va' => ?_, fun va' mem => ?_, fun va' mem => ?_,
    fun va' va'' f mem member' data data' => ?_, fun x b stored => ?_⟩
  · rw [gains.states va', image.states va', ite_keys_cons]
  · rcases mem_cons.mp mem with rfl | earlier
    · exact here.symm
    · exact image.free va' earlier
  · rcases mem_keys_cons.mp mem with isKey | earlier
    · exact ⟨leaf, gains.data.congr isKey.symm⟩
    · obtain ⟨g, before⟩ := image.data va' earlier
      exact ⟨g, (gains.keeps va' g before).1⟩
  · rcases mem_keys_cons.mp mem with isKey | earlier
    · rcases mem_keys_cons.mp member' with isKey' | earlier'
      · exact isKey.trans isKey'.symm
      · refine absurd gains.fresh ?_
        rw [← new isKey data]
        exact (old earlier' data').not_available image.valid isRoot
    · rcases mem_keys_cons.mp member' with isKey' | earlier'
      · refine absurd gains.fresh ?_
        rw [← new isKey' data']
        exact (old earlier data).not_available image.valid isRoot
      · exact image.apart va' va'' f earlier earlier' (old earlier data) (old earlier' data')
  · obtain ⟨low, mem, before⟩ := image.bytes x b stored
    refine ⟨low, mem_keys_cons.mpr (.inr mem), ?_⟩
    obtain ⟨g, data⟩ := image.data x mem
    obtain ⟨data₁, same⟩ := gains.keeps x g data
    have place : x % 4096 < 4096 := Nat.mod_lt _ (Nat.zero_lt_succ 4095)
    rw [peek_data data₁ gains.valid isRoot ⟨x % 4096, place⟩ rfl, same,
      ← peek_data data image.valid isRoot ⟨x % 4096, place⟩ rfl, before]

theorem Image.maps [Mapper] (isRoot : root ∈ roots) (image : Image kernel roots root ram₀ mapped log ram a)
    (done : performs root (pages.map .map) ram = some ram₁) :
    ∃ a₁, Image kernel roots root ram₀ (pages.reverse ++ mapped) log ram₁ a₁ := by
  induction pages generalizing mapped ram a with
  | nil =>
    cases done
    exact ⟨a, image⟩
  | cons va rest ih =>
    rw [map_cons, performs, Event.perform] at done
    obtain ⟨ram₂, mapsOne, done⟩ := bind_eq_some_iff.mp done
    rcases mapUserPage_gains image.valid image.tables isRoot va with
      ⟨ram₂, a₂, leaf, taken, maps, gains⟩ | ⟨failed, _⟩
    · cases maps.symm.trans mapsOne
      rw [reverse_cons, append_assoc]
      exact ih (image.gains isRoot gains) done
    · cases failed.symm.trans mapsOne

/-! ### What is stored -/

/-- **One byte more.** -/
theorem Image.poke (isRoot : root ∈ roots) (image : Image kernel roots root ram₀ mapped log ram a)
    (low : va < userSpaceEnd) (isMapped : pageKey va ∈ mapped.map pageKey) (byte : UInt8)
    (done : ram.poke root va byte = some ram₁) :
    Image kernel roots root ram₀ mapped (log ++ [⟨va, [byte]⟩]) ram₁ a := by
  obtain ⟨f, data⟩ := image.data va isMapped
  obtain ⟨page, poked, content⟩ := data.poke image.valid isRoot byte
  cases poked.symm.trans done
  have writes := data.write image.valid isRoot page
  have tables₁ := image.tables.congr writes.same
  have old {va' : ℕ} {g : Frame} (mem : pageKey va' ∈ mapped.map pageKey)
      (data : DataPage (ram.write f page).memory kernel root va' g) :
      DataPage ram.memory kernel root va' g := by
    obtain ⟨g', before⟩ := image.data va' mem
    rwa [data.unique (writes.dataPage isRoot before)]
  refine ⟨writes.valid, tables₁, fun va' => ?_, image.free, fun va' mem => ?_,
    fun va' va'' g mem member' data data' => ?_, fun x b stored => ?_⟩
  · rw [writes.pageState isRoot image.valid image.tables, image.states]
  · obtain ⟨g, before⟩ := image.data va' mem
    exact ⟨g, writes.dataPage isRoot before⟩
  · exact image.apart va' va'' g mem member' (old mem data) (old member' data')
  · have place (x : ℕ) : x % 4096 < 4096 := Nat.mod_lt _ (Nat.zero_lt_succ 4095)
    rw [written_append] at stored
    by_cases here : x = va
    · subst here
      have isByte : byte = b := by
        rw [written, written, none_or, Store.cell, if_pos le_rfl, Nat.sub_self] at stored
        exact some.inj stored
      refine ⟨low, isMapped, ?_⟩
      rw [peek_data (writes.dataPage isRoot data) writes.valid isRoot ⟨x % 4096, place x⟩ rfl, ram.write_same,
        content, if_pos rfl, isByte]
    · have elsewhere : (⟨va, [byte]⟩ : Store UInt8).cell x = none :=
        Store.cell_eq_none.mpr (by simp only [Store.stop, length_singleton]; omega)
      rw [written, written, elsewhere, none_or, none_or] at stored
      obtain ⟨lowX, mem, before⟩ := image.bytes x b stored
      refine ⟨lowX, mem, ?_⟩
      obtain ⟨g, dataX⟩ := image.data x mem
      rw [peek_data dataX image.valid isRoot ⟨x % 4096, place x⟩ rfl] at before
      rw [peek_data (writes.dataPage isRoot dataX) writes.valid isRoot ⟨x % 4096, place x⟩ rfl, ← before]
      by_cases samePage : g = f
      · subst samePage
        have samePage := image.apart x va g mem isMapped dataX data
        rw [userSpaceEnd] at low lowX
        have pages := page_of_pageKey (by omega) (by omega) samePage
        rw [ram.write_same, content, if_neg]
        simp only
        omega
      · rw [ram.write_other page samePage]

/-- Only what the stores leave matters. -/
theorem Image.relog (image : Image kernel roots root ram₀ mapped log ram a)
    (same : ∀ x, written log' x = written log x) : Image kernel roots root ram₀ mapped log' ram a :=
  ⟨image.valid, image.tables, image.states, image.free, image.data, image.apart,
    fun x b stored => image.bytes x b ((same x).symm.trans stored)⟩

/-- **One store more.** -/
theorem Image.pokes (isRoot : root ∈ roots) (cells : List UInt8)
    (image : Image kernel roots root ram₀ mapped log ram a) (low : va + cells.length ≤ userSpaceEnd)
    (areMapped : ∀ x, va ≤ x → x < va + cells.length → pageKey x ∈ mapped.map pageKey)
    (done : ram.pokes root va cells = some ram₁) :
    Image kernel roots root ram₀ mapped (log ++ [⟨va, cells⟩]) ram₁ a := by
  induction cells generalizing va ram log with
  | nil =>
    cases done
    refine image.relog fun x => ?_
    have nothing : (⟨va, []⟩ : Store UInt8).cell x = none :=
      Store.cell_eq_none.mpr (by simp only [Store.stop, length_nil]; omega)
    rw [written_append, written, written, nothing, none_or, none_or]
  | cons byte rest ih =>
    rw [length_cons] at low areMapped
    rw [Ram.pokes] at done
    obtain ⟨ram₂, poked, done⟩ := bind_eq_some_iff.mp done
    have first := image.poke isRoot (by omega) (areMapped va le_rfl (by omega)) byte poked
    have rest := ih first (by omega) (fun x above below => areMapped x (by omega) (by omega)) done
    exact rest.relog (written_cons_cells log va byte _)

/-! ### A whole script -/

/-- The page that is mapped. -/
def Event.page? : Event → Option ℕ
  | .map va => some va
  | .store _ => none

/-- The pages that `map_user_page` is called for, one by one. -/
def calls (events : List Event) : List ℕ := events.filterMap Event.page?

theorem calls_map (pages : List ℕ) : calls (pages.map .map) = pages := by
  induction pages with
  | nil => rfl
  | cons va rest ih => exact congrArg (va :: ·) ih

theorem calls_script_cons : calls (script bytes (s :: rest) mapped) = freshPages s.pages mapped ++
        calls (script bytes rest ((freshPages s.pages mapped).reverse ++ mapped)) := by
  rw [script, calls, filterMap_append, ← calls, calls_map]
  rfl

theorem mem_freshPages : va ∈ freshPages pages mapped ↔ va ∈ pages ∧ va ∉ mapped := by
  induction pages generalizing mapped with
  | nil => simp only [freshPages, not_mem_nil, false_and]
  | cons page rest ih =>
    rw [freshPages]
    by_cases isMapped : page ∈ mapped
    · rw [if_pos isMapped, ih, mem_cons]
      constructor
      · exact fun both => ⟨.inr both.1, both.2⟩
      · rintro ⟨rfl | later, new⟩
        · exact absurd isMapped new
        · exact ⟨later, new⟩
    · rw [if_neg isMapped, mem_cons, ih, mem_cons, mem_cons]
      by_cases here : va = page
      · subst here
        exact iff_of_true (.inl rfl) ⟨.inl rfl, isMapped⟩
      · simp only [here, false_or]

theorem nodup_freshPages : (freshPages pages mapped).Nodup := by
  induction pages generalizing mapped with
  | nil => exact nodup_nil
  | cons page rest ih =>
    rw [freshPages]
    split
    · exact ih
    · refine nodup_cons.mpr ⟨fun mem => ?_, ih⟩
      exact (mem_freshPages.mp mem).2 mem_cons_self

theorem mem_calls_script :
    va ∈ calls (script bytes segs mapped) ↔ (∃ s ∈ segs, va ∈ s.pages) ∧ va ∉ mapped := by
  induction segs generalizing mapped with
  | nil =>
    refine iff_of_false not_mem_nil ?_
    rintro ⟨⟨s, mem, _⟩, _⟩
    cases mem
  | cons s rest ih =>
    rw [calls_script_cons, mem_append, mem_freshPages, ih, exists_mem_cons_iff]
    simp only [mem_append, mem_reverse, mem_freshPages]
    tauto

/-- **No page is mapped twice.** -/
theorem nodup_calls_script : (calls (script bytes segs mapped)).Nodup := by
  induction segs generalizing mapped with
  | nil => exact nodup_nil
  | cons s rest ih =>
    rw [calls_script_cons]
    refine Nodup.append nodup_freshPages ih fun va here later => ?_
    exact (mem_calls_script.mp later).2 (mem_append_left _ (mem_reverse.mpr here))

/-- **The script leaves the image of its segments.** -/
theorem image_script [Mapper] (isRoot : root ∈ roots) (sound : ∀ s ∈ segs, s.Sound bytes ∧ 0 < s.memsz)
    (image : Image kernel roots root ram₀ mapped log ram a)
    (done : performs root (script bytes segs mapped) ram = some ram₁) :
    ∃ a₁, Image kernel roots root ram₀ ((calls (script bytes segs mapped)).reverse ++ mapped)
      (log ++ segs.map (·.store bytes)) ram₁ a₁ := by
  induction segs generalizing mapped log ram a with
  | nil =>
    cases done
    refine ⟨a, ?_⟩
    rw [map_nil, append_nil]
    exact image
  | cons s rest ih =>
    obtain ⟨⟨soundHere, positive⟩, later⟩ := forall_mem_cons.mp sound
    rw [script, performs_append] at done
    obtain ⟨ram₂, mapsAll, done⟩ := bind_eq_some_iff.mp done
    rw [performs, Event.perform] at done
    obtain ⟨ram₃, stores, done⟩ := bind_eq_some_iff.mp done
    obtain ⟨a₂, image₂⟩ := image.maps isRoot mapsAll
    have length := soundHere.length_content
    have image₃ := image₂.pokes isRoot (s.content bytes) (by rw [length]; exact soundHere.inUser)
      (fun x low high => ?_) stores
    · obtain ⟨a₁, image₁⟩ := ih later image₃ done
      refine ⟨a₁, ?_⟩
      rw [calls_script_cons, reverse_append, append_assoc, map_cons, append_cons]
      exact image₁
    · rw [length] at high
      rw [← pageKey_page]
      refine mem_map_of_mem ?_
      have inPages := (mem_pages positive).mpr ⟨x, low, high, rfl⟩
      by_cases isMapped : 4096 * (x / 4096) ∈ mapped
      · exact mem_append_right _ isMapped
      · exact mem_append_left _ (mem_reverse.mpr (mem_freshPages.mpr ⟨inPages, isMapped⟩))

/-! ### The image that a file describes -/

def Segment.Covers (s : Segment) (x : ℕ) : Prop := s.vaddr ≤ x ∧ x < s.vaddr + s.memsz

/-- What the segment has there: a byte of the file, or a zero behind them. -/
def Segment.byteAt (s : Segment) (bytes : List UInt8) (x : ℕ) : UInt8 :=
  if x - s.vaddr < s.filesz then bytes.getD (s.offset + (x - s.vaddr)) 0 else 0

/-- The segments of the file that are not empty, as what is to be done. -/
def scriptOf (bytes : List UInt8) : List Event := script bytes ((segments bytes).filter (0 < ·.memsz)) []

/-- **The memory depicts the file.** -/
structure Depicts [Mapper] (bytes : List UInt8) (root : Frame) (ram ram₁ : Ram) : Prop where
  sound : ∀ s ∈ segments bytes, s.Sound bytes
  /-- Nothing else is done than to map pages, each of them once, and to store the segments. -/
  performed : performs root (scriptOf bytes) ram = some ram₁
  once : (calls (scriptOf bytes)).Nodup
  pages : ∀ va, va ∈ calls (scriptOf bytes) ↔
    ∃ s ∈ segments bytes, ∃ x, s.Covers x ∧ va = 4096 * (x / 4096)
  unmapped : ∀ va ∈ calls (scriptOf bytes), translatePage ram.memory root va = none
  mapped : ∀ va < 2 ^ 48, translatePage ram₁.memory root va ≠ none ↔
    translatePage ram.memory root va ≠ none ∨ 4096 * (va / 4096) ∈ calls (scriptOf bytes)
  /-- Each byte is that of the last segment in the table which covers it. -/
  bytes : ∀ front s back x, segments bytes = front ++ s :: back → s.Covers x → (∀ t ∈ back, ¬ t.Covers x) →
    peek root x ram₁ = some (s.byteAt bytes x)

section Depicts

theorem Segment.Sound.cell (sound : s.Sound bytes) (covers : s.Covers x) :
    (s.store bytes).cell x = some (s.byteAt bytes x) := by
  obtain ⟨low, high⟩ := covers
  have inFile := sound.inFile
  have filled := sound.filled
  have length : ((bytes.drop s.offset).take s.filesz).length = s.filesz := by
    rw [length_take, length_drop]
    omega
  obtain ⟨i, rfl⟩ := Nat.exists_eq_add_of_le low
  have here : (s.store bytes).cell (s.vaddr + i) = (s.content bytes)[i]? := Store.cell_add
  rw [here, Segment.content, Segment.byteAt, Nat.add_sub_cancel_left]
  by_cases fromFile : i < s.filesz
  · rw [if_pos fromFile, getElem?_append_left (by omega), getElem?_take, if_pos fromFile,
      getElem?_drop, getD_eq_getElem?_getD, getElem?_eq_getElem (by omega), getD_some]
  · rw [if_neg fromFile, getElem?_append_right (by omega), length, getElem?_replicate, if_pos (by omega)]

theorem Segment.Sound.cell_eq_none (sound : s.Sound bytes) (outside : ¬ s.Covers x) :
    (s.store bytes).cell x = none := by
  rw [Store.cell_eq_none, Store.stop, Segment.store, sound.length_content]
  unfold Segment.Covers at outside
  simp only
  omega

theorem mem_calls_scriptOf : va ∈ calls (scriptOf bytes) ↔
    ∃ s ∈ segments bytes, ∃ x, s.Covers x ∧ va = 4096 * (x / 4096) := by
  rw [scriptOf, mem_calls_script]
  constructor
  · rintro ⟨⟨s, mem, isPage⟩, _⟩
    obtain ⟨isSegment, positive⟩ := mem_filter.mp mem
    obtain ⟨x, low, high, isVa⟩ := (mem_pages (of_decide_eq_true positive)).mp isPage
    exact ⟨s, isSegment, x, ⟨low, high⟩, isVa⟩
  · rintro ⟨s, isSegment, x, ⟨low, high⟩, isVa⟩
    have positive : 0 < s.memsz := by omega
    refine ⟨⟨s, mem_filter.mpr ⟨isSegment, decide_eq_true positive⟩, ?_⟩, not_mem_nil⟩
    exact (mem_pages positive).mpr ⟨x, low, high, isVa⟩

theorem translatePage_ne_none [Mapper] (memory : Memory) (va : ℕ) :
    translatePage memory root va ≠ none ↔ pageState memory root va = .mapped := by
  rw [Ne, translatePage_eq_none_iff, not_not]

section

variable (sound : ∀ s ∈ segments bytes, s.Sound bytes)
include sound

/-- Empty segments leave nothing. -/
theorem written_segments (x : ℕ) : written (((segments bytes).filter (0 < ·.memsz)).map (·.store bytes)) x =
      written ((segments bytes).map (·.store bytes)) x := by
  rw [← written_filter ((segments bytes).map (·.store bytes)) (0 < ·.cells.length) ?_ x, List.filter_map]
  · congr 2
    refine List.filter_congr fun s mem => ?_
    show decide (0 < s.memsz) = decide (0 < (s.content bytes).length)
    rw [(sound s mem).length_content]
  · intro w _ nothing
    exact List.length_eq_zero_iff.mp (Nat.eq_zero_of_not_pos (of_decide_eq_false nothing))

/-- The keys of the pages that were mapped are those of their addresses. -/
theorem mem_keys_calls (low : va < 2 ^ 48) :
    pageKey va ∈ (calls (scriptOf bytes)).map pageKey ↔ 4096 * (va / 4096) ∈ calls (scriptOf bytes) := by
  constructor
  · intro mem
    obtain ⟨va', isCall, same⟩ := mem_map.mp mem
    obtain ⟨s, isSegment, x, ⟨_, high⟩, rfl⟩ := mem_calls_scriptOf.mp isCall
    have inUser := (sound s isSegment).inUser
    rw [userSpaceEnd] at inUser
    have page := page_of_pageKey (by omega) low same
    have sameAddress : 4096 * (x / 4096) = 4096 * (va / 4096) := by omega
    rwa [← sameAddress]
  · intro isCall
    rw [← pageKey_page]
    exact mem_map_of_mem isCall

theorem depicts_of_image [Mapper]
    (ran : performs root (scriptOf bytes) ram = some ram₁)
    (image : Image kernel roots root ram ((calls (scriptOf bytes)).reverse ++ [])
      ([] ++ ((segments bytes).filter (0 < ·.memsz)).map (·.store bytes)) ram₁ a₁) :
    Depicts bytes root ram ram₁ := by
  refine ⟨sound, ran, nodup_calls_script, fun va => mem_calls_scriptOf, fun va isCall => ?_,
    fun va low => ?_, fun front s back x isTable covers last => ?_⟩
  · have free := image.free va (mem_append_left _ (mem_reverse.mpr isCall))
    rw [translatePage_eq_none_iff, free]
    exact PageState.noConfusion
  · have state := image.states va
    rw [append_nil, map_reverse] at state
    simp only [mem_reverse, mem_keys_calls sound low] at state
    rw [translatePage_ne_none, translatePage_ne_none, state]
    by_cases isCall : 4096 * (va / 4096) ∈ calls (scriptOf bytes)
    · rw [if_pos isCall]
      exact iff_of_true rfl (.inr isCall)
    · rw [if_neg isCall]
      exact (or_iff_left isCall).symm
  · refine (image.bytes x _ ?_).2.2
    have isSound (t : Segment) (mem : t ∈ front ++ s :: back) : t.Sound bytes := sound t (isTable ▸ mem)
    rw [nil_append, written_segments sound, isTable, map_append, map_cons]
    refine written_last ((isSound s ?_).cell covers) fun w mem => ?_
    · exact mem_append_right _ mem_cons_self
    · obtain ⟨t, behind, rfl⟩ := mem_map.mp mem
      refine (isSound t ?_).cell_eq_none (last t behind)
      exact mem_append_right _ (mem_cons_of_mem s behind)

end

end Depicts

/-- **A program is loaded as its file describes it.** For every file the reads of the loader stay in the file
and its arithmetic in a machine word; if it succeeds, in any space, the memory depicts the file. -/
theorem load_depicts [Mapper] (bytes : List UInt8) (small : bytes.length < 2 ^ 64) :
    (Yields (headerExact bytes) (header bytes) ∧
      ∀ h, header bytes = .ok h → ∀ i < h.phnum, h.programHeaderExact i = some (h.phoff + i * h.phentsize) ∧
        Yields (segmentExact bytes (h.phoff + i * h.phentsize)) (segment bytes (h.phoff + i * h.phentsize))) ∧
    ∀ kernel roots root ram a, Valid kernel ram a roots [] → KernelTables ram.memory kernel → root ∈ roots →
      ∀ gap entry ram₁, load gap bytes root ram = some (.ok entry, ram₁) →
        entry = fieldAt 8 bytes 0x18 ∧ Depicts bytes root ram ram₁ := by
  refine ⟨⟨yields_header small, fun h read i inTable => ?_⟩, ?_⟩
  · exact ⟨programHeaderExact_eq small read inTable, yields_segment small (programHeader_fits read inTable)⟩
  · intro kernel roots root ram a valid tables isRoot gap entry ram₁ done
    obtain ⟨isEntry, sound, ran⟩ := load_script done
    have both : ∀ s ∈ (segments bytes).filter (0 < ·.memsz), s.Sound bytes ∧ 0 < s.memsz := by
      intro s mem
      obtain ⟨isSegment, positive⟩ := mem_filter.mp mem
      exact ⟨sound s isSegment, of_decide_eq_true positive⟩
    obtain ⟨a₁, image⟩ := image_script isRoot both (Image.start valid tables) ran
    exact ⟨isEntry, depicts_of_image sound ran image⟩

/-- A file with two segments that share a page; the first one begins with four bytes of the file. -/
def sharedPage : List UInt8 := smallFile 0x7F8000000000 [⟨0, 0x7F8000000000, 4, 16⟩, ⟨0, 0x7F8000000010, 0, 16⟩]

theorem load_depicts_shared_page : ∃ root ram ram₁, newSharingKernel 100 smallRam = some (root, ram) ∧
    load false sharedPage root ram = some (.ok 0x7F8000000000, ram₁) ∧ Depicts sharedPage root ram ram₁ ∧
    peek root 0x7F8000000001 ram₁ = some 0x45 := by
  obtain ⟨a, valid, many⟩ := smallRam_valid
  have tables : KernelTables smallRam.memory 100 := kernelTables_zero 100
  have planned : plan false sharedPage (pageState smallRam.memory 100) =
      some (.ok 0x7F8000000000, [0x7F8000000000]) := by decide +kernel
  obtain ⟨root, ram, ram₁, _, _, made, done, _⟩ := exists_load valid tables planned (by rw [many]; decide)
  rcases newSharingKernel_spec valid with ⟨root', ram', a', made', begins⟩ | ⟨failed, _⟩
  · obtain ⟨rfl, rfl⟩ := Prod.mk.inj (some.inj (made'.symm.trans made))
    have start := Loaded.start valid tables begins
    have depicts := ((load_depicts sharedPage (by decide +kernel)).2 100 [root'] root' ram' a' start.valid
      start.tables mem_cons_self _ _ _ done).2
    have listed : segments sharedPage = [⟨0, 0x7F8000000000, 4, 16⟩, ⟨0, 0x7F8000000010, 0, 16⟩] := by
      decide +kernel
    have byte := depicts.bytes [] _ _ 0x7F8000000001 listed ⟨by decide, by decide⟩
      (forall_mem_singleton.mpr fun covers => absurd covers.1 (by decide))
    exact ⟨root', ram', ram₁, made, done, depicts, byte.trans (by decide +kernel)⟩
  · cases failed.symm.trans made

end Ferros.Exec
