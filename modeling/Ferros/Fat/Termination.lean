/-
**Every traversal ends, on any disk.**

Nothing is assumed about the image: links may form cycles or leave the volume, directories may hold any bytes,
and any request may fail. Most loops of the driver count their turns (`steps_left`). The loop of `read_entry` and
the two of `alloc_cluster` do not; the model gives them fuel, and it is shown that more fuel would change nothing.

* `readChain_eq`, `scanEntries_eq`, `allocFrom_eq` — **the loops without a count end by themselves.**
* `traversals_terminate` — all of them, with what `read_entry` returns and the places they look at.
-/

import Ferros.Fat.Alloc

namespace Ferros.Fat

open Lib List

variable {α β : Type} {vol : Fat32} {fuel cluster c n remaining sector k : ℕ} {data : Bytes} {buf : Sector}
  {m : FatM α} {f g : α → FatM β}

/-! ### Programs that end -/

/-- **A program that ends**: a finite tree of requests, whatever the device answers. -/
def Ends {α : Type} (m : FatM α) : Prop := Sends (fun _ => True) (fun _ => True) m

/-- What follows a program need only be known after the values that it returns. -/
theorem bind_congr_of_runs {P : α → Prop}
    (runs : ∀ disk, Runs False (fun _ => True) m disk (fun value _ => P value) fun _ _ => True)
    (same : ∀ value, P value → f value = g value) : m >>= f = m >>= g := by
  have alike : ∀ dev, exec (m >>= f) dev = exec (m >>= g) dev := by
    intro dev
    rw [exec_bind, exec_bind]
    rcases ran : exec m dev with ⟨outcome, dev'⟩
    cases outcome with
    | error e => rfl
    | ok value =>
      have holds : P value := (runs dev.disk).of_ok False.elim (by rw [ran])
      show exec (f value) dev' = exec (g value) dev'
      rw [same value holds]
  exact funext alike

namespace Fat32

/-! ### Loops that count their turns -/

section

variable {allowed : ℕ → Prop} {first prev : ℕ} (fat : ∀ c, vol.validCluster c → ∀ k < vol.numFats,
  allowed (vol.fatSector k c))
include fat

theorem sends_writeFatEntry (valid : vol.validCluster c) (value : ℕ) :
    Sends allowed (fun _ => True) (vol.writeFatEntry c value) := by
  have copies : ∀ l : List ℕ, (∀ k ∈ l, k < vol.numFats) →
      Sends allowed (fun _ => True) (vol.writeFatCopies c value l) := by
    intro l all
    induction l with
    | nil => exact .pure trivial
    | cons k rest ih =>
      refine (fetches_readSector _).sends.bind fun _ _ => (Sends.writeBlock ?_).bind fun _ _ => ?_
      · exact fat c valid k (all k mem_cons_self)
      · exact ih fun k' mem => all k' (mem_cons_of_mem _ mem)
  exact copies _ fun k mem => mem_range.mp mem

theorem sends_freeFrom (n c : ℕ) : Sends allowed (fun _ => True) (vol.freeFrom n c) := by
  induction n generalizing c with
  | zero => exact .pure trivial
  | succ n ih =>
    rw [freeFrom]
    split
    · rename_i valid
      refine (fetches_nextCluster c).sends.bind fun next _ => ?_
      exact (sends_writeFatEntry fat valid 0).bind fun _ _ => ih next
    · exact .pure trivial

theorem sends_giveBack (first : ℕ) (e : FatError) :
    Sends allowed (fun _ => True) (do let _ ← attempt (vol.freeChain first); throw e : FatM α) :=
  (sends_freeFrom fat _ first).attempt.bind fun _ _ => .throw e

/-- **`alloc_cluster` returns a valid cluster**, whatever it reads. -/
theorem sends_allocFrom (low : firstDataCluster ≤ c) :
    Sends allowed (vol.validCluster · = true) (vol.allocFrom fuel c) := by
  induction fuel generalizing c with
  | zero => exact .throw _
  | succ fuel ih =>
    rw [allocFrom]
    split
    · refine (fetches_readSector _).sends.bind fun buf _ => ?_
      rcases scanned :
        vol.scanEntries buf (vol.fatStartSector + c / fatEntriesPerSector) fatEntriesPerSector c with
        ⟨past, hit⟩
      obtain ⟨reached, inside, -⟩ := scanEntries_moves scanned
      cases hit with
      | true =>
        have valid : vol.validCluster past := validCluster_iff.mpr ⟨low.trans reached, inside rfl⟩
        exact (sends_writeFatEntry fat valid _).bind fun _ _ => .pure valid
      | false => exact ih (low.trans reached)
    · exact .throw _

theorem sends_allocLoop (linked : first ≠ 0 → vol.validCluster prev) :
    Sends allowed (fun _ => True) (vol.allocLoop n first prev) := by
  induction n generalizing first prev with
  | zero => exact .pure trivial
  | succ n ih =>
    rw [allocLoop]
    refine (sends_allocFrom fat le_rfl).attempt.bind fun outcome valid => ?_
    cases outcome with
    | error e =>
      simp only
      split
      · exact sends_giveBack fat first e
      · exact .throw e
    | ok c =>
      simp only
      split
      · exact ih fun _ => valid c rfl
      · rename_i nonzero
        exact (sends_writeFatEntry fat (linked nonzero) c).bind fun _ _ => ih fun _ => valid c rfl

omit fat in
theorem sends_writeSectors {sectors : List ℕ} (all : ∀ s ∈ sectors, allowed s) (written : ℕ) :
    Sends allowed (fun _ => True) (writeSectors data sectors written) := by
  induction sectors generalizing written with
  | nil => exact .pure trivial
  | cons sector rest ih =>
    rw [writeSectors]
    split
    · exact .pure trivial
    · exact (Sends.writeBlock (all sector mem_cons_self)).bind fun _ _ =>
        ih (fun s mem => all s (mem_cons_of_mem _ mem)) _

end

theorem ends_writeFrom (n c written : ℕ) : Ends (vol.writeFrom data n c written) := by
  induction n generalizing c written with
  | zero => exact .pure trivial
  | succ n ih =>
    rw [writeFrom]
    split
    · exact (sends_writeSectors (fun _ _ => trivial) _).bind fun _ _ =>
        (fetches_nextCluster c).sends.bind fun _ _ => ih _ _
    · exact .pure trivial

theorem fetches_readChain (fuel c remaining : ℕ) (data : Bytes) :
    Fetches (vol.readChain fuel c remaining data) := by
  have sectors : ∀ (l : List ℕ) (remaining : ℕ) (data : Bytes), Fetches (readSectors l remaining data) := by
    intro l
    induction l with
    | nil => exact fun _ _ => .pure _
    | cons sector rest ih =>
      intro remaining data
      rw [readSectors]
      split
      · exact .pure _
      · exact (fetches_readSector sector).bind fun _ => ih _ _
  induction fuel generalizing c remaining data with
  | zero => exact .pure _
  | succ fuel ih =>
    rw [readChain]
    split
    · exact (sectors _ _ _).bind fun _ => (fetches_nextCluster c).bind fun _ => ih _ _ _
    · exact .pure _

/-! ### Loops that do not -/

/-- **`read_entry` ends by itself**: a turn reads a byte at least. -/
theorem readChain_eq (enough : remaining ≤ fuel) (more : remaining ≤ k) :
    vol.readChain fuel c remaining data = vol.readChain k c remaining data := by
  have ended : ∀ fuel c data, vol.readChain fuel c 0 data = pure data := by
    intro fuel c data
    cases fuel with
    | zero => rfl
    | succ fuel => rw [readChain, if_neg fun both => Nat.lt_irrefl 0 both.1]
  induction fuel generalizing k c remaining data with
  | zero =>
    obtain rfl : remaining = 0 := Nat.le_zero.mp enough
    rw [ended, ended]
  | succ fuel ih =>
    cases k with
    | zero =>
      obtain rfl : remaining = 0 := Nat.le_zero.mp more
      rw [ended, ended]
    | succ k =>
      rw [readChain, readChain]
      split
      · rename_i going
        refine bind_congr_of_runs (P := fun read => read.1 < remaining) (fun disk => ?_) fun read less => ?_
        · refine (reads_readSectors _ _ _ _).mono (fun _ safe => safe) ?_ fun _ _ _ => trivial
          rintro _ _ ⟨-, ⟨⟩⟩
          have positive := vol.sectorsPerCluster_pos
          show remaining - _ < remaining
          rw [length_sectorsOf]
          omega
        · exact bind_congr fun next => ih (by omega) (by omega)
      · rfl

theorem length_readChain (disk : Disk) : Runs False (fun _ => True) (vol.readChain fuel c remaining data) disk
    (fun read _ => read.length ≤ data.length + remaining) fun _ _ => True := by
  induction fuel generalizing c remaining data with
  | zero => exact Runs.pure (Nat.le_add_right _ _)
  | succ fuel ih =>
    rw [readChain]
    split
    · refine (reads_readSectors _ _ _).before ((reads_nextCluster c).before (ih.mono (fun _ safe => safe)
        (fun read _ short => ?_) fun _ _ any => any) fun _ _ => trivial) fun _ _ => trivial
      rw [length_append, length_take, length_sectorBytes] at short
      omega
    · exact Runs.pure (Nat.le_add_right _ _)

/-- **The inner loop of `alloc_cluster` ends by itself**, at the end of the sector if not before. -/
theorem scanEntries_eq (enough : 128 ≤ cluster % 128 + fuel) (more : 128 ≤ cluster % 128 + k) :
    vol.scanEntries buf sector fuel cluster = vol.scanEntries buf sector k cluster := by
  have ended : ∀ fuel c, c / fatEntriesPerSector ≠ sector - vol.fatStartSector →
      vol.scanEntries buf sector fuel c = (c, false) := by
    intro fuel c past
    cases fuel with
    | zero => rfl
    | succ fuel => rw [scanEntries, if_neg fun both => past both.2]
  induction fuel generalizing k cluster with
  | zero => omega
  | succ fuel ih =>
    obtain ⟨k, rfl⟩ : ∃ k', k = k' + 1 := ⟨k - 1, by omega⟩
    rw [scanEntries, scanEntries]
    split
    · rename_i inside
      split
      · rfl
      · by_cases last : (cluster + 1) % 128 = 0
        · have past : (cluster + 1) / fatEntriesPerSector ≠ sector - vol.fatStartSector := by
            rw [← inside.2]
            unfold fatEntriesPerSector
            omega
          rw [ended _ _ past, ended _ _ past]
        · exact ih (by omega) (by omega)
    · rfl

/-- **Its outer loop ends by itself**: a turn passes a cluster at least. -/
theorem allocFrom_eq (enough : firstDataCluster + vol.clusterCount ≤ cluster + fuel)
    (more : firstDataCluster + vol.clusterCount ≤ cluster + k) :
    vol.allocFrom fuel cluster = vol.allocFrom k cluster := by
  have ended : ∀ fuel c, firstDataCluster + vol.clusterCount ≤ c → vol.allocFrom fuel c = throw .noSpace := by
    intro fuel c past
    cases fuel with
    | zero => rfl
    | succ fuel => rw [allocFrom, if_neg (not_lt.mpr past)]
  induction fuel generalizing k cluster with
  | zero => rw [ended 0 cluster enough, ended k cluster enough]
  | succ fuel ih =>
    cases k with
    | zero => rw [ended _ cluster more, ended 0 cluster more]
    | succ k =>
      rw [allocFrom, allocFrom]
      split
      · rename_i below
        refine bind_congr fun buf => ?_
        rcases scanned : vol.scanEntries buf (vol.fatStartSector + cluster / fatEntriesPerSector)
          fatEntriesPerSector cluster with ⟨past, hit⟩
        obtain ⟨-, -, advanced⟩ := scanEntries_moves scanned
        cases hit with
        | true => rfl
        | false =>
          have passed := advanced below rfl
          exact ih (by omega) (by omega)
      · rfl

/-- **Every traversal ends, on any disk and any device.** The loops that the model gives fuel to do the same with
any more of it; `read_entry` returns no more than was asked for; and every entry of the FAT, every slot of a
directory and every piece of a file that is looked at lies in its sector. -/
theorem traversals_terminate (vol : Fat32) :
    (∀ entry, Ends (vol.readEntry entry)) ∧ (∀ dir, Ends (vol.listDir dir)) ∧
    (∀ dir name, Ends (vol.findInDir dir name)) ∧ (∀ dir name, Ends (vol.locateEntry dir name)) ∧
    (∀ dir target, Ends (vol.locateOrFreeSlot dir target)) ∧ (∀ first, Ends (vol.freeChain first)) ∧
    (∀ first data, Ends (vol.writeChain first data)) ∧ Ends vol.allocCluster ∧ (∀ n, Ends (vol.allocChain n)) ∧
    (∀ (entry : DirEntry) (fuel : ℕ), entry.size ≤ fuel →
      vol.readChain fuel entry.firstCluster entry.size [] = vol.readEntry entry) ∧
    (∀ fuel, vol.clusterCount ≤ fuel → vol.allocFrom fuel firstDataCluster = vol.allocCluster) ∧
    (∀ buf sector cluster fuel, fatEntriesPerSector ≤ fuel →
      vol.scanEntries buf sector fuel cluster = vol.scanEntries buf sector fatEntriesPerSector cluster) ∧
    (∀ entry dev data, (exec (vol.readEntry entry) dev).1 = .ok data → data.length ≤ entry.size) ∧
    (∀ c, entryOffset c + 4 ≤ 512) ∧ (∀ i : Fin 16, 32 * i.1 + 32 ≤ 512) ∧ ∀ n, min n 512 ≤ 512 := by
  have fat (c : ℕ) (_ : vol.validCluster c) (k : ℕ) (_ : k < vol.numFats) : True := trivial
  refine ⟨fun _ => (fetches_readChain ..).sends, fun dir => (fetches_listDir dir).sends,
    fun dir name => (fetches_findInDir dir name).sends, fun dir name => (fetches_locateEntry dir name).sends,
    fun dir target => (fetches_locateOrFreeSlot dir target).sends, sends_freeFrom fat _,
    fun first data => ends_writeFrom _ first 0, (sends_allocFrom fat le_rfl).weaken,
    fun n => sends_allocLoop fat fun nonzero => absurd rfl nonzero,
    fun _ _ more => readChain_eq more le_rfl, fun _ more => allocFrom_eq (by omega) le_rfl,
    fun _ _ _ _ more => scanEntries_eq (by unfold fatEntriesPerSector at more; omega) (Nat.le_add_left _ _),
    fun entry dev data read => ?_, entryOffset_fits, fun i => by omega, fun n => Nat.min_le_right n 512⟩
  have short := (length_readChain dev.disk).of_ok False.elim read
  simpa using short

end Fat32

end Ferros.Fat
