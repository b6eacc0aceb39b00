/-
**All copies of the FAT.**

The driver reads the first copy of the FAT only, but writes every entry to all copies. Here is what its writes
do to each copy, with the four reserved bits of the entries.

* `Kept` — **a property of images that the writes of the driver keep**; `kept_copiesAgree`.
-/

import Ferros.Fat.Content

namespace Ferros.Fat

open Lib List Function

/-! ### The bits of an entry -/

def reservedBits (entry : ℕ) : ℕ := entry &&& 0xF0000000

/-- An entry with a new value, as `write_fat_entry` computes it. -/
def setEntry (old value : ℕ) : ℕ := reservedBits old ||| (value &&& fat32EntryMask)

theorem rawEntry_lt (buf : Sector) (cluster : ℕ) : rawEntry buf cluster < 2 ^ 32 := leVal_lt 4 _

theorem setEntry_lt (old value : ℕ) : setEntry old value < 2 ^ 32 := by
  refine Nat.or_lt_two_pow ?_ ?_
  · exact Nat.and_le_right.trans_lt (by decide)
  · exact Nat.and_le_right.trans_lt (by decide)

theorem rawEntry_putEntry (buf : Sector) (cluster value : ℕ) :
    rawEntry (putEntry buf cluster value) cluster = setEntry (rawEntry buf cluster) value := by
  have fits : setEntry (rawEntry buf cluster) value < 256 ^ 4 := setEntry_lt _ _
  unfold putEntry
  rw [rawEntry, readU32, slice_splice_same, leVal_leBytes]
  exact Nat.mod_eq_of_lt fits

theorem reservedBits_setEntry (old value : ℕ) : reservedBits (setEntry old value) = reservedBits old := by
  unfold setEntry reservedBits
  rw [Nat.and_or_distrib_right, Nat.and_assoc, Nat.and_assoc]
  have disjoint : fat32EntryMask &&& 0xF0000000 = 0 := by decide
  rw [disjoint, Nat.and_zero, Nat.or_zero]
  rfl

theorem setEntry_and_mask (old value : ℕ) :
    setEntry old value &&& fat32EntryMask = value &&& fat32EntryMask := by
  unfold setEntry reservedBits
  rw [Nat.and_or_distrib_right, Nat.and_assoc, Nat.and_assoc, Nat.and_self]
  have disjoint : 0xF0000000 &&& fat32EntryMask = 0 := by decide
  rw [disjoint, Nat.and_zero, Nat.zero_or]

theorem setEntry_zero (old : ℕ) : setEntry old 0 = reservedBits old := by
  unfold setEntry
  rw [Nat.zero_and, Nat.or_zero]

theorem reservedBits_of_free {entry : ℕ} (small : entry < 2 ^ 32) (free : entry &&& fat32EntryMask = 0) :
    reservedBits entry = entry := by
  have split : reservedBits entry ||| (entry &&& fat32EntryMask) = entry := by
    unfold reservedBits
    rw [← Nat.and_or_distrib_left]
    exact (Nat.and_two_pow_sub_one_eq_mod entry 32).trans (Nat.mod_eq_of_lt small)
  rw [free, Nat.or_zero] at split
  exact split

theorem sector_ext {buf buf' : Sector} (row : ℕ)
    (entries : ∀ c, c * 4 / 512 = row → rawEntry buf c = rawEntry buf' c) : buf = buf' := by
  funext k
  have same := entries (128 * row + k / 4) (by omega)
  have offset : entryOffset (128 * row + k / 4) = 4 * (k / 4) := by
    unfold entryOffset
    omega
  have bytes := leVal_injective 4 same
  have here := congrFun bytes ⟨k % 4, by omega⟩
  unfold slice at here
  have place : (⟨entryOffset (128 * row + k / 4) + k % 4, by omega⟩ : Fin 512) = k := by
    refine Fin.ext ?_
    simp only
    omega
  simpa only [place] using here

namespace Fat32

variable (vol : Fat32) {fat c sector c' value k n : ℕ} {disk image : Disk} {l : List ℕ} {P : Disk → Prop}

/-! ### Entries of all copies -/

def InFat (sector : ℕ) : Prop :=
  vol.fatStartSector ≤ sector ∧ sector < vol.fatStartSector + vol.numFats * vol.fatSize

/-- The entry of a cluster in copy `fat`, all 32 bits. -/
def raw (disk : Disk) (fat c : ℕ) : ℕ := rawEntry (disk (vol.fatSector fat c)) c

/-- **The copies agree on all entries**, those of valid clusters and the others, as far as `view` shows them. -/
def CopiesAgree (view : ℕ → ℕ) (disk : Disk) : Prop :=
  ∀ fat < vol.numFats, ∀ c, c * 4 / 512 < vol.fatSize → view (vol.raw disk fat c) = view (vol.raw disk 0 c)

/-- A property that complete writes of entries of valid clusters keep. -/
def KeptByEntries (P : Disk → Prop) : Prop :=
  ∀ disk c value, vol.validCluster c = true → P disk → P (vol.putCopies disk c value vol.numFats)

/-- **What the writes of the driver keep**, whatever it writes: complete entries of valid clusters, and sectors
of the data area. -/
structure Kept (P : Disk → Prop) : Prop where
  entry : vol.KeptByEntries P
  data : ∀ disk sector buf, vol.dataStartSector ≤ sector → P disk → P (update disk sector buf)

variable {vol}

/-- Copies of the FAT are rows of sectors, one behind the other. -/
theorem inFat_fatSector (isCopy : fat < vol.numFats) (inside : c * 4 / 512 < vol.fatSize) :
    vol.InFat (vol.fatSector fat c) := by
  have rows : (fat + 1) * vol.fatSize ≤ vol.numFats * vol.fatSize := Nat.mul_le_mul_right _ isCopy
  rw [Nat.succ_mul] at rows
  unfold InFat fatSector
  omega

theorem exists_fatSector (inFat : vol.InFat sector) : ∃ fat row, fat < vol.numFats ∧ row < vol.fatSize ∧
      ∀ c, c * 4 / 512 = row → vol.fatSector fat c = sector := by
  obtain ⟨low, high⟩ := inFat
  have positive : 0 < vol.fatSize := Nat.pos_of_ne_zero fun zero => by
    rw [zero, Nat.mul_zero] at high
    omega
  refine ⟨(sector - vol.fatStartSector) / vol.fatSize, (sector - vol.fatStartSector) % vol.fatSize, ?_,
    Nat.mod_lt _ positive, fun c row => ?_⟩
  · rw [Nat.div_lt_iff_lt_mul positive]
    omega
  · have whole := Nat.div_add_mod' (sector - vol.fatStartSector) vol.fatSize
    unfold fatSector
    omega

section

variable (sound : vol.Sound)
include sound

/-- **What a write makes of the entries of a copy.** -/
theorem raw_putCopies (valid : vol.validCluster c) (inside : c' * 4 / 512 < vol.fatSize)
    (k : ℕ) : vol.raw (vol.putCopies disk c value k) fat c' =
      if c' = c ∧ fat < k then setEntry (vol.raw disk fat c') value else vol.raw disk fat c' := by
  have insideC := sound.entryFits c valid
  induction k with
  | zero => rw [if_neg fun both => Nat.not_lt_zero _ both.2, putCopies]
  | succ k ih =>
    by_cases here : vol.fatSector fat c' = vol.fatSector k c
    · obtain ⟨rfl, row⟩ := fatSector_inj inside insideC here
      -- copy `fat` has not been written before
      have before : vol.raw (vol.putCopies disk c value fat) fat c' = vol.raw disk fat c' := by
        rw [ih, if_neg fun both => Nat.lt_irrefl _ both.2]
      have now : vol.raw (vol.putCopies disk c value (fat + 1)) fat c' =
          rawEntry (putEntry (vol.putCopies disk c value fat (vol.fatSector fat c)) c value) c' := by
        rw [raw, putCopies, here, update_self]
      rw [now]
      by_cases same : c' = c
      · subst same
        rw [if_pos ⟨rfl, Nat.lt_succ_self _⟩, rawEntry_putEntry]
        exact congrArg (setEntry · value) before
      · rw [if_neg fun both => same both.1, rawEntry_putEntry_other row.symm same, ← here]
        exact before
    · have away : vol.raw (vol.putCopies disk c value (k + 1)) fat c' =
          vol.raw (vol.putCopies disk c value k) fat c' := by
        rw [raw, putCopies, update_of_ne here, raw]
      have other : c' = c → fat ≠ k := by
        rintro rfl rfl
        exact here rfl
      rw [away, ih]
      refine if_congr (and_congr_right fun same => ?_) rfl rfl
      have apart := other same
      omega

theorem putCopies_outside (valid : vol.validCluster c) (copies : k ≤ vol.numFats)
    (outside : ¬ vol.InFat sector) : vol.putCopies disk c value k sector = disk sector := by
  induction k with
  | zero => rfl
  | succ k ih =>
    have elsewhere : sector ≠ vol.fatSector k c := by
      rintro rfl
      exact outside (inFat_fatSector copies (sound.entryFits c valid))
    rw [putCopies, update_of_ne elsewhere, ih (by omega)]

/-- The data area is no part of the FAT. -/
theorem Sound.not_inFat (data : vol.dataStartSector ≤ sector) : ¬ vol.InFat sector := fun inFat => by
  have regions := sound.regions
  have high := inFat.2
  omega

/-- **Complete writes keep the copies in agreement**, in every view that a new value determines. -/
theorem kept_copiesAgree {view : ℕ → ℕ} (determined : ∀ old old' value,
      view old = view old' → view (setEntry old value) = view (setEntry old' value)) :
    vol.Kept (vol.CopiesAgree view) where
  entry disk c value valid agree := by
    intro fat isCopy c' inside
    rw [raw_putCopies sound valid inside, raw_putCopies sound valid inside]
    by_cases same : c' = c
    · rw [if_pos ⟨same, isCopy⟩, if_pos ⟨same, vol.numFats_pos⟩]
      exact determined _ _ _ (agree fat isCopy c' inside)
    · rw [if_neg fun both => same both.1, if_neg fun both => same both.1]
      exact agree fat isCopy c' inside
  data disk sector buf data agree := by
    intro fat isCopy c inside
    have apart : ∀ fat < vol.numFats, vol.fatSector fat c ≠ sector := by
      rintro fat isCopy rfl
      exact sound.not_inFat data (inFat_fatSector isCopy inside)
    have entry : ∀ fat < vol.numFats, vol.raw (update disk sector buf) fat c = vol.raw disk fat c := by
      intro fat isCopy
      rw [raw, update_of_ne (apart fat isCopy), raw]
    rw [entry fat isCopy, entry 0 vol.numFats_pos]
    exact agree fat isCopy c inside

theorem kept_identical : vol.Kept (vol.CopiesAgree id) :=
  kept_copiesAgree sound fun _ _ _ same => congrArg (setEntry · _) same

end

theorem image_ext (outside : ∀ sector, ¬ vol.InFat sector → image sector = disk sector)
    (entries : ∀ fat < vol.numFats, ∀ c, c * 4 / 512 < vol.fatSize → vol.raw image fat c = vol.raw disk fat c) :
    image = disk := by
  funext sector
  by_cases inFat : vol.InFat sector
  · obtain ⟨fat, row, isCopy, inside, here⟩ := exists_fatSector inFat
    refine sector_ext row fun c inRow => ?_
    have same := entries fat isCopy c (inRow.trans_lt inside)
    rw [raw, raw, here c inRow] at same
    exact same
  · exact outside sector inFat

/-! ### A chain that is given back -/

section

section KeptByEntries

variable (kept : vol.KeptByEntries P)
include kept

theorem KeptByEntries.freed (valid : ∀ c ∈ l, vol.validCluster c) (holds : P disk) : P (vol.freed disk l) := by
  induction l generalizing disk with
  | nil => exact holds
  | cons c rest ih =>
    exact ih (fun x mem => valid x (mem_cons_of_mem _ mem)) (kept disk c 0 (valid c mem_cons_self) holds)

theorem KeptByEntries.built (sound : vol.Sound) (built : vol.Built disk l image) (holds : P disk) : P image := by
  induction built with
  | single valid free => exact kept _ _ _ valid holds
  | @extend front last c image built valid free ih =>
    have inLast : last ∈ front ++ [last] := mem_append_right _ (mem_singleton_self last)
    exact kept _ _ _ ((built.spec sound).2.1 last inLast).1 (kept _ _ _ valid ih)

theorem KeptByEntries.rolledBack (sound : vol.Sound) (rolledBack : vol.RolledBack disk n image)
    (holds : P disk) : P image := by
  rcases rolledBack with ⟨rfl, -, -⟩ | ⟨l, full, -, built, -, rfl⟩
  · exact holds
  · exact kept.freed (fun c mem => ((built.spec sound).2.1 c mem).1) (kept.built sound built holds)

end KeptByEntries

variable (sound : vol.Sound)
include sound

theorem keptByEntries_outside (disk : Disk) :
    vol.KeptByEntries fun image => ∀ sector, ¬ vol.InFat sector → image sector = disk sector :=
  fun _ _ _ valid same sector outside => (putCopies_outside sound valid le_rfl outside).trans
  (same sector outside)

theorem keptByEntries_reserved (inside : c * 4 / 512 < vol.fatSize) (bits : ℕ) :
    vol.KeptByEntries fun image => reservedBits (vol.raw image fat c) = bits := by
  intro image c' value valid same
  rw [raw_putCopies sound valid inside]
  split
  · rw [reservedBits_setEntry, same]
  · exact same

/-- A new chain changes its own entries only. -/
theorem Built.raw_other (built : vol.Built disk l image) (inside : c * 4 / 512 < vol.fatSize) (other : c ∉ l) :
    vol.raw image fat c = vol.raw disk fat c := by
  induction built with
  | single valid free =>
    rw [raw_putCopies sound valid inside, if_neg fun both => other (mem_singleton.mpr both.1)]
  | @extend front last new image built valid free ih =>
    have inLast : last ∈ front ++ [last] := mem_append_right _ (mem_singleton_self last)
    have notLast : c ≠ last := fun same => other (mem_append_left _ (same ▸ inLast))
    have notNew : c ≠ new := fun same => other (mem_append_right _ (mem_singleton.mpr same))
    rw [raw_putCopies sound ((built.spec sound).2.1 last inLast).1 inside, if_neg fun both => notLast both.1,
      raw_putCopies sound valid inside, if_neg fun both => notNew both.1]
    exact ih fun mem => other (mem_append_left _ mem)

theorem raw_freed_other (valid : ∀ c ∈ l, vol.validCluster c) (inside : c * 4 / 512 < vol.fatSize)
    (other : c ∉ l) : vol.raw (vol.freed disk l) fat c = vol.raw disk fat c := by
  induction l generalizing disk with
  | nil => rfl
  | cons head rest ih =>
    obtain ⟨notHead, notRest⟩ := ne_and_not_mem_of_not_mem_cons other
    rw [freed, ih (fun x mem => valid x (mem_cons_of_mem _ mem)) notRest,
      raw_putCopies sound (valid head mem_cons_self) inside, if_neg fun both => notHead both.1]

/-- The entries that are given back are left with their reserved bits. -/
theorem raw_freed (valid : ∀ c ∈ l, vol.validCluster c) (isCopy : fat < vol.numFats)
    (inside : c * 4 / 512 < vol.fatSize) (mem : c ∈ l) :
    vol.raw (vol.freed disk l) fat c = reservedBits (vol.raw disk fat c) := by
  induction l generalizing disk with
  | nil => exact absurd mem not_mem_nil
  | cons head rest ih =>
    have validRest : ∀ x ∈ rest, vol.validCluster x := fun x inRest => valid x (mem_cons_of_mem _ inRest)
    have validHead := valid head mem_cons_self
    rw [freed]
    by_cases later : c ∈ rest
    · rw [ih validRest later]
      exact keptByEntries_reserved sound inside _ disk head 0 validHead rfl
    · obtain rfl := (mem_cons.mp mem).resolve_right later
      rw [raw_freed_other sound validRest inside later, raw_putCopies sound validHead inside,
        if_pos ⟨rfl, isCopy⟩, setEntry_zero]

/-- **Giving a chain back restores the image**, with the reserved bits of every entry in every copy. -/
theorem RolledBack.eq (identical : vol.CopiesAgree id disk) (rolledBack : vol.RolledBack disk n image) :
    image = disk := by
  have outside := (keptByEntries_outside sound disk).rolledBack sound rolledBack fun _ _ => rfl
  rcases rolledBack with ⟨rfl, -, -⟩ | ⟨l, full, -, built, -, rfl⟩
  · rfl
  obtain ⟨-, fresh, -⟩ := built.spec sound
  have valid : ∀ c ∈ l, vol.validCluster c := fun c mem => (fresh c mem).1
  refine image_ext outside fun fat isCopy c inside => ?_
  by_cases mem : c ∈ l
  · have same : vol.raw disk fat c = vol.raw disk 0 c := identical fat isCopy c inside
    have free : vol.raw disk 0 c &&& fat32EntryMask = 0 := (fresh c mem).2
    rw [raw_freed sound valid isCopy inside mem,
      (keptByEntries_reserved sound inside _).built sound built rfl, same]
    exact reservedBits_of_free (rawEntry_lt _ _) free
  · rw [raw_freed_other sound valid inside mem, built.raw_other sound inside mem]

end

end Fat32

end Ferros.Fat
