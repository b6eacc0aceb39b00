/-
**Allocation takes exactly what it returns.**

On a working device `alloc_cluster` and `alloc_chain` fail for want of space only, and all they change are the
entries of the clusters they return.

* `ChangesOnly` — an image that differs from another in the entries of some clusters alone, in any copy of the FAT.
* `allocation_exact` — **the smallest free cluster, or a chain of free clusters**, whenever there are enough.
-/

import Ferros.Fat.Copies
import Ferros.Fat.Created
import Mathlib.Order.Bounds.Basic

namespace Ferros.Fat.Fat32

open Lib List

variable (vol : Fat32)

/-- Of all entries in all copies of the FAT, and of all other sectors, only entries of `l` differ. -/
structure ChangesOnly (l : List ℕ) (disk image : Disk) : Prop where
  entries : ∀ fat c, c * 4 / 512 < vol.fatSize → c ∉ l → vol.raw image fat c = vol.raw disk fat c
  outside : ∀ sector, ¬ vol.InFat sector → image sector = disk sector

/-- The outcome of `alloc_cluster`: the smallest free cluster, marked in every copy with the reserved bits as they
were, or an error without any write if there is none. -/
def TakesCluster (dev : Device Sector BlkError) : Except FatError ℕ × Device Sector BlkError → Prop
  | (.ok c, dev') => IsLeast {c | vol.validCluster c ∧ vol.nextOf dev.disk c = 0} c ∧
      vol.ChangesOnly [c] dev.disk dev'.disk ∧
      ∀ fat < vol.numFats, vol.raw dev'.disk fat c = setEntry (vol.raw dev.disk fat c) fat32Eoc
  | (.error e, dev') => e = .noSpace ∧ dev'.written = dev.written ∧ dev'.disk = dev.disk ∧
      ∀ c, vol.validCluster c → vol.nextOf dev.disk c ≠ 0

/-- The outcome of `alloc_chain`: a chain of `n` clusters that were free, or an error if there are not so many. -/
def TakesChain (n : ℕ) (dev : Device Sector BlkError) : Except FatError ℕ × Device Sector BlkError → Prop
  | (.ok first, dev') => n ≤ vol.freeClusters dev.disk ∧ ∃ l, l.length = n ∧ l.Nodup ∧
      (∀ c ∈ l, vol.validCluster c ∧ vol.nextOf dev.disk c = 0) ∧ vol.IsChain dev'.disk first l ∧
      (∀ last ∈ l.getLast?, vol.nextOf dev'.disk last = fat32Eoc) ∧ vol.ChangesOnly l dev.disk dev'.disk
  | (.error _, _) => vol.freeClusters dev.disk < n

variable {vol} {disk image : Disk} {l : List ℕ} {dev : Device Sector BlkError}

section

variable (sound : vol.Sound)
include sound

theorem Built.changesOnly (built : vol.Built disk l image) : vol.ChangesOnly l disk image where
  entries _ _ inside other := built.raw_other sound inside other
  outside := (keptByEntries_outside sound disk).built sound built fun _ _ => rfl

/-- The last cluster of a new chain carries the mark that `alloc_cluster` gave it. -/
theorem Built.eoc (built : vol.Built disk l image) : ∀ last ∈ l.getLast?, vol.nextOf image last = fat32Eoc := by
  cases built with
  | @single c valid free =>
    rintro last ⟨⟩
    exact nextOf_putCopies_self sound valid (by decide)
  | @extend front prev c mid built valid free =>
    intro last isLast
    obtain rfl : c = last := by simpa using isLast
    obtain ⟨isChain, -, -⟩ := built.spec sound
    have inPrev : prev ∈ front ++ [prev] := mem_append_right _ (mem_singleton_self prev)
    have notPrev : c ≠ prev := fun same => isChain.next_ne_zero c (same ▸ inPrev) free
    rw [(fatAgree_putCopies sound (isChain.valid prev inPrev) le_rfl).next c valid notPrev,
      nextOf_putCopies_self sound valid (by decide)]

variable (works : dev.Faultless)
include works

theorem takesCluster : vol.TakesCluster dev (exec vol.allocCluster dev) := by
  -- an image is written only if some cluster is free
  have search : Runs True (fun _ => ∃ c, vol.validCluster c ∧ vol.nextOf dev.disk c = 0) vol.allocCluster
      dev.disk _ _ := runs_allocFrom sound (fun c valid free _ _ => ⟨c, valid, free⟩) le_rfl
    (fun _ valid below => absurd (validCluster_iff.mp valid).1 (not_le.mpr below)) le_rfl
  obtain ⟨-, ⟨new, grown, marks⟩, outcome⟩ := search dev rfl fun _ => works
  rcases ran : exec vol.allocCluster dev with ⟨result, dev'⟩
  rw [ran] at grown outcome
  cases result with
  | ok c =>
    obtain ⟨valid, free, passed, image⟩ := outcome
    have built : vol.Built dev.disk [c] dev'.disk := image ▸ .single valid free
    refine ⟨⟨⟨valid, free⟩, fun c' other => ?_⟩, built.changesOnly sound, fun fat isCopy => ?_⟩
    · exact not_lt.mp fun less => passed c' other.1 less other.2
    · show vol.raw dev'.disk fat c = _
      rw [image, raw_putCopies sound valid (sound.entryFits c valid), if_pos ⟨rfl, isCopy⟩]
  | error e =>
    obtain ⟨cause, image, full⟩ := outcome.2 trivial
    refine ⟨cause, ?_, image, full⟩
    obtain rfl : new = [] := eq_nil_iff_forall_not_mem.mpr fun image mem => by
      obtain ⟨c, valid, free⟩ := marks image mem
      exact full c valid free
    exact grown

/-- **Allocation is exact** on a working device. -/
theorem allocation_exact : vol.TakesCluster dev (exec vol.allocCluster dev) ∧
    ∀ n, 1 ≤ n → vol.TakesChain n dev (exec (vol.allocChain n) dev) := by
  refine ⟨takesCluster sound works, fun n asked => ?_⟩
  have runs : Runs True _ (vol.allocChain n) dev.disk _ _ := runs_allocChain sound n
  obtain ⟨-, -, outcome⟩ := runs dev rfl fun _ => works
  rcases ran : exec (vol.allocChain n) dev with ⟨result, dev'⟩
  rw [ran] at outcome
  cases result with
  | ok first =>
    rcases outcome with ⟨rfl, -, -⟩ | ⟨l, rfl, built, rfl⟩
    · cases asked
    · obtain ⟨isChain, fresh, -⟩ := built.spec sound
      exact ⟨built.length_le sound, l, rfl, isChain.nodup sound, fresh, isChain, built.eoc sound,
        built.changesOnly sound⟩
  | error e => exact freeClusters_lt_of_rolledBack sound (outcome.2 trivial).2

end

/-- On the small volume, where cluster 3 is free. -/
theorem allocation_exact_small :
    smallVolume.TakesCluster (.start smallDisk fun _ _ => none)
      (exec smallVolume.allocCluster (.start smallDisk fun _ _ => none)) ∧
    smallVolume.TakesChain 1 (.start smallDisk fun _ _ => none)
      (exec (smallVolume.allocChain 1) (.start smallDisk fun _ _ => none)) :=
  (allocation_exact smallVolume_sound fun _ _ => rfl).imp_right fun chains => chains 1 le_rfl

end Ferros.Fat.Fat32
