/-
**Page tables.**

A table is a frame of 512 entries; an entry is empty, or names the frame of the next table or of a page, with
flags in the bits the address leaves free. Four levels of tables lead from a virtual address to its page.

* `OffsetPageTable.mapTo`, `OffsetPageTable.unmap`, `OffsetPageTable.translatePage` — the mapper of the
  `x86_64` crate, which is the one `Mm/Mapper` gives the kernel.
* `newSharingKernel`, `destroy` — address spaces.
-/

import Ferros.Lib.Radix
import Ferros.Mm.FreeList

namespace Ferros.Mm

open Lib

/-! ### Entries -/

/-- `PRESENT | WRITABLE | USER_ACCESSIBLE`, the three lowest bits. -/
def userFlags : ℕ := 7

def isPresent (word : ℕ) : Bool := word % 2 = 1

/-- Bit 7 makes an entry map a large page in place of a table. -/
def isHugePage (word : ℕ) : Bool := word / 128 % 2 = 1

/-- The frame an entry names, in bits 12 to 51. -/
def entryAddr (word : ℕ) : Frame := word / 4096 % 2 ^ 40

/-- `frame()`: the frame of an entry that is present and no large page. -/
def entryFrame (word : ℕ) : Option Frame :=
  if isPresent word && !isHugePage word then some (entryAddr word) else none

/-- `set_frame(frame, PRESENT | WRITABLE | USER_ACCESSIBLE)`. -/
def frameEntry (frame : Frame) : ℕ := address frame + userFlags

theorem entryFrame_zero : entryFrame 0 = none := rfl

theorem frameEntry_eq (f : ℕ) : frameEntry f = 4096 * f + 7 := rfl

theorem frameEntry_ne_zero (f : Frame) : frameEntry f ≠ 0 := Nat.succ_ne_zero _

theorem frameEntry_lt {f : ℕ} (small : f < 2 ^ 40) : frameEntry f < 2 ^ 64 := by
  rw [frameEntry_eq]
  omega

theorem frameEntry_flags (f : Frame) : frameEntry f % 8 = 7 := by
  rw [frameEntry_eq]
  omega

theorem isPresent_frameEntry (f : Frame) : isPresent (frameEntry f) := by
  rw [isPresent, frameEntry_eq, decide_eq_true_iff]
  omega

theorem entryAddr_frameEntry {f : ℕ} (small : f < 2 ^ 40) : entryAddr (frameEntry f) = f := by
  have bits : (4096 * f + 7) / 4096 % 2 ^ 40 = f := by omega
  exact bits

/-- The entry made for a frame leads to it. -/
theorem entryFrame_frameEntry {f : ℕ} (small : f < 2 ^ 40) : entryFrame (frameEntry f) = some f := by
  have notHuge : isHugePage (frameEntry f) = false := by
    rw [isHugePage, frameEntry_eq, decide_eq_false_iff_not]
    omega
  rw [entryFrame, isPresent_frameEntry, notHuge, entryAddr_frameEntry small]
  rfl

/-- Setting the user flags leaves the address. -/
theorem or_userFlags (word : ℕ) : word ||| userFlags = 8 * (word / 8) + 7 := by
  have low : ∀ x < 8, x ||| 7 = 7 := by decide
  have high (x : ℕ) (small : x < 8) : 8 * (word / 8) + x = 8 * (word / 8) ||| x :=
    Nat.two_pow_add_eq_or_of_lt (i := 3) small _
  calc word ||| 7
      = (8 * (word / 8) + word % 8) ||| 7 := by rw [Nat.div_add_mod word 8]
    _ = 8 * (word / 8) ||| (word % 8 ||| 7) := by
        rw [high _ (Nat.mod_lt _ (by decide)), Nat.or_assoc]
    _ = 8 * (word / 8) + 7 := by rw [low _ (Nat.mod_lt _ (by decide)), ← high 7 (by decide)]

theorem or_userFlags_frameEntry (f : Frame) : frameEntry f ||| userFlags = frameEntry f := by
  rw [or_userFlags, frameEntry_eq]
  omega

/-- Two entries that lead to the same place: they differ in the flags for writing and for user space at most. -/
def SameLink (word other : ℕ) : Prop := word / 8 = other / 8 ∧ isPresent word = isPresent other

section SameLink

variable {word other : ℕ}

theorem SameLink.refl (word : ℕ) : SameLink word word := ⟨rfl, rfl⟩

theorem SameLink.trans {third : ℕ} (first : SameLink word other) (second : SameLink other third) :
    SameLink word third :=
  ⟨first.1.trans second.1, first.2.trans second.2⟩

section

variable (same : SameLink word other)
include same

theorem SameLink.symm : SameLink other word := ⟨same.1.symm, same.2.symm⟩

theorem SameLink.entryAddr : entryAddr word = entryAddr other := by
  have high (n : ℕ) : n / 4096 = n / 8 / 512 := (Nat.div_div_eq_div_mul n 8 512).symm
  rw [Mm.entryAddr, Mm.entryAddr, high word, high other, same.1]

theorem SameLink.isHugePage : isHugePage word = isHugePage other := by
  have high (n : ℕ) : n / 128 = n / 8 / 16 := (Nat.div_div_eq_div_mul n 8 16).symm
  rw [Mm.isHugePage, Mm.isHugePage, high word, high other, same.1]

/-- Entries that differ in flags only lead to the same frame. -/
theorem SameLink.entryFrame : entryFrame word = entryFrame other := by
  rw [Mm.entryFrame, Mm.entryFrame, same.2, same.isHugePage, same.entryAddr]

end

/-- An entry that is present keeps its link when it gets the flags of user space. -/
theorem sameLink_or (present : isPresent word) : SameLink (word ||| userFlags) word := by
  have flagged : isPresent (8 * (word / 8) + 7) := by
    rw [isPresent, decide_eq_true_iff]
    omega
  rw [or_userFlags]
  exact ⟨by omega, flagged.trans present.symm⟩

end SameLink

/-! ### Tables in memory -/

abbrev Slot := Fin 512

def allSlots : List Slot := List.finRange 512

def entry (memory : Memory) (f : Frame) (i : Slot) : ℕ := wordAt (memory f) i

def nextTable (memory : Memory) (f : Frame) (i : Slot) : Option Frame :=
  entryFrame (entry memory f i)

/-- The nine bits of an address that select the slot, above `shift` others. -/
def slotOf (va shift : ℕ) : Slot := ⟨va / 2 ^ shift % 512, Nat.mod_lt _ (by decide)⟩

/-- The slots in the tables of level 4, 3 and 2 on the way to an address. -/
def upperSlots (va : ℕ) : List Slot := [slotOf va 39, slotOf va 30, slotOf va 21]

def lastSlot (va : ℕ) : Slot := slotOf va 12

/-- The whole way. -/
def pageKey (va : ℕ) : List Slot := upperSlots va ++ [lastSlot va]

/-- `translate_page` of the crate: a last entry that is not zero is the page. -/
def OffsetPageTable.translatePage (memory : Memory) (root : Frame) (va : ℕ) : Option Frame :=
  (walk (nextTable memory) root (upperSlots va)).bind fun table =>
    let word := entry memory table (lastSlot va)
    if word = 0 then none else some (entryAddr word)

def Ram.setEntry (f : Frame) (i : Slot) (word : ℕ) (ram : Ram) : Ram :=
  ram.write f (setWord (ram.memory f) i word)

theorem Ram.setEntry_same (ram : Ram) (f : Frame) (i : Slot) (word : ℕ) :
    (ram.setEntry f i word).memory f = setWord (ram.memory f) i word :=
  ram.write_same _

theorem Ram.setEntry_other (ram : Ram) {f g : Frame} (i : Slot) (word : ℕ) (away : g ≠ f) :
    (ram.setEntry f i word).memory g = ram.memory g :=
  ram.write_other _ away

theorem Ram.entry_setEntry_same (ram : Ram) (f : Frame) (i : Slot) {word : ℕ} (fits : word < 2 ^ 64) :
    entry (ram.setEntry f i word).memory f i = word := by
  rw [entry, Ram.setEntry_same, wordAt_setWord_same fits]

/-- A store into one entry leaves the others. -/
theorem Ram.entry_setEntry_other (ram : Ram) {f g : Frame} {i j : Slot} (word : ℕ) (away : g ≠ f ∨ j ≠ i) :
    entry (ram.setEntry f i word).memory g j = entry ram.memory g j := by
  by_cases same : g = f
  · rw [same, entry, Ram.setEntry_same, wordAt_setWord_other (away.resolve_left fun ne => ne same), entry]
  · rw [entry, Ram.setEntry_other _ _ _ same, entry]

inductive MapToError
  | frameAllocationFailed
  | parentEntryHugePage
  | pageAlreadyMapped
  deriving DecidableEq, Repr

/-- `create_next_table`: an unused entry gets a new, empty table; any other gets the flags it lacks, and must
not map a large page. -/
def createNextTable (f : Frame) (i : Slot) (ram : Ram) : Except MapToError Frame × Ram :=
  let word := entry ram.memory f i
  if word = 0 then
    match ram.allocateFrame with
    | (some table, ram) => (.ok table, (ram.setEntry f i (frameEntry table)).write table zeroPage)
    | (none, ram) => (.error .frameAllocationFailed, ram)
  else
    let ram := if word % 8 = 7 then ram else ram.setEntry f i (word ||| userFlags)
    match entryFrame (word ||| userFlags) with
    | some table => (.ok table, ram)
    | none => (.error .parentEntryHugePage, ram)

/-- The way down from `f` through the given slots. -/
def createTables : Frame → List Slot → Ram → Except MapToError Frame × Ram
  | f, [], ram => (.ok f, ram)
  | f, i :: rest, ram =>
    match createNextTable f i ram with
    | (.ok table, ram) => createTables table rest ram
    | (.error error, ram) => (.error error, ram)

/-- `map_to`, with the flags the kernel gives to pages of user space. -/
def OffsetPageTable.mapTo (root : Frame) (va : ℕ) (frame : Frame) (ram : Ram) : Except MapToError Unit × Ram :=
  match createTables root (upperSlots va) ram with
  | (.ok table, ram) =>
    if entry ram.memory table (lastSlot va) = 0 then
      (.ok (), ram.setEntry table (lastSlot va) (frameEntry frame))
    else (.error .pageAlreadyMapped, ram)
  | (.error error, ram) => (.error error, ram)

/-- `unmap`: the frame of the page, whose entry is emptied. -/
def OffsetPageTable.unmap (root : Frame) (va : ℕ) (ram : Ram) : Option (Frame × Ram) := do
  let table ← walk (nextTable ram.memory) root (upperSlots va)
  let frame ← entryFrame (entry ram.memory table (lastSlot va))
  return (frame, ram.setEntry table (lastSlot va) 0)

/-! ### Address spaces

An address space is the frame of its table of level 4. It starts as a copy of the kernel's, so the kernel is
mapped in all of them through the same tables; what is mapped in the slots the kernel leaves empty is the
space's own, and `destroy` gives it back. -/

def newSharingKernel (kernel : Frame) (ram : Ram) : Option (Frame × Ram) :=
  match ram.allocateFrame with
  | (some frame, ram) =>
    let ram := ram.write frame zeroPage
    some (frame, ram.write frame (ram.memory kernel))
  | (none, _) => none

/-- Whether an entry of level 4 is the kernel's: `other` is the entry it is compared to. -/
def sharedEntry (other word : ℕ) : Bool := isPresent other && entryAddr other == entryAddr word

/-- `VirtAddr::new` takes the addresses whose upper 17 bits are equal. -/
def isCanonical (va : ℕ) : Bool := va < 2 ^ 47 ∨ 2 ^ 64 - 2 ^ 47 ≤ va ∧ va < 2 ^ 64

/-- `free_subtree`, from a table of the given level on; at level 0 it is the page itself. -/
def freeSubtree : ℕ → Frame → Ram → Ram
  | 0, leaf, ram => ram.deallocateFrame leaf
  | level + 1, table, ram =>
    (allSlots.foldl (fun ram (i : Slot) =>
      match nextTable ram.memory table i with
      | some below => freeSubtree level below ram
      | none => ram) ram).deallocateFrame table

/-- `destroy` of the space of `root`, while `active` is the root in use: entries that `active` has as well
are taken for the kernel's. -/
def destroy (active root : Frame) (ram : Ram) : Ram :=
  (allSlots.foldl (fun ram (i : Slot) =>
    let word := entry ram.memory root i
    if isPresent word && !sharedEntry (entry ram.memory active i) word then
      match entryFrame word with
      | some table => freeSubtree 3 table ram
      | none => ram
    else ram) ram).deallocateFrame root

end Ferros.Mm
