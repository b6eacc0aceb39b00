/-
**What the processor makes of the tables.**

The processor walks the tables itself, from the root in use: an entry that is not present ends the walk with
a page fault, and an entry of level 3 or 2 may map a large page. This is how the kernel reads and writes at
addresses of user space.

* `translate_of_walk`, `translate_of_free`, `translate_congr`.
-/

import Ferros.Mm.Shared

namespace Ferros.Mm

open Lib List Option

variable {memory memory' : Memory} {va level : ℕ} {f g root : Frame}

/-- The processor's own walk: the entry that maps an address, found from a table of the given level on, with
the number of bits of the address that it leaves as they are. -/
def leafEntry (memory : Memory) (va : ℕ) : ℕ → Frame → Option (ℕ × ℕ)
  | 0, _ => none
  | level + 1, table =>
    let shift := 12 + 9 * level
    let word := entry memory table (slotOf va shift)
    if !isPresent word then none
    else if level = 0 then some (shift, word)
    else if isHugePage word then
      -- at level 4 the bit is reserved
      if level = 3 then none else some (shift, word)
    else leafEntry memory va level (entryAddr word)

/-- The physical address of `va`, in the tables with the given root. -/
def translate (memory : Memory) (root : Frame) (va : ℕ) : Option ℕ :=
  (leafEntry memory va 4 root).map fun (shift, word) =>
    address (entryAddr word) / 2 ^ shift * 2 ^ shift + va % 2 ^ shift

def byteAt (memory : Memory) (pa : ℕ) : UInt8 := memory (containing pa) ⟨pa % 4096, Nat.mod_lt _ (by decide)⟩

/-- A byte is written at `va`, through the tables with the given root; `none` is a page fault. -/
def Ram.poke (root : Frame) (va : ℕ) (byte : UInt8) (ram : Ram) : Option Ram :=
  (translate ram.memory root va).map fun pa =>
    ram.write (containing pa)
      (Function.update (ram.memory (containing pa)) ⟨pa % 4096, Nat.mod_lt _ (by decide)⟩ byte)

/-- Bytes are written one after the other, from `va` on. -/
def Ram.pokes (root : Frame) : ℕ → List UInt8 → Ram → Option Ram
  | _, [], ram => some ram
  | va, byte :: rest, ram => (ram.poke root va byte).bind (Ram.pokes root (va + 1) rest)

/-! ### The walk and the keys -/

/-- The slots from a table of the given level down. -/
def slotsFrom (va : ℕ) : ℕ → List Slot
  | 0 => []
  | level + 1 => slotOf va (12 + 9 * level) :: slotsFrom va level

theorem isPresent_of_link (link : entryFrame (entry memory f (slotOf va (12 + 9 * level))) = some g) :
    isPresent (entry memory f (slotOf va (12 + 9 * level))) ∧
      isHugePage (entry memory f (slotOf va (12 + 9 * level))) = false ∧
      entryAddr (entry memory f (slotOf va (12 + 9 * level))) = g := by
  rw [entryFrame] at link
  split at link
  · rename_i both
    rw [Bool.and_eq_true, Bool.not_eq_true'] at both
    exact ⟨both.1, both.2, some.inj link⟩
  · cases link

theorem leafEntry_next (link : nextTable memory f (slotOf va (12 + 9 * (level + 1))) = some g) :
    leafEntry memory va (level + 2) f = leafEntry memory va (level + 1) g := by
  obtain ⟨present, notHuge, same⟩ := isPresent_of_link link
  rw [leafEntry]
  simp only [present, notHuge, same, Nat.succ_ne_zero, Bool.not_true, Bool.false_eq_true, if_false]

/-- **A page that the tables lead to** is where the processor finds it. -/
theorem leafEntry_of_walk (level : ℕ) (there : walk (nextTable memory) f (slotsFrom va (level + 1)) = some g) :
    ∃ word, leafEntry memory va (level + 1) f = some (12, word) ∧ entryAddr word = g := by
  induction level generalizing f with
  | zero =>
    rw [slotsFrom, walk_cons] at there
    obtain ⟨c, link, last⟩ := bind_eq_some_iff.mp there
    obtain rfl : c = g := some.inj last
    obtain ⟨present, _, same⟩ := isPresent_of_link link
    refine ⟨_, ?_, same⟩
    rw [leafEntry]
    simp only [present, Bool.not_true, Bool.false_eq_true, if_false, if_true, Nat.mul_zero, Nat.add_zero]
  | succ level ih =>
    rw [slotsFrom, walk_cons] at there
    obtain ⟨c, link, below⟩ := bind_eq_some_iff.mp there
    rw [leafEntry_next link]
    exact ih below

theorem translate_of_walk (there : walk (nextTable memory) root (pageKey va) = some f) :
    translate memory root va = some (4096 * f + va % 4096) := by
  obtain ⟨word, leaf, rfl⟩ := leafEntry_of_walk 3 there
  have aligned : address (entryAddr word) / 2 ^ 12 * 2 ^ 12 = 4096 * entryAddr word := by
    rw [address, show (2 ^ 12 : ℕ) = 4096 from rfl, Nat.mul_div_cancel_left _ (by decide), Nat.mul_comm]
  rw [translate, leaf, map_some]
  exact congrArg (fun base => some (base + va % 4096)) aligned

/-- A way that ends in an empty entry ends in a page fault. -/
theorem leafEntry_of_free (level : ℕ) (free : keyState memory f (slotsFrom va (level + 1)) = .free) :
    leafEntry memory va (level + 1) f = none := by
  induction level generalizing f with
  | zero =>
    by_cases unused : entry memory f (slotOf va 12) = 0
    · rw [leafEntry, Nat.mul_zero, Nat.add_zero, unused]
      rfl
    · rw [slotsFrom, slotsFrom, keyState_single unused] at free
      cases free
  | succ level ih =>
    rw [slotsFrom] at free
    by_cases unused : entry memory f (slotOf va (12 + 9 * (level + 1))) = 0
    · rw [leafEntry, unused]
      rfl
    · have more : slotsFrom va (level + 1) ≠ [] := cons_ne_nil _ _
      cases link : nextTable memory f (slotOf va (12 + 9 * (level + 1))) with
      | none =>
        rw [keyState_blocked unused link more] at free
        cases free
      | some c =>
        rw [keyState_next link more] at free
        rw [leafEntry_next link]
        exact ih free

theorem translate_of_free (free : pageState memory root va = .free) : translate memory root va = none := by
  rw [translate, leafEntry_of_free 3 free]
  rfl

theorem leafEntry_congr (same : ∀ p g, p.length < level → walk (nextTable memory) root p = some g →
      ∀ i, entry memory' g i = entry memory g i) :
    leafEntry memory' va level root = leafEntry memory va level root := by
  induction level generalizing root with
  | zero => rfl
  | succ level ih =>
    have here := same [] root (Nat.succ_pos _) rfl (slotOf va (12 + 9 * level))
    rw [leafEntry, leafEntry, here]
    split
    · rfl
    · rename_i present
      split
      · rfl
      · split
        · rfl
        · rename_i notHuge
          have link : nextTable memory root (slotOf va (12 + 9 * level)) =
              some (entryAddr (entry memory root (slotOf va (12 + 9 * level)))) := by
            rw [nextTable, entryFrame, if_pos]
            rw [Bool.and_eq_true, Bool.not_eq_true']
            rw [Bool.not_eq_true', Bool.not_eq_false] at present
            exact ⟨present, Bool.not_eq_true _ ▸ notHuge⟩
          refine ih fun p g short there i => same (slotOf va (12 + 9 * level) :: p) g
            (Nat.succ_lt_succ short) ?_ i
          rw [walk_cons, link, bind_some, there]

theorem translate_congr
    (same : ∀ p g, p.length ≤ 3 → walk (nextTable memory) root p = some g → memory' g = memory g) :
    translate memory' root va = translate memory root va := by
  rw [translate, translate, leafEntry_congr]
  intro p g short there i
  rw [entry, same p g (Nat.le_of_lt_succ short) there, entry]

end Ferros.Mm
