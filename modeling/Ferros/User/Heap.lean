/-
**The heap of a C program.**

`malloc` hands out what lies between its two static pointers and moves the break of the process if there is not
enough; nothing is ever given back. Pointers and sizes are words of 64 bits.

* `malloc_blocks_apart` — **blocks are disjoint and below the break**, along requests that do not leave a word;
  `malloc_block_outside` — one that does gets a block that is not there.
-/

import Ferros.Files.Recount

namespace Ferros.User

open Lib Files List

/-- `heap_cur` and `heap_lim`, the processes in the kernel, and the blocks handed out with their sizes. -/
structure Heap where
  cur : ℕ
  lim : ℕ
  registry : Registry
  blocks : List (ℕ × ℕ)

/-- The size that `malloc` takes for a request. -/
def rounded (n : ℕ) : ℕ := (n + 15) % 2 ^ 64 / 16 * 16

variable (key : Key) {h : Heap} {n : ℕ}

/-- The break of the process. -/
def Heap.brk (h : Heap) : ℕ := (h.registry.proc key).brk

/-- The first request asks for the break. -/
def Heap.init (h : Heap) : Heap :=
  if h.cur = 0 then
    let (base, registry) := sysBrk key 0 true h.registry
    { h with cur := base.toNat, lim := base.toNat, registry }
  else h

/-- `malloc` of `n` bytes; `maps` says whether the kernel can map the pages of a growing heap. -/
def malloc (n : ℕ) (maps : Bool) (h : Heap) : ℕ × Heap :=
  let h := h.init key
  let next := (h.cur + rounded n) % 2 ^ 64
  if (h.lim + 2 ^ 64 - h.cur) % 2 ^ 64 < rounded n then
    let (got, registry) := sysBrk key next maps h.registry
    if got.toNat < next then (0, { h with registry })
    else (h.cur, { h with cur := next, lim := got.toNat, registry })
  else (h.cur, { h with cur := next })

/-- A block that was handed out is recorded; there is none at address 0. -/
def record (n : ℕ) : ℕ × Heap → Heap
  | (0, h) => h
  | (p, h) => { h with blocks := (p, n) :: h.blocks }

def Heap.request (q : ℕ × Bool) (h : Heap) : Option Heap := some (record q.1 (malloc key q.1 q.2 h))

/-- The end of the block, rounded up, is a 64-bit number. -/
def Heap.fits (q : ℕ × Bool) (h : Heap) : Bool := (h.init key).cur + q.1 + 15 < 2 ^ 64

def Heap.Starts (h : Heap) : Prop := h.cur = 0 ∧ h.lim = 0 ∧ h.blocks = [] ∧ h.brk key = userHeapBase

/-- The blocks are aligned, disjoint and in the heap. -/
structure Heap.Sound (h : Heap) : Prop where
  inHeap : ∀ b ∈ h.blocks, 16 ∣ b.1 ∧ userHeapBase ≤ b.1 ∧ b.1 + b.2 ≤ h.brk key
  apart : h.blocks.Pairwise fun b c => c.1 + c.2 ≤ b.1

/-- The pointers after the first request. -/
structure Heap.Ready (h : Heap) : Prop extends h.Sound key where
  low : userHeapBase ≤ h.cur
  cur : h.cur ≤ h.lim
  lim : h.lim = h.brk key
  high : h.lim ≤ userHeapMax
  aligned : 16 ∣ h.cur
  below : ∀ b ∈ h.blocks, b.1 + b.2 ≤ h.cur

section Requests

/-- `brk` answers with the break that it leaves: the old one, or the address asked for. -/
theorem sysBrk_leaves (addr : ℕ) (maps : Bool) (r : Registry) :
    (sysBrk key addr maps r).1 = ((sysBrk key addr maps r).2.proc key).brk ∧
      (((sysBrk key addr maps r).2.proc key).brk = (r.proc key).brk ∨
        addr ≤ userHeapMax ∧ ((sysBrk key addr maps r).2.proc key).brk = addr) := by
  unfold sysBrk
  dsimp only
  split
  · rw [proc_put]
    exact ⟨rfl, .inl rfl⟩
  · split
    · rw [proc_put]
      exact ⟨rfl, .inl rfl⟩
    · rw [proc_put]
      exact ⟨rfl, .inr ⟨by omega, rfl⟩⟩

variable {key}

theorem Heap.Starts.ready (starts : h.Starts key) : (h.init key).Ready key := by
  obtain ⟨cur, lim, none, brk⟩ := starts
  have old : ((sysBrk key 0 true h.registry).2.proc key).brk = userHeapBase := by
    rw [sysBrk, if_pos (.inl (by decide)), proc_put]
    exact brk
  have answer := (sysBrk_leaves key 0 true h.registry).1
  rw [old] at answer
  simp only [Heap.init, if_pos cur, answer, Int.toNat_natCast]
  refine ⟨⟨?_, ?_⟩, le_rfl, le_rfl, old.symm, show userHeapBase ≤ userHeapMax by decide,
    show 16 ∣ userHeapBase by decide, ?_⟩
  all_goals simp [none]

theorem Heap.Ready.init_eq (ready : h.Ready key) : h.init key = h := by
  have low := ready.low
  exact if_neg (by rw [userHeapBase] at low; omega)

theorem record_of_ne {p : ℕ} (nonnull : p ≠ 0) : record n (p, h) = { h with blocks := (p, n) :: h.blocks } := by
  obtain ⟨p, rfl⟩ := Nat.exists_eq_succ_of_ne_zero nonnull
  rfl

theorem Heap.Ready.grow (ready : h.Ready key) {cur lim : ℕ} {registry : Registry} (room : h.cur + n ≤ cur)
    (aligned : 16 ∣ cur) (inside : cur ≤ lim) (high : lim ≤ userHeapMax) (more : h.lim ≤ lim)
    (brk : lim = (registry.proc key).brk) : Heap.Ready key (record n (h.cur, ⟨cur, lim, registry, h.blocks⟩)) := by
  have used : h.cur ≠ 0 := by
    have low := ready.low
    rw [userHeapBase] at low
    omega
  rw [record_of_ne used]
  refine ⟨⟨?_, pairwise_cons.mpr ⟨ready.below, ready.apart⟩⟩, ready.low.trans ?_, inside, brk, high, aligned, ?_⟩
  · rintro b mem
    show _ ∧ _ ∧ _ ≤ (registry.proc key).brk
    rw [← brk]
    rcases mem_cons.mp mem with rfl | old
    · exact ⟨ready.aligned, ready.low, room.trans inside⟩
    · obtain ⟨whole, low, below⟩ := ready.inHeap b old
      rw [← ready.lim] at below
      exact ⟨whole, low, below.trans more⟩
  · exact (Nat.le_add_right _ n).trans room
  · rintro b mem
    rcases mem_cons.mp mem with rfl | old
    · exact room
    · exact (ready.below b old).trans ((Nat.le_add_right _ n).trans room)

theorem Heap.Ready.malloc (ready : (h.init key).Ready key) (maps : Bool)
    (fits : (h.init key).cur + n + 15 < 2 ^ 64) : Heap.Ready key (record n (malloc key n maps h)) := by
  unfold User.malloc
  generalize h.init key = g at ready fits
  have low := ready.low
  have cur := ready.cur
  have high := ready.high
  have aligned := ready.aligned
  have size : n ≤ rounded n ∧ rounded n ≤ n + 15 ∧ 16 ∣ rounded n := by
    unfold rounded
    omega
  have bounds : 0 < userHeapBase ∧ userHeapMax < 2 ^ 64 := by decide
  have room : g.cur + n ≤ g.cur + rounded n := by omega
  have even : 16 ∣ g.cur + rounded n := by omega
  have next : (g.cur + rounded n) % 2 ^ 64 = g.cur + rounded n := by omega
  have left : (g.lim + 2 ^ 64 - g.cur) % 2 ^ 64 = g.lim - g.cur := by omega
  simp only [next, left]
  obtain ⟨answer, brk⟩ := sysBrk_leaves key (g.cur + rounded n) maps g.registry
  split
  · rename_i short
    rw [answer, Int.toNat_natCast]
    split
    · rename_i refused
      have same : ((sysBrk key (g.cur + rounded n) maps g.registry).2.proc key).brk = g.brk key :=
        brk.resolve_right fun moved => by omega
      refine ⟨⟨fun b mem => ?_, ready.apart⟩, low, cur, ready.lim.trans same.symm, high, aligned, ready.below⟩
      obtain ⟨whole, above, below⟩ := ready.inHeap b mem
      exact ⟨whole, above, below.trans_eq same.symm⟩
    · rename_i granted
      obtain ⟨inRange, moved⟩ := brk.resolve_left fun old => by
        have lim : g.lim = (g.registry.proc key).brk := ready.lim
        omega
      have more : g.lim ≤ g.cur + rounded n := by omega
      rw [moved]
      exact ready.grow room even le_rfl inRange more moved.symm
  · have enough : g.cur + rounded n ≤ g.lim := by omega
    exact ready.grow room even enough high le_rfl ready.lim

end Requests

/-- **Blocks are aligned, disjoint and below the break**, as long as the requests fit. -/
theorem malloc_blocks_apart {h : Heap}
    (reached : (System.ofOps (Heap.Starts key) (guarded (Heap.fits key) (Heap.request key))).Reached h) :
    h.Sound key := by
  have kept : h.Starts key ∨ h.Ready key := by
    refine System.invariant _ (fun h => h.Starts key ∨ h.Ready key) (fun h => .inl) ?_ reached
    rintro h t - inv ⟨q, ran⟩
    obtain ⟨fits, ran⟩ := guarded_eq_some.mp ran
    rw [Heap.fits, decide_eq_true_eq] at fits
    have ready : (h.init key).Ready key := inv.elim Heap.Starts.ready fun ready => ready.init_eq.symm ▸ ready
    exact .inr (Option.some.inj ran ▸ ready.malloc q.2 fits)
  rcases kept with ⟨-, -, none, -⟩ | ready
  · exact ⟨by simp [none], by simp [none]⟩
  · exact ready.toSound

/-- The heap of the first program. -/
def newHeap : Heap := ⟨0, 0, .empty, []⟩

/-- A hundred bytes, and then ten. -/
def usedHeap : Heap := record 10 (malloc 7 10 true (record 100 (malloc 7 100 true newHeap)))

theorem malloc_blocks_apart_two : usedHeap.Sound 7 ∧
    usedHeap.blocks = [(userHeapBase + 112, 10), (userHeapBase, 100)] := by
  have new : (System.ofOps (Heap.Starts 7) (guarded (Heap.fits 7) (Heap.request 7))).Reached newHeap :=
    .start ⟨rfl, rfl, rfl, rfl⟩
  have one := new.step ⟨(100, true), guarded_eq_some.mpr ⟨by decide +kernel, rfl⟩⟩
  have two := one.step ⟨(10, true), guarded_eq_some.mpr ⟨by decide +kernel, rfl⟩⟩
  exact ⟨malloc_blocks_apart 7 two, by decide +kernel⟩

/-- `SIZE_MAX` bytes, and then sixteen. -/
def brokenHeap : Heap := record 16 (malloc 7 16 true (record (2 ^ 64 - 1) (malloc 7 (2 ^ 64 - 1) true newHeap)))

/-- **A request of `SIZE_MAX` bytes gets a block of none**, and the next one the same address. -/
theorem malloc_block_outside : newHeap.Starts 7 ∧
    brokenHeap.blocks = [(userHeapBase, 16), (userHeapBase, 2 ^ 64 - 1)] ∧ ¬ brokenHeap.Sound 7 := by
  have blocks : brokenHeap.blocks = [(userHeapBase, 16), (userHeapBase, 2 ^ 64 - 1)] := by decide +kernel
  refine ⟨⟨rfl, rfl, rfl, rfl⟩, blocks, fun sound => ?_⟩
  have apart := sound.apart
  rw [blocks] at apart
  exact absurd (rel_of_pairwise_cons apart mem_cons_self) (by decide)

end Ferros.User
