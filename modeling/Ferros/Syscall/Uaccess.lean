/-
**Access to the memory of user programs.**

The only raw accesses of the system calls: a view of a range for reading, and a copy into one. Both ask first
whether the range lies in the lower half and whether every page of it is mapped for user space. What is touched
is logged, so that an access outside the range would be seen.

* `withUserBytes_eq`, `copyToUser_eq` — **either the range is refused and nothing is touched, or exactly the
  range is.**
-/

import Ferros.Files.Descriptor
import Ferros.Mm.UserRange

namespace Ferros.Syscall

open Lib Mm Files List Option Function

/-! ### The memory bus -/

/-- The bytes of physical memory, and the accesses through virtual addresses so far; a write has a byte. -/
structure Bus where
  bytes : ℕ → UInt8
  log : List (ℕ × Option UInt8)

/-- Where the byte at an address of the space is. -/
def physical (space : Space) (va : ℕ) : Option ℕ := (space (va / 4096)).map (·.base + va % 4096)

/-- No value is a page fault. -/
def Bus.read (space : Space) (va : ℕ) (bus : Bus) : Option (UInt8 × Bus) :=
  (physical space va).map fun pa => (bus.bytes pa, { bus with log := bus.log ++ [(va, none)] })

def Bus.write (space : Space) (va : ℕ) (byte : UInt8) (bus : Bus) : Option Bus := do
  let leaf ← space (va / 4096)
  let pa ← physical space va
  if leaf.writable then
    some ⟨update bus.bytes pa byte, bus.log ++ [(va, some byte)]⟩
  else none

/-- `len` bytes from `va` on. -/
def Bus.readAll (space : Space) : ℕ → ℕ → Bus → Option (List UInt8 × Bus)
  | _, 0, bus => some ([], bus)
  | va, len + 1, bus => do
      let first ← bus.read space va
      let rest ← Bus.readAll space (va + 1) len first.2
      return (first.1 :: rest.1, rest.2)

def Bus.writeAll (space : Space) : ℕ → List UInt8 → Bus → Option Bus
  | _, [], bus => some bus
  | va, byte :: rest, bus => do
      let bus ← bus.write space va byte
      Bus.writeAll space (va + 1) rest bus

/-! ### The system calls' side -/

def validate (ptr len : ℕ) : Except ℤ Unit :=
  match fitting 64 (ptr + len) with
  | some stop => if stop ≤ userSpaceEnd then .ok () else .error EFAULT
  | none => .error EFAULT

/-- An access to a range, after both checks; there is none if the range is empty. -/
def afterChecks {R : Type} (space : Space) (needWrite : Bool) (ptr len : ℕ) (empty : R)
    (raw : Bus → Option (R × Bus)) (bus : Bus) : Option (Except ℤ R × Bus) :=
  match validate ptr len with
  | .error e => some (.error e, bus)
  | .ok _ =>
    if len = 0 then some (.ok empty, bus)
    else (userRangeAccessible space ptr len needWrite).bind fun accessible =>
      if accessible = false then some (.error EFAULT, bus)
      else (raw bus).map fun done => (.ok done.1, done.2)

def withUserBytes {R : Type} (space : Space) (ptr len : ℕ) (f : List UInt8 → R) (bus : Bus) :
    Option (Except ℤ R × Bus) :=
  afterChecks space false ptr len (f []) (fun bus => (bus.readAll space ptr len).map fun view =>
    (f view.1, view.2)) bus

def copyToUser (space : Space) (dst : ℕ) (src : List UInt8) (bus : Bus) : Option (Except ℤ Unit × Bus) :=
  afterChecks space true dst src.length () (fun bus => (bus.writeAll space dst src).map fun after =>
    ((), after)) bus

/-! ### What is touched -/

/-- The range lies in the lower half, and user space may use every page of it. -/
structure Allowed (space : Space) (needWrite : Bool) (ptr len : ℕ) : Prop where
  below : ptr + len ≤ userSpaceEnd
  pages : ∀ page, Meets ptr len page → Permits space needWrite page

/-- The byte at an address; where nothing is mapped, any. -/
def Bus.byteAt (space : Space) (bus : Bus) (va : ℕ) : UInt8 := ((physical space va).map bus.bytes).getD 0

/-- The bytes of a range. -/
def Bus.bytesAt (space : Space) (bus : Bus) (ptr len : ℕ) : List UInt8 :=
  (range' ptr len).map (bus.byteAt space)

/-- The bus after a range was read. -/
def Bus.seen (bus : Bus) (ptr len : ℕ) : Bus :=
  { bus with log := bus.log ++ (range' ptr len).map fun va => (va, none) }

variable {space : Space} {ptr len va dst : ℕ} {needWrite : Bool} {bus : Bus} {R : Type}

theorem validate_ok (below : ptr + len ≤ userSpaceEnd) : validate ptr len = .ok () := by
  have fits : ptr + len < 2 ^ 64 := by
    unfold userSpaceEnd at below
    omega
  rw [validate, fitting_of_lt fits]
  exact if_pos below

theorem validate_error (beyond : userSpaceEnd < ptr + len) : validate ptr len = .error EFAULT := by
  rw [validate]
  cases sum : fitting 64 (ptr + len) with
  | none => rfl
  | some stop =>
    obtain ⟨-, rfl⟩ := fitting_eq_some.mp sum
    exact if_neg (Nat.not_le.mpr beyond)

theorem Allowed.permits (allowed : Allowed space needWrite ptr len) (low : ptr ≤ va) (high : va < ptr + len) :
    Permits space needWrite (va / 4096) :=
  allowed.pages _ ⟨va, low, high, rfl⟩

/-- The beginning of an allowed range. -/
theorem Allowed.take (allowed : Allowed space needWrite ptr len) {n : ℕ} (within : n ≤ len) :
    Allowed space needWrite ptr n where
  below := (Nat.add_le_add_left within ptr).trans allowed.below
  pages := by
    rintro page ⟨va, low, high, rfl⟩
    exact allowed.permits low (by omega)

theorem physical_of_permits (permits : Permits space needWrite (va / 4096)) :
    ∃ pa, physical space va = some pa := by
  obtain ⟨leaf, found, -⟩ := permits
  exact ⟨_, by rw [physical, found]; rfl⟩

theorem Bus.bytesAt_succ (bus : Bus) (ptr len : ℕ) :
    bus.bytesAt space ptr (len + 1) = bus.byteAt space ptr :: bus.bytesAt space (ptr + 1) len := rfl

theorem Bus.seen_zero (bus : Bus) (ptr : ℕ) : bus.seen ptr 0 = bus := by
  rw [Bus.seen, range'_zero, map_nil, append_nil]

theorem Bus.seen_succ (bus : Bus) (ptr len : ℕ) :
    bus.seen ptr (len + 1) = { bus with log := bus.log ++ [(ptr, none)] : Bus }.seen (ptr + 1) len := by
  rw [Bus.seen, Bus.seen, range'_succ, map_cons, ← singleton_append, ← append_assoc]

theorem Bus.readAll_eq (bus : Bus) (len : ℕ)
    (mapped : ∀ va, ptr ≤ va → va < ptr + len → ∃ pa, physical space va = some pa) :
    bus.readAll space ptr len = some (bus.bytesAt space ptr len, bus.seen ptr len) := by
  induction len generalizing ptr bus with
  | zero =>
    rw [Bus.seen_zero]
    rfl
  | succ len ih =>
    obtain ⟨pa, isPa⟩ := mapped ptr (Nat.le_refl _) (by omega)
    have first : bus.byteAt space ptr = bus.bytes pa := by
      rw [Bus.byteAt, isPa]
      rfl
    rw [Bus.readAll, Bus.read, isPa, map_some, bind_eq_bind, bind_some,
      ih _ fun va low high => mapped va (by omega) (by omega), Bus.bytesAt_succ, Bus.seen_succ, first]
    rfl

/-- **The checks let exactly the allowed ranges through.** -/
theorem afterChecks_eq (space : Space) (needWrite : Bool) (ptr len : ℕ) (empty : R)
    (raw : Bus → Option (R × Bus)) (bus : Bus) :
    (Allowed space needWrite ptr len → afterChecks space needWrite ptr len empty raw bus =
      if len = 0 then some (.ok empty, bus) else (raw bus).map fun done => (.ok done.1, done.2)) ∧
    (¬Allowed space needWrite ptr len →
      afterChecks space needWrite ptr len empty raw bus = some (.error EFAULT, bus)) := by
  by_cases below : ptr + len ≤ userSpaceEnd
  · obtain ⟨verdict, answer, exactly⟩ := userRangeAccessible_eq space needWrite below
    rw [afterChecks, validate_ok below, answer, bind_some]
    by_cases none : len = 0
    · subst none
      exact ⟨fun _ => rfl, fun wrong => absurd ⟨below, fun page meets => absurd meets
        (not_meets_zero ptr page)⟩ wrong⟩
    · refine ⟨fun allowed => ?_, fun wrong => ?_⟩
      · rw [exactly.mpr allowed.pages]
        rfl
      · have refused : verdict = false := by
          rw [← Bool.not_eq_true]
          exact fun yes => wrong ⟨below, exactly.mp yes⟩
        exact (if_neg none).trans (if_pos refused)
  · refine ⟨fun allowed => absurd allowed.below below, fun _ => ?_⟩
    rw [afterChecks, validate_error (Nat.lt_of_not_le below)]

/-- **A view of a range is refused, or is of exactly the range.** -/
theorem withUserBytes_eq (f : List UInt8 → R) (bus : Bus) : (Allowed space false ptr len →
      withUserBytes space ptr len f bus = some (.ok (f (bus.bytesAt space ptr len)), bus.seen ptr len)) ∧
    (¬Allowed space false ptr len → withUserBytes space ptr len f bus = some (.error EFAULT, bus)) := by
  obtain ⟨passed, refused⟩ := afterChecks_eq space false ptr len (f [])
    (fun bus => (bus.readAll space ptr len).map fun view => (f view.1, view.2)) bus
  refine ⟨fun allowed => (passed allowed).trans ?_, refused⟩
  by_cases none : len = 0
  · subst none
    rw [if_pos rfl, Bus.seen_zero]
    rfl
  · rw [if_neg none, bus.readAll_eq len fun va low high => physical_of_permits (allowed.permits low high)]
    rfl

/-- Where a copy puts its bytes. -/
structure Copied (space : Space) (dst : ℕ) (src : List UInt8) (bus after : Bus) : Prop where
  /-- Every byte is written to its address, in order, and nothing else is. -/
  log : after.log = bus.log ++ (range' dst src.length).zip (src.map some)
  /-- It is there in the end, unless a later address of the range is mapped to the same place. -/
  stored : ∀ i byte pa, src[i]? = some byte → physical space (dst + i) = some pa →
    (∀ j, i < j → j < src.length → physical space (dst + j) ≠ some pa) → after.bytes pa = byte
  /-- The rest of memory is left alone. -/
  kept : ∀ pa, (∀ i < src.length, physical space (dst + i) ≠ some pa) → after.bytes pa = bus.bytes pa

theorem Bus.write_eq (bus : Bus) (byte : UInt8) (permits : Permits space true (va / 4096)) :
    ∃ pa, physical space va = some pa ∧ bus.write space va byte =
      some ⟨update bus.bytes pa byte, bus.log ++ [(va, some byte)]⟩ := by
  obtain ⟨leaf, found, -, write⟩ := permits
  refine ⟨leaf.base + va % 4096, by rw [physical, found]; rfl, ?_⟩
  rw [Bus.write, physical, found, map_some, bind_eq_bind, bind_some, bind_eq_bind,
    bind_some, if_pos (write rfl)]

theorem Bus.writeAll_eq (bus : Bus) (src : List UInt8)
    (permits : ∀ va, dst ≤ va → va < dst + src.length → Permits space true (va / 4096)) :
    ∃ after, bus.writeAll space dst src = some after ∧ Copied space dst src bus after := by
  induction src generalizing dst bus with
  | nil =>
    refine ⟨bus, rfl, ?_, fun i byte pa present => ?_, fun pa _ => rfl⟩
    · rw [map_nil, zip_nil_right, append_nil]
    · cases present
  | cons byte src ih =>
    rw [length_cons] at permits
    obtain ⟨pa, isPa, written⟩ := bus.write_eq byte (permits dst (Nat.le_refl _) (by omega))
    obtain ⟨after, rest, copied⟩ := ih ⟨update bus.bytes pa byte, bus.log ++ [(dst, some byte)]⟩
      fun va (low : dst + 1 ≤ va) high => permits va (by omega) (by omega)
    have next : ∀ i, physical space (dst + 1 + i) = physical space (dst + (i + 1)) := fun i => by
      rw [Nat.add_assoc, Nat.add_comm 1]
    refine ⟨after, ?_, ?_, ?_, ?_⟩
    · rw [Bus.writeAll, written]
      exact rest
    · rw [copied.log, length_cons, range'_succ, map_cons, zip_cons_cons, append_assoc, singleton_append]
    · intro i byte' pa' present isPa' last
      cases i with
      | zero =>
        cases present
        cases isPa.symm.trans isPa'
        rw [copied.kept pa fun j inside => ?_]
        · exact update_self pa byte bus.bytes
        · rw [next]
          exact last (j + 1) (Nat.succ_pos j) (Nat.succ_lt_succ inside)
      | succ i =>
        refine copied.stored i byte' pa' present ((next i).trans isPa') fun j later inside => ?_
        rw [next]
        exact last (j + 1) (Nat.succ_lt_succ later) (Nat.succ_lt_succ inside)
    · intro other away
      rw [copied.kept other fun i inside => ?_]
      · refine update_of_ne (fun same => away 0 (Nat.succ_pos _) ?_) byte bus.bytes
        rw [same]
        exact isPa
      · rw [next]
        exact away (i + 1) (Nat.succ_lt_succ inside)

/-- **A copy is refused, or is of every byte.** -/
theorem copyToUser_eq (dst : ℕ) (src : List UInt8) (bus : Bus) : (Allowed space true dst src.length →
      ∃ after, copyToUser space dst src bus = some (.ok (), after) ∧ Copied space dst src bus after) ∧
    (¬Allowed space true dst src.length → copyToUser space dst src bus = some (.error EFAULT, bus)) := by
  obtain ⟨passed, refused⟩ := afterChecks_eq space true dst src.length ()
    (fun bus => (bus.writeAll space dst src).map fun after => ((), after)) bus
  refine ⟨fun allowed => ?_, refused⟩
  obtain ⟨after, written, copied⟩ := bus.writeAll_eq src fun va low high => allowed.permits low high
  refine ⟨after, (passed allowed).trans ?_, copied⟩
  by_cases none : src.length = 0
  · obtain rfl := eq_nil_of_length_eq_zero none
    cases written
    rfl
  · rw [if_neg none, written]
    rfl

/-- A copy leaves a range alone that it does not meet. -/
theorem Copied.bytesAt {src : List UInt8} {after : Bus} (copied : Copied space dst src bus after)
    (apart : ∀ i < src.length, ∀ j < len, physical space (dst + i) ≠ physical space (ptr + j)) :
    after.bytesAt space ptr len = bus.bytesAt space ptr len := by
  refine map_congr_left fun va mem => ?_
  obtain ⟨j, inside, rfl⟩ := mem_range'.mp mem
  rw [Nat.one_mul, Bus.byteAt, Bus.byteAt]
  cases isPa : physical space (ptr + j) with
  | none => rfl
  | some pa =>
    have kept := copied.kept pa fun i low same => apart i low j inside (same.trans isPa.symm)
    rw [map_some, map_some, kept]

/-! ### Arrays of buffers -/

/-- A `u64` in user memory, the low byte first. -/
def u64At (bytes : List UInt8) (off : ℕ) : ℕ := leVal 8 fun i => bytes.getD (off + i) 0

/-- What a view of user memory yields; it is never left to a page fault. -/
def view {R : Type} (space : Space) (bus : Bus) (ptr len : ℕ) (f : List UInt8 → R) : Except ℤ R :=
  (withUserBytes space ptr len f bus).elim (.error EFAULT) Prod.fst

def readIovec (space : Space) (bus : Bus) (iov index : ℕ) : Except ℤ (ℕ × ℕ) :=
  match fitting 64 (iov + index * 16) with
  | none => .error EFAULT
  | some slot => view space bus slot 16 fun b => (u64At b 0, u64At b 8)

/-- **A view is of exactly the range, or refused.** -/
theorem view_eq (space : Space) (bus : Bus) (ptr len : ℕ) (f : List UInt8 → R) :
    (Allowed space false ptr len → view space bus ptr len f = .ok (f (bus.bytesAt space ptr len))) ∧
    (¬Allowed space false ptr len → view space bus ptr len f = .error EFAULT) := by
  obtain ⟨passed, refused⟩ := @withUserBytes_eq space ptr len R f bus
  exact ⟨fun allowed => by rw [view, passed allowed]; rfl, fun wrong => by rw [view, refused wrong]; rfl⟩

/-- A copy leaves an entry alone that it does not meet. -/
theorem Copied.readIovec {src : List UInt8} {after : Bus} {iov index : ℕ}
    (copied : Copied space dst src bus after) (apart : ∀ i < src.length, ∀ j < 16,
      physical space (dst + i) ≠ physical space (iov + index * 16 + j)) :
    Syscall.readIovec space after iov index = Syscall.readIovec space bus iov index := by
  unfold Syscall.readIovec
  cases sum : fitting 64 (iov + index * 16) with
  | none => rfl
  | some slot =>
    obtain ⟨-, rfl⟩ := fitting_eq_some.mp sum
    have same := copied.bytesAt apart
    by_cases allowed : Allowed space false (iov + index * 16) 16
    · simp only [(view_eq space _ _ 16 _).1 allowed, same]
    · simp only [(view_eq space _ _ 16 _).2 allowed]

/-- **User pointers are validated exactly.** -/
theorem user_pointers_validated (space : Space) :
    (∀ (start len : ℕ) (needWrite : Bool), start + len ≤ userSpaceEnd →
      ∃ verdict, userRangeAccessible space start len needWrite = some verdict ∧
        (verdict = true ↔ ∀ page, Meets start len page → Permits space needWrite page)) ∧
    (∀ (R : Type) (f : List UInt8 → R) (ptr len : ℕ) (bus : Bus), (Allowed space false ptr len ∧
        withUserBytes space ptr len f bus = some (.ok (f (bus.bytesAt space ptr len)), bus.seen ptr len)) ∨
      (¬Allowed space false ptr len ∧ withUserBytes space ptr len f bus = some (.error EFAULT, bus))) ∧
    ∀ (dst : ℕ) (src : List UInt8) (bus : Bus), (Allowed space true dst src.length ∧
        ∃ after, copyToUser space dst src bus = some (.ok (), after) ∧ Copied space dst src bus after) ∨
      (¬Allowed space true dst src.length ∧ copyToUser space dst src bus = some (.error EFAULT, bus)) := by
  refine ⟨fun start len needWrite low => userRangeAccessible_eq space needWrite low, fun R f ptr len bus => ?_,
    fun dst src bus => ?_⟩
  · by_cases allowed : Allowed space false ptr len
    · exact .inl ⟨allowed, (withUserBytes_eq f bus).1 allowed⟩
    · exact .inr ⟨allowed, (withUserBytes_eq f bus).2 allowed⟩
  · by_cases allowed : Allowed space true dst src.length
    · exact .inl ⟨allowed, (copyToUser_eq dst src bus).1 allowed⟩
    · exact .inr ⟨allowed, (copyToUser_eq dst src bus).2 allowed⟩

/-- Only the second page is mapped. -/
def onePage : Space := fun page => if page = 1 then some ⟨0, true, true⟩ else none

theorem allowed_onePage (low : 4096 ≤ ptr) (high : ptr + len ≤ 8192) : Allowed onePage needWrite ptr len where
  below := high.trans (by decide)
  pages := by
    rintro page ⟨va, above, below, rfl⟩
    refine ⟨⟨0, true, true⟩, if_pos ?_, rfl, fun _ => rfl⟩
    omega

theorem user_pointers_validated_hole : copyToUser onePage 8190 [1, 2, 3, 4] ⟨fun _ => 0, []⟩ =
    some (.error EFAULT, ⟨fun _ => 0, []⟩) := by
  rcases (user_pointers_validated onePage).2.2 8190 [1, 2, 3, 4] ⟨fun _ => 0, []⟩
    with ⟨allowed, -⟩ | ⟨-, refused⟩
  · obtain ⟨leaf, found, -⟩ := allowed.pages 2 ⟨8192, by decide, by decide, by decide⟩
    cases found
  · exact refused

end Ferros.Syscall
