/-
**The first stack of a program.**

`build_user_stack` puts the strings of the arguments and of the environment at the top of a page, and below
them the words that a program finds at its stack pointer: the number of arguments, the addresses of the
strings, each list with a null behind it, and an empty auxiliary vector.

* `buildUserStack` — the code; the stores are kept in a log, also those of a run that fails.
* `buildUserStack_eq` — blocks that are put one below the other, twice.
* `SystemV` — what a program expects; `user_stack_faithful` — **that is what it finds**.
-/

import Ferros.Exec.Elf
import Ferros.Lib.Stores

namespace Ferros.Exec

open Lib List

/-- The pointer, and what was stored so far. -/
structure Stack where
  sp : ℕ
  log : List (Store UInt8)
  deriving DecidableEq, Repr

/-- The common body of `put_str` and `push`. An error comes with the stack as it was left. -/
def lower (floor : ℕ) (cells : List UInt8) (st : Stack) : Except Stack Stack :=
  if st.sp - floor < cells.length then .error st
  else .ok ⟨st.sp - cells.length, st.log ++ [⟨st.sp - cells.length, cells⟩]⟩

/-- A string with the null that ends it. -/
def cString (s : List UInt8) : List UInt8 := s ++ [0]

def putStr (floor : ℕ) (s : List UInt8) (st : Stack) : Except Stack (ℕ × Stack) := do
  let st ← lower floor (cString s) st
  return (st.sp, st)

def push (floor value : ℕ) : Stack → Except Stack Stack := lower floor (leList 8 value)

/-- The loop over the strings. -/
def putAll (floor : ℕ) : List (List UInt8) → Stack → Except Stack (List ℕ × Stack)
  | [], st => .ok ([], st)
  | s :: rest, st => do
      let (va, st) ← putStr floor s st
      let (vas, st) ← putAll floor rest st
      return (va :: vas, st)

/-- The loop over the pointers. -/
def pushAll (floor : ℕ) : List ℕ → Stack → Except Stack Stack
  | [], st => .ok st
  | value :: rest, st => do
      let st ← push floor value st
      pushAll floor rest st

/-- The part of `build_user_stack` that comes after the strings. -/
def pushWords (floor : ℕ) (argPtrs envPtrs : List ℕ) (st : Stack) : Except Stack Stack := do
  let slots := 1 + argPtrs.length + 1 + envPtrs.length + 1 + 2
  let st ← if slots % 2 = 1 then push floor 0 st else .ok st
  let st ← push floor 0 st
  let st ← push floor 0 st
  let st ← push floor 0 st
  let st ← pushAll floor envPtrs.reverse st
  let st ← push floor 0 st
  let st ← pushAll floor argPtrs.reverse st
  push floor argPtrs.length st

def buildUserStack (top floor : ℕ) (argv envp : List (List UInt8)) : Except Stack (ℕ × Stack) := do
  let (argPtrs, st) ← putAll floor argv ⟨top, []⟩
  let (envPtrs, st) ← putAll floor envp st
  -- `sp &= !0xF`
  let st ← pushWords floor argPtrs envPtrs ⟨st.sp / 16 * 16, st.log⟩
  return (st.sp, st)

/-! ### Blocks, one below the other -/

def lowerAll (floor : ℕ) : List (List UInt8) → Stack → Except Stack Stack
  | [], st => .ok st
  | cells :: rest, st => lower floor cells st >>= lowerAll floor rest

/-- The stack below which all the blocks were put. -/
def Stack.down (st : Stack) (blocks : List (List UInt8)) : Stack :=
  ⟨st.sp - extent blocks, st.log ++ placed st.sp blocks⟩

variable {floor sp va value count : ℕ} {st : Stack} {blocks strings : List (List UInt8)} {cells : List UInt8}
  {log : List (Store UInt8)} {memory : ℕ → UInt8} {values args envs : List ℕ}

theorem Stack.down_nil : st.down [] = st := by
  rw [down, placed, append_nil]
  rfl

theorem Stack.down_cons : st.down (cells :: blocks) = (st.down [cells]).down blocks := by
  simp only [down, extent, placed, append_assoc, Nat.sub_sub, Nat.add_zero, cons_append, nil_append]

theorem lower_ok (room : cells.length ≤ st.sp - floor) : lower floor cells st = .ok (st.down [cells]) := by
  rw [lower, if_neg (Nat.not_lt.mpr room)]
  rfl

theorem lower_error (full : st.sp - floor < cells.length) : lower floor cells st = .error st := if_pos full

/-- **All blocks are put there if there is room for them**; if not, the first ones are. -/
theorem lowerAll_spec (floor : ℕ) (blocks : List (List UInt8)) (st : Stack) :
    (extent blocks ≤ st.sp - floor ∧ lowerAll floor blocks st = .ok (st.down blocks)) ∨
    (st.sp - floor < extent blocks ∧
      ∃ first, extent first ≤ st.sp - floor ∧ lowerAll floor blocks st = .error (st.down first)) := by
  induction blocks generalizing st with
  | nil => exact .inl ⟨Nat.zero_le _, congrArg Except.ok Stack.down_nil.symm⟩
  | cons cells rest ih =>
    rw [lowerAll, extent]
    by_cases room : cells.length ≤ st.sp - floor
    · have below : (st.down [cells]).sp = st.sp - cells.length := rfl
      rw [lower_ok room]
      rcases ih (st.down [cells]) with ⟨fits, done⟩ | ⟨full, first, close, failed⟩
      · rw [below] at fits
        exact .inl ⟨by omega, done.trans (congrArg Except.ok Stack.down_cons.symm)⟩
      · rw [below] at full close
        refine .inr ⟨by omega, cells :: first, ?_, failed.trans (congrArg Except.error Stack.down_cons.symm)⟩
        rw [extent]
        omega
    · refine .inr ⟨by omega, [], Nat.zero_le _, ?_⟩
      rw [lower_error (by omega), Stack.down_nil]
      rfl

theorem lowerAll_append (first second : List (List UInt8)) :
    lowerAll floor (first ++ second) = fun st => lowerAll floor first st >>= lowerAll floor second := by
  induction first with
  | nil => rfl
  | cons cells rest ih =>
    funext st
    rw [cons_append, lowerAll, lowerAll, ih, bind_assoc]

theorem push_eq (value : ℕ) : push floor value = lowerAll floor [leList 8 value] := by
  funext st
  rw [push, lowerAll]
  exact (bind_pure _).symm

theorem pushAll_eq (values : List ℕ) : pushAll floor values = lowerAll floor (values.map (leList 8)) := by
  induction values with
  | nil => rfl
  | cons value rest ih =>
    funext st
    rw [pushAll, map_cons, lowerAll, push, ih]

/-- Where strings are that were put below `sp`. -/
def addresses (sp : ℕ) (strings : List (List UInt8)) : List ℕ :=
  (placed sp (strings.map cString)).map Store.start

theorem length_addresses (sp : ℕ) (strings : List (List UInt8)) :
    (addresses sp strings).length = strings.length := by
  rw [addresses, length_map, length_placed, length_map]

theorem putAll_eq (strings : List (List UInt8)) : putAll floor strings st = do
      let lowered ← lowerAll floor (strings.map cString) st return (addresses st.sp strings, lowered) := by
  induction strings generalizing st with
  | nil => rfl
  | cons s rest ih =>
    rw [putAll, map_cons, lowerAll, putStr]
    by_cases room : (cString s).length ≤ st.sp - floor
    · rw [lower_ok room]
      show putAll floor rest (st.down [cString s]) >>= _ = _
      rw [ih]
      show _ = lowerAll floor (rest.map cString) (st.down [cString s]) >>= _
      cases lowerAll floor (rest.map cString) (st.down [cString s]) with
      | error left => rfl
      | ok lowered => rfl
    · rw [lower_error (by omega)]
      rfl

/-- The words that a program finds, from the lowest on; the last one is there if their number was odd. -/
def stackWords (args envs : List ℕ) : List ℕ :=
  args.length :: args ++ 0 :: envs ++ [0, 0, 0] ++ if (args.length + envs.length) % 2 = 0 then [0] else []

/-- The words in the order in which they are pushed. -/
theorem reverse_stackWords (args envs : List ℕ) : (stackWords args envs).reverse =
      (if (args.length + envs.length) % 2 = 0 then [0] else []) ++
        ([0] ++ ([0] ++ ([0] ++ (envs.reverse ++ ([0] ++ (args.reverse ++ [args.length])))))) := by
  unfold stackWords
  split
  · simp
  · simp

theorem pushWords_eq (floor : ℕ) (args envs : List ℕ) (st : Stack) :
    pushWords floor args envs st = lowerAll floor ((stackWords args envs).reverse.map (leList 8)) st := by
  rw [reverse_stackWords]
  simp only [pushWords, push_eq, pushAll_eq, map_append, lowerAll_append]
  by_cases odd : (args.length + envs.length) % 2 = 0
  · rw [if_pos odd, if_pos (by omega)]
    rfl
  · rw [if_neg odd, if_neg (by omega)]
    rfl

/-- **First the strings, then the words**, from an address that is a multiple of 16. -/
theorem buildUserStack_eq (top floor : ℕ) (argv envp : List (List UInt8)) :
    buildUserStack top floor argv envp = do
      let first ← lowerAll floor (argv.map cString) ⟨top, []⟩
      let strings ← lowerAll floor (envp.map cString) first
      let words := stackWords (addresses top argv) (addresses first.sp envp)
      let st ← lowerAll floor (words.reverse.map (leList 8)) ⟨strings.sp / 16 * 16, strings.log⟩
      return (st.sp, st) := by
  rw [buildUserStack, putAll_eq]
  cases lowerAll floor (argv.map cString) ⟨top, []⟩ with
  | error left => rfl
  | ok first =>
    show (putAll floor envp first >>= _) = (lowerAll floor (envp.map cString) first >>= _)
    rw [putAll_eq]
    cases lowerAll floor (envp.map cString) first with
    | error left => rfl
    | ok strings =>
      show (pushWords floor _ _ _ >>= _) = _
      rw [pushWords_eq]
      rfl

/-! ### Room -/

theorem length_leList (width value : ℕ) : (leList width value).length = width := length_ofFn

theorem length_stackWords (args envs : List ℕ) :
    (stackWords args envs).length = (args.length + envs.length + 6) / 2 * 2 := by
  unfold stackWords
  split
  · simp only [length_append, length_cons, length_nil]
    omega
  · simp only [length_append, length_cons, length_nil]
    omega

theorem length_of_word : ∀ cells ∈ values.map (leList 8), cells.length = 8 := by
  intro cells mem
  obtain ⟨value, _, rfl⟩ := mem_map.mp mem
  exact length_leList 8 value

theorem extent_words (values : List ℕ) : extent (values.reverse.map (leList 8)) = 8 * values.length := by
  rw [extent_of_width length_of_word, length_map, length_reverse]

/-- What strings and words take up: the strings are filled up to a multiple of 16, and the words to an even
number. -/
def stackSize (argv envp : List (List UInt8)) : ℕ :=
  (extent (argv.map cString) + extent (envp.map cString) + 15) / 16 * 16 +
    8 * ((argv.length + envp.length + 6) / 2 * 2)

/-- Nothing is stored outside. -/
def Within (floor top : ℕ) (log : List (Store UInt8)) : Prop := ∀ w ∈ log, floor ≤ w.start ∧ w.stop ≤ top

theorem Within.placed {top : ℕ}
    (within : Within floor top log) (low : floor ≤ sp) (high : sp ≤ top) (room : extent blocks ≤ sp - floor) :
    Within floor top (log ++ placed sp blocks) := by
  intro w mem
  rcases mem_append.mp mem with earlier | new
  · exact within w earlier
  · have inside := placed_within (by omega) new
    omega

/-- **One phase**: the blocks are there, or there is no room for them. -/
theorem lowerAll_within {top : ℕ} (blocks : List (List UInt8))
    (low : floor ≤ sp) (high : sp ≤ top) (within : Within floor top log) : (extent blocks ≤ sp - floor ∧
      lowerAll floor blocks ⟨sp, log⟩ = .ok ⟨sp - extent blocks, log ++ placed sp blocks⟩ ∧
      Within floor top (log ++ placed sp blocks)) ∨ (sp - floor < extent blocks ∧
      ∃ left, lowerAll floor blocks ⟨sp, log⟩ = .error left ∧ Within floor top left.log) := by
  rcases lowerAll_spec floor blocks ⟨sp, log⟩ with ⟨room, done⟩ | ⟨full, first, room, failed⟩
  · exact .inl ⟨room, done, within.placed low high room⟩
  · exact .inr ⟨full, _, failed, within.placed low high room⟩

section Page

variable {top : ℕ} {argv envp : List (List UInt8)}

section

variable (top : ℕ) (argv envp : List (List UInt8))

/-- The addresses of the environment's strings, which are below those of the arguments. -/
def envAddresses : List ℕ :=
  addresses (top - extent (argv.map cString)) envp

/-- Where the words begin. -/
def wordsTop : ℕ :=
  (top - extent (argv.map cString) - extent (envp.map cString)) / 16 * 16

/-- The words, in the order in which they are pushed. -/
def wordBlocks : List (List UInt8) :=
  (stackWords (addresses top argv) (envAddresses top argv envp)).reverse.map (leList 8)

/-- The stack that a program begins with. -/
def fullStack : Stack where
  sp := wordsTop top argv envp - extent (wordBlocks top argv envp)
  log := [] ++ placed top (argv.map cString) ++
    placed (top - extent (argv.map cString)) (envp.map cString) ++
    placed (wordsTop top argv envp) (wordBlocks top argv envp)

end

theorem extent_wordBlocks :
    extent (wordBlocks top argv envp) = 8 * ((argv.length + envp.length + 6) / 2 * 2) := by
  rw [wordBlocks, extent_words, length_stackWords, envAddresses, length_addresses, length_addresses]

/-- **The block is built if it fits in the page**; in no case is anything stored outside. -/
theorem buildUserStack_spec (aligned : floor % 16 = 0) (page : top = floor + 4096) :
    (stackSize argv envp ≤ 4096 ∧
      buildUserStack top floor argv envp = .ok ((fullStack top argv envp).sp, fullStack top argv envp) ∧
      Within floor top (fullStack top argv envp).log) ∨ (4096 < stackSize argv envp ∧
      ∃ left, buildUserStack top floor argv envp = .error left ∧ Within floor top left.log) := by
  have start : Within floor top [] := forall_mem_nil _
  rw [buildUserStack_eq, stackSize, ← @extent_wordBlocks top]
  have inside : floor ≤ top := by omega
  rcases lowerAll_within (argv.map cString) inside le_rfl start with
    ⟨room, done, within⟩ | ⟨full, left, failed, within⟩
  swap
  · rw [failed]
    exact .inr ⟨by omega, left, rfl, within⟩
  rw [done]
  have low : floor ≤ top - extent (argv.map cString) := by omega
  rcases lowerAll_within (envp.map cString) low (Nat.sub_le _ _) within with
    ⟨room', done', within⟩ | ⟨full, left, failed, within⟩
  swap
  · refine .inr ⟨by omega, left, ?_, within⟩
    show lowerAll floor (envp.map cString) _ >>= _ = _
    rw [failed]
    rfl
  have isTop : wordsTop top argv envp =
    (top - extent (argv.map cString) - extent (envp.map cString)) / 16 * 16 := rfl
  have low : floor ≤ wordsTop top argv envp := by omega
  rcases lowerAll_within (wordBlocks top argv envp) low (by omega) within with
    ⟨room₃, done₃, within⟩ | ⟨full, left, failed, within⟩
  · refine .inl ⟨by omega, ?_, within⟩
    show lowerAll floor (envp.map cString) _ >>= _ = _
    rw [done']
    show lowerAll floor (wordBlocks top argv envp) ⟨wordsTop top argv envp, _⟩ >>= _ = _
    rw [done₃]
    rfl
  · refine .inr ⟨by omega, left, ?_, within⟩
    show lowerAll floor (envp.map cString) _ >>= _ = _
    rw [done']
    show lowerAll floor (wordBlocks top argv envp) ⟨wordsTop top argv envp, _⟩ >>= _ = _
    rw [failed]
    rfl

end Page

/-! ### What a program finds -/

/-- The 64-bit words from an address on. -/
def wordsAt (memory : ℕ → UInt8) (start count : ℕ) : List ℕ :=
  (range count).map fun i => leVal 8 fun k => memory (start + 8 * i + k)

/-- A copy of a string is at the address, with a null behind it. -/
def CopyAt (floor top : ℕ) (memory : ℕ → UInt8) (va : ℕ) (s : List UInt8) : Prop :=
  floor ≤ va ∧ va + (cString s).length ≤ top ∧ cellsAt memory va (cString s).length = cString s

/-- Two regions, each an address and a length, do not overlap. -/
def Clear (r r' : ℕ × ℕ) : Prop := r.1 + r.2 ≤ r'.1 ∨ r'.1 + r'.2 ≤ r.1

/-- The strings as regions. -/
def copies (vas : List ℕ) (strings : List (List UInt8)) : List (ℕ × ℕ) :=
  vas.zip (strings.map fun s => (cString s).length)

/-- **What the System V ABI wants at the entry of a program.** -/
structure SystemV (floor top : ℕ) (argv envp : List (List UInt8)) (memory : ℕ → UInt8) (rsp : ℕ) : Prop where
  above : floor ≤ rsp
  aligned : rsp % 16 = 0
  block : ∃ args envs : List ℕ,
    wordsAt memory rsp (argv.length + envp.length + 5) = argv.length :: args ++ 0 :: envs ++ [0, 0, 0] ∧
    List.Forall₂ (CopyAt floor top memory) args argv ∧ List.Forall₂ (CopyAt floor top memory) envs envp ∧
    ((rsp, 8 * (argv.length + envp.length + 5)) :: (copies args argv ++ copies envs envp)).Pairwise Clear

section Found

variable {top : ℕ} {argv envp : List (List UInt8)}

theorem copyAt_addresses (apart : log.Pairwise Apart) (within : Within floor top log)
    (inLog : placed sp (strings.map cString) ⊆ log) :
    List.Forall₂ (CopyAt floor top (after log memory)) (addresses sp strings) strings := by
  induction strings generalizing sp with
  | nil => exact .nil
  | cons s rest ih =>
    obtain ⟨here, later⟩ := cons_subset.mp inLog
    obtain ⟨low, high⟩ := within _ here
    exact .cons ⟨low, high, cellsAt_after apart here memory⟩ (ih later)

theorem copies_addresses : copies (addresses sp strings) strings =
      (placed sp (strings.map cString)).map fun w => (w.start, w.cells.length) := by
  induction strings generalizing sp with
  | nil => rfl
  | cons s rest ih =>
    have step := @ih (sp - (cString s).length)
    rw [copies, addresses, map_cons, placed, map_cons, map_cons, zip_cons_cons, map_cons, ← step]
    rfl

theorem word_after (apart : log.Pairwise Apart) (inLog : ⟨va, leList 8 value⟩ ∈ log) (small : value < 2 ^ 64) :
    (leVal 8 fun k => after log memory (va + k)) = value := by
  have found := cellsAt_after apart inLog memory
  simp only [length_leList] at found
  have bytes : (fun k : Fin 8 => after log memory (va + k)) = leBytes 8 value := by
    funext k
    have same := congrArg (fun cells => cells[k.1]?) found
    simp only [cellsAt, leList, getElem?_map, getElem?_range k.2, Option.map_some,
      List.getElem?_ofFn, dif_pos k.2] at same
    exact Option.some.inj same
  rw [bytes, leVal_leBytes]
  exact Nat.mod_eq_of_lt small

/-- **The words are found in the opposite order.** -/
theorem wordsAt_after (apart : log.Pairwise Apart) (small : ∀ value ∈ values, value < 2 ^ 64)
    (room : 8 * values.length ≤ sp) (inLog : placed sp (values.reverse.map (leList 8)) ⊆ log)
    (few : count ≤ values.length) :
    wordsAt (after log memory) (sp - 8 * values.length) count = values.take count := by
  refine ext_getElem? fun i => ?_
  by_cases inside : i < count
  · have isValue : i < values.length := by omega
    have isBlock : (values.reverse.map (leList 8))[values.length - 1 - i]? = some (leList 8 values[i]) := by
      rw [getElem?_map, getElem?_reverse (by omega), Nat.sub_sub_self (by omega),
        getElem?_eq_getElem isValue, Option.map_some]
    have position : sp - 8 * (values.length - 1 - i + 1) = sp - 8 * values.length + 8 * i := by omega
    have stored := inLog (mem_placed_of_width length_of_word isBlock)
    rw [position] at stored
    rw [wordsAt, getElem?_map, getElem?_range inside, Option.map_some,
      word_after apart stored (small _ (getElem_mem isValue)), getElem?_take, if_pos inside,
      getElem?_eq_getElem isValue]
  · rw [getElem?_take, if_neg inside, getElem?_eq_none]
    rw [wordsAt, length_map, length_range]
    omega

theorem mem_addresses (room : extent (strings.map cString) ≤ sp) (mem : va ∈ addresses sp strings) :
    va ≤ sp := by
  obtain ⟨w, isPlaced, rfl⟩ := mem_map.mp mem
  have inside := (placed_within room isPlaced).2
  unfold Store.stop at inside
  omega

theorem mem_stackWords (mem : value ∈ stackWords args envs) :
    value = args.length ∨ value ∈ args ∨ value = 0 ∨ value ∈ envs := by
  unfold stackWords at mem
  split at mem
  · simp only [mem_append, mem_cons, not_mem_nil] at mem
    tauto
  · simp only [mem_append, mem_cons, not_mem_nil] at mem
    tauto

theorem take_stackWords (args envs : List ℕ) : (stackWords args envs).take (args.length + envs.length + 5) =
      args.length :: args ++ 0 :: envs ++ [0, 0, 0] := by
  refine take_left' ?_
  simp only [length_append, length_cons, length_nil]
  omega

theorem fullStack_apart (roomArgs : extent (argv.map cString) ≤ top)
    (roomEnvs : extent (envp.map cString) ≤ top - extent (argv.map cString))
    (roomWords : extent (wordBlocks top argv envp) ≤ wordsTop top argv envp) :
    (fullStack top argv envp).log.Pairwise Apart := by
  have isTop : wordsTop top argv envp =
    (top - extent (argv.map cString) - extent (envp.map cString)) / 16 * 16 := rfl
  refine pairwise_append.mpr ⟨pairwise_append.mpr ⟨placed_apart roomArgs, placed_apart roomEnvs, ?_⟩,
    placed_apart roomWords, ?_⟩
  · intro v isArg w isEnv
    have above := placed_within roomArgs isArg
    have below := placed_within roomEnvs isEnv
    exact .inr (by omega)
  · intro v isString w isWord
    have below := placed_within roomWords isWord
    rcases mem_append.mp isString with isArg | isEnv
    · have above := placed_within roomArgs isArg
      exact .inr (by omega)
    · have above := placed_within roomEnvs isEnv
      exact .inr (by omega)

theorem wordsAt_fullStack (apart : (fullStack top argv envp).log.Pairwise Apart) (representable : top < 2 ^ 64)
    (few : argv.length < 2 ^ 64) (roomArgs : extent (argv.map cString) ≤ top)
    (roomEnvs : extent (envp.map cString) ≤ top - extent (argv.map cString))
    (roomWords : extent (wordBlocks top argv envp) ≤ wordsTop top argv envp) :
    wordsAt (after (fullStack top argv envp).log memory) (fullStack top argv envp).sp
        (argv.length + envp.length + 5) =
      argv.length :: addresses top argv ++ 0 :: envAddresses top argv envp ++ [0, 0, 0] := by
  have lengths : (envAddresses top argv envp).length = envp.length := length_addresses _ _
  have small : ∀ value ∈ stackWords (addresses top argv) (envAddresses top argv envp), value < 2 ^ 64 := by
    intro value mem
    rcases mem_stackWords mem with rfl | isArg | rfl | isEnv
    · rwa [length_addresses]
    · exact (mem_addresses roomArgs isArg).trans_lt representable
    · decide
    · have low := mem_addresses roomEnvs isEnv
      omega
  have taken := take_stackWords (addresses top argv) (envAddresses top argv envp)
  rw [wordBlocks, extent_words] at roomWords
  rw [length_addresses, lengths] at taken
  rw [← taken, fullStack, wordBlocks, extent_words]
  refine wordsAt_after apart small roomWords (subset_append_right _ _) ?_
  rw [length_stackWords, length_addresses, lengths]
  omega

/-- **The block, if it fits.** -/
theorem systemV_fullStack (aligned : floor % 16 = 0) (page : top = floor + 4096) (representable : top < 2 ^ 64)
    (fits : stackSize argv envp ≤ 4096) (within : Within floor top (fullStack top argv envp).log) :
    SystemV floor top argv envp (after (fullStack top argv envp).log memory) (fullStack top argv envp).sp := by
  have isTop : wordsTop top argv envp =
    (top - extent (argv.map cString) - extent (envp.map cString)) / 16 * 16 := rfl
  have isSp : (fullStack top argv envp).sp = wordsTop top argv envp - extent (wordBlocks top argv envp) := rfl
  have words := @extent_wordBlocks top argv envp
  rw [stackSize] at fits
  have roomArgs : extent (argv.map cString) ≤ top := by omega
  have roomEnvs : extent (envp.map cString) ≤ top - extent (argv.map cString) := by omega
  have roomWords : extent (wordBlocks top argv envp) ≤ wordsTop top argv envp := by omega
  have apart := fullStack_apart roomArgs roomEnvs roomWords
  obtain ⟨strings, _, _⟩ := pairwise_append.mp apart
  have inLog : placed top (argv.map cString) ++
      placed (top - extent (argv.map cString)) (envp.map cString) ⊆ (fullStack top argv envp).log :=
    subset_append_left _ _
  obtain ⟨argsIn, envsIn⟩ := append_subset.mp inLog
  refine ⟨by omega, by omega, addresses top argv, envAddresses top argv envp,
    wordsAt_fullStack apart representable (by omega) roomArgs roomEnvs roomWords,
    copyAt_addresses apart within argsIn, copyAt_addresses apart within envsIn, ?_⟩
  rw [envAddresses, copies_addresses, copies_addresses, ← map_append]
  refine .cons (fun region mem => ?_) (pairwise_map.mpr strings)
  obtain ⟨w, isString, rfl⟩ := mem_map.mp mem
  rcases mem_append.mp isString with isArg | isEnv
  · have above := (placed_within roomArgs isArg).1
    exact .inl (by simp only; omega)
  · have above := (placed_within roomEnvs isEnv).1
    exact .inl (by simp only; omega)

end Found

/-- **The first stack is a faithful block.** It is built exactly if strings, padding and words fit in the page;
whatever happens, nothing is stored outside. -/
theorem user_stack_faithful (floor top : ℕ) (aligned : floor % 16 = 0) (page : top = floor + 4096)
    (representable : top < 2 ^ 64) (argv envp : List (List UInt8)) :
    ((∃ rsp st, buildUserStack top floor argv envp = .ok (rsp, st)) ↔ stackSize argv envp ≤ 4096) ∧
    (∀ rsp st, buildUserStack top floor argv envp = .ok (rsp, st) →
      Within floor top st.log ∧ ∀ memory, SystemV floor top argv envp (after st.log memory) rsp) ∧
    ∀ left, buildUserStack top floor argv envp = .error left → Within floor top left.log := by
  rcases buildUserStack_spec aligned page with ⟨fits, built, within⟩ | ⟨tooLarge, left, failed, within⟩
  · refine ⟨iff_of_true ⟨_, _, built⟩ fits, fun rsp st ran => ?_, fun left failed => ?_⟩
    · cases built.symm.trans ran
      exact ⟨within, fun memory => systemV_fullStack aligned page representable fits within⟩
    · cases built.symm.trans failed
  · refine ⟨iff_of_false ?_ (by omega), fun rsp st ran => ?_, fun left' ran => ?_⟩
    · rintro ⟨rsp, st, ran⟩
      cases failed.symm.trans ran
    · cases failed.symm.trans ran
    · obtain rfl := Except.error.inj (failed.symm.trans ran)
      exact within

/-- The stack of `ls`, in the page that programs are given. -/
theorem user_stack_faithful_ls :
    ∃ rsp st, buildUserStack 0x7F80_1000_1000 0x7F80_1000_0000 [[0x6C, 0x73]] [] = .ok (rsp, st) ∧
      ∀ memory, SystemV 0x7F80_1000_0000 0x7F80_1000_1000 [[0x6C, 0x73]] [] (after st.log memory) rsp := by
  obtain ⟨built, found, _⟩ := user_stack_faithful 0x7F80_1000_0000 0x7F80_1000_1000
    (by decide) (by decide) (by decide) [[0x6C, 0x73]] []
  obtain ⟨rsp, st, ran⟩ := built.mpr (by decide)
  exact ⟨rsp, st, ran, (found rsp st ran).2⟩

end Ferros.Exec
