/-
**The law of descriptor tables.**

A table is a function from numbers to what descriptors point to; the vector behind it has a length and
holes that no call shows. Every call that gives out a number gives the smallest unused one, from 0 or from
its argument on, and fails exactly if there is none.

* `descriptor_table_law` — **the law**, in every state that calls of any processes reach.
-/

import Ferros.Files.Count
import Ferros.Files.Private
import Mathlib.Order.Bounds.Basic

namespace Ferros.Files

open Lib List Option Function Prod Finmap Set

variable {fds fds' : List (Option Fd)} {entry : Fd} {i start n oldfd newfd fd arg : ℕ}
  {key other parent child old new : Key} {r r' : Registry} {outcome : Outcome} {copies inet : Bool}
  {cmd : FcntlCmd} {op : Op} {value : ℤ} {l : Logged}

/-! ### Tables as functions -/

def unused (start : ℕ) (fds : List (Option Fd)) : Set ℕ :=
  { n | start ≤ n ∧ n < maxFds ∧ slotAt fds n = none }

/-- **`alloc_fd` takes the smallest unused number.** -/
theorem allocFd_isLeast (short : fds.length ≤ maxFds) (alloc : allocFd fds entry = some (i, fds')) :
    IsLeast (unused 0 fds) i ∧ SetsTo fds i (some entry) fds' := by
  unfold allocFd at alloc
  split at alloc
  · rename_i j found
    obtain ⟨inRange, isFree, before⟩ := findIdx?_eq_some_iff_getElem.mp found
    obtain ⟨rfl, rfl⟩ := mk.inj (some.inj alloc)
    refine ⟨⟨⟨Nat.zero_le _, by omega, ?_⟩, fun m ⟨_, _, free⟩ => ?_⟩, setsTo_set inRange _⟩
    · rw [slotAt, getElem?_eq_getElem inRange, isNone_iff_eq_none.mp isFree]
      rfl
    · by_contra less
      have earlier : m < j := by omega
      refine before m earlier (isNone_iff_eq_none.mpr ?_)
      rw [slotAt, getElem?_eq_getElem (earlier.trans inRange)] at free
      exact free
  · rename_i full
    split at alloc
    · rename_i room
      cases alloc
      refine ⟨⟨⟨Nat.zero_le _, room, slotAt_eq_none_of_le le_rfl⟩, fun m ⟨_, _, free⟩ => ?_⟩, ⟨?_, fun _ => ?_⟩⟩
      · by_contra less
        have inRange : m < fds.length := by omega
        have used := findIdx?_eq_none_iff.mp full fds[m] (getElem_mem inRange)
        rw [slotAt, getElem?_eq_getElem inRange] at free
        rw [isNone_eq_false_iff, show fds[m] = none from free] at used
        cases used
      · funext m
        rw [slotAt, getElem?_append]
        by_cases same : m = fds.length
        · rw [same, if_neg (lt_irrefl _), Nat.sub_self, update_self]
          rfl
        · rw [update_of_ne same]
          split
          · rfl
          · rename_i past
            rw [getElem?_eq_none (by rw [length_singleton]; omega), slotAt_eq_none_of_le (by omega)]
            rfl
      · rw [length_append, length_singleton]
        exact room
    · cases alloc

/-- `alloc_fd` fails only if every number is used. -/
theorem unused_of_allocFd (failed : allocFd fds entry = none) : unused 0 fds = ∅ := by
  refine eq_empty_of_forall_notMem fun m ⟨_, small, free⟩ => ?_
  unfold allocFd at failed
  split at failed
  · cases failed
  · rename_i full
    split at failed
    · cases failed
    · have inRange : m < fds.length := by omega
      have used := findIdx?_eq_none_iff.mp full fds[m] (getElem_mem inRange)
      rw [slotAt, getElem?_eq_getElem inRange] at free
      rw [isNone_eq_false_iff, show fds[m] = none from free] at used
      cases used

/-- **The search of `F_DUPFD`.** -/
theorem firstFree_isLeast (found : firstFree start fds < maxFds) :
    IsLeast (unused start fds) (firstFree start fds) := by
  unfold firstFree at found ⊢
  cases searched : (range' start (maxFds - start)).find? fun i => (slotAt fds i).isNone with
  | none =>
    rw [searched] at found
    exact absurd found (lt_irrefl maxFds)
  | some i =>
    obtain ⟨free, mem, before⟩ := find?_range'_eq_some.mp searched
    obtain ⟨low, high⟩ := mem_range'_1.mp mem
    rw [getD_some]
    refine ⟨⟨low, by omega, isNone_iff_eq_none.mp free⟩, fun m ⟨above, _, isFree⟩ => ?_⟩
    by_contra less
    have used := before m above (by omega)
    rw [isFree] at used
    cases used

theorem unused_of_firstFree (failed : maxFds ≤ firstFree start fds) : unused start fds = ∅ := by
  refine eq_empty_of_forall_notMem fun m ⟨low, small, free⟩ => ?_
  unfold firstFree at failed
  cases searched : (range' start (maxFds - start)).find? fun i => (slotAt fds i).isNone with
  | none =>
    have used := find?_eq_none.mp searched m (mem_range'_1.mpr ⟨low, by omega⟩)
    exact used (isNone_iff_eq_none.mpr free)
  | some i =>
    obtain ⟨_, high⟩ := mem_range'_1.mp (mem_of_find?_eq_some searched)
    rw [searched, getD_some] at failed
    omega

/-! ### The law -/

/-- The pair of numbers that `pipe` writes to the array of the user. -/
def pipePair (key : Key) (r : Registry) : Option (ℕ × ℕ) := do
  let (rfd, fds) ← allocFd (r.proc key).fds (.pipeRead r.shared.pipes.length)
  let (wfd, _) ← allocFd fds (.pipeWrite r.shared.pipes.length)
  return (rfd, wfd)

/-- What a descriptor of a process points to. -/
def backing (r : Registry) (key : Key) (n : ℕ) : Option Fd := slotAt (r.proc key).fds n

def OnlyChanges (named : Key → ℕ → Prop) (r r' : Registry) : Prop :=
  ∀ key n, ¬ named key n → backing r' key n = backing r key n

/-- **The smallest unused number from `start` on is given out**, or there is none and the call says so. -/
def Installs (key : Key) (start : ℕ) (entry : Fd) (outcome : Outcome) (r r' : Registry) : Prop :=
  (∃ n : ℕ, IsLeast (unused start (r.proc key).fds) n ∧ outcome = .value n ∧ backing r' key n = some entry ∧
    OnlyChanges (fun k m => k = key ∧ m = n) r r') ∨
  unused start (r.proc key).fds = ∅ ∧ outcome = .value (-EMFILE) ∧ OnlyChanges (fun _ _ => False) r r'

/-- The two smallest unused numbers are given out, the smaller one for reading. -/
def InstallsPair (key : Key) (success : ℤ) (outcome : Outcome) (r r' : Registry) : Prop :=
  (∃ n m, IsLeast (unused 0 (r.proc key).fds) n ∧ IsLeast (unused 0 (r.proc key).fds \ {n}) m ∧
    pipePair key r = some (n, m) ∧ outcome = .value success ∧
    backing r' key n = some (.pipeRead r.shared.pipes.length) ∧
    backing r' key m = some (.pipeWrite r.shared.pipes.length) ∧
    OnlyChanges (fun k i => k = key ∧ (i = n ∨ i = m)) r r') ∨
  (unused 0 (r.proc key).fds).Subsingleton ∧ outcome = .value (-EMFILE) ∧ OnlyChanges (fun _ _ => False) r r'

/-- **What each call does to the descriptors.** -/
def TableLaw (op : Op) (outcome : Outcome) (r r' : Registry) : Prop :=
  match op with
  | .openFile key f => Installs key 0 (.file f) outcome r r'
  | .socket key true .dgram (.ok handle) =>
    Installs key 0 (.socket ⟨handle, .udp, r.shared.sockets.length⟩) outcome r r'
  | .socket key true .stream (.ok handle) =>
    Installs key 0 (.socket ⟨handle, .tcp, r.shared.sockets.length⟩) outcome r r'
  | .socket _ _ _ _ => OnlyChanges (fun _ _ => False) r r'
  | .pipe key copies => InstallsPair key (if copies then 0 else -EFAULT) outcome r r'
  | .dup2 key oldfd newfd =>
    match backing r key oldfd with
    | some entry =>
      if newfd < maxFds then
        outcome = .value newfd ∧ backing r' key newfd = some entry ∧
          OnlyChanges (fun k m => k = key ∧ m = newfd) r r'
      else outcome = .value (-EBADF) ∧ OnlyChanges (fun _ _ => False) r r'
    | none => outcome = .value (-EBADF) ∧ OnlyChanges (fun _ _ => False) r r'
  | .fcntl key fd .dupFd arg =>
    if arg < maxFds then
      match backing r key fd with
      | some entry => Installs key arg entry outcome r r'
      | none => outcome = .value (-EBADF) ∧ OnlyChanges (fun _ _ => False) r r'
    else outcome = .value (-EINVAL) ∧ OnlyChanges (fun _ _ => False) r r'
  | .fcntl _ _ _ _ => OnlyChanges (fun _ _ => False) r r'
  | .close key fd _ =>
    (backing r key fd = none → outcome = .value (-EBADF)) ∧ backing r' key fd = none ∧
      OnlyChanges (fun k m => k = key ∧ m = fd) r r'
  | .fork _ child => OnlyChanges (fun k _ => k = child) r r'
  | _ => True

section Law

section

variable (retables : Retables key fds r r')
include retables

theorem Retables.backing_own (n : ℕ) : backing r' key n = slotAt fds n := by
  rw [backing, retables.own]

theorem Retables.backing_other (ne : other ≠ key) (n : ℕ) : backing r' other n = backing r other n := by
  rw [backing, retables.others other ne, backing]

theorem Retables.nothing (same : slotAt fds = slotAt (r.proc key).fds) :
    OnlyChanges (fun _ _ => False) r r' := by
  intro k n _
  by_cases isOwn : k = key
  · rw [isOwn, retables.backing_own, same, backing]
  · exact retables.backing_other isOwn n

theorem Retables.changes {entry : Option Fd} (sets : SetsTo (r.proc key).fds n entry fds) :
    backing r' key n = entry ∧ OnlyChanges (fun k m => k = key ∧ m = n) r r' := by
  refine ⟨?_, fun k m away => ?_⟩
  · rw [retables.backing_own, sets.slots, update_self]
  · by_cases isOwn : k = key
    · have other : m ≠ n := fun same => away ⟨isOwn, same⟩
      rw [isOwn, retables.backing_own, sets.slots, update_of_ne other, backing]
    · exact retables.backing_other isOwn m

end

theorem gives_of_allocCurrent {shared : Shared} (short : (r.proc key).fds.length ≤ maxFds)
    (acquires : Acquires key r {entry} shared) (called : allocCurrent key entry { r with shared } = some (value, r')) :
    Installs key 0 entry (.value value) r r' := by
  obtain ⟨_, fds, trades, gives⟩ := allocCurrent_trades acquires
  obtain ⟨rfl, retables⟩ := trades.retables called
  rcases gives with ⟨i, alloc, rfl⟩ | ⟨full, rfl, rfl⟩
  · obtain ⟨least, sets⟩ := allocFd_isLeast short alloc
    obtain ⟨set, only⟩ := retables.changes sets
    exact .inl ⟨i, least, rfl, set, only⟩
  · exact .inr ⟨unused_of_allocFd full, rfl, retables.nothing rfl⟩

theorem unused_set (sets : SetsTo fds n (some entry) fds') : unused 0 fds' = unused 0 fds \ {n} := by
  ext m
  simp only [unused, mem_ofPred_eq, mem_sdiff, mem_singleton_iff, sets.slots]
  by_cases same : m = n
  · rw [same, update_self]
    exact iff_of_false (fun ⟨_, _, free⟩ => some_ne_none entry free) fun both => both.2 rfl
  · rw [update_of_ne same]
    exact (and_iff_left same).symm

theorem givesPair_of_sysPipe (short : (r.proc key).fds.length ≤ maxFds)
    (called : sysPipe key copies r = some (value, r')) :
    InstallsPair key (if copies then 0 else -EFAULT) (.value value) r r' := by
  obtain ⟨_, fds', trades, gives⟩ := sysPipe_trades key copies r
  obtain ⟨rfl, retables⟩ := trades.retables called
  rcases gives with ⟨i, fds, j, first, second, rfl⟩ | ⟨rfl, full⟩
  · obtain ⟨least, sets⟩ := allocFd_isLeast short first
    obtain ⟨next, sets'⟩ := allocFd_isLeast (sets.short short) second
    rw [unused_set sets] at next
    have other : i ≠ j := fun same => next.1.2 same.symm
    refine .inl ⟨i, j, least, next, ?_, rfl, ?_, ?_, fun k n away => ?_⟩
    · simp only [pipePair, first, second, bind_eq_bind, bind_some]
      rfl
    · rw [retables.backing_own, sets'.slots, update_of_ne other, sets.slots, update_self]
    · rw [retables.backing_own, sets'.slots, update_self]
    · by_cases isOwn : k = key
      · have apart : n ≠ i ∧ n ≠ j := not_or.mp fun same => away ⟨isOwn, same⟩
        rw [isOwn, retables.backing_own, sets'.slots, update_of_ne apart.2, sets.slots,
          update_of_ne apart.1, backing]
      · exact retables.backing_other isOwn n
  · rcases full with ⟨noFree, rfl⟩ | ⟨i, fds, first, noFree, rfl⟩
    · refine .inr ⟨?_, rfl, retables.nothing rfl⟩
      rw [unused_of_allocFd noFree]
      exact subsingleton_empty
    · obtain ⟨least, sets⟩ := allocFd_isLeast short first
      have others := unused_of_allocFd noFree
      rw [unused_set sets, sdiff_eq_empty] at others
      refine .inr ⟨subsingleton_singleton.anti others, rfl, retables.nothing ?_⟩
      -- the slot that was taken is given back
      have inRange : i < fds.length := by
        by_contra past
        have here := congrFun sets.slots i
        rw [slotAt_eq_none_of_le (Nat.le_of_not_lt past), update_self] at here
        cases here
      have free : slotAt (r.proc key).fds i = none := least.1.2.2
      rw [slotAt_set inRange, sets.slots, update_idem, ← free, update_eq_self]

theorem law_of_dup2 (called : sysDup2 key oldfd newfd r = some (value, r')) :
    TableLaw (.dup2 key oldfd newfd) (.value value) r r' := by
  obtain ⟨_, fds, trades, gives⟩ := sysDup2_trades key oldfd newfd r
  obtain ⟨rfl, retables⟩ := trades.retables called
  rcases gives with ⟨entry, small, isOpen, rfl, sets⟩ | ⟨why, rfl, rfl⟩
  · simp only [TableLaw, backing, isOpen, if_pos small]
    exact ⟨trivial, retables.changes sets⟩
  · simp only [TableLaw]
    split
    · rename_i entry isOpen
      have high : ¬ newfd < maxFds := Nat.not_lt_of_le (why.resolve_right fun closed => by
        rw [backing, closed] at isOpen
        cases isOpen)
      rw [if_neg high]
      exact ⟨trivial, retables.nothing rfl⟩
    · exact ⟨trivial, retables.nothing rfl⟩

theorem law_of_fcntl (called : sysFcntl key fd cmd arg r = some (value, r')) :
    TableLaw (.fcntl key fd cmd arg) (.value value) r r' := by
  obtain ⟨_, fds, trades, gives⟩ := sysFcntl_trades key fd cmd arg r
  obtain ⟨rfl, retables⟩ := trades.retables called
  rcases gives with ⟨other, rfl⟩ | ⟨rfl, done⟩
  · cases cmd with
    | dupFd => exact absurd rfl other
    | getFd | setFd | getFl | setFl | other => exact retables.nothing rfl
  · simp only [TableLaw]
    rcases done with ⟨entry, small, isOpen, free, rfl, sets⟩ | ⟨why, rfl⟩
    · obtain ⟨set, only⟩ := retables.changes sets
      rw [if_pos small, backing, isOpen]
      exact .inl ⟨_, firstFree_isLeast free, rfl, set, only⟩
    · rcases why with ⟨high, rfl⟩ | ⟨small, closed, rfl⟩ | ⟨small, isOpen, full, rfl⟩
      · rw [if_neg (Nat.not_lt_of_le high)]
        exact ⟨rfl, retables.nothing rfl⟩
      · rw [if_pos small, backing, closed]
        exact ⟨rfl, retables.nothing rfl⟩
      · obtain ⟨entry, isEntry⟩ := ne_none_iff_exists'.mp isOpen
        rw [if_pos small, backing, isEntry]
        exact .inr ⟨unused_of_firstFree full, rfl, retables.nothing rfl⟩

theorem law_of_close {writeFile : OpenFile → Option ℤ} (called : sysClose key fd writeFile r = some (value, r'))
    : TableLaw (.close key fd writeFile) (.value value) r r' := by
  obtain ⟨_, _, trades, gives⟩ := sysClose_trades key fd writeFile r
  obtain ⟨rfl, retables⟩ := trades.retables called
  rcases gives with ⟨entry, isOpen, rfl, rfl⟩ | ⟨closed, rfl, rfl⟩
  · have inRange : fd < (r.proc key).fds.length := by
      by_contra past
      rw [slotAt_eq_none_of_le (Nat.le_of_not_lt past)] at isOpen
      cases isOpen
    obtain ⟨set, only⟩ := retables.changes (setsTo_set inRange none)
    refine ⟨fun closed => ?_, set, only⟩
    rw [backing, isOpen] at closed
    cases closed
  · refine ⟨fun _ => rfl, ?_, fun k n _ => retables.nothing rfl k n id⟩
    rw [retables.backing_own, closed]

theorem law_of_fork (ran : perform (.fork parent child) r = some (outcome, r')) :
    TableLaw (.fork parent child) outcome r r' := by
  intro k n other
  rw [backing, backing, Registry.proc, lookup_of_forked (fork_spec ran).1 other, Registry.proc]

/-- A socket call that fails, or the descriptor it gives out. -/
theorem law_of_socket {sockType : SockType} {made : Except ℤ ℕ} (short : (r.proc key).fds.length ≤ maxFds)
    (called : sysSocket key inet sockType made r = some (value, r')) :
    TableLaw (.socket key inet sockType made) (.value value) r r' := by
  rcases sysSocket_cases key inet sockType made r with
    ⟨handle, _, shared, rfl, known, rfl, rfl, acquires, made⟩ | ⟨why, _, failed⟩
  · have gives := gives_of_allocCurrent short acquires (made.symm.trans called)
    cases sockType with
    | dgram => exact gives
    | stream => exact gives
    | other => exact absurd rfl known
  · cases failed.symm.trans called
    have nothing : OnlyChanges (fun _ _ => False) r r := fun _ _ _ => rfl
    rcases why with rfl | rfl | ⟨e, rfl⟩
    · exact nothing
    · cases inet <;> exact nothing
    · cases inet <;> cases sockType <;> exact nothing

/-- **One call obeys the law.** -/
theorem tableLaw_of_perform (short : ∀ key, (r.proc key).fds.length ≤ maxFds)
    (ran : perform op r = some (outcome, r')) : TableLaw op outcome r r' := by
  cases op with
  | openFile key f =>
    obtain ⟨v, called, rfl⟩ := exists_value ran
    exact gives_of_allocCurrent (short key) (.file f) called
  | pipe key copies =>
    obtain ⟨v, called, rfl⟩ := exists_value ran
    exact givesPair_of_sysPipe (short key) called
  | socket key inet sockType made =>
    obtain ⟨v, called, rfl⟩ := exists_value ran
    exact law_of_socket (short key) called
  | dup2 key oldfd newfd =>
    obtain ⟨v, called, rfl⟩ := exists_value ran
    exact law_of_dup2 called
  | fcntl key fd cmd arg =>
    obtain ⟨v, called, rfl⟩ := exists_value ran
    exact law_of_fcntl called
  | close key fd writeFile =>
    obtain ⟨v, called, rfl⟩ := exists_value ran
    exact law_of_close called
  | fork parent child => exact law_of_fork ran
  | exec | exit | forget | read | resume | write | lseek | chdir | brk | touch => trivial

/-! ### What becomes of an entry -/

/-- **The ways in which an entry changes**: its table, its working directory, its break. -/
inductive Evolves (p : ProcState) : ProcState → Prop
  | table {fds : List (Option Fd)} (short : p.fds.length ≤ maxFds → fds.length ≤ maxFds) :
    Evolves p { p with fds }
  | cwd (path : List UInt8) : Evolves p { p with cwd := normalize path }
  | brk (brk : ℕ) : Evolves p { p with brk }

theorem Evolves.refl (p : ProcState) : Evolves p p := .brk p.brk

/-- Every entry comes from one that was there before, or is new. -/
def Follows (r r' : Registry) : Prop :=
  ∀ key, r'.proc key = .initial ∨ ∃ other, Evolves (r.proc other) (r'.proc key)

theorem Follows.same (processes : r'.processes = r.processes) : Follows r r' := by
  intro k
  have entry : r'.proc k = r.proc k := by rw [Registry.proc, processes, Registry.proc]
  rw [entry]
  exact .inr ⟨k, .refl _⟩

theorem Follows.retables (retables : Retables key fds r r') : Follows r r' := by
  intro k
  by_cases isOwn : k = key
  · rw [isOwn, retables.own]
    exact .inr ⟨key, .table retables.short⟩
  · rw [retables.others k isOwn]
    exact .inr ⟨k, .refl _⟩

theorem Follows.insert (other : Key) {p : ProcState} (evolves : Evolves (r.proc other) p)
    (processes : r'.processes = r.processes.insert key p) : Follows r r' := by
  intro k
  by_cases isNew : k = key
  · rw [isNew, Registry.proc, processes, lookup_insert]
    exact .inr ⟨other, evolves⟩
  · rw [Registry.proc, processes, lookup_insert_of_ne _ isNew]
    exact .inr ⟨k, .refl _⟩

theorem Follows.quiet (quiet : Quiet key r r') : Follows r r' := by
  cases quiet with
  | stays => exact .same rfl
  | file _ f' => exact .retables (.put (fun short => length_set.trans_le short) (.refl _))
  | cwd path => exact .insert key (.cwd path) rfl
  | brk brk => exact .insert key (.brk brk) rfl

theorem Follows.fork (ran : perform (.fork parent child) r = some (outcome, r')) : Follows r r' := by
  have processes := (fork_spec ran).1
  cases found : r.processes.lookup parent with
  | none =>
    rw [found] at processes
    exact .same processes
  | some p =>
    rw [found] at processes
    refine .insert parent ?_ processes
    rw [proc_of_lookup found]
    exact .refl p

theorem Follows.exec (ran : perform (.exec old new) r = some (outcome, r')) : Follows r r' := by
  have processes := (exec_spec ran).1
  cases found : r.processes.lookup old with
  | none =>
    rw [found] at processes
    exact .same processes
  | some p =>
    rw [found] at processes
    intro k
    by_cases isNew : k = new
    · rw [isNew, Registry.proc, processes, elim_some, lookup_insert]
      refine .inr ⟨old, ?_⟩
      rw [proc_of_lookup found]
      exact .brk userHeapBase
    · rw [Registry.proc, lookup_of_rekeyed (exec_spec ran).1 isNew]
      split
      · exact .inl rfl
      · exact .inr ⟨k, .refl _⟩

/-- **What a call does to the entries.** -/
theorem follows_of_perform (ran : perform op r = some (outcome, r')) : Follows r r' := by
  cases op with
  | openFile | pipe | socket | dup2 | fcntl | close | exit =>
    obtain ⟨_, retables⟩ := retables_of_perform rfl ran
    exact .retables retables
  | fork parent child => exact .fork ran
  | exec old new => exact .exec ran
  | forget key =>
    intro k
    have erased := proc_erase r key r'.shared k
    rw [← (forget_spec ran).1] at erased
    rw [show r'.proc k = _ from erased]
    split
    · exact .inl rfl
    · exact .inr ⟨k, .refl _⟩
  | read key fd count copies =>
    cases ran
    show Follows r (sysRead key fd count copies r).2
    rcases sysRead_cases key fd count copies r with ⟨-, quiet⟩ | ⟨buf, -, called⟩
    · exact .quiet quiet
    · rw [called]
      split <;> exact .insert key (.refl _) rfl
  | resume buf count copies =>
    cases ran
    exact .same rfl
  | write key fd user =>
    cases ran
    show Follows r (sysWrite key fd user r).2
    rcases sysWrite_cases key fd user r with ⟨-, quiet⟩ | ⟨buf, -, called⟩
    · exact .quiet quiet
    · rw [called]
      exact .insert key (.refl _) rfl
  | lseek key fd offset whence =>
    cases ran
    exact .quiet (quiet_lseek fd offset whence)
  | chdir key path lookup =>
    cases ran
    exact .quiet (quiet_chdir path lookup)
  | brk key addr maps =>
    cases ran
    exact .quiet (quiet_brk addr maps)
  | touch key =>
    cases ran
    exact .insert key (.refl _) rfl

end Law

/-- **A property of entries that every change keeps** holds of all entries in every reached state. -/
theorem every_of_reached {P : ProcState → Prop} (initial : P .initial)
    (keeps : ∀ p p', P p → Evolves p p' → P p') (reached : registryRuns.Reached l) (key : Key) :
    P (l.registry.proc key) := by
  refine registryRuns.invariant (fun l => ∀ key, P (l.registry.proc key)) ?_ ?_ reached key
  · rintro l rfl key
    rw [Registry.proc, Registry.empty, lookup_empty]
    exact initial
  · rintro l l' - every ⟨op, stepped⟩ key
    obtain ⟨outcome, r, ran, rfl⟩ := Logged.step_eq_some stepped
    rcases follows_of_perform ran key with new | ⟨other, evolves⟩
    · rw [new]
      exact initial
    · exact keeps _ _ (every other) evolves

/-- No table has too many slots. -/
def Short (r : Registry) : Prop := ∀ key, (r.proc key).fds.length ≤ maxFds

theorem short_of_reached (reached : registryRuns.Reached l) : Short l.registry := by
  refine every_of_reached (P := fun p => p.fds.length ≤ maxFds) (by decide)
    (fun p p' short evolves => ?_) reached
  cases evolves with
  | table fits => exact fits short
  | cwd _ => exact short
  | brk _ => exact short

/-- **The law of descriptor tables**, in every state that calls of any processes reach: no table is longer than
`MAX_FDS`, and every next call returns and does to the descriptors what the law says. -/
theorem descriptor_table_law {l : Logged} (reached : registryRuns.Reached l) : Short l.registry ∧
      ∀ op, ∃ outcome r, perform op l.registry = some (outcome, r) ∧ TableLaw op outcome l.registry r := by
  have short := short_of_reached reached
  refine ⟨short, fun op => ?_⟩
  obtain ⟨outcome, r, ran, -⟩ := (sound_of_reached reached).perform op
  exact ⟨outcome, r, ran, tableLaw_of_perform short ran⟩

/-- A process that has closed its standard input. -/
def closedInput : Logged :=
  (replay Logged.step [.close 7 0 fun _ => none] ⟨.empty, []⟩).getD ⟨.empty, []⟩

/-- The file that it opens then gets the number of the standard input. -/
theorem descriptor_table_law_reuse :
    ∃ r, perform (.openFile 7 ⟨[], [], 0, false, false, false⟩) closedInput.registry = some (.value 0, r) ∧
      backing r 7 0 = some (.file ⟨[], [], 0, false, false, false⟩) := by
  have reached : registryRuns.Reached closedInput :=
    System.Reached.replay (.start rfl)
      (show replay Logged.step [.close 7 0 fun _ => none] ⟨.empty, []⟩ = some closedInput from rfl)
  obtain ⟨outcome, r, ran, law⟩ :=
    (descriptor_table_law reached).2 (.openFile 7 ⟨[], [], 0, false, false, false⟩)
  have free : (0 : ℕ) ∈ unused 0 (closedInput.registry.proc 7).fds := ⟨le_rfl, by decide, rfl⟩
  rcases law with ⟨n, least, rfl, set, -⟩ | ⟨noFree, -, -⟩
  · obtain rfl : n = 0 := Nat.le_zero.mp (least.2 free)
    exact ⟨r, ran, set⟩
  · rw [noFree] at free
    exact absurd free (notMem_empty 0)

end Ferros.Files
