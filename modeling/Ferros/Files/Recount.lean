/-
**What calls do to tables and pipes.**

* `Recount s s'` — the pipes of `s'` hold the data of `s`, and a pipe that had a writer and has none left
  raised `wake`. All that cloning, dropping and making descriptors do to pipes.
* `Retables`, `Quiet` — a call changes the table of one process, or moves no descriptor.
* `Trades` — what a call does to the table: it exchanges descriptors that it cloned or made, and drops what is
  left over; one lemma for each call says how.
* `OnPipes` — everything that a call can do to pipes: recount them, one turn of reading, one write.
* `Keeps` — what follows for readers that sleep: a pipe that is empty and has writers stays so, or `wake` is
  raised.
-/

import Ferros.Files.Calls
import Ferros.Lib.Holdings
import Ferros.Lib.Update

namespace Ferros.Files

open Lib List Option Function

variable {s s' s'' : Shared} {side : Side} {r r' : Registry} {key other child newCr3 parent old new : Key}
  {fds : List (Option Fd)} {n fd buf count : ℕ} {value : ℤ} {outcome : Outcome}
  {copies : Bool} {p : ProcState} {b : PipeBuf} {op : Op}

/-- The bytes in a pipe. -/
def Shared.data (s : Shared) (p : ℕ) : List UInt8 :=
  (s.pipes[p]?).elim [] PipeBuf.data

/-- The number of write ends of a pipe. -/
def Shared.writers (s : Shared) (p : ℕ) : ℕ :=
  (s.pipes[p]?).elim 0 PipeBuf.writers

structure Recount (s s' : Shared) : Prop where
  data : ∀ p, s'.data p = s.data p
  wake : s.wake = true → s'.wake = true
  writers : ∀ p, 0 < s.writers p → s'.wake = true ∨ 0 < s'.writers p

theorem Recount.refl (s : Shared) : Recount s s :=
  ⟨fun _ => rfl, id, fun _ => .inr⟩

theorem Recount.trans (first : Recount s s') (second : Recount s' s'') : Recount s s'' where
  data := fun p => (second.data p).trans (first.data p)
  wake := fun raised => second.wake (first.wake raised)
  writers := by
    intro p positive
    rcases first.writers p positive with raised | positive
    · exact .inl (second.wake raised)
    · exact second.writers p positive

/-- Changing a counter of one pipe, and raising `wake` if it is a write end that was the last. -/
theorem recount_setEnds {p : ℕ} {wake : Bool} (present : s.pipes[p]? = some b)
    (keeps : s.wake → wake) (last : side = .write → 0 < b.writers → wake ∨ 0 < n) :
    Recount s { s with pipes := s.pipes.set p (b.setEnds side n), wake } where
  data := by
    intro q
    unfold Shared.data
    rw [getElem?_set]
    split
    · rename_i here
      subst here
      rw [if_pos (List.getElem?_eq_some_iff.mp present).1, present]
      cases side <;> rfl
    · rfl
  wake := keeps
  writers := by
    intro q positive
    unfold Shared.writers at positive ⊢
    by_cases here : p = q
    · subst here
      rw [present, elim_some] at positive
      rw [List.getElem?_set, if_pos rfl, if_pos (List.getElem?_eq_some_iff.mp present).1, elim_some]
      cases side with
      | read => exact .inr positive
      | write => exact last rfl positive
    · rw [getElem?_set, if_neg here]
      exact .inr positive

theorem recount_clonePipe (side : Side) (p : ℕ) (s : Shared) : Recount s (clonePipe side p s) := by
  cases present : s.pipes[p]? with
  | none =>
    have same : clonePipe side p s = s := by
      rw [clonePipe, modify_eq_self (getElem?_eq_none_iff.mp present)]
    rw [same]
    exact .refl s
  | some b =>
    have set : clonePipe side p s =
        { s with pipes := s.pipes.set p (b.setEnds side (b.ends side + 1)) } := by
      rw [clonePipe, modify_eq_mapIdx, set_eq_mapIdx present fun b => b.setEnds side (b.ends side + 1)]
    rw [set]
    exact recount_setEnds present id fun _ _ => .inr (Nat.succ_pos _)

theorem recount_dropPipe {p : ℕ} (dropped : dropPipe side p s = some s') : Recount s s' := by
  obtain ⟨b, present, dropped⟩ := bind_eq_some_iff.mp dropped
  split at dropped
  · exact nomatch dropped
  · cases dropped
    refine recount_setEnds present (fun raised => by rw [raised]; rfl) ?_
    rintro rfl -
    by_cases last : b.ends .write - 1 = 0
    · exact .inl (by rw [Bool.or_eq_true, decide_eq_true_eq]; exact .inr last)
    · exact .inr (Nat.pos_of_ne_zero last)

theorem recount_cloneFd (fd : Fd) (s : Shared) : Recount s (cloneFd fd s) := by
  cases fd with
  | pipe side p => cases side <;> exact recount_clonePipe _ p s
  | _ => exact ⟨fun _ => rfl, id, fun _ => .inr⟩

theorem recount_dropFd {fd : Fd} (dropped : dropFd fd s = some s') : Recount s s' := by
  cases fd with
  | pipe side p => cases side <;> exact recount_dropPipe dropped
  | socket e =>
    obtain ⟨k, -, dropped⟩ := bind_eq_some_iff.mp dropped
    split at dropped
    · exact nomatch dropped
    · cases dropped
      exact ⟨fun _ => rfl, id, fun _ => .inr⟩
  | _ =>
    cases dropped
    exact .refl s

theorem recount_dropSlot {slot : Option Fd} (dropped : dropSlot slot s = some s') : Recount s s' := by
  cases slot with
  | none =>
    cases dropped
    exact .refl s
  | some fd => exact recount_dropFd dropped

theorem recount_dropAll (dropped : dropAll fds s = some s') : Recount s s' := by
  induction fds generalizing s with
  | nil =>
    obtain rfl := some.inj dropped
    exact .refl s
  | cons slot rest ih =>
    obtain ⟨between, first, later⟩ := bind_eq_some_iff.mp dropped
    exact (recount_dropSlot first).trans (ih later)

theorem recount_cloneAll (fds : List (Option Fd)) (s : Shared) : Recount s (cloneAll fds s) := by
  induction fds generalizing s with
  | nil => exact .refl s
  | cons slot rest ih =>
    cases slot with
    | none => exact ih s
    | some fd => exact (recount_cloneFd fd s).trans (ih _)

theorem recount_newPipe (s : Shared) (readers writers : ℕ) :
    Recount s { s with pipes := s.pipes ++ [⟨[], readers, writers⟩] } where
  data := by
    intro p
    unfold Shared.data
    by_cases old : p < s.pipes.length
    · rw [getElem?_append_left old]
    · rw [getElem?_eq_none (Nat.le_of_not_lt old), getElem?_append_right (Nat.le_of_not_lt old)]
      cases p - s.pipes.length <;> rfl
  wake := id
  writers := by
    intro p positive
    unfold Shared.writers at positive ⊢
    by_cases old : p < s.pipes.length
    · rw [getElem?_append_left old]
      exact .inr positive
    · rw [getElem?_eq_none (Nat.le_of_not_lt old)] at positive
      exact absurd positive (lt_irrefl 0)

/-! ### Entries and tables -/

theorem put_put (r : Registry) (p p' : ProcState) : (r.put key p).put key p' = r.put key p' := by
  rw [Registry.put, Registry.put, Registry.put, Finmap.insert_insert]

theorem proc_put (r : Registry) (p : ProcState) : (r.put key p).proc key = p := by
  rw [Registry.proc, Registry.put, Finmap.lookup_insert]
  rfl

theorem proc_put_of_ne (r : Registry) (p : ProcState) (ne : other ≠ key) :
    (r.put key p).proc other = r.proc other := by
  rw [Registry.proc, Registry.put, Finmap.lookup_insert_of_ne _ ne]
  rfl

theorem proc_put_proc (r : Registry) (key other : Key) :
    (r.put key (r.proc key)).proc other = r.proc other := by
  by_cases same : other = key
  · rw [same, proc_put]
  · exact proc_put_of_ne _ _ same

theorem proc_erase (r : Registry) (key : Key) (shared : Shared) (k : Key) :
    Registry.proc ⟨r.processes.erase key, shared⟩ k = if k = key then .initial else r.proc k := by
  by_cases gone : k = key
  · rw [if_pos gone, gone, Registry.proc, Finmap.lookup_erase]
    rfl
  · rw [if_neg gone, Registry.proc, Finmap.lookup_erase_ne gone, Registry.proc]

theorem proc_of_lookup (found : r.processes.lookup key = some p) : r.proc key = p := by
  rw [Registry.proc, found]
  rfl

/-- The table `fds'` is `fds` with the descriptor `n` set, and is not too long if `fds` is not. -/
structure SetsTo (fds : List (Option Fd)) (n : ℕ) (entry : Option Fd) (fds' : List (Option Fd)) : Prop where
  slots : slotAt fds' = update (slotAt fds) n entry
  short : fds.length ≤ maxFds → fds'.length ≤ maxFds

theorem slotAt_eq_some {i : ℕ} {fd : Fd} : slotAt fds i = some fd ↔ fds[i]? = some (some fd) :=
  join_eq_some_iff

theorem slotAt_padTo (n : ℕ) (fds : List (Option Fd)) (i : ℕ) : slotAt (padTo n fds) i = slotAt fds i := by
  unfold slotAt padTo
  rw [getElem?_append]
  split
  · rfl
  · rename_i outside
    rw [getElem?_eq_none (Nat.le_of_not_lt outside), getElem?_replicate]
    split <;> rfl

theorem slotAt_eq_none_of_le (past : fds.length ≤ n) : slotAt fds n = none := by
  rw [slotAt, getElem?_eq_none past]
  rfl

theorem slotAt_set (inRange : n < fds.length) (v : Option Fd) :
    slotAt (fds.set n v) = update (slotAt fds) n v := by
  funext m
  rw [slotAt, getElem?_set]
  by_cases same : n = m
  · rw [if_pos same, if_pos inRange, ← same, update_self]
    rfl
  · rw [if_neg same, update_of_ne fun here => same here.symm, slotAt]

theorem setsTo_set (inRange : n < fds.length) (v : Option Fd) : SetsTo fds n v (fds.set n v) := by
  refine ⟨slotAt_set inRange v, fun short => ?_⟩
  rw [length_set]
  exact short

theorem length_padTo (n : ℕ) (fds : List (Option Fd)) : (padTo n fds).length = max n fds.length := by
  rw [padTo, length_append, length_replicate]
  omega

/-- A slot is made and set. -/
theorem setsTo_padTo (fds : List (Option Fd)) (small : n < maxFds) (v : Option Fd) :
    SetsTo fds n v ((padTo (n + 1) fds).set n v) := by
  have long : n < (padTo (n + 1) fds).length := by
    rw [length_padTo]
    omega
  refine ⟨?_, fun short => ?_⟩
  · rw [slotAt_set long, funext (slotAt_padTo (n + 1) fds)]
  · rw [length_set, length_padTo]
    omega

/-! ### What each call does -/

/-- **The table of one process changes**, and nothing else of any process; pipes are recounted. -/
structure Retables (key : Key) (fds : List (Option Fd)) (r r' : Registry) : Prop where
  own : r'.proc key = { r.proc key with fds }
  short : (r.proc key).fds.length ≤ maxFds → fds.length ≤ maxFds
  others : ∀ other, other ≠ key → r'.proc other = r.proc other
  recounts : Recount r.shared r'.shared

/-- **The calls that move no descriptor** create the entry at most, or change an open file, the working
directory or the break. -/
inductive Quiet (key : Key) (r : Registry) : Registry → Prop
  | stays : Quiet key r r
  | file {fd : ℕ} {f : OpenFile} (isOpen : slotAt (r.proc key).fds fd = some (.file f)) (f' : OpenFile) :
    Quiet key r (r.put key { r.proc key with fds := (r.proc key).fds.set fd (some (.file f')) })
  | cwd (path : List UInt8) : Quiet key r (r.put key { r.proc key with cwd := normalize path })
  | brk (brk : ℕ) : Quiet key r (r.put key { r.proc key with brk })

theorem Retables.put (short : (r.proc key).fds.length ≤ maxFds → fds.length ≤ maxFds) {shared : Shared}
    (recounts : Recount r.shared shared) :
    Retables key fds r { r.put key { r.proc key with fds } with shared } :=
  ⟨proc_put r _, short, fun _ ne => proc_put_of_ne r _ ne, recounts⟩

theorem Retables.stays : Retables key (r.proc key).fds r r :=
  ⟨rfl, id, fun _ _ => rfl, .refl _⟩

theorem short_allocFd {entry : Fd} {fds' : List (Option Fd)} (alloc : allocFd fds entry = some (n, fds'))
    (short : fds.length ≤ maxFds) : fds'.length ≤ maxFds := by
  unfold allocFd at alloc
  split at alloc
  · cases alloc
    rwa [length_set]
  · split at alloc
    · rename_i room
      cases alloc
      rwa [length_append, length_singleton]
    · cases alloc

theorem slotAt_firstFree {start : ℕ} (found : ¬ maxFds ≤ firstFree start fds) :
    slotAt fds (firstFree start fds) = none := by
  unfold firstFree at found ⊢
  cases searched : (range' start (maxFds - start)).find? fun i => (slotAt fds i).isNone with
  | none =>
    rw [searched] at found
    exact absurd (le_refl maxFds) found
  | some i =>
    have isFree := find?_some searched
    exact isNone_iff_eq_none.mp isFree

/-- **Descriptors come into the hands of a call**: cloned from its table, or made. -/
inductive Acquires (key : Key) (r : Registry) : Multiset Fd → Shared → Prop
  | nothing : Acquires key r 0 r.shared
  | file (f : OpenFile) : Acquires key r {.file f} r.shared
  | clone {fd : ℕ} {backing : Fd} (isOpen : slotAt (r.proc key).fds fd = some backing) :
    Acquires key r {backing} (cloneFd backing r.shared)
  | pipe : Acquires key r ({.pipeRead r.shared.pipes.length} + {.pipeWrite r.shared.pipes.length})
      { r.shared with pipes := r.shared.pipes ++ [⟨[], 1, 1⟩] }
  | socket (handle : ℕ) (kind : SockKind) :
    Acquires key r {.socket ⟨handle, kind, r.shared.sockets.length⟩}
      { r.shared with sockets := r.shared.sockets ++ [⟨handle, 1⟩] }

/-- **A call on one table** does nothing, or exchanges what it has in hand for descriptors of the table, which
becomes `fds`, and drops what is left over. -/
inductive Trades {α : Type} (key : Key) (r : Registry) (fds : List (Option Fd)) (value : α) :
    Option (α × Registry) → Prop
  | stays (same : fds = (r.proc key).fds) : Trades key r fds value (some (value, r))
  | trade (dropped : Option Shared) {new : Multiset Fd} {left : List (Option Fd)} {shared : Shared}
      (acquires : Acquires key r new shared) (balance : held fds + held left = held (r.proc key).fds + new)
      (short : (r.proc key).fds.length ≤ maxFds → fds.length ≤ maxFds) (drops : dropAll left shared = dropped) :
    Trades key r fds value (do
      let shared ← dropped
      return (value, { r.put key { r.proc key with fds } with shared }))

section Trades

variable {α β : Type} {value : α} {new : Multiset Fd} {shared : Shared} {result : Option (α × Registry)}

/-- Nothing is left over. -/
theorem Trades.puts (acquires : Acquires key r new shared) (balance : held fds = held (r.proc key).fds + new)
    (short : (r.proc key).fds.length ≤ maxFds → fds.length ≤ maxFds) :
    Trades key r fds value (some (value, { r.put key { r.proc key with fds } with shared })) :=
  .trade (some shared) acquires (by rw [held_nil, add_zero, balance]) short rfl

theorem Trades.touch : Trades key r (r.proc key).fds value (some (value, r.put key (r.proc key))) :=
  .puts .nothing (add_zero _).symm id

theorem Trades.map (trades : Trades key r fds value result) (f : α → β) :
    Trades key r fds (f value) (result.map (Prod.map f id)) := by
  cases trades with
  | stays same => exact .stays same
  | trade dropped acquires balance short drops =>
    cases dropped with
    | none => exact .trade none acquires balance short drops
    | some shared => exact .trade (some shared) acquires balance short drops

/-- No pipe loses a writer. -/
theorem Acquires.recount (acquires : Acquires key r new shared) : Recount r.shared shared := by
  cases acquires with
  | nothing | file => exact .refl _
  | clone => exact recount_cloneFd _ _
  | pipe => exact recount_newPipe r.shared 1 1
  | socket => exact ⟨fun _ => rfl, id, fun _ => .inr⟩

theorem Trades.retables {value' : α} (trades : Trades key r fds value result)
    (called : result = some (value', r')) : value' = value ∧ Retables key fds r r' := by
  cases trades with
  | stays same =>
    cases called
    exact ⟨rfl, same ▸ .stays⟩
  | trade dropped acquires balance short drops =>
    obtain ⟨shared, rfl, called⟩ := bind_eq_some_iff.mp called
    cases called
    exact ⟨rfl, .put short (acquires.recount.trans (recount_dropAll drops))⟩

theorem held_single (slot : Option Fd) : held [slot] = inSlot slot := by
  rw [held_cons, held_nil, add_zero]

theorem dropAll_single (slot : Option Fd) (s : Shared) : dropAll [slot] s = dropSlot slot s :=
  bind_fun_some _

theorem dropAll_pair (slot slot' : Option Fd) (s : Shared) :
    dropAll [slot, slot'] s = (dropSlot slot s).bind (dropSlot slot') :=
  congrArg (dropSlot slot s).bind (funext (dropAll_single slot'))

theorem held_padTo (n : ℕ) (fds : List (Option Fd)) : held (padTo n fds) = held fds := by
  rw [padTo, held_append, held_replicate_none, add_zero]

/-- The slot that `padTo` makes room for is set. -/
theorem held_set_padTo (n : ℕ) (fds : List (Option Fd)) (entry : Fd) :
    held ((padTo (n + 1) fds).set n (some entry)) + inSlot (slotAt fds n) = held fds + {entry} := by
  have inRange : n < (padTo (n + 1) fds).length := by
    rw [length_padTo]
    omega
  have place : (padTo (n + 1) fds)[n]? = some (slotAt fds n) := by
    rw [← slotAt_padTo (n + 1), slotAt, getElem?_eq_getElem inRange]
    rfl
  rw [held_set place, held_padTo, inSlot_some]

/-- A new descriptor enters the table, in the slot reported. -/
theorem allocFd_eq_some {entry : Fd} {fds' : List (Option Fd)} (alloc : allocFd fds entry = some (n, fds')) :
    held fds' = held fds + {entry} ∧ fds'[n]? = some (some entry) := by
  unfold allocFd at alloc
  split at alloc
  · rename_i j found
    obtain ⟨inRange, isFree, -⟩ := findIdx?_eq_some_iff_getElem.mp found
    obtain ⟨rfl, rfl⟩ := Prod.mk.inj (some.inj alloc)
    have place : fds[j]? = some none := by
      rw [getElem?_eq_getElem inRange, isNone_iff_eq_none.mp isFree]
    have exchanged := held_set place (some entry)
    rw [inSlot_none, add_zero] at exchanged
    refine ⟨exchanged, ?_⟩
    rw [getElem?_set, if_pos rfl, if_pos inRange]
  · split at alloc
    · cases alloc
      refine ⟨?_, getElem?_concat_length⟩
      rw [held_append]
      rfl
    · exact nomatch alloc

/-- A new descriptor enters a free slot; with none it is dropped, `EMFILE`. -/
theorem allocCurrent_trades {entry : Fd} (acquires : Acquires key r {entry} shared) :
    ∃ value fds, Trades key r fds value (allocCurrent key entry { r with shared }) ∧
      ((∃ i : ℕ, allocFd (r.proc key).fds entry = some (i, fds) ∧ value = i) ∨
        allocFd (r.proc key).fds entry = none ∧ value = -EMFILE ∧ fds = (r.proc key).fds) := by
  have same : Registry.proc { r with shared } key = r.proc key := rfl
  cases alloc : allocFd (r.proc key).fds entry with
  | some result =>
    obtain ⟨i, fds⟩ := result
    refine ⟨i, fds, ?_, .inl ⟨i, rfl, rfl⟩⟩
    simp only [allocCurrent, same, alloc]
    exact .puts acquires (allocFd_eq_some alloc).1 (short_allocFd alloc)
  | none =>
    refine ⟨-EMFILE, _, ?_, .inr ⟨rfl, rfl, rfl⟩⟩
    simp only [allocCurrent, same, alloc]
    exact .trade _ acquires (by rw [held_single, inSlot_some]) id (dropAll_single (some entry) shared)

/-- **socket** makes a socket and installs it, or fails and changes nothing. -/
theorem sysSocket_cases (key : Key) (inet : Bool) (sockType : SockType) (made : Except ℤ ℕ) (r : Registry) :
    (∃ handle kind shared, inet ∧ sockType ≠ .other ∧ made = .ok handle ∧
      kind = (if sockType = .dgram then .udp else .tcp) ∧
      Acquires key r {.socket ⟨handle, kind, r.shared.sockets.length⟩} shared ∧ sysSocket key inet sockType made r =
        allocCurrent key (.socket ⟨handle, kind, r.shared.sockets.length⟩) { r with shared }) ∨
    (inet = false ∨ sockType = .other ∨ ∃ e, made = .error e) ∧
      ∃ value, sysSocket key inet sockType made r = some (value, r) := by
  cases inet with
  | false => exact .inr ⟨.inl rfl, _, rfl⟩
  | true =>
    cases sockType with
    | other => exact .inr ⟨.inr (.inl rfl), _, rfl⟩
    | stream | dgram =>
      cases made with
      | error e => exact .inr ⟨.inr (.inr ⟨e, rfl⟩), _, rfl⟩
      | ok handle => exact .inl ⟨handle, _, _, rfl, nofun, rfl, rfl, .socket handle _, rfl⟩

/-- **pipe** fills two slots; with too few it drops both ends, `EMFILE`. -/
theorem sysPipe_trades (key : Key) (copies : Bool) (r : Registry) :
    ∃ value fds', Trades key r fds' value (sysPipe key copies r) ∧
      ((∃ i fds j, allocFd (r.proc key).fds (.pipeRead r.shared.pipes.length) = some (i, fds) ∧
        allocFd fds (.pipeWrite r.shared.pipes.length) = some (j, fds') ∧
        value = if copies then 0 else -EFAULT) ∨ value = -EMFILE ∧
        (allocFd (r.proc key).fds (.pipeRead r.shared.pipes.length) = none ∧ fds' = (r.proc key).fds ∨
        ∃ i fds, allocFd (r.proc key).fds (.pipeRead r.shared.pipes.length) = some (i, fds) ∧
          allocFd fds (.pipeWrite r.shared.pipes.length) = none ∧ fds' = fds.set i none)) := by
  cases first : allocFd (r.proc key).fds (.pipeRead r.shared.pipes.length) with
  | none =>
    refine ⟨-EMFILE, _, ?_, .inr ⟨rfl, .inl ⟨rfl, rfl⟩⟩⟩
    simp only [sysPipe, first]
    exact .trade _ .pipe rfl id (dropAll_pair (some (.pipeRead _)) (some (.pipeWrite _)) _)
  | some result =>
    obtain ⟨i, fds⟩ := result
    obtain ⟨entered, place⟩ := allocFd_eq_some first
    cases second : allocFd fds (.pipeWrite r.shared.pipes.length) with
    | none =>
      -- the read end leaves the slot it was just put in
      refine ⟨-EMFILE, _, ?_, .inr ⟨rfl, .inr ⟨i, fds, rfl, second, rfl⟩⟩⟩
      simp only [sysPipe, first, second]
      refine .trade _ .pipe ?_ (fun short => length_set.trans_le (short_allocFd first short))
        (dropAll_pair (some (.pipeWrite _)) _ _)
      have emptied := held_set place none
      rw [entered, inSlot_some, inSlot_none, add_zero] at emptied
      rw [slotAt_eq_some.mpr place, held_cons, held_single, inSlot_some, inSlot_some, add_left_comm, emptied,
        add_left_comm, add_comm {_} {_}]
    | some result =>
      obtain ⟨j, fds'⟩ := result
      refine ⟨_, fds', ?_, .inl ⟨i, fds, j, rfl, second, rfl⟩⟩
      simp only [sysPipe, first, second]
      refine .puts .pipe ?_ fun short => short_allocFd second (short_allocFd first short)
      rw [(allocFd_eq_some second).1, entered, add_assoc]

/-- **dup2** puts a clone into the slot and drops what was there. -/
theorem sysDup2_trades (key : Key) (oldfd newfd : ℕ) (r : Registry) :
    ∃ value fds, Trades key r fds value (sysDup2 key oldfd newfd r) ∧
      ((∃ backing, newfd < maxFds ∧ slotAt (r.proc key).fds oldfd = some backing ∧ value = newfd ∧
        SetsTo (r.proc key).fds newfd (some backing) fds) ∨
      (maxFds ≤ newfd ∨ slotAt (r.proc key).fds oldfd = none) ∧ value = -EBADF ∧ fds = (r.proc key).fds) := by
  by_cases high : maxFds ≤ newfd
  · exact ⟨-EBADF, _, by rw [sysDup2, if_pos high]; exact .stays rfl, .inr ⟨.inl high, rfl, rfl⟩⟩
  have small : newfd < maxFds := Nat.lt_of_not_le high
  cases isOpen : slotAt (r.proc key).fds oldfd with
  | none =>
    refine ⟨-EBADF, _, ?_, .inr ⟨.inr rfl, rfl, rfl⟩⟩
    simp only [sysDup2, if_neg high, isOpen]
    exact .touch
  | some backing =>
    by_cases same : oldfd = newfd
    · refine ⟨newfd, (r.proc key).fds, ?_, .inl ⟨backing, small, rfl, rfl, ?_, id⟩⟩
      · simp only [sysDup2, if_neg high, isOpen, if_pos same]
        exact .touch
      · rw [← same, ← isOpen, update_eq_self]
    · -- the clone enters the slot, what was there leaves it
      have sets := setsTo_padTo (r.proc key).fds small (some backing)
      refine ⟨newfd, _, ?_, .inl ⟨backing, small, rfl, rfl, sets⟩⟩
      simp only [sysDup2, if_neg high, isOpen, if_neg same, slotAt_padTo]
      refine .trade _ (.clone isOpen) ?_ sets.short (dropAll_single _ _)
      rw [held_single, held_set_padTo]

/-- **fcntl** puts a clone into the first free slot from `arg` on, for `F_DUPFD`. -/
theorem sysFcntl_trades (key : Key) (fd : ℕ) (cmd : FcntlCmd) (arg : ℕ) (r : Registry) :
    ∃ value fds, Trades key r fds value (sysFcntl key fd cmd arg r) ∧
      (cmd ≠ .dupFd ∧ fds = (r.proc key).fds ∨ cmd = .dupFd ∧
      ((∃ backing, arg < maxFds ∧ slotAt (r.proc key).fds fd = some backing ∧
        firstFree arg (r.proc key).fds < maxFds ∧ value = firstFree arg (r.proc key).fds ∧
        SetsTo (r.proc key).fds (firstFree arg (r.proc key).fds) (some backing) fds) ∨
      (maxFds ≤ arg ∧ value = -EINVAL ∨ arg < maxFds ∧ slotAt (r.proc key).fds fd = none ∧ value = -EBADF ∨
        arg < maxFds ∧ slotAt (r.proc key).fds fd ≠ none ∧ maxFds ≤ firstFree arg (r.proc key).fds ∧
          value = -EMFILE) ∧ fds = (r.proc key).fds)) := by
  cases cmd with
  | getFd | setFd | getFl | setFl => exact ⟨_, _, .touch, .inl ⟨nofun, rfl⟩⟩
  | other => exact ⟨_, _, .stays rfl, .inl ⟨nofun, rfl⟩⟩
  | dupFd =>
    by_cases high : maxFds ≤ arg
    · refine ⟨-EINVAL, _, ?_, .inr ⟨rfl, .inr ⟨.inl ⟨high, rfl⟩, rfl⟩⟩⟩
      simp only [sysFcntl, if_pos high]
      exact .stays rfl
    have small : arg < maxFds := Nat.lt_of_not_le high
    cases isOpen : slotAt (r.proc key).fds fd with
    | none =>
      refine ⟨-EBADF, _, ?_, .inr ⟨rfl, .inr ⟨.inr (.inl ⟨small, rfl, rfl⟩), rfl⟩⟩⟩
      simp only [sysFcntl, if_neg high, isOpen]
      exact .touch
    | some backing =>
      by_cases full : maxFds ≤ firstFree arg (r.proc key).fds
      · refine ⟨-EMFILE, _, ?_, .inr ⟨rfl, .inr ⟨.inr (.inr ⟨small, some_ne_none backing, full, rfl⟩), rfl⟩⟩⟩
        simp only [sysFcntl, if_neg high, isOpen, if_pos full]
        exact .trade _ (.clone isOpen) (by rw [held_single, inSlot_some]) id (dropAll_single (some backing) _)
      · have free : firstFree arg (r.proc key).fds < maxFds := Nat.lt_of_not_le full
        have sets := setsTo_padTo (r.proc key).fds free (some backing)
        refine ⟨_, _, ?_, .inr ⟨rfl, .inl ⟨backing, small, rfl, free, rfl, sets⟩⟩⟩
        simp only [sysFcntl, if_neg high, isOpen, if_neg full]
        refine .puts (.clone isOpen) ?_ sets.short
        rw [← held_set_padTo, slotAt_firstFree full, inSlot_none, add_zero]

/-- **close** empties the slot and drops what was there. -/
theorem sysClose_trades (key : Key) (fd : ℕ) (writeFile : OpenFile → Option ℤ) (r : Registry) :
    ∃ value fds, Trades key r fds value (sysClose key fd writeFile r) ∧
      ((∃ backing, slotAt (r.proc key).fds fd = some backing ∧ value = closeValue writeFile backing ∧
        fds = (r.proc key).fds.set fd none) ∨
      slotAt (r.proc key).fds fd = none ∧ value = -EBADF ∧ fds = (r.proc key).fds) := by
  cases isOpen : slotAt (r.proc key).fds fd with
  | none =>
    refine ⟨-EBADF, _, ?_, .inr ⟨rfl, rfl, rfl⟩⟩
    simp only [sysClose, isOpen]
    exact .touch
  | some backing =>
    refine ⟨closeValue writeFile backing, _, ?_, .inl ⟨backing, rfl, rfl, rfl⟩⟩
    simp only [sysClose, isOpen]
    refine .trade _ .nothing ?_ (fun short => length_set.trans_le short) (dropAll_single (some backing) _)
    rw [held_single]
    exact held_set (slotAt_eq_some.mp isOpen) none

/-- **exit** drops all that the table holds. -/
theorem release_trades (key : Key) (r : Registry) :
    ∃ files fds, Trades key r fds files (releaseCurrentProcessFds key r) := by
  cases found : r.processes.lookup key with
  | none => exact ⟨[], _, by simp only [releaseCurrentProcessFds, found]; exact .stays rfl⟩
  | some p =>
    refine ⟨writeBacks p.fds, [], ?_⟩
    simp only [releaseCurrentProcessFds, found]
    rw [← proc_of_lookup found]
    exact .trade _ .nothing (add_comm _ _) (fun _ => Nat.zero_le _) rfl

end Trades

theorem Quiet.touch : Quiet key r (r.put key (r.proc key)) :=
  .brk (r.proc key).brk

theorem Quiet.shared (quiet : Quiet key r r') : r'.shared = r.shared := by
  cases quiet <;> rfl

theorem quiet_lseek (fd : ℕ) (offset : ℤ) (whence : Whence) :
    Quiet key r (sysLseek key fd offset whence r).2 := by
  simp only [sysLseek]
  split
  · exact .touch
  · rename_i f isOpen
    split
    · exact .touch
    · split
      · exact .file isOpen _
      · exact .touch
  · exact .touch

theorem quiet_brk (addr : ℕ) (maps : Bool) : Quiet key r (sysBrk key addr maps r).2 := by
  simp only [sysBrk]
  split
  · exact .touch
  · split
    · exact .touch
    · exact .brk addr

theorem quiet_chdir (path : Except ℤ (List UInt8)) (lookup : List UInt8 → Option ℤ) :
    Quiet key r (sysChdir key path lookup r).2 := by
  rcases path with e | ⟨-, _⟩ | ⟨c, path⟩
  · exact .stays
  · exact .stays
  · by_cases absolute : (c :: path).head? = some slash
    · simp only [sysChdir, resolvePath, if_pos absolute]
      split
      · exact .stays
      · exact .cwd _
    · simp only [sysChdir, resolvePath, if_neg absolute]
      split
      · exact .touch
      · rw [proc_put, put_put]
        exact .cwd _

theorem sysRead_cases (key : Key) (fd count : ℕ) (copies : Bool) (r : Registry) :
    pipeOf (.read key fd count copies) r = none ∧ Quiet key r (sysRead key fd count copies r).2 ∨
    ∃ buf, pipeOf (.read key fd count copies) r = some buf ∧ sysRead key fd count copies r =
      if count = 0 then (.returned 0 [], r.put key (r.proc key))
      else ((readPipeTurn buf count copies r.shared).1,
        { r.put key (r.proc key) with shared := (readPipeTurn buf count copies r.shared).2 }) := by
  simp only [pipeOf, sysRead]
  cases isOpen : slotAt (r.proc key).fds fd with
  | none => exact .inl ⟨rfl, .touch⟩
  | some backing =>
    cases backing with
    | console | vga | serial | socket _ => exact .inl ⟨rfl, .touch⟩
    | file f =>
      simp only [put_put]
      exact .inl ⟨trivial, .file isOpen _⟩
    | pipe side buf =>
      cases side with
      | write => exact .inl ⟨rfl, .touch⟩
      | read => exact .inr ⟨buf, rfl, rfl⟩

theorem sysWrite_cases (key : Key) (fd : ℕ) (user : UserBytes) (r : Registry) :
    pipeOf (.write key fd user) r = none ∧ Quiet key r (sysWrite key fd user r).2 ∨
    ∃ buf, pipeOf (.write key fd user) r = some buf ∧ sysWrite key fd user r = ((writePipe buf user r.shared).1,
        { r.put key (r.proc key) with shared := (writePipe buf user r.shared).2 }) := by
  simp only [pipeOf, sysWrite]
  cases isOpen : slotAt (r.proc key).fds fd with
  | none => exact .inl ⟨rfl, .touch⟩
  | some backing =>
    cases backing with
    | console | vga | serial | socket _ => exact .inl ⟨rfl, .touch⟩
    | file f =>
      refine .inl ⟨rfl, ?_⟩
      simp only [put_put]
      split
      · cases user with
        | bytes l => exact .file isOpen _
        | fault _ => exact .touch
      · exact .touch
    | pipe side buf =>
      cases side with
      | read => exact .inl ⟨rfl, .touch⟩
      | write => exact .inr ⟨buf, rfl, rfl⟩

theorem insertProc_spec (ran : insertProc key p r = some r') :
    r'.processes = r.processes.insert key p ∧ Recount r.shared r'.shared := by
  obtain ⟨shared, dropped, ran⟩ := bind_eq_some_iff.mp ran
  cases ran
  exact ⟨rfl, recount_dropAll dropped⟩

/-- **`fork_fds`**: the child gets a copy of its parent's entry, if there is one. -/
theorem fork_spec (ran : perform (.fork parent child) r = some (outcome, r')) :
    r'.processes = (r.processes.lookup parent).elim r.processes (r.processes.insert child) ∧
      Recount r.shared r'.shared := by
  obtain ⟨forked, called, same⟩ := map_eq_some_iff.mp ran
  cases same
  unfold forkFds at called
  cases found : r.processes.lookup parent with
  | none =>
    rw [found] at called
    cases called
    exact ⟨rfl, .refl _⟩
  | some p =>
    rw [found] at called
    obtain ⟨processes, recounts⟩ := insertProc_spec called
    exact ⟨processes, (recount_cloneAll _ _).trans recounts⟩

/-- **`rekey_process`**: the entry moves to the new key, and its break is reset. -/
theorem exec_spec (ran : perform (.exec old new) r = some (outcome, r')) :
    r'.processes = ((r.processes.lookup old).elim r.processes fun p =>
      (r.processes.erase old).insert new { p with brk := userHeapBase }) ∧ Recount r.shared r'.shared := by
  obtain ⟨rekeyed, called, same⟩ := map_eq_some_iff.mp ran
  cases same
  unfold rekeyProcess at called
  cases found : r.processes.lookup old with
  | none =>
    rw [found] at called
    cases called
    exact ⟨rfl, .refl _⟩
  | some p =>
    rw [found] at called
    exact insertProc_spec called

section Lookups

variable {m m' : Finmap fun _ : Key => ProcState}

theorem lookup_of_forked {entry : Option ProcState} (forked : m' = entry.elim m (m.insert child))
    (ne : other ≠ child) : m'.lookup other = m.lookup other := by
  rw [forked]
  cases entry with
  | none => rfl
  | some p => exact Finmap.lookup_insert_of_ne _ ne

theorem lookup_of_rekeyed {f : ProcState → ProcState}
    (rekeyed : m' = (m.lookup old).elim m fun p => (m.erase old).insert new (f p)) (ne : other ≠ new) :
    m'.lookup other = if other = old then none else m.lookup other := by
  rw [rekeyed]
  split
  · rename_i isOld
    cases entry : m.lookup old with
    | none => exact isOld ▸ entry
    | some p => rw [elim_some, Finmap.lookup_insert_of_ne _ ne, isOld, Finmap.lookup_erase]
  · rename_i away
    cases m.lookup old with
    | none => rfl
    | some p => rw [elim_some, Finmap.lookup_insert_of_ne _ ne, Finmap.lookup_erase_ne away]

end Lookups

theorem forget_spec (ran : perform (.forget key) r = some (outcome, r')) :
    r'.processes = r.processes.erase key ∧ Recount r.shared r'.shared := by
  obtain ⟨forgotten, called, same⟩ := map_eq_some_iff.mp ran
  cases same
  obtain ⟨shared, dropped, called⟩ := bind_eq_some_iff.mp called
  cases called
  exact ⟨rfl, recount_dropAll dropped⟩

/-- A call that answers with a number. -/
theorem exists_value {call : Option (ℤ × Registry)}
    (mapped : (call.map fun (v, r) => (Outcome.value v, r)) = some (outcome, r')) :
    ∃ v, call = some (v, r') ∧ outcome = .value v := by
  obtain ⟨⟨v, r''⟩, called, same⟩ := map_eq_some_iff.mp mapped
  cases same
  exact ⟨v, called, rfl⟩

/-- The process that gives out or closes descriptors in a call. -/
def Op.tabler : Op → Option Key
  | .openFile key _ | .pipe key _ | .socket key _ _ _ | .dup2 key _ _ | .fcntl key _ _ _ | .close key _ _
  | .exit key => some key
  | _ => none

/-- **Every such call is a trade.** -/
theorem trades_of_perform (mine : op.tabler = some key) (r : Registry) :
    ∃ outcome fds, Trades key r fds outcome (perform op r) := by
  match op, mine with
  | .openFile _ f, rfl =>
    obtain ⟨_, _, trades, _⟩ := allocCurrent_trades (.file f)
    exact ⟨_, _, trades.map Outcome.value⟩
  | .pipe _ copies, rfl =>
    obtain ⟨_, _, trades, _⟩ := sysPipe_trades key copies r
    exact ⟨_, _, trades.map Outcome.value⟩
  | .socket _ inet sockType made, rfl =>
    rw [perform]
    rcases sysSocket_cases key inet sockType made r with ⟨_, _, _, _, _, _, _, acquires, made⟩ | ⟨_, _, failed⟩
    · obtain ⟨_, _, trades, _⟩ := allocCurrent_trades acquires
      rw [made]
      exact ⟨_, _, trades.map Outcome.value⟩
    · rw [failed]
      exact ⟨_, _, .stays rfl⟩
  | .dup2 _ oldfd newfd, rfl =>
    obtain ⟨_, _, trades, _⟩ := sysDup2_trades key oldfd newfd r
    exact ⟨_, _, trades.map Outcome.value⟩
  | .fcntl _ fd cmd arg, rfl =>
    obtain ⟨_, _, trades, _⟩ := sysFcntl_trades key fd cmd arg r
    exact ⟨_, _, trades.map Outcome.value⟩
  | .close _ fd writeFile, rfl =>
    obtain ⟨_, _, trades, _⟩ := sysClose_trades key fd writeFile r
    exact ⟨_, _, trades.map Outcome.value⟩
  | .exit _, rfl =>
    obtain ⟨_, _, trades⟩ := release_trades key r
    exact ⟨_, _, trades.map fun _ => Outcome.done⟩

theorem retables_of_perform (mine : op.tabler = some key) (ran : perform op r = some (outcome, r')) :
    ∃ fds, Retables key fds r r' := by
  obtain ⟨_, fds, trades⟩ := trades_of_perform mine r
  exact ⟨fds, (trades.retables ran).2⟩

/-! ### All that a call does to pipes -/

/-- The number of bytes that a call asks for, and whether its buffer can be written. -/
def Op.asks : Op → Option (ℕ × Bool)
  | .read _ _ count copies => some (count, copies)
  | .resume _ count copies => some (count, copies)
  | _ => none

/-- The bytes that a call writes. -/
def Op.gives : Op → Option UserBytes
  | .write _ _ user => some user
  | _ => none

inductive OnPipes (op : Op) (r : Registry) (outcome : Outcome) (s' : Shared) : Prop
  | recount (aside : pipeOf op r = none) (recounts : Recount r.shared s')
  /-- A read of no bytes from a pipe. -/
  | empty (buf : ℕ) (copies : Bool) (pipe : pipeOf op r = some buf)
      (asks : op.asks = some (0, copies)) (result : outcome = .read (.returned 0 []))
      (same : s' = r.shared)
  | read (buf count : ℕ) (copies : Bool) (pipe : pipeOf op r = some buf)
      (asks : op.asks = some (count, copies))
      (result : outcome = .read (readPipeTurn buf count copies r.shared).1)
      (turned : s' = (readPipeTurn buf count copies r.shared).2)
  | write (buf : ℕ) (user : UserBytes) (pipe : pipeOf op r = some buf) (gives : op.gives = some user)
      (result : outcome = .value (writePipe buf user r.shared).1)
      (written : s' = (writePipe buf user r.shared).2)

theorem onPipes_read (key : Key) (fd count : ℕ) (copies : Bool) (r : Registry) :
    OnPipes (.read key fd count copies) r (.read (sysRead key fd count copies r).1)
      (sysRead key fd count copies r).2.shared := by
  rcases sysRead_cases key fd count copies r with ⟨aside, quiet⟩ | ⟨buf, pipe, called⟩
  · exact .recount aside (quiet.shared ▸ .refl _)
  · rw [called]
    by_cases nothing : count = 0
    · subst nothing
      exact .empty buf copies pipe rfl rfl rfl
    · rw [if_neg nothing]
      exact .read buf count copies pipe rfl rfl rfl

theorem onPipes_write (key : Key) (fd : ℕ) (user : UserBytes) (r : Registry) :
    OnPipes (.write key fd user) r (.value (sysWrite key fd user r).1) (sysWrite key fd user r).2.shared := by
  rcases sysWrite_cases key fd user r with ⟨aside, quiet⟩ | ⟨buf, pipe, called⟩
  · exact .recount aside (quiet.shared ▸ .refl _)
  · rw [called]
    exact .write buf user pipe rfl rfl rfl

/-- **Every call** recounts pipes, or is one turn of reading a pipe or one write to it. -/
theorem onPipes_of_perform (ran : perform op r = some (outcome, r')) : OnPipes op r outcome r'.shared := by
  cases op with
  | openFile | pipe | socket | dup2 | fcntl | close | exit =>
    obtain ⟨_, retables⟩ := retables_of_perform rfl ran
    exact .recount rfl retables.recounts
  | fork parent child => exact .recount rfl (fork_spec ran).2
  | exec old new => exact .recount rfl (exec_spec ran).2
  | forget key => exact .recount rfl (forget_spec ran).2
  | read key fd count copies =>
    cases ran
    exact onPipes_read key fd count copies r
  | resume buf count copies =>
    cases ran
    exact .read buf count copies rfl rfl rfl rfl
  | write key fd user =>
    cases ran
    exact onPipes_write key fd user r
  | lseek key fd offset whence =>
    cases ran
    exact .recount rfl ((quiet_lseek fd offset whence).shared ▸ .refl _)
  | chdir key path lookup =>
    cases ran
    exact .recount rfl ((quiet_chdir path lookup).shared ▸ .refl _)
  | brk key addr maps =>
    cases ran
    exact .recount rfl ((quiet_brk addr maps).shared ▸ .refl _)
  | touch key =>
    cases ran
    exact .recount rfl (.refl _)

/-! ### What sleeping readers rely on -/

/-- A reader of pipe `p` has to sleep. -/
def Shared.starved (s : Shared) (p : ℕ) : Prop :=
  s.data p = [] ∧ 0 < s.writers p

structure Keeps (s s' : Shared) : Prop where
  wake : s.wake = true → s'.wake = true
  starved : ∀ p, s.starved p → s'.wake = true ∨ s'.starved p

theorem Keeps.refl (s : Shared) : Keeps s s :=
  ⟨id, fun _ => .inr⟩

theorem Recount.keeps (recounts : Recount s s') : Keeps s s' where
  wake := recounts.wake
  starved := by
    rintro p ⟨empty, writers⟩
    rcases recounts.writers p writers with raised | writers
    · exact .inl raised
    · exact .inr ⟨(recounts.data p).trans empty, writers⟩

/-- Replacing the data of a pipe that is not empty changes nothing for readers that sleep. -/
theorem keeps_setData (present : s.pipes[buf]? = some b)
    (nonempty : b.data ≠ []) (data : List UInt8) : Keeps s { s with pipes := s.pipes.set buf { b with data } } where
  wake := id
  starved := by
    rintro p ⟨empty, writers⟩
    have other : buf ≠ p := by
      rintro rfl
      rw [Shared.data, present] at empty
      exact nonempty empty
    refine .inr ⟨?_, ?_⟩
    · rw [Shared.data, getElem?_set_ne other]
      exact empty
    · rw [Shared.writers, getElem?_set_ne other]
      exact writers

theorem keeps_readPipeTurn (s : Shared) (buf count : ℕ) (copies : Bool) :
    Keeps s (readPipeTurn buf count copies s).2 := by
  unfold readPipeTurn
  split
  · exact .refl s
  · rename_i b present
    split
    · rename_i nonempty
      split <;> exact keeps_setData present nonempty _
    · split <;> exact .refl s

theorem keeps_writePipe (s : Shared) (buf : ℕ) (user : UserBytes) : Keeps s (writePipe buf user s).2 := by
  unfold writePipe
  split
  · exact .refl s
  · split
    · split
      · exact .refl s
      · exact ⟨fun _ => rfl, fun _ _ => .inl rfl⟩
    · exact .refl s
    · exact .refl s

theorem keeps_of_perform (ran : perform op r = some (outcome, r')) : Keeps r.shared r'.shared := by
  cases onPipes_of_perform ran with
  | recount _ recounts => exact recounts.keeps
  | empty _ _ _ _ _ same => exact same ▸ .refl _
  | read buf count copies _ _ _ turned => exact turned ▸ keeps_readPipeTurn _ buf count copies
  | write buf user _ _ _ written => exact written ▸ keeps_writePipe _ buf user

/-- A reader that is told to sleep finds the pipe empty, with writers. -/
theorem starved_of_blocks {buf' : ℕ} (blocks : (readPipeTurn buf count copies s).1 = .blocks buf') :
    buf' = buf ∧ (readPipeTurn buf count copies s).2.starved buf := by
  cases present : s.pipes[buf]? with
  | none =>
    simp only [readPipeTurn, present] at blocks
    exact nomatch blocks
  | some b =>
    by_cases nonempty : b.data ≠ []
    · simp only [readPipeTurn, present, if_pos nonempty] at blocks
      split at blocks <;> exact nomatch blocks
    · by_cases last : b.writers = 0
      · simp only [readPipeTurn, present, if_neg nonempty, if_pos last] at blocks
        exact nomatch blocks
      · simp only [readPipeTurn, present, if_neg nonempty, if_neg last] at blocks ⊢
        refine ⟨(ReadResult.blocks.inj blocks).symm, ?_, ?_⟩
        · rw [Shared.data, present]
          exact not_not.mp nonempty
        · rw [Shared.writers, present]
          exact Nat.pos_of_ne_zero last

theorem starved_of_sysRead (blocks : (sysRead key fd count copies r).1 = .blocks buf) :
    (sysRead key fd count copies r).2.shared.starved buf := by
  simp only [sysRead] at blocks ⊢
  split at blocks
  · exact nomatch blocks
  · split at blocks
    · exact nomatch blocks
    · rename_i asked
      obtain ⟨rfl, starved⟩ := starved_of_blocks blocks
      rwa [if_neg asked]
  · simp only [readFile] at blocks
    split at blocks
    · exact nomatch blocks
    · split at blocks <;> exact nomatch blocks
  · exact nomatch blocks

end Ferros.Files
