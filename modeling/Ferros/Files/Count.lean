/-
**Reference counts of shared backings are exact.**

* `Registry.exchange` — what changing one table does to all that: the one equation behind every call.
* `Accounted.trade` — a call on one table does not panic and leaves `Accounted`; so do the others.
* `refcounts_exact` — over all runs, failing calls included.

`Accounted flight` counts descriptors that no table holds with those of the tables. A call clones or makes some,
exchanges them for others in one table and drops the rest; each of these keeps the counters exact.
-/

import Ferros.Files.Recount
import Ferros.Files.Sharing

namespace Ferros.Files

open Lib List Option

variable {r r' : Registry} {key : Key} {flight gone new h : Multiset Fd} {shared s : Shared} {fd start i : ℕ}
  {p : ProcState} {fds : List (Option Fd)} {entry : Fd} {l : Logged}

/-! ### What the tables hold -/

/-- All descriptors in all tables. -/
def Registry.held (r : Registry) : Multiset Fd :=
  total (fun p => Lib.held p.fds) r.processes

/-- The counters are exact for the descriptors in the tables. -/
def Sound (r : Registry) : Prop :=
  Exact r.shared r.held

/-- All descriptors, those in flight included. -/
def Registry.holds (r : Registry) (flight : Multiset Fd) : Multiset Fd :=
  r.held + flight

/-- The counters are exact for the descriptors in the tables and those in flight. -/
def Accounted (flight : Multiset Fd) (r : Registry) : Prop :=
  Exact r.shared (r.holds flight)

/-- The registry after an access that changes nothing: the entry exists. -/
def Registry.touch (r : Registry) (key : Key) : Registry :=
  r.put key (r.proc key)

theorem Registry.touch_put (r : Registry) (key : Key) (p : ProcState) :
    (r.touch key).put key p = r.put key p := by
  rw [Registry.touch, Registry.put, Registry.put, Registry.put, Finmap.insert_insert]

/-- **Changing one table**: `gone` leaves it and `new` enters it. -/
theorem Registry.exchange (r : Registry) (key : Key)
    (balance : Lib.held p.fds + gone = Lib.held (r.proc key).fds + new) :
    gone + (r.put key p).holds flight = new + (r.touch key).holds flight := by
  have inserted := total_insert (fun p => Lib.held p.fds) (r.touch key).processes key p
  rw [show (r.touch key).processes.lookup key = some (r.proc key) from Finmap.lookup_insert _] at inserted
  have changed : Lib.held (r.proc key).fds + (r.put key p).held =
      Lib.held p.fds + (r.touch key).held := by
    rw [← r.touch_put]
    exact inserted
  have exchanged : gone + (r.put key p).held = new + (r.touch key).held := by
    refine add_left_cancel (a := Lib.held (r.proc key).fds) ?_
    rw [add_left_comm, changed, ← add_assoc, add_comm gone, balance, add_assoc]
  rw [Registry.holds, Registry.holds, ← add_assoc, exchanged, add_assoc]

theorem Accounted.touch (accounted : Accounted flight r) (key : Key) :
    Exact r.shared ((r.touch key).holds flight) := by
  have inserted := total_insert (fun p => Lib.held p.fds) r.processes key (r.proc key)
  cases found : r.processes.lookup key with
  | some p =>
    have same : r.proc key = p := by rw [Registry.proc, found]; rfl
    rw [found, same] at inserted
    have equal : (r.touch key).held = r.held := by
      rw [Registry.touch, same]
      exact add_left_cancel inserted
    rw [Registry.holds, equal]
    exact accounted
  | none =>
    have same : r.proc key = .initial := by rw [Registry.proc, found]; rfl
    rw [found, same] at inserted
    have equal : (r.touch key).held = Lib.held ProcState.initial.fds + r.held := by
      rw [Registry.touch, same, ← zero_add (Registry.held _)]
      exact inserted
    rw [Registry.holds, equal, add_assoc]
    refine Exact.add_plain accounted fun fd mem => ?_
    have inTable := mem_held.mp mem
    simp only [ProcState.initial, mem_cons, some.injEq, not_mem_nil, or_false] at inTable
    rcases inTable with rfl | rfl | rfl <;> rfl

/-- The descriptors of a process are held. -/
theorem mem_touch {fd : Fd} (isOpen : slotAt (r.proc key).fds i = some fd) :
    fd ∈ (r.touch key).holds flight := by
  have erased := total_erase (fun p => Lib.held p.fds) (r.touch key).processes key
  rw [show (r.touch key).processes.lookup key = some (r.proc key) from Finmap.lookup_insert _] at erased
  have inTable : fd ∈ Lib.held (r.proc key).fds := mem_held.mpr (mem_of_getElem? (join_eq_some_iff.mp isOpen))
  have mem : fd ∈ (r.touch key).held := by
    rw [Registry.held, ← erased]
    exact Multiset.mem_add.mpr (.inl inTable)
  exact Multiset.mem_add.mpr (.inl mem)

/-! ### The calls -/

section

/-- A registry with the same tables up to the change of one, and counters exact for it. -/
theorem accounted_put (exact : Exact shared h)
    (same : (r.put key p).holds flight = h) : Accounted flight { r.put key p with shared } := by
  show Exact shared ((r.put key p).holds flight)
  rwa [same]

section

variable (accounted : Accounted flight r)
include accounted

theorem accounted_touch (key : Key) : Accounted flight (r.put key (r.proc key)) :=
  accounted.touch key

/-- What is cloned or made is counted. -/
theorem Acquires.exact (acquires : Acquires key r new shared) :
    Exact shared (new + (r.touch key).holds flight) := by
  have exact := accounted.touch key
  cases acquires with
  | nothing => rwa [zero_add]
  | file f => exact (Exact.cons_plain_iff rfl).mpr exact
  | clone isOpen => exact exact.clone (mem_touch isOpen)
  | pipe =>
    rw [add_assoc]
    exact exact.newPipe
  | socket handle kind => exact exact.newSocket handle kind

/-- **A trade does not panic**, and the counters stay exact. -/
theorem Accounted.trade {α : Type} {value : α} {result : Option (α × Registry)}
    (trades : Trades key r fds value result) : ∃ r', result = some (value, r') ∧ Accounted flight r' := by
  cases trades with
  | stays => exact ⟨r, rfl, accounted⟩
  | trade dropped acquires balance short drops =>
    have exact := acquires.exact accounted
    rw [← r.exchange (p := { r.proc key with fds }) key balance] at exact
    obtain ⟨shared, done, exact'⟩ := exact.dropAll
    rw [done] at drops
    exact ⟨_, by rw [← drops]; rfl, accounted_put exact' rfl⟩

omit accounted in
theorem share_eq (r : Registry) (key : Key) :
    share (fun p : ProcState => Lib.held p.fds) (r.processes.lookup key) =
      Lib.held ((r.processes.lookup key).elim [] ProcState.fds) := by
  cases r.processes.lookup key <;> rfl

omit accounted in
/-- A table in flight that is inserted, displacing what was there. -/
theorem insertProc_accounted (inFlight : Exact r.shared (Lib.held p.fds + r.holds flight)) :
    ∃ r', insertProc key p r = some r' ∧ Accounted flight r' := by
  have inserted := total_insert (fun p => Lib.held p.fds) r.processes key p
  rw [share_eq] at inserted
  have exact : Exact r.shared (Lib.held ((r.processes.lookup key).elim [] ProcState.fds) +
      (r.put key p).holds flight) := by
    show Exact r.shared (_ + (total _ _ + flight))
    rw [Registry.put, ← add_assoc, inserted, add_assoc]
    exact inFlight
  obtain ⟨shared, dropped, exact'⟩ := exact.dropAll
  refine ⟨{ r.put key p with shared }, ?_, exact'⟩
  simp only [insertProc, dropped, bind_eq_bind, bind_some]
  rfl

omit accounted in
/-- The table of a process and the tables of the others. -/
theorem holds_erase (r : Registry) (key : Key) (shared : Shared) :
    Lib.held ((r.processes.lookup key).elim [] ProcState.fds) +
      Registry.holds ⟨r.processes.erase key, shared⟩ flight = r.holds flight := by
  have erased := total_erase (fun p => Lib.held p.fds) r.processes key
  rw [share_eq] at erased
  rw [Registry.holds, Registry.holds, Registry.held, Registry.held, ← add_assoc, erased]

theorem Accounted.fork (parent child : Key) : ∃ r', forkFds parent child r = some r' ∧ Accounted flight r' := by
  unfold forkFds
  cases found : r.processes.lookup parent with
  | none => exact ⟨r, rfl, accounted⟩
  | some p =>
    refine insertProc_accounted (accounted.cloneAll fun fd mem => ?_)
    rw [← holds_erase r parent r.shared, found]
    exact Multiset.mem_add.mpr (.inl (mem_held.mpr mem))

theorem Accounted.rekey (oldCr3 newCr3 : Key) :
    ∃ r', rekeyProcess oldCr3 newCr3 r = some r' ∧ Accounted flight r' := by
  unfold rekeyProcess
  cases found : r.processes.lookup oldCr3 with
  | none => exact ⟨r, rfl, accounted⟩
  | some p =>
    have erased : Lib.held p.fds + Registry.holds ⟨r.processes.erase oldCr3, r.shared⟩ flight =
        r.holds flight := by
      rw [← holds_erase r oldCr3 r.shared, found]
      rfl
    refine insertProc_accounted ?_
    show Exact r.shared (Lib.held p.fds + _)
    rw [erased]
    exact accounted

theorem Accounted.forget (key : Key) : ∃ r', forgetProcess key r = some r' ∧ Accounted flight r' := by
  have exact : Exact r.shared (Lib.held ((r.processes.lookup key).elim [] ProcState.fds) +
      Registry.holds ⟨r.processes.erase key, r.shared⟩ flight) := by
    rw [holds_erase]
    exact accounted
  obtain ⟨shared, dropped, exact'⟩ := exact.dropAll
  refine ⟨⟨r.processes.erase key, shared⟩, ?_, exact'⟩
  simp only [forgetProcess, dropped, bind_eq_bind, bind_some]
  rfl

theorem Accounted.set_file {f : OpenFile} (isOpen : slotAt (r.proc key).fds fd = some (.file f)) (f' : OpenFile)
    : Accounted flight (r.put key { r.proc key with fds := (r.proc key).fds.set fd (some (.file f')) }) := by
  have exchanged : {.file f} + (r.put key { r.proc key with
      fds := (r.proc key).fds.set fd (some (.file f')) }).holds flight =
      {.file f'} + (r.touch key).holds flight :=
    r.exchange key (held_set (slotAt_eq_some.mp isOpen) (some (.file f')))
  rw [Multiset.singleton_add, Multiset.singleton_add] at exchanged
  have exact := (Exact.cons_plain_iff (show isPlain (.file f') from rfl)).mpr (accounted.touch key)
  rw [← exchanged] at exact
  exact (Exact.cons_plain_iff (show isPlain (.file f) from rfl)).mp exact

omit accounted in
theorem Exact.readPipeTurn (exact : Exact s h) (buf count : ℕ) (copies : Bool) :
    Exact (readPipeTurn buf count copies s).2 h := by
  unfold Files.readPipeTurn
  split
  · exact exact
  · rename_i b present
    split
    · split <;> exact exact.setData present _ _
    · split <;> exact exact

omit accounted in
theorem Exact.writePipe (exact : Exact s h) (buf : ℕ) (user : UserBytes) :
    Exact (writePipe buf user s).2 h := by
  unfold Files.writePipe
  split
  · exact exact
  · split
    · rename_i present _
      split
      · exact exact
      · exact exact.setData present _ _
    · exact exact
    · exact exact

/-- A change of the working directory or the break only. -/
theorem Accounted.put_fds (same : p.fds = (r.proc key).fds) : Accounted flight (r.put key p) := by
  have exchanged : 0 + (r.put key p).holds flight = 0 + (r.touch key).holds flight :=
    r.exchange key (by rw [same])
  rw [zero_add, zero_add] at exchanged
  exact accounted_put (accounted.touch key) exchanged

theorem Accounted.quiet (quiet : Quiet key r r') : Accounted flight r' := by
  cases quiet with
  | stays => exact accounted
  | file isOpen f' => exact accounted.set_file isOpen f'
  | cwd _ => exact accounted.put_fds rfl
  | brk _ => exact accounted.put_fds rfl

theorem Accounted.read (key : Key) (fd count : ℕ) (copies : Bool) :
    Accounted flight (sysRead key fd count copies r).2 := by
  rcases sysRead_cases key fd count copies r with ⟨-, quiet⟩ | ⟨buf, -, called⟩
  · exact accounted.quiet quiet
  · rw [called]
    split
    · exact accounted_touch accounted key
    · exact (accounted.touch key).readPipeTurn buf count copies

theorem Accounted.write (key : Key) (fd : ℕ) (user : UserBytes) :
    Accounted flight (sysWrite key fd user r).2 := by
  rcases sysWrite_cases key fd user r with ⟨-, quiet⟩ | ⟨buf, -, called⟩
  · exact accounted.quiet quiet
  · rw [called]
    exact (accounted.touch key).writePipe buf user

end

end

/-! ### Runs -/

/-- **One call**: it does not panic and the counters stay exact. -/
theorem Accounted.perform (accounted : Accounted flight r) (op : Op) :
    ∃ outcome r', perform op r = some (outcome, r') ∧ Accounted flight r' := by
  have liftDone : ∀ {call : Option Registry}, (∃ r', call = some r' ∧ Accounted flight r') →
      ∃ outcome r', call.map (fun r => (Outcome.done, r)) = some (outcome, r') ∧ Accounted flight r' := by
    rintro call ⟨r', rfl, accounted'⟩
    exact ⟨.done, r', rfl, accounted'⟩
  have traded : ∀ {key : Key}, op.tabler = some key →
      ∃ outcome r', Files.perform op r = some (outcome, r') ∧ Accounted flight r' := by
    intro key mine
    obtain ⟨outcome, _, trades⟩ := trades_of_perform mine r
    exact ⟨outcome, accounted.trade trades⟩
  cases op with
  | openFile | pipe | socket | dup2 | fcntl | close | exit => exact traded rfl
  | fork parent child => exact liftDone (accounted.fork parent child)
  | exec oldCr3 newCr3 => exact liftDone (accounted.rekey oldCr3 newCr3)
  | forget key => exact liftDone (accounted.forget key)
  | read key fd count copies => exact ⟨_, _, rfl, accounted.read key fd count copies⟩
  | resume buf count copies => exact ⟨_, _, rfl, Exact.readPipeTurn accounted buf count copies⟩
  | write key fd user => exact ⟨_, _, rfl, accounted.write key fd user⟩
  | lseek key fd offset whence => exact ⟨_, _, rfl, accounted.quiet (quiet_lseek fd offset whence)⟩
  | chdir key path lookup => exact ⟨_, _, rfl, accounted.quiet (quiet_chdir path lookup)⟩
  | brk key addr maps => exact ⟨_, _, rfl, accounted.quiet (quiet_brk addr maps)⟩
  | touch key => exact ⟨_, _, rfl, accounted_touch accounted key⟩

theorem sound_iff_accounted : Sound r ↔ Accounted 0 r := by
  rw [Sound, Accounted, Registry.holds, add_zero]

theorem Sound.perform (sound : Sound r) (op : Op) :
    ∃ outcome r', perform op r = some (outcome, r') ∧ Sound r' := by
  obtain ⟨outcome, r', ran, accounted⟩ := (sound_iff_accounted.mp sound).perform op
  exact ⟨outcome, r', ran, sound_iff_accounted.mpr accounted⟩

theorem sound_of_reached (reached : registryRuns.Reached l) : Sound l.registry := by
  refine registryRuns.invariant (fun l => Sound l.registry) ?_ ?_ reached
  · rintro l rfl
    exact exact_empty
  · rintro l l' - sound ⟨op, stepped⟩
    obtain ⟨outcome, r, ran, rfl⟩ := Logged.step_eq_some stepped
    obtain ⟨outcome', r', performed', sound'⟩ := sound.perform op
    cases ran.symm.trans performed'
    exact sound'

/-- **Reference counts are exact** in every state that calls of any processes reach, failed calls
included: the counters of a pipe are the numbers of its ends in all tables; `close_socket` has been
called once for a socket that no table holds, with its handle, and never for one that a table holds; and
no next call panics. -/
theorem refcounts_exact {l : Logged} (reached : registryRuns.Reached l) :
    (∀ p b, l.registry.shared.pipes[p]? = some b → b.readers = l.registry.held.count (.pipeRead p) ∧
      b.writers = l.registry.held.count (.pipeWrite p)) ∧
    (∀ side p, Fd.pipe side p ∈ l.registry.held → p < l.registry.shared.pipes.length) ∧
    (∀ n k, l.registry.shared.sockets[n]? = some k → l.registry.shared.closed.count (n, k.handle) =
        if l.registry.held.countP (isSocket n · = true) = 0 then 1 else 0) ∧
    (∀ e, Fd.socket e ∈ l.registry.held → knows l.registry.shared.sockets e.refs e.handle) ∧
    (∀ c ∈ l.registry.shared.closed, knows l.registry.shared.sockets c.1 c.2) ∧
    ∀ op, (perform op l.registry).isSome = true := by
  have sound := sound_of_reached reached
  refine ⟨fun p b present => ⟨sound.ends .read p b present, sound.ends .write p b present⟩,
    sound.pipes, fun n k present => ?_, sound.sockets, sound.known, fun op => ?_⟩
  · rw [sound.closed n k present, sound.strong n k present]
  · obtain ⟨outcome, r', ran, -⟩ := sound.perform op
    rw [ran]
    rfl

/-- A process makes a pipe and a socket, forks, and its child duplicates the read end over its standard
input; the parent closes its read end and the socket; the child dies and is forgotten. -/
def pipeRun : List Op :=
  [.pipe 7 true, .socket 7 true .dgram (.ok 5), .fork 7 8, .dup2 8 3 0, .close 7 3 fun _ => none,
    .close 7 5 fun _ => none, .exit 8, .forget 8]

def piped (n : ℕ) : Logged :=
  (replay Logged.step (pipeRun.take n) ⟨.empty, []⟩).getD ⟨.empty, []⟩

theorem refcounts_exact_fork : (piped 4).registry.held.count (.pipeRead 0) = 3 ∧
      (piped 4).registry.shared.pipes = [⟨[], 3, 2⟩] ∧ (piped 8).registry.shared.closed = [(0, 5)] ∧
      (piped 4).registry.held.count (.pipeWrite 0) = 2 := by
  have reached : registryRuns.Reached (piped 4) :=
    System.Reached.replay (.start rfl)
      (show replay Logged.step (pipeRun.take 4) ⟨.empty, []⟩ = some (piped 4) from rfl)
  have counts := (refcounts_exact reached).1 0 ⟨[], 3, 2⟩ rfl
  exact ⟨counts.1.symm, rfl, rfl, counts.2.symm⟩

end Ferros.Files
