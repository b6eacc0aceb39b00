/-
**A call works on the entry of its caller.**

* `Private key call` — the result of `call`, and the entry it leaves at `key`, depend only on the entry at
  `key` and on what descriptors share; other entries stay as they are.
* `private_perform` — every call of one process is private to it.
* `alone` — the registry in which there is nobody else.
-/

import Ferros.Files.Recount

namespace Ferros.Files

open Option

variable {α β : Type} {key : Key} {r q r' : Registry} {p : ProcState} {outcome : Outcome} {v w : α} {op : Op}

/-- Two registries that process `key` cannot tell apart. -/
structure Alike (key : Key) (r q : Registry) : Prop where
  entry : q.processes.lookup key = r.processes.lookup key
  shared : q.shared = r.shared

/-- A call that led from `r` to `r'` with result `v` leads to `out` in a registry like `r`. -/
structure Mirrors {α : Type} (key : Key) (r : Registry) (v : α) (r' : Registry)
    (out : Option (α × Registry)) : Prop where
  same : ∃ q', out = some (v, q') ∧ Alike key r' q'
  others : ∀ other, other ≠ key → r'.processes.lookup other = r.processes.lookup other

structure Private {α : Type} (key : Key) (call : Registry → Option (α × Registry)) : Prop where
  mirrors : ∀ {r q r' : Registry} {v : α}, Alike key r q → call r = some (v, r') →
    Mirrors key r v r' (call q)

theorem Alike.proc (alike : Alike key r q) : q.proc key = r.proc key := by
  rw [Registry.proc, Registry.proc, alike.entry]

theorem Alike.shares (alike : Alike key r q) (shared : Shared) :
    Alike key { r with shared } { q with shared } :=
  ⟨alike.entry, rfl⟩

/-- A call that leaves `p` and `shared` behind. -/
theorem mirrors_put (r q : Registry) (v : α) (p : ProcState) (shared : Shared) :
    Mirrors key r v { r.put key p with shared } (some (v, { q.put key p with shared })) := by
  refine ⟨⟨_, rfl, ?_, rfl⟩, fun other away => Finmap.lookup_insert_of_ne _ away⟩
  show (q.processes.insert key p).lookup key = (r.processes.insert key p).lookup key
  rw [Finmap.lookup_insert, Finmap.lookup_insert]

theorem Alike.puts (alike : Alike key r q) (v : α) (p : ProcState) :
    Mirrors key r v (r.put key p) (some (v, q.put key p)) := by
  have mirrors : Mirrors key r v (r.put key p) (some (v, { q.put key p with shared := r.shared })) :=
    mirrors_put r q v p r.shared
  rwa [← show q.put key p = { q.put key p with shared := r.shared } by
    rw [← alike.shared]; rfl] at mirrors

theorem Alike.stays (alike : Alike key r q) (v : α) : Mirrors key r v r (some (v, q)) :=
  ⟨⟨q, rfl, alike⟩, fun _ _ => rfl⟩

theorem Alike.puts_of (alike : Alike key r q) (ran : some (w, r.put key p) = some (v, r')) :
    Mirrors key r v r' (some (w, q.put key p)) := by
  cases ran
  exact alike.puts v p

/-- A call that drops a descriptor, or clones one and drops another. -/
theorem mirrors_of_drop {dropped : Option Shared}
    (ran : (do let shared ← dropped; return (w, { r.put key p with shared })) = some (v, r')) :
    Mirrors key r v r' (do let shared ← dropped; return (w, { q.put key p with shared })) := by
  obtain ⟨shared, rfl, ran⟩ := bind_eq_some_iff.mp ran
  cases ran
  exact mirrors_put r q v p shared

theorem private_allocCurrent (entry : Fd) : Private key (allocCurrent key entry) := by
  refine ⟨fun {r q r' v} alike ran => ?_⟩
  simp only [allocCurrent, alike.proc, alike.shared] at ran ⊢
  split at ran
  · exact alike.puts_of ran
  · exact mirrors_of_drop ran

theorem private_sysClose (fd : ℕ) (writeFile : OpenFile → Option ℤ) :
    Private key (sysClose key fd writeFile) := by
  refine ⟨fun {r q r' v} alike ran => ?_⟩
  simp only [sysClose, alike.proc, alike.shared] at ran ⊢
  split at ran
  · exact alike.puts_of ran
  · exact mirrors_of_drop ran

theorem private_sysDup2 (oldfd newfd : ℕ) : Private key (sysDup2 key oldfd newfd) := by
  refine ⟨fun {r q r' v} alike ran => ?_⟩
  by_cases large : maxFds ≤ newfd
  · simp only [sysDup2, if_pos large] at ran ⊢
    cases ran
    exact alike.stays _
  · simp only [sysDup2, if_neg large, alike.proc, alike.shared] at ran ⊢
    split at ran
    · exact alike.puts_of ran
    · by_cases same : oldfd = newfd
      · simp only [if_pos same] at ran ⊢
        exact alike.puts_of ran
      · simp only [if_neg same] at ran ⊢
        exact mirrors_of_drop ran

theorem private_sysFcntl (fd : ℕ) (cmd : FcntlCmd) (arg : ℕ) : Private key (sysFcntl key fd cmd arg) := by
  refine ⟨fun {r q r' v} alike ran => ?_⟩
  cases cmd with
  | dupFd =>
    by_cases large : maxFds ≤ arg
    · simp only [sysFcntl, if_pos large] at ran ⊢
      cases ran
      exact alike.stays _
    · simp only [sysFcntl, if_neg large, alike.proc, alike.shared] at ran ⊢
      split at ran
      · exact alike.puts_of ran
      · by_cases full : maxFds ≤ firstFree arg (r.proc key).fds
        · simp only [if_pos full] at ran ⊢
          exact mirrors_of_drop ran
        · simp only [if_neg full] at ran ⊢
          cases ran
          exact mirrors_put r q _ _ _
  | getFd | setFd | setFl | getFl =>
    simp only [sysFcntl, alike.proc] at ran ⊢
    exact alike.puts_of ran
  | other =>
    cases ran
    exact alike.stays _

theorem private_sysPipe (copies : Bool) : Private key (sysPipe key copies) := by
  refine ⟨fun {r q r' v} alike ran => ?_⟩
  simp only [sysPipe, alike.proc, alike.shared] at ran ⊢
  split at ran
  · exact mirrors_of_drop ran
  · split at ran
    · exact mirrors_of_drop ran
    · cases ran
      exact mirrors_put r q _ _ _

theorem private_sysSocket (inet : Bool) (sockType : SockType) (made : Except ℤ ℕ) :
    Private key (sysSocket key inet sockType made) := by
  refine ⟨fun {r q r' v} alike ran => ?_⟩
  cases inet with
  | false =>
    cases ran
    exact alike.stays _
  | true =>
    simp only [sysSocket, if_true, alike.shared] at ran ⊢
    split at ran
    · cases ran
      exact alike.stays _
    · cases ran
      exact alike.stays _
    · have mirrors := (private_allocCurrent _).mirrors (alike.shares _) ran
      exact ⟨mirrors.same, mirrors.others⟩

/-- A call without failure. -/
theorem private_of_always {call : Registry → α × Registry} (always : ∀ {r q : Registry}, Alike key r q →
      Mirrors key r (call r).1 (call r).2 (some (call q))) : Private key fun r => some (call r) := by
  refine ⟨fun {r q r' v} alike ran => ?_⟩
  have mirrors := always alike
  rwa [some.inj ran] at mirrors

theorem private_sysRead (fd count : ℕ) (copies : Bool) :
    Private key fun r => some (sysRead key fd count copies r) := by
  refine private_of_always fun {r q} alike => ?_
  simp only [sysRead, alike.proc]
  split
  · exact alike.puts _ _
  · split
    · exact alike.puts _ _
    · show Mirrors key r _ _ (some (_, { q.put key (r.proc key) with
        shared := (readPipeTurn _ count copies q.shared).2 }))
      rw [show (q.put key (r.proc key)).shared = r.shared from alike.shared, alike.shared]
      exact mirrors_put r q _ _ _
  · rw [put_put, put_put]
    exact alike.puts _ _
  · exact alike.puts _ _

theorem private_sysWrite (fd : ℕ) (user : UserBytes) : Private key fun r => some (sysWrite key fd user r) := by
  refine private_of_always fun {r q} alike => ?_
  simp only [sysWrite, alike.proc]
  split
  · exact alike.puts _ _
  · exact alike.puts _ _
  · rw [show (q.put key (r.proc key)).shared = r.shared from alike.shared]
    exact mirrors_put r q _ _ _
  · simp only [put_put]
    split
    · cases user <;> exact alike.puts _ _
    · exact alike.puts _ _
  · exact alike.puts _ _

theorem private_sysLseek (fd : ℕ) (offset : ℤ) (whence : Whence) :
    Private key fun r => some (sysLseek key fd offset whence r) := by
  refine private_of_always fun {r q} alike => ?_
  simp only [sysLseek, alike.proc]
  split
  · exact alike.puts _ _
  · split
    · exact alike.puts _ _
    · split <;> exact alike.puts _ _
  · exact alike.puts _ _

theorem private_sysBrk (addr : ℕ) (maps : Bool) : Private key fun r => some (sysBrk key addr maps r) := by
  refine private_of_always fun {r q} alike => ?_
  simp only [sysBrk, alike.proc]
  split
  · exact alike.puts _ _
  · split <;> exact alike.puts _ _

theorem private_sysChdir (path : Except ℤ (List UInt8)) (lookup : List UInt8 → Option ℤ) :
    Private key fun r => some (sysChdir key path lookup r) := by
  refine private_of_always fun {r q} alike => ?_
  rcases path with _ | _ | ⟨c, rest⟩
  · exact alike.stays _
  · exact alike.stays _
  · by_cases absolute : (c :: rest).head? = some slash
    · simp only [sysChdir, resolvePath, if_pos absolute, alike.proc]
      split
      · exact alike.stays _
      · exact alike.puts _ _
    · simp only [sysChdir, resolvePath, if_neg absolute, alike.proc, proc_put, put_put]
      split <;> exact alike.puts _ _

theorem private_release : Private key (releaseCurrentProcessFds key) := by
  refine ⟨fun {r q r' v} alike ran => ?_⟩
  simp only [releaseCurrentProcessFds, alike.entry, alike.shared] at ran ⊢
  split at ran
  · cases ran
    exact alike.stays _
  · exact mirrors_of_drop ran

theorem Private.map {call : Registry → Option (α × Registry)} (isPrivate : Private key call) (f : α → β) :
    Private key fun r => (call r).map (Prod.map f id) := by
  refine ⟨fun {r q r' v} alike ran => ?_⟩
  obtain ⟨⟨w, r₁⟩, called, same⟩ := map_eq_some_iff.mp ran
  obtain ⟨rfl, rfl⟩ := Prod.mk.inj same
  obtain ⟨⟨q', mirrored, alike'⟩, others⟩ := isPrivate.mirrors alike called
  exact ⟨⟨q', by simp only [mirrored]; rfl, alike'⟩, others⟩

/-! ### Every call -/

/-- The process that makes a call on its own entry. -/
def Op.owner : Op → Option Key
  | .openFile key _ | .pipe key _ | .socket key _ _ _ | .dup2 key _ _ | .fcntl key _ _ _
  | .close key _ _ | .exit key | .read key _ _ _ | .write key _ _ | .lseek key _ _ _
  | .chdir key _ _ | .brk key _ _ | .touch key => some key
  | .fork _ _ | .exec _ _ | .forget _ | .resume _ _ _ => none

/-- **Every call is private** to the process that makes it. -/
theorem private_perform (mine : op.owner = some key) : Private key (perform op) := by
  match op, mine with
  | .openFile _ f, rfl => exact (private_allocCurrent (.file f)).map Outcome.value
  | .pipe _ copies, rfl => exact (private_sysPipe copies).map Outcome.value
  | .socket _ inet sockType made, rfl => exact (private_sysSocket inet sockType made).map Outcome.value
  | .dup2 _ oldfd newfd, rfl => exact (private_sysDup2 oldfd newfd).map Outcome.value
  | .fcntl _ fd cmd arg, rfl => exact (private_sysFcntl fd cmd arg).map Outcome.value
  | .close _ fd writeFile, rfl => exact (private_sysClose fd writeFile).map Outcome.value
  | .exit _, rfl => exact private_release.map fun _ => Outcome.done
  | .read _ fd count copies, rfl => exact (private_sysRead fd count copies).map Outcome.read
  | .write _ fd user, rfl => exact (private_sysWrite fd user).map Outcome.value
  | .lseek _ fd offset whence, rfl => exact (private_sysLseek fd offset whence).map Outcome.value
  | .chdir _ path lookup, rfl => exact (private_sysChdir path lookup).map Outcome.value
  | .brk _ addr maps, rfl => exact (private_sysBrk addr maps).map Outcome.value
  | .touch _, rfl =>
    refine ⟨fun {r q r' v} alike ran => ?_⟩
    cases ran
    simp only [perform, alike.proc]
    exact alike.puts _ _

/-! ### A process alone -/

def alone (key : Key) (entry : Option ProcState) (shared : Shared) : Registry :=
  ⟨entry.elim ∅ fun p => Finmap.singleton key p, shared⟩

theorem alike_alone (key : Key) (r : Registry) : Alike key r (alone key (r.processes.lookup key) r.shared) := by
  refine ⟨?_, rfl⟩
  cases entry : r.processes.lookup key with
  | none => exact Finmap.lookup_empty key
  | some p => exact Finmap.lookup_singleton_eq

/-- What a call makes of the entry of a process that is alone. -/
def lived (op : Op) (key : Key) (entry : Option ProcState) (shared : Shared) : Option ProcState :=
  match perform op (alone key entry shared) with
  | some (_, r) => r.processes.lookup key
  | none => entry

/-- **A call makes of the entry of its caller what it would make of it alone**, and leaves the others. -/
theorem lived_of_perform (mine : op.owner = some key) (ran : perform op r = some (outcome, r')) :
    r'.processes.lookup key = lived op key (r.processes.lookup key) r.shared ∧
      ∀ other, other ≠ key → r'.processes.lookup other = r.processes.lookup other := by
  obtain ⟨⟨q, mirrored, alike⟩, others⟩ := (private_perform mine).mirrors (alike_alone key r) ran
  refine ⟨?_, others⟩
  rw [lived, mirrored]
  exact alike.entry.symm

/-- One turn of a read that goes on touches no entry. -/
theorem resume_processes {buf count : ℕ} {copies : Bool}
    (ran : perform (.resume buf count copies) r = some (outcome, r')) : r'.processes = r.processes := by
  cases ran
  rfl

end Ferros.Files
