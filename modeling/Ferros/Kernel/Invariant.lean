/-
**The scheduler inside the kernel.**

`Sane w s` is what holds of the scheduler between the parts of every step: `Ready`, and pids are indices,
since threads are never removed and the heap bounds their number. Each lemma says what one call of the
scheduler does to the vector of threads, from `Sane` to `Sane`.
-/

import Ferros.Kernel.Machine
import Ferros.Sched.Calls

namespace Ferros.Kernel

open Lib Drivers Files Mm Sched List Option

variable {w w' : Statics} {s : Scheduler} {f : ℕ → Thread → Thread} {t cur : Thread} {key new cr3 : Frame}

structure Sane (w : Statics) (s : Scheduler) : Prop where
  here : w.scheduler = some s
  ready : Ready s
  numbered : ∀ (i : ℕ) (t : Thread), s.threads[i]? = some t → t.pid = i
  next : w.nextPid = s.threads.length
  room : s.threads.length ≤ heapSize

theorem numbered_mapIdx {threads : List Thread} (pid : ∀ i t, (f i t).pid = t.pid)
    (numbered : ∀ (i : ℕ) (t : Thread), threads[i]? = some t → t.pid = i) (i : ℕ) (t : Thread)
    (present : (threads.mapIdx f)[i]? = some t) : t.pid = i := by
  obtain ⟨u, place, rfl⟩ := map_eq_some_iff.mp (getElem?_mapIdx.symm.trans present)
  rw [pid, numbered i u place]

section Sane

/-- The vector of threads after a call. -/
def Becomes (w' : Statics) (threads : List Thread) : Prop :=
  ∃ s', Sane w' s' ∧ s'.threads = threads

section

variable (sane : Sane w s)
include sane

theorem Sane.acts (acts : Acts f s w w') : Becomes w' (s.threads.mapIdx f) := by
  obtain ⟨n, rfl, ready⟩ := acts.result
  refine ⟨_, ⟨rfl, ready, fun i t' present => ?_, ?_, ?_⟩, rfl⟩
  · obtain ⟨t, place, rfl⟩ := map_eq_some_iff.mp ((s.getElem?_update f i).symm.trans present)
    rw [(acts.updates.evolves i t place).pid, sane.numbered i t place]
  · show w.nextPid = (s.threads.mapIdx f).length
    rw [length_mapIdx, sane.next]
  · show (s.threads.mapIdx f).length ≤ heapSize
    rw [length_mapIdx]
    exact sane.room

/-- A call that does not switch. -/
theorem Sane.put (acts : Acts f s w (w.put (s.update f))) : Sane (w.put (s.update f)) (s.update f) := by
  obtain ⟨s', sane', threads⟩ := sane.acts acts
  cases sane'.here.symm.trans (show _ = some (s.update f) from rfl)
  exact sane'

theorem Sane.becomes : Becomes w s.threads :=
  ⟨s, sane, rfl⟩

theorem Sane.ticks (ticked : onTimerTick w = .ok w') : Becomes w' s.threads := by
  unfold onTimerTick at ticked
  split at ticked
  · obtain ⟨w'', yielded, acts⟩ := sane.ready.yields sane.here
    cases yielded.symm.trans ticked
    have becomes := sane.acts acts
    rwa [← map_eq_mapIdx, List.map_id'] at becomes
  · cases ticked
    exact sane.becomes

theorem Sane.wakes (reason : BlockReason) : Sane (wakeAll reason w) (s.update (waking reason)) := by
  have acts := sane.ready.wakes sane.here reason
  rw [wakeAll_eq sane.here] at acts ⊢
  exact sane.put acts

theorem Sane.reaps : Becomes (Sched.reap true w).2 (s.threads.mapIdx (burying s)) := by
  rw [reap_eq sane.here]
  exact sane.acts (sane.ready.reaps w)

end

/-- The current thread, which is a user process. -/
structure Current (s : Scheduler) (t : Thread) (key : Frame) : Prop where
  present : s.threads[s.current]? = some t
  user : t.cr3 = some key

theorem Current.notKernel (current : Current s t key) : t.cr3 ≠ none := by
  rw [current.user]
  exact some_ne_none _

theorem Sane.blocks (sane : Sane w s) (current : Current s t key) {reason : BlockReason}
    (blocked : blockCurrentOn reason w = .ok w') :
    Becomes w' (s.threads.mapIdx (sleeping s.current reason)) := by
  obtain ⟨w'', blocked', acts⟩ := sane.ready.blocks sane.here current.present current.notKernel reason
  cases blocked'.symm.trans blocked
  exact sane.acts acts

theorem Sane.exits (sane : Sane w s) (current : Current s t key) {status : ℤ} {signal : Option ℕ}
    (exited : exitCurrentInner status signal w = .ok w') :
    Becomes w' (s.threads.mapIdx (ending s.current t status signal)) := by
  obtain ⟨w'', exited', acts⟩ := sane.ready.exits sane.here current.present current.notKernel status signal
  cases exited'.symm.trans exited
  exact sane.acts acts

theorem Sane.replaces (sane : Sane w s) (current : Current s t key)
    (replaced : (execReplaceCr3 new w).map Prod.snd = .ok w') :
    w' = w.put (s.update (replacing s.current new)) ∧ Sane w' (s.update (replacing s.current new)) := by
  obtain ⟨replaced', acts⟩ := sane.ready.replaces sane.here current.present current.user new
  rw [replaced'] at replaced
  cases replaced
  exact ⟨rfl, sane.put acts⟩

theorem Sane.pushes (sane : Sane w s) (present : s.threads[s.current]? = some cur)
    (room : s.threads.length < heapSize) {top : ℕ} {stack : Stack} {fsBase : ℕ}
    (added : (Sched.addUserTask cr3 top stack fsBase w).map Prod.snd = .ok w') :
    Becomes w' (s.threads ++ [userThread s.threads.length s.current cr3 top stack fsBase]) := by
  rw [addUserTask_eq sane.here present, sane.next, sane.numbered _ cur present] at added
  cases added
  refine ⟨_, ⟨rfl, ?_, ?_, ?_, ?_⟩, rfl⟩
  · obtain ⟨t', present', runs⟩ := sane.ready.running
    refine sane.ready.push (fun u mem same => ?_) fun _ => ?_
    · obtain ⟨i, place⟩ := mem_iff_getElem?.mp mem
      have index := sane.numbered i u place
      have bound := (List.getElem?_eq_some_iff.mp place).1
      rw [index] at same
      exact bound.ne same
    · exact ⟨t', mem_of_getElem? present', sane.numbered _ t' present', by rw [runs]; rfl⟩
  · intro i u place
    rcases Nat.lt_or_ge i s.threads.length with old | new
    · exact sane.numbered i u ((getElem?_append_left old).symm.trans place)
    · rw [getElem?_append_right new] at place
      cases offset : i - s.threads.length with
      | zero =>
        rw [offset] at place
        cases place
        show s.threads.length = i
        omega
      | succ n =>
        rw [offset] at place
        exact nomatch place
  · show (w.nextPid + 1) % 2 ^ 32 = (s.threads ++ [_]).length
    have small : heapSize < 2 ^ 32 := by decide
    rw [sane.next, length_append, length_singleton, Nat.mod_eq_of_lt (by omega)]
  · rw [length_append, length_singleton]
    exact room

end Sane

def Machine.threads (k : Machine) : List Thread :=
  k.statics.scheduler.elim [] Scheduler.threads

theorem Sane.threads_eq {k : Machine} (sane : Sane k.statics s) : k.threads = s.threads := by
  rw [Machine.threads, sane.here]
  rfl

/-- A thread is at the place that its pid says. -/
theorem Sane.at_pid (sane : Sane w s) (mem : t ∈ s.threads) :
    s.threads[t.pid]? = some t := by
  obtain ⟨i, place⟩ := mem_iff_getElem?.mp mem
  rw [sane.numbered i t place]
  exact place

theorem Sane.eq_of_pid {u : Thread} {i : ℕ} (sane : Sane w s) (present : s.threads[i]? = some u)
    (mem : t ∈ s.threads) (same : t.pid = i) : u = t := by
  rw [← same, sane.at_pid mem] at present
  exact (some.inj present).symm

theorem sane_boot (kernelCr3 : Frame) (memoryMap : MemoryMap) (next : ℕ) :
    Sane (Machine.boot kernelCr3 memoryMap next).statics ⟨[bootThread], 0, kernelCr3⟩ where
  here := rfl
  ready := {
    zero := ⟨bootThread, rfl, rfl, rfl, rfl⟩
    current := Nat.one_pos
    distinct := nodup_singleton _
    parents := fun t mem hasParent => by
      rw [mem_singleton.mp mem] at hasParent
      exact absurd rfl hasParent
    running := ⟨bootThread, rfl, rfl⟩ }
  numbered := by
    intro i t present
    cases i with
    | zero =>
      cases present
      rfl
    | succ i => exact nomatch present
  next := rfl
  room := show 1 ≤ heapSize by decide

end Ferros.Kernel
