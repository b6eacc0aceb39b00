/-
**Whose state is it?**

The state of a process lies in the registry under the frame of its PML4. `Histories` keeps beside the kernel,
for each process, what its own calls make of its state if nobody else is there: inherited at `fork`, reset by
`execve`, otherwise changed by its own calls only.

* `Apart` — the entry of every process is its own, entries belong to processes or are about to be forgotten,
  and what is about to be forgotten belongs to no process.
* `Careful` — no new address space is built on a PML4 that the reaper has destroyed and not yet forgotten.
* `entry_is_own` — in careful runs every process finds its own state.
-/

import Ferros.Files.Private
import Ferros.Kernel.Memory

namespace Ferros.Kernel

open Lib Drivers Files Mm Sched List Option Function

/-! ### Histories -/

/-- A kernel, and the state of each process by its own history; `none` is the default state before the
first access. -/
structure Histories where
  machine : Machine
  own : ℕ → Option ProcState

variable {k k' : Machine} {s : Scheduler} {own : ℕ → Option ProcState}
  {threads old dead before threads' : List Thread} {pml4 key f : Frame} {new t : Thread} {e : Event} {op : Op}
  {c count : ℕ} {l : Histories} {copies : Bool} {outcome : Outcome} {r : Registry}

/-- The call on its own state that the process with PML4 `key` makes in an event. -/
def ownCall (key : Frame) : Event → Option Op
  | .call (.file op) => some op
  | .call (.read fd count copies) => some (.read key fd count copies)
  | .call (.brk addr maps _ _) => some (.brk key addr maps)
  | .call (.exit _) => some (.exit key)
  | _ => none

def Histories.after (e : Event) (t : Thread) (l : Histories) : ℕ → Option ProcState :=
  match e with
  | .spawnUser _ _ _ => update l.own l.machine.threads.length none
  | .call (.fork _ _ _ _) => update l.own l.machine.threads.length (l.own t.pid)
  | .call (.execve _ true _) =>
    update l.own t.pid ((l.own t.pid).map fun p => { p with brk := userHeapBase })
  | e =>
    match t.cr3 with
    | none => l.own
    | some key =>
      match ownCall key e with
      | none => l.own
      | some op =>
        update l.own t.pid (lived op key (l.own t.pid) l.machine.registry.shared)

def Histories.step (e : Event) (l : Histories) : Option Histories := do
  let (_, t) ← l.machine.current
  let k ← l.machine.step e
  return ⟨k, l.after e t⟩

def historyRuns : System Histories :=
  .ofOps (fun l => ∃ kernelCr3 memoryMap next,
    l = ⟨.boot kernelCr3 memoryMap next, fun _ => none⟩) Histories.step

/-! ### The invariant -/

structure Apart (k : Machine) (own : ℕ → Option ProcState) (threads : List Thread) : Prop where
  own : ∀ (i : ℕ) (t : Thread) (f : Frame), threads[i]? = some t → t.cr3 = some f →
    k.registry.processes.lookup f = own i
  keyed : ∀ f, k.registry.processes.lookup f ≠ none → f ∈ cr3s threads ∨ Task.forgetProcess f ∈ k.tasks
  pending : ∀ f, Task.forgetProcess f ∈ k.tasks → f ∉ cr3s threads

section Apart

/-- The threads before a step, and those after it: each has the PML4 it had. -/
def SameCr3 (before after : List Thread) : Prop :=
  cr3s after = cr3s before ∧ ∀ (i : ℕ) (t' : Thread), after[i]? = some t' →
    ∃ t, before[i]? = some t ∧ t'.cr3 = t.cr3

theorem SameCr3.refl (threads : List Thread) : SameCr3 threads threads :=
  ⟨rfl, fun _ t present => ⟨t, present, rfl⟩⟩

theorem SameCr3.mapIdx {after : List Thread} (same : SameCr3 before after) {f : ℕ → Thread → Thread}
    (kept : ∀ i t, (f i t).cr3 = t.cr3) : SameCr3 before (after.mapIdx f) := by
  refine ⟨(cr3s_mapIdx kept).trans same.1, fun i t' present => ?_⟩
  obtain ⟨t, place, rfl⟩ := map_eq_some_iff.mp (getElem?_mapIdx.symm.trans present)
  obtain ⟨u, there, cr3⟩ := same.2 i t place
  exact ⟨u, there, (kept i t).trans cr3⟩

/-- A step that touches no entry. -/
theorem Apart.keeps (apart : Apart k own s.threads) (same : SameCr3 s.threads threads)
    (processes : k'.registry.processes = k.registry.processes)
    (tasks : ∀ f, Task.forgetProcess f ∈ k'.tasks ↔ Task.forgetProcess f ∈ k.tasks) : Apart k' own threads where
  own := by
    intro i t' f present cr3
    obtain ⟨t, place, kept⟩ := same.2 i t' present
    rw [processes]
    exact apart.own i t f place (kept.symm.trans cr3)
  keyed := by
    intro f there
    rw [processes] at there
    rw [same.1, tasks]
    exact apart.keyed f there
  pending := by
    intro f task
    rw [same.1]
    exact apart.pending f ((tasks f).mp task)

/-- **A call of the current process on its own state.** -/
theorem Apart.calls (apart : Apart k own s.threads) (ledger : Ledger k s.threads)
    (current : Current s t key) (mine : op.owner = some key)
    (ran : perform op k.registry = some (outcome, r)) (same : SameCr3 s.threads threads)
    (processes : k'.registry.processes = r.processes) (tasks : k'.tasks = k.tasks) :
    Apart k' (update own s.current (lived op key (own s.current) k.registry.shared)) threads := by
  obtain ⟨changed, others⟩ := lived_of_perform mine ran
  have isOwn := apart.own _ t key current.present current.user
  rw [isOwn] at changed
  refine ⟨fun i u' f present cr3 => ?_, fun f there => ?_, fun f task => ?_⟩
  · obtain ⟨u, place, kept⟩ := same.2 i u' present
    have cr3 := kept.symm.trans cr3
    rw [processes]
    by_cases here : i = s.current
    · subst here
      cases current.present.symm.trans place
      cases current.user.symm.trans cr3
      rw [changed, update_self]
    · have away : f ≠ key := by
        rintro rfl
        exact here (ledger.unique place current.present cr3 current.user)
      rw [others f away, update_of_ne here]
      exact apart.own i u f place cr3
  · rw [same.1, tasks]
    by_cases here : f = key
    · subst here
      exact .inl (mem_cr3s current.present current.user)
    · rw [processes, others f here] at there
      exact apart.keyed f there
  · rw [same.1]
    rw [tasks] at task
    exact apart.pending f task

section

variable (apart : Apart k own s.threads) (ledger : Ledger k s.threads)
include apart ledger

theorem Apart.no_entry (free : pml4 ∈ k.frames.available) (forgotten : Task.forgetProcess pml4 ∉ k.tasks) :
    k.registry.processes.lookup pml4 = none := by
  by_contra there
  rcases apart.keyed pml4 there with used | task
  · exact ledger.not_mem_cr3s free used
  · exact forgotten task

/-- **A new process** with the state `entry`, or none yet. -/
theorem Apart.births (free : pml4 ∈ k.frames.available) (forgotten : Task.forgetProcess pml4 ∉ k.tasks)
    (same : SameCr3 s.threads old) (length : old.length = s.threads.length) (cr3 : new.cr3 = some pml4)
    {entry : Option ProcState}
    (processes : k'.registry.processes = entry.elim k.registry.processes (k.registry.processes.insert pml4))
    (tasks : k'.tasks = k.tasks) : Apart k' (Function.update own s.threads.length entry) (old ++ [new]) := by
  have absent := apart.no_entry ledger free forgotten
  have here : k'.registry.processes.lookup pml4 = entry := by
    rw [processes]
    cases entry with
    | none => exact absent
    | some p => exact Finmap.lookup_insert _
  have added : cr3s (old ++ [new]) = cr3s s.threads ++ [pml4] := by
    rw [cr3s, filterMap_append, filterMap_cons_some cr3, ← cr3s, same.1]
    rfl
  refine ⟨fun i t f present isCr3 => ?_, fun f there => ?_, fun f task => ?_⟩
  · rcases Nat.lt_or_ge i old.length with inside | outside
    · rw [getElem?_append_left inside] at present
      obtain ⟨u, place, kept⟩ := same.2 i t present
      have used := mem_cr3s place (kept.symm.trans isCr3)
      have away : f ≠ pml4 := by
        rintro rfl
        exact ledger.not_mem_cr3s free used
      rw [lookup_of_forked processes away, update_of_ne (by omega)]
      exact apart.own i u f place (kept.symm.trans isCr3)
    · rw [getElem?_append_right outside] at present
      have last : i = s.threads.length := by
        have inside := (List.getElem?_eq_some_iff.mp present).1
        rw [length_singleton] at inside
        omega
      obtain rfl := mem_singleton.mp (mem_of_getElem? present)
      cases cr3.symm.trans isCr3
      rw [last, update_self]
      exact here
  · rw [added, tasks]
    by_cases isNew : f = pml4
    · exact .inl (mem_append_right _ (mem_singleton.mpr isNew))
    · rw [lookup_of_forked processes isNew] at there
      exact (apart.keyed f there).imp_left (mem_append_left _)
  · rw [added, mem_append, mem_singleton, not_or]
    rw [tasks] at task
    refine ⟨apart.pending f task, ?_⟩
    rintro rfl
    exact forgotten task

/-- **A process that replaces its address space.** -/
theorem Apart.execs (current : Current s t key) (free : pml4 ∈ k.frames.available)
    (forgotten : Task.forgetProcess pml4 ∉ k.tasks)
    (same : SameCr3 (s.threads.mapIdx (replacing s.current pml4)) threads)
    (processes : k'.registry.processes = (k.registry.processes.lookup key).elim k.registry.processes fun p =>
        (k.registry.processes.erase key).insert pml4 { p with brk := userHeapBase })
    (tasks : k'.tasks = k.tasks) :
    Apart k' (update own s.current
      ((own s.current).map fun p => { p with brk := userHeapBase })) threads := by
  have absent := apart.no_entry ledger free forgotten
  have isOwn := apart.own _ t key current.present current.user
  have swapped := cr3s_replacing current pml4
  rw [← same.1] at swapped
  have differ : key ≠ pml4 := by
    rintro rfl
    exact ledger.not_mem_cr3s free (mem_cr3s current.present current.user)
  have here : k'.registry.processes.lookup pml4 =
      (own s.current).map fun p => { p with brk := userHeapBase } := by
    rw [processes, ← isOwn]
    cases entry : k.registry.processes.lookup key with
    | none => exact absent
    | some p => exact Finmap.lookup_insert _
  refine ⟨fun i u' f present cr3 => ?_, fun f there => ?_, fun f task => ?_⟩
  · obtain ⟨u, after, kept⟩ := same.2 i u' present
    obtain ⟨v, place, rfl⟩ := map_eq_some_iff.mp (getElem?_mapIdx.symm.trans after)
    have cr3 := kept.symm.trans cr3
    by_cases isCurrent : i = s.current
    · rw [replacing, if_pos isCurrent] at cr3
      obtain rfl := some.inj cr3
      rw [isCurrent, update_self]
      exact here
    · rw [replacing, if_neg isCurrent] at cr3
      have notNew : f ≠ pml4 := by
        rintro rfl
        exact ledger.not_mem_cr3s free (mem_cr3s place cr3)
      have notOld : f ≠ key := by
        rintro rfl
        exact isCurrent (ledger.unique place current.present cr3 current.user)
      rw [lookup_of_rekeyed processes notNew, if_neg notOld, update_of_ne isCurrent]
      exact apart.own i v f place cr3
  · rw [tasks]
    have notOld : f ≠ key := by
      rintro rfl
      exact there ((lookup_of_rekeyed processes differ).trans (if_pos rfl))
    by_cases isNew : f = pml4
    · subst isNew
      have mem := swapped.mem_iff.mpr (mem_cons_self (a := f))
      exact .inl ((mem_cons.mp mem).resolve_left notOld)
    · rw [lookup_of_rekeyed processes isNew, if_neg notOld] at there
      refine (apart.keyed f there).imp_left fun mem => ?_
      exact (mem_cons.mp (swapped.mem_iff.mpr (mem_cons_of_mem _ mem))).resolve_left notOld
  · rw [tasks] at task
    intro mem
    rcases mem_cons.mp (swapped.mem_iff.mp (mem_cons_of_mem _ mem)) with isNew | old
    · exact forgotten (isNew ▸ task)
    · exact apart.pending f task old

end

/-- Reaping: the address spaces that are handed to the tasks will be forgotten. -/
theorem mem_corpseTasks :
    Task.forgetProcess f ∈ corpseTasks (dead.map fun t => (t.cr3, t.stack)) ↔ f ∈ cr3s dead := by
  induction dead with
  | nil => exact ⟨nofun, nofun⟩
  | cons t rest ih =>
    rw [corpseTasks_cons, mem_append, ih]
    cases cr3 : t.cr3 with
    | none =>
      rw [cr3s_cons_none cr3]
      exact ⟨fun mem => mem.resolve_left nofun, .inr⟩
    | some pml4 =>
      rw [cr3s_cons_some cr3, mem_cons, elim_some]
      refine or_congr_left ⟨fun mem => ?_, fun here => ?_⟩
      · rcases mem_cons.mp mem with destroys | forgets
        · exact nomatch destroys
        · exact Task.forgetProcess.inj (mem_singleton.mp forgets)
      · rw [here]
        exact mem_cons_of_mem _ mem_cons_self

theorem Apart.reaps (apart : Apart k own s.threads) (idle : k.tasks = [])
    (ledger : Ledger k' (s.threads.mapIdx (burying s)))
    (processes : k'.registry.processes = k.registry.processes)
    (tasks : k'.tasks = corpseTasks ((reaped s).map fun t => (t.cr3, t.stack))) :
    Apart k' own (s.threads.mapIdx (burying s)) := by
  have handed := roots_reaping s
  have nodup := ledger.nodup_roots
  rw [roots, tasks, destroyed_corpseTasks] at nodup
  rw [roots, destroyed_corpseTasks] at handed
  refine ⟨fun i t' f present cr3 => ?_, fun f there => ?_, fun f task => ?_⟩
  · obtain ⟨t, place, rfl⟩ := map_eq_some_iff.mp (getElem?_mapIdx.symm.trans present)
    rw [processes]
    refine apart.own i t f place ?_
    unfold burying at cr3
    split at cr3
    · cases cr3
    · exact cr3
  · rw [processes] at there
    rcases apart.keyed f there with used | task
    · rw [tasks, mem_corpseTasks]
      exact mem_append.mp (handed.mem_iff.mpr used)
    · rw [idle] at task
      cases task
  · rw [tasks, mem_corpseTasks] at task
    intro used
    exact (nodup_append.mp nodup).2.2 f used f task rfl

theorem Apart.forgets (apart : Apart k own s.threads) {tasks : List Task}
    (next : k.tasks = .forgetProcess pml4 :: tasks)
    (processes : k'.registry.processes = k.registry.processes.erase pml4)
    (later : ∀ f, Task.forgetProcess f ∈ k'.tasks ↔ Task.forgetProcess f ∈ tasks) : Apart k' own s.threads := by
  refine ⟨fun i t f present cr3 => ?_, fun f there => ?_, fun f task => ?_⟩
  · have away : f ≠ pml4 := by
      rintro rfl
      exact apart.pending f (by rw [next]; exact mem_cons_self) (mem_cr3s present cr3)
    rw [processes, Finmap.lookup_erase_ne away]
    exact apart.own i t f present cr3
  · have away : f ≠ pml4 := by
      rintro rfl
      rw [processes, Finmap.lookup_erase] at there
      exact there rfl
    rw [processes, Finmap.lookup_erase_ne away] at there
    rw [later]
    refine (apart.keyed f there).imp_right fun task => ?_
    rw [next] at task
    exact (mem_cons.mp task).resolve_left fun same => away (Task.forgetProcess.inj same)
  · exact apart.pending f (by rw [next]; exact mem_cons_of_mem _ ((later f).mp task))

end Apart

/-! ### Steps -/

/-- No step builds an address space on a PML4 that the reaper has still to forget. -/
def Careful (l l' : Histories) : Prop :=
  ∀ f ∈ cr3s l'.machine.threads, f ∉ cr3s l.machine.threads →
    Task.forgetProcess f ∉ l.machine.tasks

instance : DecidableRel Careful := fun l l' =>
  inferInstanceAs (Decidable (∀ f ∈ cr3s l'.machine.threads, f ∉ cr3s l.machine.threads →
    Task.forgetProcess f ∉ l.machine.tasks))

theorem caller_owner {key : Key} (mine : caller op = some key) : op.owner = some key := by
  cases op <;> first | exact mine | exact nomatch mine

theorem after_call (user : t.cr3 = some key) (calls : ownCall key e = some op) :
    l.after e t = update l.own t.pid (lived op key (l.own t.pid) l.machine.registry.shared) := by
  cases e with
  | call call =>
    cases call with
    | file | read | brk | exit => simp only [Histories.after, user, calls]
    | fork | execve | wait4 | kill => exact nomatch calls
  | tick | resume | fault | feed | reap | spawnUser | task => exact nomatch calls

/-- Does the event change somebody's history? -/
def Event.lives : Event → Bool
  | .spawnUser _ _ _ | .call (.fork _ _ _ _) | .call (.execve _ true _) | .call (.file _)
  | .call (.read _ _ _) | .call (.brk _ _ _ _) | .call (.exit _) => true
  | _ => false

theorem after_idle (idle : e.lives = false) : l.after e t = l.own := by
  cases e with
  | spawnUser => exact nomatch idle
  | tick | resume | fault | feed | reap | task =>
    unfold Histories.after
    cases t.cr3 <;> rfl
  | call call =>
    cases call with
    | file | read | brk | exit | fork => exact nomatch idle
    | wait4 | kill =>
      unfold Histories.after
      cases t.cr3 <;> rfl
    | execve n loaded order =>
      cases loaded with
      | true => exact nomatch idle
      | false =>
        unfold Histories.after
        cases t.cr3 <;> rfl

theorem AfterStdin.sameCr3 (after : AfterStdin c count copies k threads k' threads')
    (same : SameCr3 before threads) : SameCr3 before threads' := by
  cases after with
  | nothing | returns => exact same
  | sleeps => exact same.mapIdx fun i t => sleeping_cr3 i t c .stdin

section

variable (apart : Apart k own s.threads)
include apart

/-- A step that touches no entry and no history. -/
theorem Apart.idles (same : SameCr3 s.threads threads)
    (processes : k'.registry.processes = k.registry.processes)
    (tasks : ∀ f, Task.forgetProcess f ∈ k'.tasks ↔ Task.forgetProcess f ∈ k.tasks) (idle : e.lives = false) :
    Apart k' ((⟨k, own⟩ : Histories).after e t) threads := by
  rw [after_idle idle]
  exact apart.keeps same processes tasks

theorem Apart.ownCalls (sane : Sane k.statics s) (ledger : Ledger k s.threads)
    (current : Current s t key) (calls : ownCall key e = some op) (mine : op.owner = some key)
    (ran : perform op k.registry = some (outcome, r)) (same : SameCr3 s.threads threads)
    (processes : k'.registry.processes = r.processes) (tasks : k'.tasks = k.tasks) :
    Apart k' ((⟨k, own⟩ : Histories).after e t) threads := by
  rw [after_call current.user calls, sane.numbered _ t current.present]
  exact apart.calls ledger current mine ran same processes tasks

/-- A turn of reading a descriptor. -/
theorem Apart.reads (sane : Sane k.statics s) (ledger : Ledger k s.threads)
    (current : Current s t key) (reads : Reads k s.current key e op count copies)
    (ran : perform op k.registry = some (outcome, r)) (same : SameCr3 s.threads threads)
    (processes : k'.registry.processes = r.processes) (tasks : k'.tasks = k.tasks) :
    Apart k' ((⟨k, own⟩ : Histories).after e t) threads := by
  cases reads with
  | call fd count copies user =>
    exact apart.ownCalls sane ledger current rfl rfl ran same processes tasks
  | resume buf count copies doing =>
    exact apart.idles same (processes.trans (resume_processes ran)) (fun f => by rw [tasks]) rfl

end

theorem Waits.idle {wantPid : ℤ} (waits : Waits k c e wantPid) : e.lives = false := by
  cases waits <;> rfl

/-- What else thread 0 has to do does not matter. -/
theorem forget_mem_cons {task : Task} (other : Task.forgetProcess f ≠ task) (tasks : List Task) :
    Task.forgetProcess f ∈ task :: tasks ↔ Task.forgetProcess f ∈ tasks := by
  rw [mem_cons, or_iff_right other]

/-- **One step.** -/
theorem apart_of_stepped (sane : Sane k.statics s) (ledger : Ledger k s.threads) (ledger' : Ledger k' threads)
    (apart : Apart k own s.threads)
    (careful : ∀ f ∈ cr3s threads, f ∉ cr3s s.threads → Task.forgetProcess f ∉ k.tasks)
    (stepped : Stepped k s e k' threads) (present : s.threads[s.current]? = some t) :
    Apart k' ((⟨k, own⟩ : Histories).after e t) threads := by
  have stirred : ∀ wake, SameCr3 s.threads (s.threads.mapIdx (stirring wake)) :=
    fun wake => (SameCr3.refl _).mapIdx fun i t => stirring_cr3 i t wake
  have isCurrent : ∀ {u : Thread} {key : Frame}, Current s u key → u = t :=
    fun current => some.inj (current.present.symm.trans present)
  have pid := sane.numbered _ t present
  have length : (⟨k, own⟩ : Histories).machine.threads.length = s.threads.length :=
    congrArg length sane.threads_eq
  cases stepped with
  | tick w => exact apart.idles (.refl _) rfl (fun _ => .rfl) rfl
  | file w current user mine ran =>
    obtain rfl := isCurrent current
    exact apart.ownCalls sane ledger current rfl (caller_owner mine) ran (stirred _) rfl rfl
  | readReturns w current reads ran =>
    obtain rfl := isCurrent current
    exact apart.reads sane ledger current reads ran (stirred _) rfl rfl
  | readBlocks w current reads ran =>
    obtain rfl := isCurrent current
    exact apart.reads sane ledger current reads ran ((stirred _).mapIdx fun i t => sleeping_cr3 i t _ _) rfl rfl
  | readStdin current reads ran after =>
    obtain rfl := isCurrent current
    obtain ⟨-, -, -, tasks, registry⟩ := after.kept
    exact apart.reads sane ledger current reads ran (after.sameCr3 (stirred _)) (by rw [registry]; rfl) tasks
  | resumeStdin current doing after =>
    obtain ⟨-, -, -, tasks, registry⟩ := after.kept
    exact apart.idles (after.sameCr3 (.refl _)) (by rw [registry]) (fun f => by rw [tasks]) rfl
  | brk w current user took own nodup ran =>
    obtain rfl := isCurrent current
    exact apart.ownCalls sane ledger current rfl rfl ran (stirred _) rfl rfl
  | @fork u key pml4 n top fsBase stack rest frames outcome r w current user built ran =>
    obtain rfl := isCurrent current
    have free : pml4 ∈ k.frames.available := by
      rw [takeFrames_available built]
      exact mem_cons_self
    have forgotten := careful pml4 ?_ (ledger.not_mem_cr3s free)
    · show Apart _ (update own (⟨k, own⟩ : Histories).machine.threads.length (own u.pid)) _
      rw [length, pid, ← apart.own _ u key current.present current.user]
      exact apart.births ledger free forgotten (stirred _) length_mapIdx rfl
        (show r.processes = _ from (fork_spec ran).1) rfl
    · rw [cr3s, filterMap_append]
      exact mem_append_right _ mem_cons_self
  | execFails current user built all => exact apart.idles (.refl _) rfl (fun _ => .rfl) rfl
  | @exec u key pml4 n rest order frames outcome r w current user built all ran =>
    obtain rfl := isCurrent current
    have free : pml4 ∈ k.frames.available := by
      rw [takeFrames_available built]
      exact mem_cons_self
    have same : SameCr3 (s.threads.mapIdx (replacing s.current pml4)) _ :=
      (SameCr3.refl _).mapIdx fun i t => stirring_cr3 i t r.shared.wake
    have differ : key ≠ pml4 := by
      rintro rfl
      exact ledger.not_mem_cr3s free (mem_cr3s current.present current.user)
    have forgotten := careful pml4 ?_ (ledger.not_mem_cr3s free)
    · show Apart _ (update own u.pid _) _
      rw [pid]
      exact apart.execs ledger current free forgotten same (show r.processes = _ from (exec_spec ran).1) rfl
    · rw [same.1]
      have mem := (cr3s_replacing current pml4).mem_iff.mpr mem_cons_self
      exact (mem_cons.mp mem).resolve_left (Ne.symm differ)
  | exit w current user ran =>
    obtain rfl := isCurrent current
    exact apart.ownCalls sane ledger current rfl rfl ran ((stirred _).mapIdx fun i t => ending_cr3 ..) rfl rfl
  | collects w current waits =>
    exact apart.idles ((SameCr3.refl _).mapIdx fun i t => collecting_cr3 i t _) rfl (fun _ => .rfl) waits.idle
  | waits w current waits =>
    exact apart.idles ((SameCr3.refl _).mapIdx fun i t => sleeping_cr3 i t _ _) rfl (fun _ => .rfl) waits.idle
  | childless w current waits => exact apart.idles (.refl _) rfl (fun _ => .rfl) waits.idle
  | ignores => exact apart.idles (.refl _) rfl (fun _ => .rfl) rfl
  | notes =>
    exact apart.idles ((SameCr3.refl _).mapIdx fun i t => marking_cr3 ..) rfl (fun _ => .rfl) rfl
  | kills =>
    exact apart.idles ((SameCr3.refl _).mapIdx fun i t => killing_cr3 i t _ _ _) rfl (fun _ => .rfl) rfl
  | faults =>
    exact apart.idles ((SameCr3.refl _).mapIdx fun i t => ending_cr3 ..) rfl (fun _ => .rfl) rfl
  | feeds idle fed =>
    refine apart.idles (.refl _) rfl (fun f => ?_) rfl
    rw [idle]
    show Task.forgetProcess f ∈ (if _ then _ else _ : List Task) ↔ _
    split
    · exact forget_mem_cons (fun same => Task.noConfusion same) []
    · exact .rfl
  | reaps w idle =>
    rw [after_idle rfl]
    exact apart.reaps idle ledger' rfl rfl
  | @spawns n top stack pml4 rest frames w idle built =>
    have free : pml4 ∈ k.frames.available := by
      rw [takeFrames_available built]
      exact mem_cons_self
    show Apart _ (update own (⟨k, own⟩ : Histories).machine.threads.length none) _
    rw [length]
    exact apart.births ledger free (by rw [idle]; exact not_mem_nil) (.refl _) rfl rfl rfl rfl
  | wakesStdin w next | wakesPipes w next =>
    refine apart.idles ((SameCr3.refl _).mapIdx fun i t => waking_cr3 i t _) rfl (fun f => ?_) rfl
    rw [next]
    exact (forget_mem_cons (fun same => Task.noConfusion same) _).symm
  | destroys next all =>
    refine apart.idles (.refl _) rfl (fun f => ?_) rfl
    rw [next]
    exact (forget_mem_cons (fun same => Task.noConfusion same) _).symm
  | @forgets order pml4 tasks next =>
    rw [after_idle rfl]
    refine apart.forgets next rfl fun f => ?_
    rw [mem_append]
    refine ⟨fun task => task.resolve_left fun dropped => ?_, .inr⟩
    obtain ⟨slot, -, same⟩ := mem_map.mp dropped
    cases same
  | @drops order slot tasks shared next dropped =>
    refine apart.idles (.refl _) rfl (fun f => ?_) rfl
    rw [next]
    show Task.forgetProcess f ∈ (if _ then _ else _ : List Task) ↔ _
    split
    · rw [forget_mem_cons (fun same => Task.noConfusion same),
        forget_mem_cons (fun same => Task.noConfusion same)]
    · exact (forget_mem_cons (fun same => Task.noConfusion same) _).symm

/-! ### Runs -/

theorem ledger_boot (kernelCr3 : Frame) (memoryMap : MemoryMap) (next : ℕ) :
    Ledger (.boot kernelCr3 memoryMap next) [bootThread] :=
  memoryMap.distinct.sublist (drop_sublist next _)

theorem apart_boot (kernelCr3 : Frame) (memoryMap : MemoryMap) (next : ℕ) :
    Apart (.boot kernelCr3 memoryMap next) (fun _ => none) [bootThread] where
  own := fun _ _ _ _ _ => Finmap.lookup_empty _
  keyed := fun f there => absurd (Finmap.lookup_empty f) there
  pending := fun _ task => nomatch task

/-- **A careful run.** -/
theorem apart_of_reached (reached : (historyRuns.restrict Careful).Reached l) :
    ∃ s, Sane l.machine.statics s ∧ Ledger l.machine s.threads ∧ Apart l.machine l.own s.threads := by
  refine System.invariant _ (fun l => ∃ s, Sane l.machine.statics s ∧ Ledger l.machine s.threads ∧
    Apart l.machine l.own s.threads) ?_ ?_ reached
  · rintro l ⟨kernelCr3, memoryMap, next, rfl⟩
    exact ⟨_, sane_boot .., ledger_boot .., apart_boot ..⟩
  · rintro ⟨k, own⟩ l' - ⟨s, sane, ledger, apart⟩ ⟨⟨e, taken⟩, careful⟩
    obtain ⟨⟨c, t⟩, current, later⟩ := bind_eq_some_iff.mp taken
    obtain ⟨k', stepped, same⟩ := bind_eq_some_iff.mp later
    cases same
    obtain ⟨s', sane', outcome⟩ := Machine.stepped sane stepped
    have ledger' := ledger_of_stepped ledger outcome
    obtain ⟨u, present, -⟩ := sane.ready.running
    cases (current_eq sane present).symm.trans current
    refine ⟨s', sane', ledger', ?_⟩
    refine apart_of_stepped sane ledger ledger' apart (fun f new old => ?_) outcome present
    exact careful f (by rw [sane'.threads_eq]; exact new) (by rw [sane.threads_eq]; exact old)

/-- **Every process finds its own state**, in every run that never builds an address space on a PML4 that the
reaper has destroyed and not yet forgotten. -/
theorem entry_is_own {l : Histories} (reached : (historyRuns.restrict Careful).Reached l) {t : Thread}
    (mem : t ∈ l.machine.threads) {f : Frame} (cr3 : t.cr3 = some f) :
    l.machine.registry.processes.lookup f = l.own t.pid := by
  obtain ⟨s, sane, -, apart⟩ := apart_of_reached reached
  rw [sane.threads_eq] at mem
  obtain ⟨i, present⟩ := mem_iff_getElem?.mp mem
  rw [apart.own i t f present cr3, sane.numbered i t present]

/-- The small kernel, before anything has happened. -/
def smallHistories : Histories := ⟨smallKernel, fun _ => none⟩

theorem start_smallHistories : historyRuns.start smallHistories :=
  ⟨_, _, _, rfl⟩

/-- The small kernel and its histories after some events. -/
def smallHistory (events : List Event) : Histories :=
  (replay Histories.step events smallHistories).getD smallHistories

/-- A process opens its state and forks; the child ends, its parent collects it, and the reaper destroys its
address space. -/
def reapsChild : List Event :=
  [.spawnUser 0 0 0, .tick, .call (.file (.touch 1)), .call (.fork 0 0 1 0), .tick, .call (.exit 0),
    .tick, .call (.wait4 (-1)), .tick, .reap, .task []]

/-- The parent forks again, into the PML4 that was freed. -/
def forksAgain : List Event :=
  [.tick, .call (.fork 0 0 2 0), .tick, .tick]

/-- The reaper forgets the first child before the parent forks again. -/
theorem entry_is_own_forks : let l := smallHistory (reapsChild ++ .task [] :: forksAgain)
    l.machine.registry.processes.lookup 2 = l.own 3 := by
  intro l
  have replayed : replay (checked Careful Histories.step) (reapsChild ++ .task [] :: forksAgain)
      smallHistories = some l := rfl
  have reached : (historyRuns.restrict Careful).Reached l := by
    rw [historyRuns, System.restrict_ofOps]
    exact .replay (.start start_smallHistories) replayed
  exact entry_is_own reached (mem_of_getElem? (i := 3) rfl) rfl

/-- **A live process without its state.** The parent forks first; then the reaper forgets the second child. -/
theorem entry_is_not_own : ∃ l t f, historyRuns.Reached l ∧ t ∈ l.machine.threads ∧
    isAlive t.state = true ∧ t.cr3 = some f ∧ l.machine.registry.processes.lookup f ≠ l.own t.pid := by
  have replayed : replay Histories.step (reapsChild ++ forksAgain ++ [.task []]) smallHistories =
      some (smallHistory (reapsChild ++ forksAgain ++ [.task []])) := rfl
  have reached := System.Reached.replay (.start start_smallHistories) replayed
  refine ⟨_, _, 2, reached, mem_of_getElem? (i := 3) rfl, rfl, rfl, ?_⟩
  decide

end Ferros.Kernel
