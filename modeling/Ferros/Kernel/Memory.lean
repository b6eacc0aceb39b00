/-
**Every frame has one owner.**

The frames of the address spaces in use, those of dead processes that are still to be destroyed, and the
frames that the allocator has left, are apart.

* `Ledger` — the frames in use and the available ones, each once.
* `ledger_of_stepped` — every step of the kernel keeps the ledger: it moves frames between the two parts.
-/

import Ferros.Kernel.Steps
import Mathlib.Data.List.Perm.Lattice

namespace Ferros.Kernel

open Lib Drivers Files Mm Sched List Function

/-- The address space that a task will destroy. -/
def Task.destroyed : Task → Option Frame
  | .destroy pml4 => some pml4
  | _ => none

/-- The PML4s of threads. -/
def cr3s (threads : List Thread) : List Frame :=
  threads.filterMap Thread.cr3

/-- The PML4s in use. -/
def roots (threads : List Thread) (tasks : List Task) : List Frame :=
  cr3s threads ++ tasks.filterMap Task.destroyed

/-- The frames of address spaces, by their PML4s. -/
def owned (spaces : Frame → List Frame) (roots : List Frame) : List Frame :=
  roots.flatMap fun root => root :: spaces root

/-- All frames: those in use, and the available ones. -/
def books (spaces : Frame → List Frame) (rs available : List Frame) : List Frame :=
  owned spaces rs ++ available

def Ledger (k : Machine) (threads : List Thread) : Prop :=
  (books k.spaces (roots threads k.tasks) k.frames.available).Nodup

section Lists

variable {spaces : Frame → List Frame} {rs rs' available available' rest order taken release : List Frame}
  {root : Frame}

theorem owned_perm (same : rs.Perm rs') : (owned spaces rs).Perm (owned spaces rs') :=
  same.flatMap_right _

theorem owned_cons (root : Frame) (rs : List Frame) :
    owned spaces (root :: rs) = root :: spaces root ++ owned spaces rs :=
  rfl

theorem mem_owned (mem : root ∈ rs) : root ∈ owned spaces rs :=
  mem_flatMap.mpr ⟨root, mem, mem_cons_self⟩

theorem sublist_owned (rs : List Frame) : rs.Sublist (owned spaces rs) := by
  induction rs with
  | nil => exact .slnil
  | cons root rest ih => exact (ih.trans (sublist_append_right _ _)).cons_cons root

theorem owned_update (away : root ∉ rs) (frames : List Frame) :
    owned (update spaces root frames) rs = owned spaces rs := by
  refine flatMap_congr fun other mem => ?_
  rw [update_of_ne]
  rintro rfl
  exact away mem

theorem books_perm (same : rs.Perm rs') : (books spaces rs available).Perm (books spaces rs' available) :=
  (owned_perm same).append_right _

variable (nodup : (books spaces rs available).Nodup)
include nodup

/-- An available frame is no PML4 in use. -/
theorem not_mem_of_available (free : root ∈ available) : root ∉ rs := by
  intro mem
  exact (nodup_append.mp nodup).2.2 root (mem_owned mem) root free rfl

/-- A PML4 is in use once. -/
theorem not_mem_of_root (mem : rs.Perm (root :: rs')) : root ∉ rs' := by
  intro again
  have nodup := (books_perm mem).nodup_iff.mp nodup
  rw [books, owned_cons, append_assoc, cons_append] at nodup
  refine (nodup_cons.mp nodup).1 ?_
  exact mem_append_right _ (mem_append_left _ (mem_owned again))

/-- **A new address space.** -/
theorem books_take (took : available = root :: rest ++ available') :
    (books (update spaces root rest) (root :: rs) available').Perm (books spaces rs available) := by
  have away : root ∉ rs := not_mem_of_available nodup (by rw [took]; exact mem_cons_self)
  rw [books, owned_cons, update_self, owned_update away, books, took, append_assoc]
  exact perm_append_comm_assoc ..

/-- **An address space is given back.** -/
theorem books_give (mem : rs.Perm (root :: rs')) (all : order.Perm (spaces root))
    (gave : available' = root :: order.reverse ++ available) :
    (books (update spaces root []) rs' available').Perm (books spaces rs available) := by
  have away := not_mem_of_root nodup mem
  refine Perm.trans ?_ (books_perm mem).symm
  have given : (root :: order.reverse ++ available).Perm (root :: spaces root ++ available) :=
    (((reverse_perm order).trans all).cons root).append_right _
  rw [books, owned_update away, books, owned_cons, append_assoc, gave]
  exact (given.append_left _).trans (perm_append_comm_assoc ..)

/-- **An address space grows and shrinks.** -/
theorem books_change (mem : rs.Perm (root :: rs')) (took : available = taken ++ available')
    (own : release ⊆ taken ++ spaces root) (once : release.Nodup) :
    (books (update spaces root ((taken ++ spaces root).diff release)) rs
      (release.reverse ++ available')).Perm (books spaces rs available) := by
  have away := not_mem_of_root nodup mem
  have split : (release ++ (taken ++ spaces root).diff release).Perm (taken ++ spaces root) :=
    subperm_append_diff_self_of_count_le
      (subperm_ext_iff.mp (subperm_of_subset once own))
  refine (books_perm mem).trans (Perm.trans ?_ (books_perm mem).symm)
  rw [books, owned_cons, update_self, owned_update away, books, owned_cons, took]
  refine perm_iff_count.mpr fun frame => ?_
  have counts := split.count_eq frame
  simp only [count_append, count_cons, count_reverse] at counts ⊢
  omega

end Lists

/-! ### What a step does to the threads' address spaces -/

section

variable (i : ℕ) (t : Thread)

theorem waking_cr3 (reason : BlockReason) : (waking reason i t).cr3 = t.cr3 := by
  unfold waking
  split <;> rfl

theorem stirring_cr3 (wake : Bool) : (stirring wake i t).cr3 = t.cr3 := by
  unfold stirring
  split
  · exact waking_cr3 ..
  · rfl

theorem sleeping_cr3 (c : ℕ) (reason : BlockReason) : (sleeping c reason i t).cr3 = t.cr3 := by
  unfold sleeping
  split <;> rfl

theorem collecting_cr3 (idx : ℕ) : (collecting idx i t).cr3 = t.cr3 := by
  unfold collecting
  split <;> rfl

theorem killing_cr3 (idx : ℕ) (victim : Thread) (sig : ℕ) : (killing idx victim sig i t).cr3 = t.cr3 := by
  rw [killing, ending_cr3, marking_cr3]

end

section Steps

variable {k k' : Machine} {s : Scheduler} {threads threads' old : List Thread} {e : Event} {f pml4 key : Frame}
  {c count i j n : ℕ}

theorem cr3s_mapIdx {f : ℕ → Thread → Thread} (same : ∀ i t, (f i t).cr3 = t.cr3) :
    cr3s (threads.mapIdx f) = cr3s threads :=
  filterMap_mapIdx same

theorem roots_mapIdx {f : ℕ → Thread → Thread} (same : ∀ i t, (f i t).cr3 = t.cr3) (tasks : List Task) :
    roots (threads.mapIdx f) tasks = roots threads tasks := by
  rw [roots, cr3s_mapIdx same, roots]

theorem AfterStdin.kept {copies : Bool} (after : AfterStdin c count copies k threads k' threads') :
    cr3s threads' = cr3s threads ∧ k'.spaces = k.spaces ∧ k'.frames = k.frames ∧
      k'.tasks = k.tasks ∧ k'.registry = k.registry := by
  cases after with
  | nothing | returns => exact ⟨rfl, rfl, rfl, rfl, rfl⟩
  | sleeps => exact ⟨cr3s_mapIdx fun i t => sleeping_cr3 i t c .stdin, rfl, rfl, rfl, rfl⟩

theorem Ledger.nodup_roots (ledger : Ledger k threads) : (roots threads k.tasks).Nodup :=
  (nodup_append.mp ledger).1.sublist (sublist_owned _)

variable {t u : Thread}

/-- PML4s of different threads differ. -/
theorem Ledger.unique (ledger : Ledger k threads) (first : threads[i]? = some t) (second : threads[j]? = some u)
    (cr3 : t.cr3 = some f) (cr3' : u.cr3 = some f) : i = j := by
  have pairwise := pairwise_filterMap.mp (nodup_append.mp ledger.nodup_roots).1
  obtain ⟨inside, rfl⟩ := List.getElem?_eq_some_iff.mp first
  obtain ⟨inside', rfl⟩ := List.getElem?_eq_some_iff.mp second
  rcases Nat.lt_trichotomy i j with before | same | after
  · exact absurd rfl (pairwise_iff_getElem.mp pairwise i j inside inside' before f cr3 f cr3')
  · exact same
  · exact absurd rfl (pairwise_iff_getElem.mp pairwise j i inside' inside after f cr3' f cr3)

theorem Ledger.not_mem_cr3s (ledger : Ledger k threads) (free : f ∈ k.frames.available) : f ∉ cr3s threads :=
  fun mem => not_mem_of_available ledger free (mem_append_left _ mem)

/-- A step that leaves the address spaces alone. -/
theorem Ledger.keeps (ledger : Ledger k s.threads) (same : cr3s threads = cr3s s.threads)
    (spaces : k'.spaces = k.spaces) (frames : k'.frames = k.frames)
    (tasks : k'.tasks.filterMap Task.destroyed = k.tasks.filterMap Task.destroyed) : Ledger k' threads := by
  have same' : roots threads k'.tasks = roots s.threads k.tasks := by
    rw [roots, roots, tasks, same]
  rw [Ledger, spaces, frames, same']
  exact ledger

/-- What `destroy` gives back. -/
theorem destroy_available (root : Frame) (order : List Frame) (a : FrameAllocator) :
    (deallocateFrame root (giveFrames order a)).available = root :: order.reverse ++ a.available := by
  rw [deallocateFrame_available, giveFrames_available, cons_append]

theorem Ledger.builds {rest : List Frame} {frames : FrameAllocator} (ledger : Ledger k s.threads)
    (built : takeFrames (n + 1) k.frames = some (pml4 :: rest, frames))
    (spaces : k'.spaces = update k.spaces pml4 rest) (left : k'.frames = frames) (tasks : k'.tasks = k.tasks)
    (new : t.cr3 = some pml4) (same : cr3s old = cr3s s.threads) : Ledger k' (old ++ [t]) := by
  have added : (roots (old ++ [t]) k'.tasks).Perm (pml4 :: roots s.threads k.tasks) := by
    rw [roots, cr3s, filterMap_append, filterMap_cons_some new, tasks, ← cr3s, same, append_assoc]
    exact perm_middle
  rw [Ledger, spaces, left, (books_perm added).nodup_iff,
    (books_take ledger (takeFrames_available built)).nodup_iff]
  exact ledger

/-- The process that replaces its address space has the new one instead of the old one. -/
theorem cr3s_replacing (current : Current s t key) (pml4 : Frame) :
    (key :: cr3s (s.threads.mapIdx (replacing s.current pml4))).Perm (pml4 :: cr3s s.threads) := by
  have set := set_eq_mapIdx current.present fun t => { t with cr3 := some pml4, fsBase := 0 }
  rw [show s.threads.mapIdx (replacing s.current pml4) = _ from set.symm]
  exact filterMap_set_perm current.present current.user rfl

theorem cr3s_cons_none (cr3 : t.cr3 = none) (rest : List Thread) : cr3s (t :: rest) = cr3s rest :=
  filterMap_cons_none cr3

theorem cr3s_cons_some (cr3 : t.cr3 = some f) (rest : List Thread) : cr3s (t :: rest) = f :: cr3s rest :=
  filterMap_cons_some cr3

theorem corpseTasks_cons (t : Thread) (rest : List Thread) :
    corpseTasks ((t :: rest).map fun t => (t.cr3, t.stack)) =
      (t.cr3.elim [] fun pml4 => [Task.destroy pml4, .forgetProcess pml4]) ++
        corpseTasks (rest.map fun t => (t.cr3, t.stack)) :=
  rfl

theorem destroyed_corpseTasks (dead : List Thread) :
    (corpseTasks (dead.map fun t => (t.cr3, t.stack))).filterMap Task.destroyed = cr3s dead := by
  induction dead with
  | nil => rfl
  | cons t rest ih =>
    rw [corpseTasks_cons, filterMap_append, ih]
    cases cr3 : t.cr3 with
    | none =>
      rw [cr3s_cons_none cr3]
      rfl
    | some pml4 =>
      rw [cr3s_cons_some cr3]
      rfl

theorem destroyed_dropFd (fds : List (Option Fd)) : (fds.map Task.dropFd).filterMap Task.destroyed = [] := by
  rw [filterMap_map]
  exact filterMap_eq_nil_iff.mpr fun _ _ => rfl

/-- Reaping hands address spaces from the threads to the tasks. -/
theorem roots_reaping (s : Scheduler) : (roots (s.threads.mapIdx (burying s))
      (corpseTasks ((reaped s).map fun t => (t.cr3, t.stack)))).Perm (cr3s s.threads) := by
  rw [roots, destroyed_corpseTasks]
  exact filterMap_remove_perm (p := isReaped s) (f := bury) (fun _ => rfl) s.threads

theorem mem_cr3s (present : threads[i]? = some t) (user : t.cr3 = some key) : key ∈ cr3s threads :=
  mem_filterMap.mpr ⟨t, mem_of_getElem? present, user⟩

/-- **Every step keeps the ledger.** -/
theorem ledger_of_stepped (ledger : Ledger k s.threads) (stepped : Stepped k s e k' threads) :
    Ledger k' threads := by
  have stirred : ∀ wake, cr3s (s.threads.mapIdx (stirring wake)) = cr3s s.threads :=
    fun wake => cr3s_mapIdx fun i t => stirring_cr3 i t wake
  cases stepped with
  | tick w => exact ledger
  | file w current user mine ran => exact ledger.keeps (stirred _) rfl rfl rfl
  | readReturns w current reads ran => exact ledger.keeps (stirred _) rfl rfl rfl
  | readBlocks w current reads ran =>
    refine ledger.keeps ?_ rfl rfl rfl
    rw [cr3s_mapIdx fun i t => sleeping_cr3 i t s.current .pipe, stirred]
  | readStdin current reads ran after =>
    obtain ⟨same, spaces, frames, tasks, -⟩ := after.kept
    exact ledger.keeps (same.trans (stirred _)) spaces frames (by rw [tasks])
  | resumeStdin current doing after =>
    obtain ⟨same, spaces, frames, tasks, -⟩ := after.kept
    exact ledger.keeps same spaces frames (by rw [tasks])
  | brk w current user took own nodup ran =>
    have mem : (roots s.threads k.tasks).Perm _ :=
      perm_cons_erase (mem_append_left _ (mem_cr3s current.present current.user))
    have changed := books_change ledger mem (takeFrames_available took) own nodup
    rw [← giveFrames_available] at changed
    rw [Ledger, roots_mapIdx fun i t => stirring_cr3 i t _]
    exact changed.nodup_iff.mpr ledger
  | fork w current user built ran =>
    refine ledger.builds built ?_ ?_ ?_ ?_ (stirred _) <;> rfl
  | @execFails t key pml4 n rest order frames current user built all =>
    have taken := books_take ledger (takeFrames_available built)
    have all' : order.Perm (update k.spaces pml4 rest pml4) := by
      rw [update_self]
      exact all
    have given := books_give (taken.nodup_iff.mpr ledger) (.refl _) all' (destroy_available ..)
    rw [update_idem] at given
    exact (given.trans taken).nodup_iff.mpr ledger
  | @exec t key pml4 n rest order frames outcome r w current user built all ran =>
    have taken := books_take ledger (takeFrames_available built)
    have swapped := (cr3s_replacing current pml4).append_right (k.tasks.filterMap Task.destroyed)
    have given := books_give (taken.nodup_iff.mpr ledger) swapped.symm all (destroy_available ..)
    rw [Ledger, roots_mapIdx fun i t => stirring_cr3 i t _]
    exact (given.trans taken).nodup_iff.mpr ledger
  | exit w current user ran =>
    refine ledger.keeps ?_ rfl rfl rfl
    rw [cr3s_mapIdx fun i t => ending_cr3 .., stirred]
  | collects => exact ledger.keeps (cr3s_mapIdx fun i t => collecting_cr3 i t _) rfl rfl rfl
  | waits => exact ledger.keeps (cr3s_mapIdx fun i t => sleeping_cr3 i t _ _) rfl rfl rfl
  | childless => exact ledger.keeps rfl rfl rfl rfl
  | ignores => exact ledger
  | notes => exact ledger.keeps (cr3s_mapIdx fun i t => marking_cr3 ..) rfl rfl rfl
  | kills => exact ledger.keeps (cr3s_mapIdx fun i t => killing_cr3 i t _ _ _) rfl rfl rfl
  | faults => exact ledger.keeps (cr3s_mapIdx fun i t => ending_cr3 ..) rfl rfl rfl
  | feeds idle fed =>
    refine ledger.keeps rfl rfl rfl ?_
    rw [idle]
    show (if _ then _ else _ : List Task).filterMap Task.destroyed = []
    split <;> rfl
  | reaps w idle =>
    refine (books_perm ((roots_reaping s).trans ?_)).nodup_iff.mpr ledger
    rw [roots, idle]
    exact .of_eq (append_nil _).symm
  | spawns w idle built =>
    refine ledger.builds built ?_ ?_ ?_ ?_ rfl <;> rfl
  | wakesStdin w next | wakesPipes w next =>
    refine ledger.keeps (cr3s_mapIdx fun i t => waking_cr3 i t _) rfl rfl ?_
    rw [next]
    rfl
  | @destroys order pml4 tasks next all =>
    have mem : (roots s.threads k.tasks).Perm (pml4 :: roots s.threads tasks) := by
      rw [roots, next]
      exact perm_middle
    exact (books_give ledger mem all (destroy_available ..)).nodup_iff.mpr ledger
  | @forgets order pml4 tasks next =>
    refine ledger.keeps rfl rfl rfl ?_
    rw [next]
    rw [filterMap_append, destroyed_dropFd]
    rfl
  | @drops order slot tasks shared next dropped =>
    refine ledger.keeps rfl rfl rfl ?_
    rw [next]
    show (if _ then _ else _ : List Task).filterMap Task.destroyed = _
    split <;> rfl

end Steps

end Ferros.Kernel
