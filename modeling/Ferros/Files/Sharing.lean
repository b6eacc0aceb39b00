/-
**Counters of shared backings.**

`Exact s h` says that the counters of `s` are exact for a multiset `h` of descriptors: those in tables
and those in flight. Cloning adds a descriptor to `h`, dropping takes one away, moving one changes
nothing.

* `Exact.clone`, `Exact.drop`, `Exact.cloneAll`, `Exact.dropAll` — with `Exact`, a drop never underflows.
* `Exact.newPipe`, `Exact.newSocket`, `Exact.setData` — new backings, and data moving through a pipe.
-/

import Ferros.Files.Descriptor
import Ferros.Lib.Update
import Mathlib.Algebra.Order.Group.Multiset

namespace Ferros.Files

open Lib List Option Multiset Bool

variable {s : Shared} {h x h' : Multiset Fd} {fd : Fd} {b : PipeBuf} {fds : List (Option Fd)}
  {side other : Side} {p n i : ℕ} {e : SocketEnd}

def isSocket (n : ℕ) : Fd → Bool
  | .socket e => e.refs = n
  | _ => false

/-- A descriptor that shares nothing. -/
def isPlain : Fd → Bool
  | .pipe _ _ | .socket _ => false
  | _ => true

def knows (sockets : List Socket) (n handle : ℕ) : Prop :=
  ∃ k : Socket, sockets[n]? = some k ∧ k.handle = handle

/-- The counters are exact for the descriptors `h`. -/
structure Exact (s : Shared) (h : Multiset Fd) : Prop where
  ends : ∀ side p b, s.pipes[p]? = some b → b.ends side = h.count (.pipe side p)
  pipes : ∀ side p, Fd.pipe side p ∈ h → p < s.pipes.length
  strong : ∀ n k, s.sockets[n]? = some k → k.strong = h.countP (isSocket n · = true)
  sockets : ∀ e, Fd.socket e ∈ h → knows s.sockets e.refs e.handle
  /-- A socket has been closed once if nothing holds it, and not at all otherwise. -/
  closed : ∀ n k, s.sockets[n]? = some k →
    s.closed.count (n, k.handle) = if k.strong = 0 then 1 else 0
  /-- No other handle has been closed. -/
  known : ∀ c ∈ s.closed, knows s.sockets c.1 c.2

theorem exact_empty : Exact ⟨[], [], [], false⟩ 0 where
  ends := fun _ _ _ present => nomatch present
  pipes := fun _ _ mem => absurd mem (notMem_zero _)
  strong := fun _ _ present => nomatch present
  sockets := fun _ mem => absurd mem (notMem_zero _)
  closed := fun _ _ present => nomatch present
  known := forall_mem_nil _

/-- Plain descriptors do not matter. -/
theorem Exact.congr (exact : Exact s h) (counts : ∀ fd, isPlain fd = false → h'.count fd = h.count fd)
    (sockets : ∀ n, h'.countP (isSocket n ·) = h.countP (isSocket n ·)) : Exact s h' := by
  have members : ∀ fd, isPlain fd = false → fd ∈ h' → fd ∈ h := by
    intro fd notPlain mem
    rwa [← count_pos, ← counts fd notPlain, count_pos]
  exact ⟨fun side p b present => (exact.ends side p b present).trans (counts _ rfl).symm,
    fun side p mem => exact.pipes side p (members _ rfl mem),
    fun n k present => (exact.strong n k present).trans (sockets n).symm,
    fun e mem => exact.sockets e (members _ rfl mem), exact.closed, exact.known⟩

/-- A plain descriptor changes no count. -/
theorem Exact.cons_plain_iff (plain : isPlain fd) : Exact s (fd ::ₘ h) ↔ Exact s h := by
  have counts : ∀ other, isPlain other = false → (fd ::ₘ h).count other = h.count other := by
    intro other notPlain
    refine count_cons_of_ne ?_ h
    rintro rfl
    rw [plain] at notPlain
    exact nomatch notPlain
  have sockets : ∀ n, (fd ::ₘ h).countP (isSocket n ·) = h.countP (isSocket n ·) := by
    intro n
    refine countP_cons_of_neg _ ?_
    cases fd <;> first | exact false_ne_true | exact nomatch plain
  exact ⟨fun exact => exact.congr (fun other notPlain => (counts other notPlain).symm) fun n => (sockets n).symm,
    fun exact => exact.congr counts sockets⟩

/-- Plain descriptors change no count. -/
theorem Exact.add_plain (exact : Exact s h) (plain : ∀ fd ∈ x, isPlain fd) : Exact s (x + h) := by
  induction x using Multiset.induction_on with
  | empty => rwa [zero_add]
  | cons fd x ih =>
    rw [cons_add]
    exact (Exact.cons_plain_iff (plain fd (mem_cons_self fd x))).mpr
      (ih fun fd' mem => plain fd' (mem_cons_of_mem mem))

/-! ### Pipe ends -/

@[simp] theorem PipeBuf.ends_setEnds_self (b : PipeBuf) (side : Side) (n : ℕ) :
    (b.setEnds side n).ends side = n := by
  cases side <;> rfl

theorem PipeBuf.ends_setEnds_ne (b : PipeBuf) (ne : other ≠ side) (n : ℕ) :
    (b.setEnds side n).ends other = b.ends other := by
  cases side <;> cases other <;> first | rfl | exact absurd rfl ne

theorem cloneFd_pipe (side : Side) (p : ℕ) (s : Shared) : cloneFd (.pipe side p) s = clonePipe side p s := by
  cases side <;> rfl

theorem dropFd_pipe (side : Side) (p : ℕ) (s : Shared) : dropFd (.pipe side p) s = dropPipe side p s := by
  cases side <;> rfl

/-- Changing one counter of one pipe makes the counters exact for `h'`, if that counter is right and
`h'` differs from `h` only in that end. -/
theorem Exact.with_pipe (exact : Exact s h) {wake : Bool} (present : s.pipes[p]? = some b)
    (right : n = h'.count (.pipe side p)) (same : ∀ fd, fd ≠ .pipe side p → h'.count fd = h.count fd)
    (sockets : ∀ n, h'.countP (isSocket n ·) = h.countP (isSocket n ·)) :
    Exact { s with pipes := s.pipes.set p (b.setEnds side n), wake } h' where
  ends := by
    intro side' q b' place
    rw [getElem?_set] at place
    by_cases here : p = q
    · subst here
      rw [if_pos rfl, if_pos (List.getElem?_eq_some_iff.mp present).1, Option.some.injEq] at place
      rw [← place]
      by_cases thisSide : side' = side
      · rw [thisSide, PipeBuf.ends_setEnds_self, right]
      · rw [b.ends_setEnds_ne thisSide, exact.ends side' p b present,
          same _ fun eq => thisSide (Fd.pipe.inj eq).1]
    · rw [if_neg here] at place
      rw [exact.ends side' q b' place, same _ fun eq => here (Fd.pipe.inj eq).2.symm]
  pipes := by
    intro side' q mem
    rw [length_set]
    by_cases this : Fd.pipe side' q = .pipe side p
    · rw [(Fd.pipe.inj this).2]
      exact (List.getElem?_eq_some_iff.mp present).1
    · refine exact.pipes side' q ?_
      rwa [← count_pos, ← same _ this, count_pos]
  strong := fun n k present => (exact.strong n k present).trans (sockets n).symm
  sockets := by
    intro e mem
    refine exact.sockets e ?_
    rwa [← count_pos, ← same (.socket e) (fun eq => nomatch eq), count_pos]
  closed := exact.closed
  known := exact.known

theorem countP_isSocket_pipe (side : Side) (p n : ℕ) :
    (Fd.pipe side p ::ₘ h).countP (isSocket n ·) = h.countP (isSocket n ·) :=
  countP_cons_of_neg _ false_ne_true

theorem Exact.clonePipe (exact : Exact s h) (mem : Fd.pipe side p ∈ h) :
    Exact (clonePipe side p s) (.pipe side p ::ₘ h) := by
  have inRange := exact.pipes side p mem
  have present : s.pipes[p]? = some s.pipes[p] := getElem?_eq_getElem inRange
  have set : s.pipes.modify p (fun b => b.setEnds side (b.ends side + 1)) =
      s.pipes.set p (s.pipes[p].setEnds side (s.pipes[p].ends side + 1)) := by
    rw [modify_eq_mapIdx, set_eq_mapIdx present fun b => b.setEnds side (b.ends side + 1)]
  rw [Files.clonePipe, set]
  refine exact.with_pipe present ?_ (fun fd ne => Multiset.count_cons_of_ne ne h) (countP_isSocket_pipe side p)
  rw [Multiset.count_cons_self, exact.ends side p _ present]

theorem Exact.dropPipe (exact : Exact s (.pipe side p ::ₘ h)) :
    ∃ s', dropPipe side p s = some s' ∧ Exact s' h := by
  have inRange := exact.pipes side p (Multiset.mem_cons_self _ h)
  have present : s.pipes[p]? = some s.pipes[p] := getElem?_eq_getElem inRange
  have count := exact.ends side p _ present
  rw [Multiset.count_cons_self] at count
  have positive : ¬ s.pipes[p].ends side = 0 := by omega
  refine ⟨{ s with
    pipes := s.pipes.set p (s.pipes[p].setEnds side (s.pipes[p].ends side - 1))
    wake := s.wake || decide (s.pipes[p].ends side - 1 = 0) }, ?_, ?_⟩
  · simp only [Files.dropPipe, present, bind_eq_bind, bind_some, if_neg positive]
  · refine exact.with_pipe present (by omega)
      (fun fd ne => (Multiset.count_cons_of_ne ne h).symm)
      fun n => (countP_isSocket_pipe side p n).symm

/-! ### Sockets -/

theorem count_pipe_socket (e : SocketEnd) (side : Side) (p : ℕ) :
    (Fd.socket e ::ₘ h).count (.pipe side p) = h.count (.pipe side p) := by
  have ne : Fd.pipe side p ≠ .socket e := nofun
  exact count_cons_of_ne ne h

theorem mem_pipe_socket : Fd.pipe side p ∈ Fd.socket e ::ₘ h ↔ Fd.pipe side p ∈ h := by
  rw [← count_pos, ← count_pos, count_pipe_socket]

theorem countP_isSocket_self (e : SocketEnd) : (Fd.socket e ::ₘ h).countP (isSocket e.refs ·) =
      h.countP (isSocket e.refs ·) + 1 :=
  countP_cons_of_pos _ (by simp [isSocket])

theorem countP_isSocket_ne (ne : e.refs ≠ n) :
    (Fd.socket e ::ₘ h).countP (isSocket n ·) = h.countP (isSocket n ·) :=
  countP_cons_of_neg _ (by simp [isSocket, ne])

/-- Changing the counter of one socket makes the counters exact for `h'`, if that counter is right and the
socket is closed if it is zero. -/
theorem Exact.with_socket (exact : Exact s h) {k : Socket} {strong : ℕ} {closed : List (ℕ × ℕ)}
    (present : s.sockets[n]? = some k) (right : strong = h'.countP (isSocket n ·))
    (same : ∀ m, n ≠ m → h'.countP (isSocket m ·) = h.countP (isSocket m ·))
    (pipes : ∀ side p, h'.count (.pipe side p) = h.count (.pipe side p))
    (sockets : ∀ e, Fd.socket e ∈ h' → Fd.socket e ∈ h)
    (closes : closed.count (n, k.handle) = if strong = 0 then 1 else 0)
    (others : ∀ m handle, n ≠ m → closed.count (m, handle) = s.closed.count (m, handle))
    (known : ∀ c ∈ closed, c ∈ s.closed ∨ c = (n, k.handle)) :
    Exact { s with sockets := s.sockets.set n { k with strong }, closed } h' := by
  have inRange := (List.getElem?_eq_some_iff.mp present).1
  have lookup : ∀ m k', (s.sockets.set n { k with strong })[m]? = some k' →
      (n = m ∧ k' = { k with strong }) ∨ (n ≠ m ∧ s.sockets[m]? = some k') := by
    intro m k' place
    rw [List.getElem?_set] at place
    by_cases same : n = m
    · rw [if_pos same, if_pos inRange, Option.some.injEq] at place
      exact .inl ⟨same, place.symm⟩
    · rw [if_neg same] at place
      exact .inr ⟨same, place⟩
  have keeps : ∀ m handle, knows s.sockets m handle → knows (s.sockets.set n { k with strong }) m handle := by
    rintro m handle ⟨k', before, same⟩
    by_cases here : n = m
    · rw [← here, present, Option.some.injEq] at before
      refine ⟨{ k with strong }, ?_, by rw [← same, ← before]⟩
      rw [List.getElem?_set, if_pos here, if_pos inRange]
    · exact ⟨k', by rw [List.getElem?_set, if_neg here]; exact before, same⟩
  refine ⟨fun side p b place => (exact.ends side p b place).trans (pipes side p).symm, fun side p mem => ?_,
    fun m k' place => ?_, fun e mem => keeps _ _ (exact.sockets e (sockets e mem)), fun m k' place => ?_,
    fun c mem => keeps _ _ ?_⟩
  · refine exact.pipes side p ?_
    rwa [← count_pos, ← pipes, count_pos]
  · rcases lookup m k' place with ⟨rfl, rfl⟩ | ⟨ne, before⟩
    · exact right
    · rw [exact.strong m k' before, same m ne]
  · rcases lookup m k' place with ⟨rfl, rfl⟩ | ⟨ne, before⟩
    · exact closes
    · exact (others m _ ne).trans (exact.closed m k' before)
  · rcases known c mem with before | rfl
    · exact exact.known c before
    · exact ⟨k, present, rfl⟩

theorem Exact.cloneSocket (exact : Exact s h) (mem : Fd.socket e ∈ h) :
    Exact (cloneSocket e s) (.socket e ::ₘ h) := by
  obtain ⟨k, present, -⟩ := exact.sockets e mem
  have strong := exact.strong _ k present
  have holds : 0 < k.strong := by
    rw [strong, countP_pos]
    exact ⟨_, mem, by simp [isSocket]⟩
  have set : s.sockets.modify e.refs (fun k => { k with strong := k.strong + 1 }) =
      s.sockets.set e.refs { k with strong := k.strong + 1 } := by
    rw [modify_eq_mapIdx, set_eq_mapIdx present fun k => { k with strong := k.strong + 1 }]
  rw [Files.cloneSocket, set]
  refine exact.with_socket present ?_ (fun m ne => countP_isSocket_ne ne) (count_pipe_socket e)
    (fun e' mem' => ?_) ?_ (fun _ _ _ => rfl) fun c closed => .inl closed
  · rw [countP_isSocket_self, strong]
  · rcases mem_cons.mp mem' with same | before
    · rwa [same]
    · exact before
  · -- it was held, so it is neither closed before nor after
    rw [exact.closed _ k present, if_neg holds.ne', if_neg (Nat.succ_ne_zero _)]

theorem Exact.dropSocket (exact : Exact s (.socket e ::ₘ h)) : ∃ s', dropSocket e s = some s' ∧ Exact s' h := by
  obtain ⟨k, present, handle⟩ := exact.sockets e (mem_cons_self _ h)
  have strong := exact.strong _ k present
  rw [countP_isSocket_self] at strong
  have positive : ¬ k.strong = 0 := by omega
  have isOpen := (exact.closed _ k present).trans (if_neg positive)
  refine ⟨{ s with
    sockets := s.sockets.set e.refs { k with strong := k.strong - 1 }
    closed := if k.strong = 1 then s.closed ++ [(e.refs, e.handle)] else s.closed }, ?_, ?_⟩
  · simp only [Files.dropSocket, present, Option.bind_eq_bind, Option.bind_some, if_neg positive]
  · refine exact.with_socket present (by omega) (fun m ne => (countP_isSocket_ne ne).symm)
      (fun side p => (count_pipe_socket e side p).symm) (fun e' mem => mem_cons_of_mem mem) ?_
      (fun m handle' ne => ?_) fun c mem => ?_
    · by_cases last : k.strong = 1
      · rw [if_pos last, if_pos (by omega), List.count_append, isOpen, handle, List.count_singleton_self]
      · rw [if_neg last, if_neg (by omega), isOpen]
    · split
      · rw [List.count_append, List.count_singleton]
        simp [ne]
      · rfl
    · rw [handle]
      split at mem
      · exact (List.mem_append.mp mem).imp id List.mem_singleton.mp
      · exact .inl mem

/-! ### Descriptors and tables -/

/-- **Cloning** a descriptor. -/
theorem Exact.clone (exact : Exact s h) (mem : fd ∈ h) : Exact (cloneFd fd s) (fd ::ₘ h) := by
  cases fd with
  | console | vga | serial => exact (Exact.cons_plain_iff rfl).mpr exact
  | file f => exact (Exact.cons_plain_iff rfl).mpr exact
  | pipe side p =>
    rw [cloneFd_pipe]
    exact exact.clonePipe mem
  | socket e => exact exact.cloneSocket mem

/-- **Dropping** a descriptor: the counter does not underflow. -/
theorem Exact.drop (exact : Exact s (fd ::ₘ h)) : ∃ s', dropFd fd s = some s' ∧ Exact s' h := by
  cases fd with
  | console | vga | serial => exact ⟨s, rfl, (Exact.cons_plain_iff rfl).mp exact⟩
  | file f => exact ⟨s, rfl, (Exact.cons_plain_iff rfl).mp exact⟩
  | pipe side p =>
    rw [dropFd_pipe]
    exact exact.dropPipe
  | socket e => exact exact.dropSocket

theorem Exact.dropSlot {slot : Option Fd} (exact : Exact s (inSlot slot + h)) :
    ∃ s', dropSlot slot s = some s' ∧ Exact s' h := by
  cases slot with
  | none => exact ⟨s, rfl, by rwa [inSlot_none, zero_add] at exact⟩
  | some fd => exact Exact.drop (by rwa [inSlot_some, singleton_add] at exact)

theorem Exact.dropAll (exact : Exact s (held fds + h)) : ∃ s', dropAll fds s = some s' ∧ Exact s' h := by
  induction fds generalizing s with
  | nil => exact ⟨s, rfl, by rwa [held_nil, zero_add] at exact⟩
  | cons slot rest ih =>
    rw [held_cons, add_assoc] at exact
    obtain ⟨between, dropped, exact'⟩ := exact.dropSlot
    obtain ⟨s', rest', exact''⟩ := ih exact'
    exact ⟨s', by rw [Files.dropAll, dropped]; exact rest', exact''⟩

theorem Exact.cloneAll (exact : Exact s h) (members : ∀ fd, some fd ∈ fds → fd ∈ h) :
    Exact (cloneAll fds s) (held fds + h) := by
  induction fds generalizing s h with
  | nil => rwa [held_nil, zero_add]
  | cons slot rest ih =>
    have later : ∀ fd, some fd ∈ rest → fd ∈ h := fun fd mem => members fd (mem_cons_of_mem _ mem)
    cases slot with
    | none =>
      rw [held_cons, inSlot_none, zero_add]
      exact ih exact later
    | some fd =>
      have one := exact.clone (members fd mem_cons_self)
      have all := ih one fun fd' mem => mem_cons_of_mem (later fd' mem)
      rwa [add_cons, ← singleton_add, ← add_assoc, ← inSlot_some, ← held_cons] at all

/-! ### New pipes and sockets -/

theorem getElem?_concat {α : Type} {l : List α} {x y : α} (present : (l ++ [x])[i]? = some y) :
    l[i]? = some y ∨ i = l.length ∧ y = x := by
  rw [getElem?_append] at present
  by_cases inRange : i < l.length
  · rw [if_pos inRange] at present
    exact .inl present
  · rw [if_neg inRange] at present
    obtain ⟨small, same⟩ := List.getElem?_eq_some_iff.mp present
    have zero : i - l.length = 0 := by simpa using small
    refine .inr ⟨by omega, ?_⟩
    simp only [zero] at same
    exact same.symm

/-- Both ends of a new pipe, in flight. -/
theorem Exact.newPipe (exact : Exact s h) : Exact { s with pipes := s.pipes ++ [⟨[], 1, 1⟩] }
      (.pipeRead s.pipes.length ::ₘ .pipeWrite s.pipes.length ::ₘ h) := by
  have fresh : ∀ side, h.count (.pipe side s.pipes.length) = 0 := fun side =>
    count_eq_zero.mpr fun mem => absurd (exact.pipes side _ mem) (lt_irrefl _)
  refine ⟨fun side p b place => ?_, fun side p inTable => ?_, fun n k place => ?_,
    fun e inTable => ?_, exact.closed, exact.known⟩
  · rcases getElem?_concat place with old | ⟨rfl, rfl⟩
    · have inRange := (List.getElem?_eq_some_iff.mp old).1
      have ne : ∀ side', Fd.pipe side p ≠ .pipe side' s.pipes.length :=
        fun side' same => absurd (Fd.pipe.inj same).2 (by omega)
      rw [exact.ends side p b old, Multiset.count_cons_of_ne (ne _), Multiset.count_cons_of_ne (ne _)]
    · have other : Fd.pipeRead s.pipes.length ≠ .pipeWrite s.pipes.length := nofun
      cases side with
      | read =>
        rw [Multiset.count_cons_self, Multiset.count_cons_of_ne other, fresh]
        rfl
      | write =>
        rw [Multiset.count_cons_of_ne other.symm, Multiset.count_cons_self, fresh]
        rfl
  · rw [length_append]
    rcases mem_cons.mp inTable with same | inTable
    · rw [(Fd.pipe.inj same).2]
      exact Nat.lt_add_one _
    rcases mem_cons.mp inTable with same | inTable
    · rw [(Fd.pipe.inj same).2]
      exact Nat.lt_add_one _
    · exact Nat.lt_add_right _ (exact.pipes side p inTable)
  · rw [exact.strong n k place, countP_isSocket_pipe, countP_isSocket_pipe]
  · refine exact.sockets e ?_
    rcases mem_cons.mp inTable with same | inTable
    · exact nomatch same
    rcases mem_cons.mp inTable with same | inTable
    · exact nomatch same
    · exact inTable

theorem Exact.newSocket (exact : Exact s h) (handle : ℕ) (kind : SockKind) :
    Exact { s with sockets := s.sockets ++ [⟨handle, 1⟩] }
      (.socket ⟨handle, kind, s.sockets.length⟩ ::ₘ h) := by
  have fresh : h.countP (isSocket s.sockets.length ·) = 0 := by
    refine countP_eq_zero.mpr fun fd mem isEnd => ?_
    cases fd with
    | socket e =>
      obtain ⟨k, present, -⟩ := exact.sockets e mem
      have inRange := (List.getElem?_eq_some_iff.mp present).1
      have same : e.refs = s.sockets.length := of_decide_eq_true isEnd
      omega
    | _ => exact nomatch isEnd
  have keeps : ∀ n handle', knows s.sockets n handle' →
      knows (s.sockets ++ [⟨handle, 1⟩]) n handle' := by
    rintro n handle' ⟨k, present, same⟩
    exact ⟨k, (List.getElem?_append_left (List.getElem?_eq_some_iff.mp present).1).trans present, same⟩
  refine ⟨fun side p b place => ?_, fun side p inTable => ?_, fun n k place => ?_,
    fun e inTable => ?_, fun n k place => ?_, fun c mem => ?_⟩
  · rw [count_pipe_socket]
    exact exact.ends side p b place
  · exact exact.pipes side p (mem_pipe_socket.mp inTable)
  · rcases getElem?_concat place with old | ⟨rfl, rfl⟩
    · have inRange := (List.getElem?_eq_some_iff.mp old).1
      rw [exact.strong n k old, countP_isSocket_ne (by show s.sockets.length ≠ n; omega)]
    · rw [countP_isSocket_self ⟨handle, kind, s.sockets.length⟩, fresh]
  · rcases mem_cons.mp inTable with same | before
    · obtain rfl := Fd.socket.inj same
      exact ⟨⟨handle, 1⟩, getElem?_concat_length, rfl⟩
    · exact keeps _ _ (exact.sockets e before)
  · rcases getElem?_concat place with old | ⟨rfl, rfl⟩
    · exact exact.closed n k old
    · rw [if_neg Nat.one_ne_zero]
      refine count_eq_zero.mpr fun mem => ?_
      obtain ⟨k, present, -⟩ := exact.known _ mem
      exact absurd (List.getElem?_eq_some_iff.mp present).1 (lt_irrefl _)
  · exact keeps _ _ (exact.known c mem)

/-- Data in a buffer is not counted. -/
theorem Exact.setData (exact : Exact s h) (present : s.pipes[p]? = some b) (data : List UInt8) (wake : Bool) :
    Exact { s with pipes := s.pipes.set p { b with data }, wake } h := by
  refine ⟨fun side q b' place => ?_, fun side q inTable => ?_, exact.strong, exact.sockets,
    exact.closed, exact.known⟩
  · rw [getElem?_set] at place
    by_cases here : p = q
    · subst here
      rw [if_pos rfl, if_pos (List.getElem?_eq_some_iff.mp present).1, Option.some.injEq] at place
      rw [← place, ← exact.ends side p b present]
      cases side <;> rfl
    · rw [if_neg here] at place
      exact exact.ends side q b' place
  · rw [length_set]
    exact exact.pipes side q inTable

end Ferros.Files
