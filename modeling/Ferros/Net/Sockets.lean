/-
**Local ports of UDP sockets.**

The sockets of the network stack are in slots, and a socket has a local port, which is 0 until it is bound. What
smoltcp does with them is a parameter: `add` finds a free slot, and `bind` fails for port 0 and for a socket that
is open. It does not look at the other sockets.

* `Smoltcp` — the two functions with the hypotheses on them.
* `udp_ports_distinct_iff` — **two sockets share a port exactly from the call on that asks for a port another
  one has**; `udp_port_shared` — no error is returned then.

A call changes at most one port. `Sockets.binds` says before the call which one and to what, and `port_of_perform`
that this is what happens; whether the ports stay distinct is then a question about one updated entry.
-/

import Ferros.Files.Descriptor
import Ferros.Lib.System
import Mathlib.Logic.Function.Basic

namespace Ferros.Net

open Lib Files Option Function

def EMSGSIZE : ℤ := 90
def ENETDOWN : ℤ := 100

/-- What is used of smoltcp, over the slots with the local ports of their sockets. -/
structure Smoltcp where
  /-- `SocketSet::add`: the slot of a new socket, and the slots with it. -/
  add : List (Option ℕ) → ℕ × List (Option ℕ)
  /-- `bind` to a port, of a socket with the local port `own`. -/
  bind : (port own : ℕ) → Option ℕ
  add_free : ∀ slots, slots[(add slots).1]?.join = none
  add_slots : ∀ slots i, (add slots).2[i]?.join = if i = (add slots).1 then some 0 else slots[i]?.join
  bind_eq : ∀ port own, bind port own = if port = 0 ∨ own ≠ 0 then none else some port

/-- The slots, if the stack is up, and the counter of 16 bits for ephemeral ports. -/
structure Sockets where
  stack : Option (List (Option ℕ))
  ephemeralCtr : ℕ

inductive SocketCall
  /-- `comesUp` says whether the network can be configured, if it is not yet. -/
  | udpSocket (comesUp : Bool)
  | udpBind (handle port : ℕ)
  /-- `sent` says whether `send_slice` takes the `len` bytes. -/
  | udpSendto (handle len : ℕ) (sent : Bool)
  | closeSocket (handle : ℕ)

/-- `next_ephemeral_port`, and the counter behind it. -/
def nextEphemeralPort (ctr : ℕ) : ℕ × ℕ := (49152 + ctr % 16384, (ctr + 1) % 2 ^ 16)

section Calls

variable (net : Smoltcp)

def udpSocket (comesUp : Bool) (s : Sockets) : Except ℤ ℕ × Sockets :=
  match s.stack.or (if comesUp then some [] else none) with
  | none => (.error ENETDOWN, s)
  | some slots => (.ok (net.add slots).1, { s with stack := some (net.add slots).2 })

/-- Where there is no socket at the handle, smoltcp panics. -/
def udpBind (handle port : ℕ) (s : Sockets) : Option (Except ℤ ℕ × Sockets) :=
  match s.stack with
  | none => some (.error ENETDOWN, s)
  | some slots => do
      let own ← slots[handle]?.join
      match net.bind port own with
      | none => return (.error EINVAL, s)
      | some port => return (.ok 0, { s with stack := some (slots.set handle (some port)) })

def udpSendto (handle len : ℕ) (sent : Bool) (s : Sockets) : Option (Except ℤ ℕ × Sockets) :=
  match s.stack with
  | none => some (.error ENETDOWN, s)
  | some slots => do
      let own ← slots[handle]?.join
      let result := if sent then .ok len else .error EMSGSIZE
      if own = 0 then
        let (port, ephemeralCtr) := nextEphemeralPort s.ephemeralCtr
        match net.bind port own with
        | none => return (.error EINVAL, { s with ephemeralCtr })
        | some port => return (result, ⟨some (slots.set handle (some port)), ephemeralCtr⟩)
      else return (result, s)

def closeSocket (handle : ℕ) (s : Sockets) : Option (Except ℤ ℕ × Sockets) :=
  match s.stack with
  | none => some (.ok 0, s)
  | some slots => slots[handle]?.join.map fun _ => (.ok 0, { s with stack := some (slots.set handle none) })

def SocketCall.perform (s : Sockets) : SocketCall → Option (Except ℤ ℕ × Sockets)
  | .udpSocket comesUp => some (Net.udpSocket net comesUp s)
  | .udpBind handle port => Net.udpBind net handle port s
  | .udpSendto handle len sent => Net.udpSendto net handle len sent s
  | .closeSocket handle => Net.closeSocket handle s

end Calls

/-! ### Ports -/

/-- The local port of the socket in a slot, if there is one. -/
def Sockets.slot (s : Sockets) (i : ℕ) : Option ℕ := (s.stack.getD [])[i]?.join

/-- The local port, also 0 if there is no socket. -/
def Sockets.port (s : Sockets) (i : ℕ) : ℕ := (s.slot i).getD 0

def Sockets.Distinct (s : Sockets) : Prop := ∀ i j, s.port i ≠ 0 → s.port i = s.port j → i = j

/-- The socket and the port that a call asks for. -/
def Sockets.asked (s : Sockets) : SocketCall → Option (ℕ × ℕ)
  | .udpBind handle port => some (handle, port)
  | .udpSendto handle _ _ => some (handle, 49152 + s.ephemeralCtr % 16384)
  | _ => none

/-- The same, if the socket is there and has no port yet, and the port is one. -/
def Sockets.binds (s : Sockets) (call : SocketCall) : Option (ℕ × ℕ) :=
  (s.asked call).filter fun asked => s.slot asked.1 = some 0 ∧ asked.2 ≠ 0

/-- **The call asks, for a socket without a port, for a port that another socket has.** -/
def taken (call : SocketCall) (s : Sockets) : Bool :=
  (s.binds call).any fun asked => (s.stack.getD []).contains (some asked.2)

variable {net : Smoltcp} {slots : List (Option ℕ)} {handle own port c i p : ℕ} {s t : Sockets} {call : SocketCall}
  {answer : Except ℤ ℕ}

/-- The port of one socket changes. -/
theorem port_set (here : slots[handle]?.join = some own) (new : Option ℕ) :
    Sockets.port ⟨some (slots.set handle new), c⟩ =
      update (Sockets.port ⟨some slots, p⟩) handle (new.getD 0) := by
  funext i
  have inside : handle < slots.length := by
    by_contra outside
    simp [List.getElem?_eq_none (not_lt.mp outside)] at here
  by_cases same : i = handle
  · simp [Sockets.port, Sockets.slot, same, inside]
  · simp [Sockets.port, Sockets.slot, same, Ne.symm same]

/-- A new socket is not bound. -/
theorem port_add (net : Smoltcp) (slots : List (Option ℕ)) :
    Sockets.port ⟨some (net.add slots).2, c⟩ = Sockets.port ⟨some slots, p⟩ := by
  funext i
  have free := net.add_free slots
  have here : Sockets.slot ⟨some (net.add slots).2, c⟩ i = _ := net.add_slots slots i
  rw [Sockets.port, here]
  split
  · rename_i new
    rw [new]
    exact (congrArg (Option.getD · 0) free).symm
  · rfl

/-- `binds` says what smoltcp will do. -/
theorem binds_eq (net : Smoltcp) (asked : s.asked call = some (handle, port)) (here : s.slot handle = some own) :
    s.binds call = (net.bind port own).map (handle, ·) := by
  rw [Sockets.binds, asked, net.bind_eq]
  by_cases refused : port = 0 ∨ own ≠ 0
  · rw [if_pos refused, filter_some_neg]
    · rfl
    · simp only [here, some.injEq, decide_eq_false_iff_not]
      tauto
  · rw [if_neg refused, filter_some_pos]
    · rfl
    · simp only [here, some.injEq, decide_eq_true_eq]
      tauto

/-- **A call changes one port at most**: it binds a socket as `binds` says, or closes one. -/
theorem port_of_perform (ran : call.perform net s = some (answer, t)) :
    (∃ asked, s.binds call = some asked ∧ t.port = update s.port asked.1 asked.2) ∨
    s.binds call = none ∧ (t.port = s.port ∨ ∃ i, t.port = update s.port i 0) := by
  obtain ⟨stack, ctr⟩ := s
  cases stack with
  | none =>
    have unbound : Sockets.binds ⟨none, ctr⟩ call = none := by
      cases call <;> simp [Sockets.binds, Sockets.asked, Sockets.slot, filter_some]
    refine .inr ⟨unbound, .inl ?_⟩
    cases call with
    | udpSocket comesUp =>
      cases comesUp <;> cases ran
      · rfl
      · exact port_add (p := ctr) net []
    | _ =>
      cases ran
      rfl
  | some slots =>
    cases call with
    | udpSocket comesUp =>
      cases ran
      exact .inr ⟨rfl, .inl (port_add net slots)⟩
    | udpBind handle port =>
      obtain ⟨own, here, ran⟩ := bind_eq_some_iff.mp ran
      have binds := @binds_eq handle own port ⟨some slots, ctr⟩ (.udpBind handle port) net rfl here
      cases bound : net.bind port own <;> rw [bound] at ran binds <;> cases ran
      · exact .inr ⟨binds, .inl rfl⟩
      · exact .inl ⟨_, binds, port_set here _⟩
    | udpSendto handle len sent =>
      obtain ⟨own, here, ran⟩ := bind_eq_some_iff.mp ran
      have binds := @binds_eq handle own _ ⟨some slots, ctr⟩ (.udpSendto handle len sent) net rfl here
      dsimp only at ran
      split at ran
      · cases bound : net.bind (49152 + ctr % 16384) own <;> rw [bound] at binds <;>
          rw [nextEphemeralPort, bound] at ran <;> cases ran
        · exact .inr ⟨binds, .inl rfl⟩
        · exact .inl ⟨_, binds, port_set here _⟩
      · rename_i bound
        rw [net.bind_eq, if_pos (.inr bound)] at binds
        cases ran
        exact .inr ⟨binds, .inl rfl⟩
    | closeSocket handle =>
      obtain ⟨own, here, ran⟩ := map_eq_some_iff.mp ran
      cases ran
      exact .inr ⟨rfl, .inr ⟨handle, port_set here none⟩⟩

/-- A port is in the list exactly if a socket has it. -/
theorem contains_iff (isPort : port ≠ 0) :
    (s.stack.getD []).contains (some port) = true ↔ ∃ j, s.port j = port := by
  rw [List.contains_iff_mem, List.mem_iff_getElem?]
  refine exists_congr fun j => ?_
  unfold Sockets.port Sockets.slot
  cases (s.stack.getD [])[j]? with
  | none => simp [isPort.symm]
  | some slot => cases slot <;> simp [isPort.symm]

/-- The step: it keeps the ports distinct exactly if it does not ask for one that is taken. -/
theorem distinct_step (distinct : s.Distinct) (ran : call.perform net s = some (answer, t)) :
    t.Distinct ↔ taken call s = false := by
  rcases port_of_perform ran with ⟨⟨i, port⟩, binds, changed⟩ | ⟨binds, unchanged⟩
  · obtain ⟨-, meets⟩ := filter_eq_some_iff.mp binds
    obtain ⟨unbound, isPort⟩ := of_decide_eq_true meets
    have free : s.port i = 0 := congrArg (Option.getD · 0) unbound
    rw [taken, binds, any_some, Bool.eq_false_iff, Ne, contains_iff isPort]
    unfold Sockets.Distinct at distinct ⊢
    simp only [changed, update_apply]
    constructor
    · rintro apart ⟨j, same⟩
      have := apart i j
      grind
    · intro clear a b bound same
      grind
  · refine iff_of_true ?_ (by rw [taken, binds]; rfl)
    rcases unchanged with same | ⟨i, closed⟩
    · rwa [Sockets.Distinct, same]
    · unfold Sockets.Distinct at distinct ⊢
      simp only [closed, update_apply]
      grind

/-- `udp_bind` refuses a port that another socket has only if the socket has one itself. -/
theorem refused_iff (ran : udpBind net handle port s = some (answer, t)) (isPort : port ≠ 0)
    (held : s.port i = port) : answer = .error EINVAL ↔ taken (.udpBind handle port) s = false := by
  obtain ⟨stack, ctr⟩ := s
  cases stack with
  | none => exact absurd held.symm isPort
  | some slots =>
    obtain ⟨own, here, ran⟩ := bind_eq_some_iff.mp ran
    rw [taken, @binds_eq handle own port ⟨some slots, ctr⟩ (.udpBind handle port) net rfl here]
    cases bound : net.bind port own with
    | none =>
      rw [bound] at ran
      cases ran
      exact iff_of_true rfl rfl
    | some new =>
      rw [bound] at ran
      cases ran
      refine iff_of_false nofun ?_
      rw [net.bind_eq] at bound
      split at bound
      · cases bound
      · cases bound
        rw [map_some, any_some, (contains_iff isPort).mpr ⟨i, held⟩]
        nofun

/-- All runs. -/
def socketRuns (net : Smoltcp) : System Sockets :=
  .ofOps (· = ⟨none, 0⟩) fun call s => (SocketCall.perform net s call).map Prod.snd

/-- The runs in which no call asks for a port that is taken. -/
def carefulRuns (net : Smoltcp) : System Sockets :=
  .ofOps (· = ⟨none, 0⟩) (guarded (fun call s => !taken call s) fun call s =>
    (SocketCall.perform net s call).map Prod.snd)

/-- **Ports are distinct as long as no call asks for a port that another socket has, and no longer**; and
`udp_bind` to a port that another socket has returns `EINVAL` exactly if the call is not one of these. -/
theorem udp_ports_distinct_iff (net : Smoltcp) {s : Sockets} (reached : (carefulRuns net).Reached s) :
    s.Distinct ∧
    (∀ call answer t, SocketCall.perform net s call = some (answer, t) → (t.Distinct ↔ taken call s = false)) ∧
    ∀ handle port answer t i, udpBind net handle port s = some (answer, t) → port ≠ 0 → s.port i = port →
      (answer = .error EINVAL ↔ taken (.udpBind handle port) s = false) := by
  have distinct : s.Distinct := by
    refine System.invariant _ Sockets.Distinct ?_ ?_ reached
    · rintro _ rfl i j bound
      exact absurd rfl bound
    · rintro s _ - distinct ⟨call, ran⟩
      obtain ⟨clear, mapped⟩ := guarded_eq_some.mp ran
      obtain ⟨⟨answer, t⟩, performed, rfl⟩ := map_eq_some_iff.mp mapped
      exact (distinct_step distinct performed).mpr ((Bool.not_eq_true' _).mp clear)
  exact ⟨distinct, fun call answer t => distinct_step distinct, fun handle port answer t i => refused_iff⟩

/-! ### Two sockets -/

/-- The first free slot, or a new one. -/
def addSocket (slots : List (Option ℕ)) : ℕ × List (Option ℕ) :=
  match slots.idxOf? none with
  | some free => (free, slots.set free (some 0))
  | none => (slots.length, slots ++ [some 0])

theorem addSocket_free (slots : List (Option ℕ)) : slots[(addSocket slots).1]?.join = none := by
  unfold addSocket
  split
  · rename_i free found
    obtain ⟨inside, isFree, -⟩ := List.findIdx?_eq_some_iff_getElem.mp found
    rw [List.getElem?_eq_getElem inside, beq_iff_eq.mp isFree]
    rfl
  · simp

theorem addSocket_slots (slots : List (Option ℕ)) (i : ℕ) :
    (addSocket slots).2[i]?.join = if i = (addSocket slots).1 then some 0 else slots[i]?.join := by
  unfold addSocket
  split
  · rename_i free found
    obtain ⟨inside, -⟩ := List.findIdx?_eq_some_iff_getElem.mp found
    by_cases same : i = free
    · simp [same, inside]
    · simp [same, Ne.symm same]
  · by_cases last : i = slots.length
    · simp [last]
    · simp [List.getElem?_append, List.getElem?_singleton, last]
      grind

/-- The crate. -/
def smoltcp : Smoltcp where
  add := addSocket
  bind port own := if port = 0 ∨ own ≠ 0 then none else some port
  add_free := addSocket_free
  add_slots := addSocket_slots
  bind_eq _ _ := rfl

/-- A socket is created and bound to port 53. -/
theorem udp_ports_distinct_iff_one : Sockets.Distinct ⟨some [some 53], 0⟩ := by
  have created : (carefulRuns smoltcp).Reached ⟨some [some 0], 0⟩ := .step (.start rfl) ⟨.udpSocket true, rfl⟩
  exact (udp_ports_distinct_iff smoltcp (created.step ⟨.udpBind 0 53, rfl⟩)).1

/-- **Two sockets are bound to port 53**, and the second `udp_bind` returns `Ok`. -/
theorem udp_port_shared : ∃ s t, (socketRuns smoltcp).Reached s ∧ udpBind smoltcp 1 53 s = some (.ok 0, t) ∧
    s.port 0 = 53 ∧ t.port 0 = 53 ∧ t.port 1 = 53 :=
  ⟨⟨some [some 53, some 0], 0⟩, _,
    .step (.step (.step (.start rfl) ⟨.udpSocket true, rfl⟩) ⟨.udpSocket true, rfl⟩) ⟨.udpBind 0 53, rfl⟩,
    rfl, rfl, rfl, rfl⟩

end Ferros.Net
