import Excom.Epoll
import Excom.Lib.Transition
import Mathlib.Data.List.Permutation

/-!
# The `poll` and the `epoll` backend side by side

A program that can run on both backends (`Pair`): it makes the same calls of the backend on both, and in a round the
same descriptors are ready on both, which `epoll_wait` reports in any order.  Then both hold the same registrations at
any time, and in every round they call the runner once for each event that is ready, with the same flags
(`backends_agree`), as long as the events are removed as `poll.c` needs it, and none while its turn is to come, as
`epoll.c` needs it.
-/

namespace Excom

open EventBasePoll (Entry Op Call Junk Registry Slot InOrder toFlags)

/-- The two backends, and what is registered with them -/
structure Pair where
  reg : List Entry
  poll : EventBasePoll.State
  epoll : EventBaseEpoll.State

/-- The flags fit into a `short`. -/
def EventBasePoll.Op.Fits : Op → Prop
  | .add _ _ flags | .update _ flags => flags.toNat < 2 ^ 15
  | .remove _ => True

/-- The event that is concerned -/
def EventBasePoll.Op.addr : Op → Nat
  | .add p _ _ | .update p _ | .remove p => p

namespace Pair

/-- What the runner does in the last call -/
def onCall (runner : Call → List Op) (calls : List Call) : List Op := (calls.getLast?.map runner).getD []

/-- The same runner with `epoll` -/
def acts (runner : List Call → List Op) (calls : List Call) : List EventBaseEpoll.Act := (runner calls).map .request

variable (J : Junk) (data : Nat → Nat) (runner : Call → List Op)

/-- What `poll` fills in, where `avail fd` are the flags for which `fd` is ready -/
def revents (avail : Int → UInt32) (s : EventBasePoll.State) (i : Nat) : Int :=
  ((s.base.fds[i]?).map fun ev => EventBasePoll.short (avail ev.fd).toNat).getD 0

/-- The events that are ready -/
def readyOf (avail : Int → UInt32) (reg : List Entry) : List Entry := reg.filter fun e => avail e.fd ≠ 0

/-- The descriptors that are ready, which `epoll_wait` reports in some order -/
def ready (avail : Int → UInt32) (reg : List Entry) : List (Int × UInt32) :=
  (readyOf avail reg).map fun e => (e.fd, avail e.fd)

/-- A round in which nobody else calls the backend -/
def round (fds : List (Int × UInt32)) : EventBaseEpoll.Round where
  meanwhile := []
  wait := .ok fds
  early := []

def registry (reg : List Entry) (max : Nat) : Registry := ⟨reg.map fun e => ⟨e.addr, 0⟩, max⟩

def watch (x : Pair) : EventBaseEpoll.Watch := ⟨x.reg, 32, true⟩

/-- The flags in a round fit into a `short`, not too many descriptors are ready at once, the calls for different
events concern different events, the runner does what both backends allow, and no event is removed while its turn is
to come, in whatever order the descriptors are reported. -/
structure Quiet (x : Pair) (avail : Int → UInt32) : Prop where
  small : ∀ e ∈ x.reg, (avail e.fd).toNat < 2 ^ 15
  few : (readyOf avail x.reg).length ≤ 32
  fits : ∀ c, ∀ op ∈ runner c, op.Fits
  apart : ∀ c c', c.root ≠ c'.root → ∀ op ∈ runner c, ∀ op' ∈ runner c', op.addr ≠ op'.addr
  safe : (registry x.reg x.poll.base.max).SafeIteration (fun p => (x.poll.event p).fd) data (onCall runner)
    (some (revents avail x.poll))
  legal : ∀ fds, fds.Perm (ready avail x.reg) → x.watch.LegalTurn data (acts (onCall runner)) [] (round fds)
  undisturbed : ∀ fds, fds.Perm (ready avail x.reg) →
    x.watch.UndisturbedTurn data (acts (onCall runner)) [] (round fds)

/-- Nothing is registered yet. -/
structure Initial (x : Pair) : Prop where
  reg : x.reg = []
  poll : ∃ event, x.poll = EventBasePoll.init J event
  epoll : ∃ event, x.epoll = EventBaseEpoll.init event

/-- The program calls the backend, or a round of the loop goes by, each with a runner of its own. -/
inductive Step : Pair → Pair → Prop where
  | request {x : Pair} {op : Op} {c c' : Int} {s : EventBasePoll.State} {t : EventBaseEpoll.State}
      (hlegal : op.Legal x.reg) (hsafe : op.Safe x.reg) (hpoll : op.perform J x.poll = some (c, s))
      (hepoll : EventBaseEpoll.request x.epoll op = some (c', t)) : Step x ⟨op.apply x.reg, s, t⟩
  | round {x : Pair} {runner : Call → List Op} {avail : Int → UInt32} {fds : List (Int × UInt32)}
      {s : EventBasePoll.State} {t : EventBaseEpoll.State} {calls calls' : List Call}
      (hquiet : Quiet data runner x avail) (hready : fds.Perm (ready avail x.reg))
      (hpoll : EventBasePoll.iterate J data (onCall runner) x.poll (some (revents avail x.poll)) = some (s, calls))
      (hepoll : EventBaseEpoll.turn data (acts (onCall runner)) x.epoll [] (Pair.round fds) = some (t, calls')) :
      Step x ⟨(calls.flatMap runner).foldl Op.apply x.reg, s, t⟩

/-- The slots of `poll` are what the kernel holds for `epoll`. -/
def Agree (x : Pair) : Prop :=
  ∀ fd flags p, x.epoll.interest fd = some ⟨flags, p⟩ ↔
    ∃ i ev, i < x.poll.base.nfds ∧ x.poll.base.events[i]? = some p ∧ x.poll.base.fds[i]? = some ev ∧
      ev.fd = fd ∧ ev.events = flags.toNat

/-- What is legal and safe succeeds with both backends. -/
def Succeeds (x : Pair) (op : Op) : Prop :=
  ∃ s t, op.perform J x.poll = some (0, s) ∧ EventBaseEpoll.request x.epoll op = some (0, t)

/-- The call for an event that is ready -/
def callOf (avail : Int → UInt32) (e : Entry) : Call := ⟨e.addr, e.fd, data e.addr, avail e.fd⟩

/-- In a round in which `epoll_wait` reports `fds`, both backends call the runner once for each event that is ready,
`poll` in the order of the slots. -/
def SameCalls (x : Pair) (avail : Int → UInt32) (fds : List (Int × UInt32)) : Prop :=
  ∃ s t calls calls',
    EventBasePoll.iterate J data (onCall runner) x.poll (some (revents avail x.poll)) = some (s, calls) ∧
      EventBaseEpoll.turn data (acts (onCall runner)) x.epoll [] (round fds) = some (t, calls') ∧
      calls = (readyOf avail x.reg).map (callOf data avail) ∧ calls'.Perm calls

end Pair

/-! ### What is registered with `epoll` -/

namespace EventBaseEpoll

private theorem Watch.applyAll_request (ops : List Op) (w : Watch) (alive : List Nat) :
    (applyAll (ops.map .request) w alive).1 = { w with reg := ops.foldl Op.apply w.reg } := by
  induction ops generalizing w alive with
  | nil => rfl
  | cons op ops ih => exact ih ..

private theorem Holds.perm {w : Watch} {s : State} (h : Holds w s) {reg : List Entry} (hperm : reg.Perm w.reg) :
    Holds { w with reg } s where
  loop := h.loop
  maxevents := h.maxevents
  addrs := (hperm.map Entry.addr).nodup_iff.2 h.addrs
  fds := (hperm.map Entry.fd).nodup_iff.2 h.fds
  isOpen e he := h.isOpen e (hperm.subset he)
  interest fd ev := by
    rw [h.interest]
    constructor
    · rintro ⟨e, he, hfd, hev⟩
      exact ⟨e, hperm.mem_iff.2 he, hfd, hev⟩
    · rintro ⟨e, he, hfd, hev⟩
      exact ⟨e, hperm.mem_iff.1 he, hfd, hev⟩
  event e he := h.event e (hperm.subset he)

end EventBaseEpoll

/-! ### A round of `poll` and the order of the slots -/

namespace EventBasePoll

variable {J : Junk} {data : Nat → Nat} {runner : List Call → List Op}
variable {reg : List Entry} {s s' : State}

private def Orderly (reg : List Entry) (op : Op) : Prop := op.Legal reg ∧ op.Safe reg

/-- What the runner does in the calls `new` that come after `calls` -/
private def opsOf (runner : List Call → List Op) : List Call → List Call → List Op
  | _, [] => []
  | calls, c :: new => runner (calls ++ [c]) ++ opsOf runner (calls ++ [c]) new

private theorem along_append {P : List Entry → Op → Prop} {ops ops' : List Op} :
    Along P reg (ops ++ ops') ↔ Along P reg ops ∧ Along P (ops.foldl Op.apply reg) ops' := by
  induction ops generalizing reg with
  | nil => simp [Along]
  | cons op ops ih => simp [Along, ih, and_assoc]

private def wanted (ev : PollFd) : Int × Int := (ev.fd, ev.events)

private theorem InOrder.revents (h : InOrder reg s) {fds : Slots PollFd}
    (hsame : fds.map wanted = s.base.fds.map wanted) : InOrder reg { s with base := { s.base with fds } } where
  __ := h
  length_fds := by
    have hlen := congrArg List.length hsame
    rw [List.length_map, List.length_map] at hlen
    exact hlen.trans h.length_fds
  slot i e hi := by
    obtain ⟨hevent, hfd, hbdata, ev, hev, hevfd, hflags⟩ := h.slot i e hi
    have hslot := congrArg (fun l => l[i]?) hsame
    simp only [List.getElem?_map, hev, Option.map_some, Option.map_eq_some_iff] at hslot
    obtain ⟨ev', hev', heq⟩ := hslot
    obtain ⟨hfd', hevents'⟩ := Prod.mk.inj heq
    exact ⟨hevent, hfd, hbdata, ev', hev', hfd'.trans hevfd, hevents'.trans hflags⟩

private theorem InOrder.polled (h : InOrder reg s) (revents : Nat → Int) : InOrder reg (polled s revents) := by
  apply h.revents
  apply List.ext_getElem?
  intro i
  rw [List.getElem?_map, List.getElem?_map, List.getElem?_mapIdx, Option.map_map]
  congr 1
  funext ev
  dsimp only [Function.comp]
  split <;> rfl

private theorem InOrder.clearRevents (h : InOrder reg s) {i : Nat} (hrun : clearRevents s i = some s') :
    InOrder reg s' := by
  simp only [EventBasePoll.clearRevents, Option.bind_eq_bind, Option.bind_eq_some_iff] at hrun
  obtain ⟨ev, hev, fds, hfds, hs'⟩ := hrun
  cases hs'
  apply h.revents
  have hlt := (List.getElem?_eq_some_iff.1 hev).1
  rw [Slots.store_eq hlt] at hfds
  cases hfds
  apply List.ext_getElem?
  intro j
  rw [List.map_set]
  by_cases hij : i = j
  · subst hij
    rw [List.getElem?_set_self (by simpa using hlt), List.getElem?_map]
    exact congrArg (Option.map wanted) hev.symm
  · rw [List.getElem?_set_ne hij]

private theorem InOrder.performAll (h : InOrder reg s) {ops : List Op} (hops : Along Orderly reg ops) :
    ∃ s', performAll J s ops = some s' ∧ InOrder (ops.foldl Op.apply reg) s' := by
  induction ops generalizing reg s with
  | nil => exact ⟨s, rfl, h⟩
  | cons op ops ih =>
    obtain ⟨⟨hlegal, hsafe⟩, hops⟩ := hops
    obtain ⟨s₁, hrun, h₁⟩ := h.perform (J := J) hlegal hsafe
    obtain ⟨s', hrest, h'⟩ := ih h₁ hops
    refine ⟨s', ?_, h'⟩
    unfold EventBasePoll.performAll
    rw [hrun]
    exact hrest

/-- After the loop over the slots, the slots are in the order of what the runner has left registered. -/
private theorem inOrder_loop {n : Int} {i e : Nat} {calls calls' : List Call}
    (hrun : loop J data runner n i e s calls = some (s', calls')) :
    ∃ new, calls' = calls ++ new ∧ ∀ reg, InOrder reg s → Along Orderly reg (opsOf runner calls new) →
      InOrder ((opsOf runner calls new).foldl Op.apply reg) s' := by
  induction i, e, s, calls using loop.induct data n with
  | case1 i e s calls hgo ihcall ihskip =>
    rw [loop, dif_pos hgo] at hrun
    simp only [Option.bind_eq_bind, Option.bind_eq_some_iff] at hrun
    obtain ⟨ev, -, hrun⟩ := hrun
    by_cases hne : ev.revents ≠ 0
    · rw [if_pos hne] at hrun
      simp only [Option.bind_eq_some_iff] at hrun
      obtain ⟨p, -, s₁, hperform, s₂, hclear, hrun⟩ := hrun
      obtain ⟨new, hnew, hkeep⟩ := ihcall ev p s₂ hrun
      refine ⟨_ :: new, hnew.trans (by rw [List.append_assoc]; rfl), ?_⟩
      intro reg h hops
      rw [opsOf, along_append] at hops
      obtain ⟨s₁', hperform', h₁⟩ := h.performAll (J := J) hops.1
      obtain rfl := Option.some.inj (hperform'.symm.trans hperform)
      rw [opsOf, List.foldl_append]
      exact hkeep _ (h₁.clearRevents hclear) hops.2
    · rw [if_neg hne] at hrun
      exact ihskip hrun
  | case2 i e s calls hend =>
    rw [loop, dif_neg hend] at hrun
    cases hrun
    exact ⟨[], (List.append_nil _).symm, fun _ h _ => h⟩

private theorem InOrder.holds (h : InOrder reg s) :
    ∃ r, Holds r s ∧ r.slots.map Slot.addr = reg.map Entry.addr ∧ r.max = s.base.max := by
  let r : Registry :=
    { slots := reg.mapIdx fun i e => ⟨e.addr, ((s.base.fds[i]?).map PollFd.revents).getD 0⟩
      max := s.base.max }
  have haddrs : r.slots.map Slot.addr = reg.map Entry.addr := by
    apply List.ext_getElem?
    intro i
    simp only [r, List.getElem?_map, List.getElem?_mapIdx, Option.map_map]
    rfl
  refine ⟨r, ?_, haddrs, rfl⟩
  exact
    { events := h.take_events.trans haddrs.symm
      revents := by
        apply List.ext_getElem?
        intro i
        simp only [r, List.getElem?_map, List.getElem?_mapIdx, Option.map_map, List.getElem?_take]
        rcases hi : reg[i]? with _ | e
        · have hlen := List.getElem?_eq_none_iff.1 hi
          rw [if_neg (by rw [h.nfds]; omega)]
          rfl
        · obtain ⟨-, -, -, ev, hev, -⟩ := h.slot i e hi
          have hlt := (List.getElem?_eq_some_iff.1 hi).1
          rw [if_pos (by rw [h.nfds]; omega), hev]
          rfl
      nfds := by
        simp only [r, List.length_mapIdx]
        exact h.nfds
      nfds_le := h.nfds_le
      max := rfl
      max_pos := h.max_pos
      length_fds := h.length_fds
      length_events := h.length_events
      nodup := by
        rw [haddrs]
        exact h.addrs
      bdata := by
        intro i x hi
        simp only [r, List.getElem?_mapIdx, Option.map_eq_some_iff] at hi
        obtain ⟨e, he, rfl⟩ := hi
        exact (h.slot i e he).2.2.1 }

/-! ### A round of `poll` and a round of `epoll` -/

/-- Only the events that are left have `revents`. -/
private theorem Registry.revents_apply {r : Registry} {op : Op} {p : Nat}
    (h : ∃ x ∈ (r.apply op).slots, x.addr = p) : (r.apply op).revents p = r.revents p := by
  cases op with
  | add q fd flags =>
    unfold Registry.revents Registry.apply
    dsimp only
    rw [List.find?_append]
    rcases hfind : r.slots.find? (fun x => x.addr = p) with _ | x
    · rw [hfind, Option.none_or]
      by_cases hq : q = p <;> simp [hq]
    · rw [hfind]
      rfl
  | update q flags => rfl
  | remove q =>
    obtain ⟨x, hx, rfl⟩ := h
    have hne : x.addr ≠ q := of_decide_eq_true (List.mem_filter.1 hx).2
    unfold Registry.revents Registry.apply
    dsimp only
    rw [List.find?_filter]
    congr 2
    congr 1
    funext y
    by_cases hy : y.addr = x.addr <;> simp [hy, hne]

private theorem Registry.revents_clear {r : Registry} {p q : Nat} (hne : q ≠ p) :
    (r.clear p).revents q = r.revents q := by
  unfold Registry.revents Registry.clear
  dsimp only
  rw [List.find?_map]
  have hsame : ((fun x : Slot => decide (x.addr = q)) ∘ fun x => if x.addr = p then { x with revents := 0 } else x) =
      fun x => decide (x.addr = q) := by
    funext x
    dsimp only [Function.comp]
    split <;> rfl
  rw [hsame]
  rcases hfind : r.slots.find? (fun x => x.addr = q) with _ | x
  · rw [hfind]
    rfl
  · rw [hfind]
    have haddr : x.addr = q := by simpa using List.find?_some hfind
    rw [Option.map_some, if_neg (haddr.symm ▸ hne)]

private theorem Registry.addrs_apply {r : Registry} (hsame : r.slots.map Slot.addr = reg.map Entry.addr) (op : Op) :
    (r.apply op).slots.map Slot.addr = (op.apply reg).map Entry.addr := by
  cases op with
  | add p fd flags => simp [Registry.apply, Op.apply, hsame]
  | update p flags =>
    simp only [Registry.apply, Op.apply, hsame, List.map_map]
    apply List.map_congr_left
    intro e _
    dsimp only [Function.comp]
    split <;> rfl
  | remove p =>
    have hfilter := congrArg (List.filter fun q => decide (q ≠ p)) hsame
    rw [List.filter_map, List.filter_map] at hfilter
    exact hfilter

/-- The rounds of both backends, where `r₀` is what is registered with `poll` at the beginning: an event of `rest` has
the `revents` that it had, as long as it has been registered all the time. -/
private structure Follows (r₀ : Registry) (rest : List Nat) (r : Registry) (w : EventBaseEpoll.Watch)
    (alive : List Nat) : Prop where
  same : r.slots.map Slot.addr = w.reg.map Entry.addr
  revents : ∀ p ∈ rest, r.revents p = if p ∈ alive then r₀.revents p else 0

namespace Follows

variable {r₀ r : Registry} {rest alive : List Nat} {w : EventBaseEpoll.Watch} {p : Nat}

private theorem apply (h : Follows r₀ rest r w alive) (op : Op) :
    Follows r₀ rest (r.apply op) { w with reg := op.apply w.reg }
      (alive.filter fun p => ∃ e ∈ op.apply w.reg, e.addr = p) := by
  have hsame := Registry.addrs_apply h.same op
  refine ⟨hsame, ?_⟩
  intro p hp
  have hreg : (∃ x ∈ (r.apply op).slots, x.addr = p) ↔ ∃ e ∈ op.apply w.reg, e.addr = p := by
    rw [← List.mem_map, ← List.mem_map, hsame]
  simp only [List.mem_filter, decide_eq_true_eq, ← hreg]
  by_cases hstill : ∃ x ∈ (r.apply op).slots, x.addr = p
  · rw [Registry.revents_apply hstill, h.revents p hp]
    simp only [hstill, and_true]
  · rw [if_neg fun hboth => hstill hboth.2]
    by_contra hne
    obtain ⟨i, x, hi, hx⟩ := Registry.exists_slot hne
    exact hstill ⟨x, List.mem_of_getElem? hi, hx⟩

private theorem orderly (h : Follows r₀ rest r w alive) {op : Op} (hsafe : r.Safe op) (hlegal : op.Legal w.reg)
    (hfits : op.Fits) : Orderly w.reg op := by
  refine ⟨hlegal, ?_⟩
  cases op with
  | add p fd flags => exact hfits
  | update p flags => exact hfits
  | remove p =>
    obtain ⟨x, hlast, rfl⟩ := hsafe
    have haddr := congrArg List.getLast? h.same
    rw [List.getLast?_map, List.getLast?_map, hlast] at haddr
    obtain ⟨e, he, heq⟩ := Option.map_eq_some_iff.1 haddr.symm
    exact ⟨e, he, heq⟩

private theorem applyAll (h : Follows r₀ rest r w alive) {ops : List Op} (hsafe : r.AllSafe ops)
    (hlegal : EventBaseEpoll.Watch.AllLegal (ops.map .request) w) (hfits : ∀ op ∈ ops, op.Fits) :
    Along Orderly w.reg ops ∧
      Follows r₀ rest (r.applyAll ops) (EventBaseEpoll.Watch.applyAll (ops.map .request) w alive).1
        (EventBaseEpoll.Watch.applyAll (ops.map .request) w alive).2 := by
  induction ops generalizing r w alive with
  | nil => exact ⟨trivial, h⟩
  | cons op ops ih =>
    obtain ⟨hop, hsafe⟩ := hsafe
    obtain ⟨hop', hlegal⟩ := hlegal
    obtain ⟨hfit, hfits⟩ := List.forall_mem_cons.1 hfits
    obtain ⟨halong, hfollows⟩ := ih (h.apply op) hsafe hlegal hfits
    exact ⟨⟨h.orderly hop hop' hfit, halong⟩, hfollows⟩

private theorem clear (h : Follows r₀ (p :: rest) r w alive) (hp : p ∉ rest) :
    Follows r₀ rest (r.clear p) w alive where
  same := (r.clear_addrs p).trans h.same
  revents q hq := by
    have hne : q ≠ p := by
      rintro rfl
      exact hp hq
    rw [Registry.revents_clear hne]
    exact h.revents q (List.mem_cons_of_mem p hq)

private theorem tail (h : Follows r₀ (p :: rest) r w alive) : Follows r₀ rest r w alive where
  same := h.same
  revents q hq := h.revents q (List.mem_cons_of_mem p hq)

/-- The events of `rest` have their turns with both backends, and the runner is called for the same ones. -/
private theorem dispatch_eq {fd : Nat → Int} {i : Nat} {calls : List Call} (h : Follows r₀ rest r w alive)
    (hnodup : rest.Nodup) (hfits : ∀ calls, ∀ op ∈ runner calls, op.Fits)
    (hsafe : r.SafeTurns fd data runner i rest calls)
    (hlegal : EventBaseEpoll.Watch.LegalDispatch (Pair.acts runner)
      ((rest.filter fun p => r₀.revents p ≠ 0).map (r₀.call fd data)) w alive calls) :
    ∃ new, (r.turns fd data runner rest calls).2 = calls ++ new ∧
      EventBaseEpoll.Watch.dispatch (Pair.acts runner)
        ((rest.filter fun p => r₀.revents p ≠ 0).map (r₀.call fd data)) w alive calls =
        ({ w with reg := (opsOf runner calls new).foldl Op.apply w.reg }, calls ++ new) ∧
      Along Orderly w.reg (opsOf runner calls new) := by
  induction rest generalizing r w alive calls i with
  | nil => exact ⟨[], (List.append_nil _).symm, by simp [EventBaseEpoll.Watch.dispatch, opsOf], trivial⟩
  | cons p rest ih =>
    obtain ⟨hp, hnodup⟩ := List.nodup_cons.1 hnodup
    have hrevents := h.revents p List.mem_cons_self
    rw [Registry.SafeTurns] at hsafe
    rw [Registry.turns]
    by_cases hquiet : r.revents p = 0
    · -- either it was not ready, or it was removed
      rw [if_pos hquiet]
      by_cases hready : r₀.revents p = 0
      · rw [List.filter_cons_of_neg (by simpa using hready)] at hlegal ⊢
        exact ih h.tail hnodup (hsafe.1 hquiet) hlegal
      · rw [List.filter_cons_of_pos (by simpa using hready), List.map_cons] at hlegal ⊢
        have hdead : p ∉ alive := by
          intro halive
          rw [if_pos halive] at hrevents
          exact hready (hrevents.symm.trans hquiet)
        rw [EventBaseEpoll.Watch.dispatch]
        rw [EventBaseEpoll.Watch.LegalDispatch] at hlegal
        rw [if_neg (show (r₀.call fd data p).root ∉ alive from hdead)]
        exact ih h.tail hnodup (hsafe.1 hquiet) (hlegal.2 hdead)
    · have halive : p ∈ alive := by
        by_contra hdead
        rw [if_neg hdead] at hrevents
        exact hquiet hrevents
      rw [if_pos halive] at hrevents
      have hready : r₀.revents p ≠ 0 := by rwa [← hrevents]
      have hcall : r.call fd data p = r₀.call fd data p := by
        unfold Registry.call
        rw [hrevents]
      rw [if_neg hquiet, hcall]
      rw [hcall] at hsafe
      rw [List.filter_cons_of_pos (by simpa using hready), List.map_cons] at hlegal ⊢
      rw [EventBaseEpoll.Watch.dispatch]
      rw [EventBaseEpoll.Watch.LegalDispatch] at hlegal
      rw [if_pos (show (r₀.call fd data p).root ∈ alive from halive)]
      obtain ⟨hacts, hlegal⟩ := hlegal.1 halive
      obtain ⟨hops, -, hsafe⟩ := hsafe.2 hquiet
      obtain ⟨halong, hfollows⟩ := h.applyAll hops hacts (hfits _)
      have hreg := EventBaseEpoll.Watch.applyAll_request (runner (calls ++ [r₀.call fd data p])) w alive
      obtain ⟨new, hturns, hdispatch, hrest⟩ := ih (hfollows.clear hp) hnodup hsafe hlegal
      refine ⟨r₀.call fd data p :: new, ?_, ?_, ?_⟩
      · rw [hturns, List.append_assoc]
        rfl
      · rw [opsOf, List.foldl_append]
        refine hdispatch.trans ?_
        rw [hreg, List.append_assoc]
        rfl
      · rw [opsOf, along_append]
        rw [hreg] at hrest
        exact ⟨halong, hrest⟩

end Follows

end EventBasePoll

namespace Pair

variable {J : Junk} {data : Nat → Nat} {runner : Call → List Op}
variable {x : Pair} {avail : Int → UInt32} {reg reg' : List Entry}

/-! ### The order of the calls -/

@[simp] theorem onCall_snoc (calls : List Call) (c : Call) : onCall runner (calls ++ [c]) = runner c := by
  simp [onCall]

private theorem onCall_fits (h : ∀ c, ∀ op ∈ runner c, op.Fits) (calls : List Call) :
    ∀ op ∈ onCall runner calls, op.Fits := by
  unfold onCall
  rcases calls.getLast? with _ | c
  · exact fun op hop => absurd hop List.not_mem_nil
  · exact h c

private theorem opsOf_onCall (calls new : List Call) :
    EventBasePoll.opsOf (onCall runner) calls new = new.flatMap runner := by
  induction new generalizing calls with
  | nil => rfl
  | cons c new ih => rw [EventBasePoll.opsOf, onCall_snoc, ih, List.flatMap_cons]

private theorem apply_perm (h : reg.Perm reg') (op : Op) : (op.apply reg).Perm (op.apply reg') := by
  cases op with
  | add p fd flags => exact h.append_right _
  | update p flags => exact h.map _
  | remove p => exact h.filter _

private theorem apply_comm {op op' : Op} (hne : op.addr ≠ op'.addr) (reg : List Entry) :
    (op'.apply (op.apply reg)).Perm (op.apply (op'.apply reg)) := by
  cases op with
  | add p fd flags =>
    cases op' with
    | add q fd' flags' =>
      show ((reg ++ _) ++ _).Perm ((reg ++ _) ++ _)
      rw [List.append_assoc, List.append_assoc]
      exact (List.Perm.swap ..).append_left _
    | update q flags' =>
      have hpq : p ≠ q := hne
      simp [Op.apply, hpq]
    | remove q =>
      have hpq : p ≠ q := hne
      simp [Op.apply, hpq]
  | update p flags =>
    cases op' with
    | add q fd flags' =>
      have hqp : q ≠ p := hne.symm
      simp [Op.apply, hqp]
    | update q flags' =>
      have hpq : p ≠ q := hne
      refine .of_eq ?_
      simp only [Op.apply, List.map_map]
      apply List.map_congr_left
      intro e _
      by_cases hp : e.addr = p
      · have hq : e.addr ≠ q := hp ▸ hpq
        simp [hp, hpq]
      · by_cases hq : e.addr = q <;> simp [hp, hq, hpq.symm]
    | remove q =>
      refine .of_eq ?_
      simp only [Op.apply, List.filter_map]
      congr 2
      funext e
      dsimp only [Function.comp]
      split <;> rfl
  | remove p =>
    cases op' with
    | add q fd flags' =>
      have hqp : q ≠ p := hne.symm
      simp [Op.apply, hqp]
    | update q flags' =>
      refine .of_eq ?_
      simp only [Op.apply, List.filter_map]
      congr 2
      funext e
      dsimp only [Function.comp]
      split <;> rfl
    | remove q =>
      refine .of_eq ?_
      simp only [Op.apply, List.filter_filter, Bool.and_comm]

private theorem foldl_perm (h : reg.Perm reg') (ops : List Op) :
    (ops.foldl Op.apply reg).Perm (ops.foldl Op.apply reg') := by
  induction ops generalizing reg reg' with
  | nil => exact h
  | cons op ops ih => exact ih (apply_perm h op)

private theorem foldl_move {op : Op} {ops : List Op} (h : ∀ op' ∈ ops, op.addr ≠ op'.addr) (reg : List Entry) :
    ((op :: ops).foldl Op.apply reg).Perm ((ops ++ [op]).foldl Op.apply reg) := by
  induction ops generalizing reg with
  | nil => exact .refl _
  | cons op' ops ih =>
    obtain ⟨hfirst, h⟩ := List.forall_mem_cons.1 h
    exact (foldl_perm (apply_comm hfirst reg) ops).trans (ih h _)

private theorem foldl_comm {ops ops' : List Op} (h : ∀ op ∈ ops, ∀ op' ∈ ops', op.addr ≠ op'.addr)
    (reg : List Entry) : ((ops ++ ops').foldl Op.apply reg).Perm ((ops' ++ ops).foldl Op.apply reg) := by
  induction ops generalizing reg with
  | nil => rw [List.nil_append, List.append_nil]
  | cons op ops ih =>
    obtain ⟨hop, h⟩ := List.forall_mem_cons.1 h
    have hrest := foldl_perm (foldl_move hop reg) ops
    rw [← List.foldl_append, ← List.foldl_append, List.append_assoc, List.singleton_append] at hrest
    exact (ih h _).trans hrest

/-- The order of calls for different events does not matter for what is registered afterwards. -/
private theorem calls_perm {calls calls' : List Call} (hperm : calls.Perm calls')
    (hapart : calls.Pairwise fun c c' => ∀ op ∈ runner c, ∀ op' ∈ runner c', op.addr ≠ op'.addr)
    (reg : List Entry) :
    ((calls.flatMap runner).foldl Op.apply reg).Perm ((calls'.flatMap runner).foldl Op.apply reg) := by
  induction hperm generalizing reg with
  | nil => exact .refl _
  | cons c _ ih =>
    rw [List.flatMap_cons, List.flatMap_cons, List.foldl_append, List.foldl_append]
    exact ih (List.pairwise_cons.1 hapart).2 _
  | swap c c' l =>
    have hcomm := foldl_comm ((List.pairwise_cons.1 hapart).1 c List.mem_cons_self) reg
    simp only [List.flatMap_cons, ← List.append_assoc, List.foldl_append] at hcomm ⊢
    exact foldl_perm hcomm _
  | trans h₁ _ ih₁ ih₂ =>
    have hapart' := (h₁.pairwise_iff fun h op hop op' hop' => (h op' hop' op hop).symm).1 hapart
    exact (ih₁ hapart reg).trans (ih₂ hapart' reg)

/-- If no event is removed while its turn is to come, the runner is called for all of them. -/
private theorem dispatch_undisturbed {rest calls : List Call} {w : EventBaseEpoll.Watch} {alive : List Nat}
    (h : EventBaseEpoll.Watch.UndisturbedDispatch (acts (onCall runner)) rest w alive calls) :
    EventBaseEpoll.Watch.dispatch (acts (onCall runner)) rest w alive calls =
      ({ w with reg := (rest.flatMap runner).foldl Op.apply w.reg }, calls ++ rest) := by
  induction rest generalizing w alive calls with
  | nil =>
    rw [List.append_nil]
    rfl
  | cons c rest ih =>
    obtain ⟨halive, h⟩ := h
    have hreg : (EventBaseEpoll.Watch.applyAll (acts (onCall runner) (calls ++ [c])) w alive).1 =
        { w with reg := (runner c).foldl Op.apply w.reg } := by
      rw [acts, onCall_snoc]
      exact EventBaseEpoll.Watch.applyAll_request ..
    rw [EventBaseEpoll.Watch.dispatch, if_pos halive, ih h, hreg, List.flatMap_cons, List.foldl_append,
      List.append_assoc, List.singleton_append]

/-! ### What is ready -/

/-- What `poll` has when it returns -/
private def readied (avail : Int → UInt32) (x : Pair) : Registry :=
  (registry x.reg x.poll.base.max).polled (revents avail x.poll)

private theorem readied_addrs : (readied avail x).slots.map Slot.addr = x.reg.map Entry.addr := by
  apply List.ext_getElem?
  intro i
  simp only [readied, registry, Registry.polled, List.getElem?_map, List.getElem?_mapIdx, Option.map_map]
  rfl

private theorem readied_revents (h : InOrder x.reg x.poll) {e : Entry} (he : e ∈ x.reg)
    (hsmall : (avail e.fd).toNat < 2 ^ 15) : (readied avail x).revents e.addr = (avail e.fd).toNat := by
  obtain ⟨i, hi⟩ := List.getElem?_of_mem he
  obtain ⟨-, -, -, ev, hev, hevfd, -⟩ := h.slot i e hi
  have hslot : (readied avail x).slots[i]? = some ⟨e.addr, revents avail x.poll i⟩ := by
    simp [readied, registry, Registry.polled, hi]
  have hnodup : ((readied avail x).slots.map Slot.addr).Nodup := by
    rw [readied_addrs]
    exact h.addrs
  have hrevents := Registry.revents_eq hnodup (List.mem_of_getElem? hslot)
  refine hrevents.trans ?_
  unfold revents
  have hshort := (EventBasePoll.short_eq_iff _ (avail e.fd).toNat_lt).2 hsmall
  rw [hev, Option.map_some, Option.getD_some, hevfd, hshort]

/-- Only the addresses matter to what is registered when `poll` returns. -/
private theorem polled_eq (r : Registry) (revents : Nat → Int) :
    r.polled revents = ⟨(r.slots.map Slot.addr).mapIdx fun i p => ⟨p, revents i⟩, r.max⟩ := by
  unfold Registry.polled
  congr 1
  apply List.ext_getElem?
  intro i
  rw [List.getElem?_mapIdx, List.getElem?_mapIdx, List.getElem?_map, Option.map_map]
  rfl

private theorem registry_addrs : (registry x.reg x.poll.base.max).slots.map Slot.addr = x.reg.map Entry.addr := by
  unfold registry
  rw [List.map_map]
  rfl

private theorem toFlags_toNat (flags : UInt32) : toFlags (flags.toNat : Int) = flags := by
  have hlt := flags.toNat_lt
  have hnat : ((flags.toNat : Int) % 2 ^ 32).toNat = flags.toNat := by omega
  unfold toFlags UInt32.ofInt
  rw [hnat, UInt32.ofNat_toNat]

private theorem ready_self (h : InOrder x.reg x.poll) : (ready avail x.reg).filterMap (fun y =>
    (x.watch.reg.find? fun e => e.fd = y.1).map fun e => (⟨e.addr, e.fd, data e.addr, y.2⟩ : Call)) =
      (readyOf avail x.reg).map (callOf data avail) := by
  rw [ready, List.filterMap_map, List.filterMap_congr (g := some ∘ callOf data avail)]
  · rw [List.filterMap_eq_map]
  · intro e he
    have hmem : e ∈ x.reg := List.mem_of_mem_filter he
    obtain ⟨e', hfind⟩ : ∃ e', x.reg.find? (fun e' => e'.fd = e.fd) = some e' := by
      rw [← Option.isSome_iff_exists, List.find?_isSome]
      exact ⟨e, hmem, decide_eq_true rfl⟩
    have hfd : e'.fd = e.fd := by simpa using List.find?_some hfind
    rw [List.inj_on_of_nodup_map h.fds (List.mem_of_find?_eq_some hfind) hmem hfd] at hfind
    dsimp only [Function.comp, watch]
    rw [hfind]
    rfl

/-- What `epoll_wait` reports in any order are the events that are ready. -/
private theorem ready_perm (h : InOrder x.reg x.poll) (hquiet : Quiet data runner x avail)
    {fds : List (Int × UInt32)} (hfds : fds.Perm (ready avail x.reg)) :
    (x.watch.ready data fds).Perm ((readyOf avail x.reg).map (callOf data avail)) := by
  have hperm := (hfds.filterMap fun y =>
    (x.watch.reg.find? fun e => e.fd = y.1).map fun e => (⟨e.addr, e.fd, data e.addr, y.2⟩ : Call)).trans
      (.of_eq (ready_self h))
  unfold EventBaseEpoll.Watch.ready
  rw [List.take_of_length_le]
  · exact hperm
  · rw [hperm.length_eq, List.length_map]
    exact hquiet.few

private theorem ready_slots (h : InOrder x.reg x.poll) (hquiet : Quiet data runner x avail) :
    x.watch.ready data (ready avail x.reg) = (readyOf avail x.reg).map (callOf data avail) := by
  unfold EventBaseEpoll.Watch.ready
  rw [ready_self h, List.take_of_length_le]
  rw [List.length_map]
  exact hquiet.few

private theorem polled_calls (h : InOrder x.reg x.poll) (hquiet : Quiet data runner x avail) :
    ((x.reg.map Entry.addr).filter fun p => (readied avail x).revents p ≠ 0).map
      ((readied avail x).call (fun p => (x.poll.event p).fd) data) =
        (readyOf avail x.reg).map (callOf data avail) := by
  have hfilter : (x.reg.filter fun e => (readied avail x).revents e.addr ≠ 0) = readyOf avail x.reg := by
    apply List.filter_congr
    intro e he
    rw [readied_revents h he (hquiet.small e he)]
    have hiff : ((avail e.fd).toNat : Int) = 0 ↔ avail e.fd = 0 := by
      rw [Int.natCast_eq_zero, ← UInt32.toNat_inj, UInt32.toNat_zero]
    simp only [ne_eq, hiff]
  rw [List.filter_map, List.map_map]
  refine (congrArg (List.map _) hfilter).trans ?_
  apply List.map_congr_left
  intro e he
  have hmem : e ∈ x.reg := List.mem_of_mem_filter he
  obtain ⟨i, hi⟩ := List.getElem?_of_mem hmem
  dsimp only [Function.comp, Registry.call, callOf]
  rw [readied_revents h hmem (hquiet.small e hmem), toFlags_toNat, (h.slot i e hi).2.1]

/-! ### Runs -/

/-- Both backends hold what is registered. -/
private structure Holds (x : Pair) : Prop where
  poll : InOrder x.reg x.poll
  epoll : EventBaseEpoll.Holds x.watch x.epoll

private theorem Holds.agree (h : Holds x) : Agree x := by
  intro fd flags p
  rw [h.epoll.interest]
  constructor
  · rintro ⟨e, he, rfl, heq⟩
    obtain ⟨rfl, rfl⟩ := EpollEvent.mk.inj heq
    obtain ⟨i, hi⟩ := List.getElem?_of_mem he
    obtain ⟨hevent, -, -, ev, hev, hfd, hflags⟩ := h.poll.slot i e hi
    have hlt := (List.getElem?_eq_some_iff.1 hi).1
    exact ⟨i, ev, by rw [h.poll.nfds]; exact hlt, hevent, hev, hfd, hflags⟩
  · rintro ⟨i, ev, hlt, hevent, hev, rfl, hflags⟩
    rw [h.poll.nfds] at hlt
    have hi := List.getElem?_eq_getElem hlt
    obtain ⟨hevent', -, -, ev', hev', hfd', hflags'⟩ := h.poll.slot i _ hi
    obtain rfl := Option.some.inj (hev'.symm.trans hev)
    refine ⟨_, List.getElem_mem hlt, hfd'.symm, ?_⟩
    rw [Option.some.inj (hevent'.symm.trans hevent)]
    rw [hflags'] at hflags
    rw [UInt32.toNat_inj.1 (Int.ofNat.inj hflags)]

private theorem Holds.request (h : Holds x) {op : Op} (hlegal : op.Legal x.reg) (hsafe : op.Safe x.reg) :
    ∃ s t, op.perform J x.poll = some (0, s) ∧ EventBaseEpoll.request x.epoll op = some (0, t) ∧
      Holds ⟨op.apply x.reg, s, t⟩ := by
  obtain ⟨s, hpoll, hs⟩ := h.poll.perform (J := J) hlegal hsafe
  obtain ⟨t, hepoll, ht⟩ := h.epoll.request hlegal
  exact ⟨s, t, hpoll, hepoll, hs, ht⟩

/-- In a quiet round the runner is called for the same events, and the registrations are the same afterwards. -/
private theorem Holds.round (h : Holds x) (hquiet : Quiet data runner x avail) {fds : List (Int × UInt32)}
    (hfds : fds.Perm (ready avail x.reg)) : ∃ s t calls',
      EventBasePoll.iterate J data (onCall runner) x.poll (some (revents avail x.poll)) =
          some (s, (readyOf avail x.reg).map (callOf data avail)) ∧
        EventBaseEpoll.turn data (acts (onCall runner)) x.epoll [] (round fds) = some (t, calls') ∧
        calls'.Perm ((readyOf avail x.reg).map (callOf data avail)) ∧
        Holds ⟨(((readyOf avail x.reg).map (callOf data avail)).flatMap runner).foldl Op.apply x.reg, s, t⟩ := by
  let rest := x.reg.map Entry.addr
  obtain ⟨r, hr, haddrs, hmax⟩ := h.poll.holds
  have hpolled : r.polled (revents avail x.poll) = readied avail x := by
    rw [readied, polled_eq, polled_eq, haddrs, registry_addrs, hmax]
    rfl
  have hfollows : EventBasePoll.Follows (readied avail x) rest (readied avail x) x.watch
      (rest.filter fun p => (readied avail x).revents p ≠ 0) := by
    refine ⟨readied_addrs, ?_⟩
    intro p hp
    by_cases hready : (readied avail x).revents p = 0 <;> simp [hready, hp]
  have hsafe : (readied avail x).SafeTurns (fun p => (x.poll.event p).fd) data (onCall runner) 0 rest [] := by
    have hsafe := hquiet.safe
    unfold Registry.SafeIteration at hsafe
    rwa [registry_addrs] at hsafe
  have hsafe' : r.SafeIteration (fun p => (x.poll.event p).fd) data (onCall runner)
      (some (revents avail x.poll)) := by
    show (r.polled (revents avail x.poll)).SafeTurns _ data (onCall runner) 0 _ []
    rwa [haddrs, hpolled]
  -- the calls of `poll` are those of `epoll` if it reports the descriptors in the order of the slots
  have hcalls := polled_calls h.poll hquiet
  have hroots : (x.watch.ready data (ready avail x.reg)).map Call.root =
      rest.filter fun p => (readied avail x).revents p ≠ 0 := by
    rw [ready_slots h.poll hquiet, ← hcalls, List.map_map]
    exact List.map_id _
  have hlegal : EventBaseEpoll.Watch.LegalDispatch (acts (onCall runner)) (x.watch.ready data (ready avail x.reg))
      x.watch ((x.watch.ready data (ready avail x.reg)).map Call.root) [] := (hquiet.legal _ (.refl _)).2.2 _ rfl
  have hstill : EventBaseEpoll.Watch.UndisturbedDispatch (acts (onCall runner))
      (x.watch.ready data (ready avail x.reg)) x.watch
      ((x.watch.ready data (ready avail x.reg)).map Call.root) [] := hquiet.undisturbed _ (.refl _) _ rfl
  rw [hroots, ready_slots h.poll hquiet, ← hcalls] at hlegal hstill
  obtain ⟨new, hturns, hdispatch, halong⟩ := hfollows.dispatch_eq h.poll.addrs (onCall_fits hquiet.fits) hsafe hlegal
  rw [dispatch_undisturbed hstill, hcalls] at hdispatch
  obtain rfl : (readyOf avail x.reg).map (callOf data avail) = new := congrArg Prod.snd hdispatch
  obtain ⟨s, hpoll, -⟩ := EventBasePoll.iterate_eq (J := J) hr hsafe'
  have hiterate : (r.iterate (fun p => (x.poll.event p).fd) data (onCall runner)
      (some (revents avail x.poll))).2 = [] ++ (readyOf avail x.reg).map (callOf data avail) := by
    show ((r.polled (revents avail x.poll)).turns _ data (onCall runner) _ []).2 = _
    rw [haddrs, hpolled]
    exact hturns
  rw [hiterate] at hpoll
  obtain ⟨new', hnew, hkeep⟩ := EventBasePoll.inOrder_loop hpoll
  obtain rfl := List.append_cancel_left hnew
  rw [opsOf_onCall] at hkeep halong
  -- the calls of `epoll`, in the order in which the descriptors are reported
  obtain ⟨t, hepoll, ht⟩ := h.epoll.turn_eq (hquiet.legal fds hfds) (hquiet.undisturbed fds hfds)
  have hperm := ready_perm h.poll hquiet hfds
  have hturn : x.watch.turn data (acts (onCall runner)) [] (Pair.round fds) =
      ({ x.watch with reg := ((x.watch.ready data fds).flatMap runner).foldl Op.apply x.reg },
        x.watch.ready data fds) := dispatch_undisturbed (hquiet.undisturbed fds hfds _ rfl)
  rw [hturn] at hepoll ht
  have hapart : ((readyOf avail x.reg).map (callOf data avail)).Pairwise fun c c' =>
      ∀ op ∈ runner c, ∀ op' ∈ runner c', op.addr ≠ op'.addr := by
    rw [List.pairwise_map]
    refine List.Pairwise.imp (fun hne => hquiet.apart _ _ hne) ?_
    exact (List.pairwise_map.1 h.poll.addrs).sublist List.filter_sublist
  refine ⟨s, t, _, hpoll, hepoll, hperm, hkeep x.reg (h.poll.polled _) halong, ?_⟩
  exact ht.perm (calls_perm hperm.symm hapart x.reg)

/-- In every run in which the backends are used alike, the slots of `poll` are what the kernel holds for `epoll`, both
succeed, and in a round that is quiet the runner is called once for each event that is ready, with the same flags, in
whatever order `epoll_wait` reports them. -/
theorem backends_agree (h : Reachable (Initial J) (Step J data) x) :
    Agree x ∧ (∀ op, op.Legal x.reg → op.Safe x.reg → Succeeds J x op) ∧
      ∀ runner avail, Quiet data runner x avail → ∀ fds, fds.Perm (ready avail x.reg) →
        SameCalls J data runner x avail fds := by
  have hholds : Holds x := by
    refine h.invariant ?_ ?_
    · rintro ⟨reg, s, t⟩ ⟨rfl, ⟨event, rfl⟩, ⟨event', rfl⟩⟩
      exact ⟨EventBasePoll.init_inOrder event, EventBaseEpoll.init_holds event'⟩
    · intro x x' hx hstep
      cases hstep with
      | request hlegal hsafe hpoll hepoll =>
        obtain ⟨s, t, hpoll', hepoll', h'⟩ := hx.request (J := J) hlegal hsafe
        cases hpoll'.symm.trans hpoll
        cases hepoll'.symm.trans hepoll
        exact h'
      | round hquiet hready hpoll hepoll =>
        obtain ⟨s, t, calls, hpoll', hepoll', -, h'⟩ := hx.round (J := J) hquiet hready
        cases hpoll'.symm.trans hpoll
        cases hepoll'.symm.trans hepoll
        exact h'
  refine ⟨hholds.agree, ?_, ?_⟩
  · intro op hlegal hsafe
    obtain ⟨s, t, hpoll, hepoll, -⟩ := hholds.request (J := J) hlegal hsafe
    exact ⟨s, t, hpoll, hepoll⟩
  · intro runner avail hquiet fds hready
    obtain ⟨s, t, calls, hpoll, hepoll, hperm, -⟩ := hholds.round (J := J) hquiet hready
    exact ⟨s, t, _, calls, hpoll, hepoll, rfl, hperm⟩

private def nullJunk : Junk := ⟨fun _ _ => ⟨0, 0, 0⟩, fun _ _ => 0⟩

/-- A runner that removes the second event when it is called for it -/
private def removeSecond (c : Call) : List Op := if c.root = 2 then [.remove 2] else []

private def two : List Entry := [⟨1, 5, 1⟩, ⟨2, 6, 1⟩]

private theorem mem_removeSecond {c : Call} {op : Op} (h : op ∈ removeSecond c) : c.root = 2 ∧ op = .remove 2 := by
  unfold removeSecond at h
  split at h
  · rename_i hroot
    exact ⟨hroot, List.mem_singleton.1 h⟩
  · exact absurd h List.not_mem_nil

private theorem second_safe {fd : Nat → Int} {r : Registry} {calls : List Call}
    (haddrs : r.slots.map Slot.addr = [1, 2]) (hmax : 2 ≤ r.max) :
    r.SafeTurns fd id (onCall removeSecond) 1 [2] calls := by
  refine ⟨fun _ => trivial, fun _ => ?_⟩
  obtain ⟨x, slots, hslots, hx, hrest⟩ := List.map_eq_cons_iff.1 haddrs
  obtain ⟨y, slots, rfl, hy, hnil⟩ := List.map_eq_cons_iff.1 hrest
  obtain rfl := List.map_eq_nil_iff.1 hnil
  rw [onCall_snoc, removeSecond, if_pos (show (Registry.call fd id r 2).root = 2 from rfl)]
  refine ⟨⟨⟨y, by rw [hslots]; rfl, hy⟩, trivial⟩, ?_, trivial⟩
  simp only [Registry.applyAll, Registry.apply, hslots]
  simp [hx, hy]
  split <;> omega

private theorem ready_two {fds : List (Int × UInt32)} (h : fds.Perm (ready (fun _ => 1) two)) :
    fds = [(5, 1), (6, 1)] ∨ fds = [(6, 1), (5, 1)] := List.perm_pair.1 h

private theorem second_legal : (Op.remove 2).Legal two := ⟨⟨2, 6, 1⟩, .tail _ (.head _), rfl⟩

private theorem two_quiet {s : EventBasePoll.State} {t : EventBaseEpoll.State} (h : InOrder two s) :
    Quiet id removeSecond ⟨two, s, t⟩ fun _ => 1 where
  small _ _ := by decide
  few := by
    show (readyOf (fun _ => 1) two).length ≤ 32
    decide
  fits c op hop := by
    rw [(mem_removeSecond hop).2]
    trivial
  apart c c' hne op hop op' hop' := by
    exact absurd ((mem_removeSecond hop).1.trans (mem_removeSecond hop').1.symm) hne
  safe := by
    have hmax : 2 ≤ s.base.max := by
      have hnfds : s.base.nfds = 2 := h.nfds
      have hle := h.nfds_le
      omega
    refine ⟨fun _ => second_safe rfl hmax, fun _ => ⟨trivial, ?_, second_safe rfl hmax⟩⟩
    show 0 < s.base.max
    omega
  legal fds hfds := by
    refine ⟨trivial, trivial, ?_⟩
    rintro _ ⟨⟩
    rcases ready_two hfds with rfl | rfl
    · refine ⟨fun _ => ⟨trivial, fun _ => ⟨⟨second_legal, trivial⟩, trivial⟩, fun _ => trivial⟩, ?_⟩
      exact fun hdead => absurd (List.Mem.head _) hdead
    · refine ⟨fun _ => ⟨⟨second_legal, trivial⟩, fun _ => ⟨trivial, trivial⟩, fun _ => trivial⟩, ?_⟩
      exact fun hdead => absurd (List.Mem.head _) hdead
  undisturbed fds hfds := by
    rintro _ ⟨⟩
    rcases ready_two hfds with rfl | rfl
    · exact ⟨.head _, .tail _ (.head _), trivial⟩
    · exact ⟨.head _, .head _, trivial⟩

/-- Two events that are ready are reported in the opposite order, and the second one is removed in its call. -/
theorem backends_agree_two : ∃ x, x.reg = two ∧ Agree x ∧
    SameCalls nullJunk id removeSecond x (fun _ => 1) [(6, 1), (5, 1)] := by
  let x₀ : Pair := ⟨[], EventBasePoll.init nullJunk fun _ => ⟨0, 0, 0⟩, EventBaseEpoll.init fun _ => none⟩
  have h₀ : Holds x₀ := ⟨EventBasePoll.init_inOrder _, EventBaseEpoll.init_holds _⟩
  have hlegal : (Op.add 1 5 1).Legal x₀.reg := fun e he => absurd he List.not_mem_nil
  have hlegal' : (Op.add 2 6 1).Legal ((Op.add 1 5 1).apply x₀.reg) := by simp [Op.Legal, Op.apply, x₀]
  have hsafe (reg : List Entry) (p : Nat) (fd : Int) : (Op.add p fd 1).Safe reg := by
    show (1 : UInt32).toNat < 2 ^ 15
    decide
  obtain ⟨s₁, t₁, hpoll₁, hepoll₁, h₁⟩ := h₀.request (J := nullJunk) hlegal (hsafe ..)
  obtain ⟨s₂, t₂, hpoll₂, hepoll₂, h₂⟩ := h₁.request (J := nullJunk) hlegal' (hsafe ..)
  have hreach : Reachable (Initial nullJunk) (Step nullJunk id) ⟨two, s₂, t₂⟩ := by
    apply Reachable.step _ (.request hlegal' (hsafe ..) hpoll₂ hepoll₂)
    apply Reachable.step _ (.request hlegal (hsafe ..) hpoll₁ hepoll₁)
    exact .start ⟨rfl, ⟨_, rfl⟩, _, rfl⟩
  have hagree := backends_agree hreach
  exact ⟨_, rfl, hagree.1, hagree.2.2 _ _ (two_quiet h₂.poll) _ (.swap _ _ [])⟩

end Pair

end Excom
