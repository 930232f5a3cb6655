import Excom.Lib.Slots
import Mathlib.Algebra.Group.Nat.Defs
import Mathlib.Data.List.Nodup

/-!
# The registry of the `poll` backend

`excom/event/poll.c`, up to its loop: two arrays of the same size, one for the kernel and one with the events,
and in each event its place in them.  `registry_faithful_iff`: the registry holds what was added and not
removed, as long as the events are removed in the opposite order and their flags fit into a `short`.
-/

namespace Excom

/-- `struct pollfd` -/
structure PollFd where
  fd : Int
  events : Int
  revents : Int
  deriving DecidableEq

/-- `excom_event_t`.  The fields that the backend only passes on are left out. -/
structure ExcomEvent where
  fd : Int
  flags : UInt32
  bdata : Nat
  deriving DecidableEq

/-- `excom_event_base_poll_t`: the blocks `fds` and `events`, how many of their slots are in use, and how many
there are. The descriptors are different `int`s, so neither number comes near the end of `nfds_t`. -/
structure EventBasePoll where
  fds : Slots PollFd
  events : Slots Nat
  nfds : Nat
  max : Nat

namespace EventBasePoll

/-- The base, and the events that the pointers lead to.  The `k`-th allocation finds `fds k` and `events k` in
its blocks (`Junk`). -/
structure State where
  base : EventBasePoll
  event : Nat → ExcomEvent
  allocs : Nat

structure Junk where
  fds : Nat → Nat → PollFd
  events : Nat → Nat → Nat

def einval : Int := 22

/-- The conversion to `short` -/
def short (n : Nat) : Int := (n : Int).bmod (2 ^ 16)

def initialSize : Nat := 16

variable (J : Junk)

/-- `excom_event_base_poll_init` -/
def init (event : Nat → ExcomEvent) : State where
  base :=
    { fds := Slots.realloc (J.fds 0) [] initialSize,
      events := Slots.realloc (J.events 0) [] initialSize,
      nfds := 0,
      max := initialSize }
  event
  allocs := 1

/-- Both blocks get `max` slots. -/
def resize (s : State) (max : Nat) : State :=
  { s with
    base :=
      { s.base with
        fds := Slots.realloc (J.fds s.allocs) s.base.fds max
        events := Slots.realloc (J.events s.allocs) s.base.events max
        max }
    allocs := s.allocs + 1 }

/-- The test at the top of `excom_event_poll_update` and of `excom_event_poll_remove` -/
def unknown (s : State) (p : Nat) : Option Bool :=
  let index := (s.event p).bdata
  if s.base.nfds < index then some true
  else do
    let q ← s.base.events.load index
    return (s.event q).fd ≠ (s.event p).fd

/-- `excom_event_poll_update` -/
def update (s : State) (p : Nat) : Option (Int × State) := do
  if ← unknown s p then return (einval, s)
  else
    let index := (s.event p).bdata
    let ev ← s.base.fds.load index
    let fds ← s.base.fds.store index { ev with events := short (s.event p).flags.toNat }
    return (0, { s with base := { s.base with fds } })

/-- `excom_event_poll_add` -/
def add (s : State) (p : Nat) : Option (Int × State) := do
  let s := if s.base.max < s.base.nfds + 1 then resize J s (s.base.max * 2) else s
  let event := Function.update s.event p { s.event p with bdata := s.base.nfds }
  let events ← s.base.events.store s.base.nfds p
  let fds ← s.base.fds.store s.base.nfds ⟨(event p).fd, short (event p).flags.toNat, 0⟩
  return (0, { s with base := { s.base with fds, events, nfds := s.base.nfds + 1 }, event })

/-- The two `memmove`s of `excom_event_poll_remove` -/
def shift (base : EventBasePoll) (index : Nat) : Option EventBasePoll :=
  if index + 1 < base.nfds then do
    let fds ← base.fds.memmove (index + 1) index (base.nfds - index)
    let events ← base.events.memmove (index + 1) index (base.nfds - index)
    return { base with fds, events }
  else some base

/-- `base->nfds -= 1`.  There is no result where the number would wrap around. -/
def countDown (base : EventBasePoll) : Option EventBasePoll :=
  if base.nfds = 0 then none else some { base with nfds := base.nfds - 1 }

/-- `excom_event_poll_remove` -/
def remove (s : State) (p : Nat) : Option (Int × State) := do
  if ← unknown s p then return (einval, s)
  else
    let base ← countDown (← shift s.base (s.event p).bdata)
    let s := { s with base }
    return (0, if s.base.nfds < s.base.max / 2 then resize J s (s.base.max / 2) else s)

/-! ### What the registry is for -/

/-- An event that is registered, with the flags of its last `add` or `update` -/
structure Entry where
  addr : Nat
  fd : Int
  flags : UInt32

/-- The event at `p` is filled in, and the backend is called. -/
inductive Op where
  | add (p : Nat) (fd : Int) (flags : UInt32)
  | update (p : Nat) (flags : UInt32)
  | remove (p : Nat)

namespace Op

def perform (s : State) : Op → Option (Int × State)
  | add p fd flags =>
    EventBasePoll.add J { s with event := Function.update s.event p { s.event p with fd, flags } } p
  | update p flags =>
    EventBasePoll.update { s with event := Function.update s.event p { s.event p with flags } } p
  | remove p => EventBasePoll.remove J s p

/-- What is registered afterwards, in the order in which it was added -/
def apply (reg : List Entry) : Op → List Entry
  | add p fd flags => reg ++ [⟨p, fd, flags⟩]
  | update p flags => reg.map fun e => if e.addr = p then { e with flags } else e
  | remove p => reg.filter fun e => e.addr ≠ p

/-- Descriptors are added once, and only what is registered is updated or removed. -/
def Legal (reg : List Entry) : Op → Prop
  | add p fd _ => ∀ e ∈ reg, e.addr ≠ p ∧ e.fd ≠ fd
  | update p _ | remove p => ∃ e ∈ reg, e.addr = p

/-- The flags fit into a `short`, and what is removed was added last. -/
def Safe (reg : List Entry) : Op → Prop
  | add _ _ flags | update _ flags => flags.toNat < 2 ^ 15
  | remove p => ∃ e, reg.getLast? = some e ∧ e.addr = p

end Op

/-- `P` holds of every operation of a sequence, where `reg` is registered before it. -/
def Along (P : List Entry → Op → Prop) : List Entry → List Op → Prop
  | _, [] => True
  | reg, op :: ops => P reg op ∧ Along P (op.apply reg) ops

/-- The registry holds what is registered. -/
structure Faithful (reg : List Entry) (s : State) : Prop where
  nodup : (s.base.events.take s.base.nfds).Nodup
  mem (p : Nat) : p ∈ s.base.events.take s.base.nfds ↔ ∃ e ∈ reg, e.addr = p
  slot (i : Nat) (hi : i < s.base.nfds) : ∃ p ev, s.base.events[i]? = some p ∧ s.base.fds[i]? = some ev ∧
    ev.fd = (s.event p).fd ∧ (s.event p).bdata = i ∧ ∀ e ∈ reg, e.addr = p → ev.events = e.flags.toNat
  nfds_le : s.base.nfds ≤ s.base.max
  /-- The blocks have `max` slots, and a slot beyond them cannot be written. -/
  length_fds : s.base.fds.length = s.base.max
  length_events : s.base.events.length = s.base.max

/-- Every operation runs within the blocks, and the registry is faithful before and after it. -/
def FaithfulRun : List Entry → State → List Op → Prop
  | reg, s, [] => Faithful reg s
  | reg, s, op :: ops =>
    Faithful reg s ∧ ∃ r s', op.perform J s = some (r, s') ∧ FaithfulRun (op.apply reg) s' ops

/-! ### Slots in the order of the registrations -/

/-- The `i`-th registration is in the `i`-th slot. -/
structure InOrder (reg : List Entry) (s : State) : Prop where
  nfds : s.base.nfds = reg.length
  nfds_le : s.base.nfds ≤ s.base.max
  max_pos : 0 < s.base.max
  length_fds : s.base.fds.length = s.base.max
  length_events : s.base.events.length = s.base.max
  addrs : (reg.map Entry.addr).Nodup
  fds : (reg.map Entry.fd).Nodup
  slot (i : Nat) (e : Entry) (hi : reg[i]? = some e) : s.base.events[i]? = some e.addr ∧
    (s.event e.addr).fd = e.fd ∧ (s.event e.addr).bdata = i ∧
    ∃ ev, s.base.fds[i]? = some ev ∧ ev.fd = e.fd ∧ ev.events = e.flags.toNat

variable {J}
variable {reg : List Entry} {s : State}

/-- Flags survive the conversion if and only if they fit. -/
theorem short_eq_iff (n : Nat) (h : n < 2 ^ 32) : short n = n ↔ n < 2 ^ 15 := by
  unfold short Int.bmod
  dsimp only
  split <;> omega

private theorem eq_of_addr (h : InOrder reg s) {e e' : Entry} (he : e ∈ reg) (he' : e' ∈ reg)
    (haddr : e.addr = e'.addr) : e = e' :=
  List.inj_on_of_nodup_map h.addrs he he' haddr

theorem InOrder.take_events (h : InOrder reg s) :
    s.base.events.take s.base.nfds = reg.map Entry.addr := by
  refine List.ext_getElem? fun i => ?_
  rw [List.getElem?_take, List.getElem?_map, h.nfds]
  split
  · rename_i hi
    rw [(h.slot i reg[i] (List.getElem?_eq_getElem hi)).1, List.getElem?_eq_getElem hi]
    rfl
  · rename_i hi
    rw [List.getElem?_eq_none (by omega)]
    rfl

/-- Slots in the order of the registrations are faithful. -/
theorem InOrder.faithful (h : InOrder reg s) : Faithful reg s where
  nodup := by
    rw [h.take_events]
    exact h.addrs
  mem p := by
    rw [h.take_events, List.mem_map]
  slot i hi := by
    rw [h.nfds] at hi
    obtain ⟨hevent, hfd, hbdata, ev, hev, hevfd, hflags⟩ := h.slot i reg[i] (List.getElem?_eq_getElem hi)
    refine ⟨_, ev, hevent, hev, hevfd.trans hfd.symm, hbdata, ?_⟩
    intro e he haddr
    rw [eq_of_addr h he (List.getElem_mem hi) haddr]
    exact hflags
  nfds_le := h.nfds_le
  length_fds := h.length_fds
  length_events := h.length_events

theorem init_inOrder (event : Nat → ExcomEvent) : InOrder [] (init J event) where
  nfds := rfl
  nfds_le := Nat.zero_le _
  max_pos := Nat.zero_lt_succ 15
  length_fds := Slots.length_realloc ..
  length_events := Slots.length_realloc ..
  addrs := List.nodup_nil
  fds := List.nodup_nil
  slot i e hi := by simp at hi

/-! ### Growing and shrinking -/

/-- The blocks may be resized as long as all slots in use have room. -/
theorem InOrder.resize (h : InOrder reg s) {max : Nat} (hpos : 0 < max) (hle : s.base.nfds ≤ max) :
    InOrder reg (resize J s max) where
  nfds := h.nfds
  nfds_le := hle
  max_pos := hpos
  length_fds := Slots.length_realloc ..
  length_events := Slots.length_realloc ..
  addrs := h.addrs
  fds := h.fds
  slot i e hi := by
    obtain ⟨hevent, hfd, hbdata, hev⟩ := h.slot i e hi
    have hlt : i < s.base.nfds := by
      rw [h.nfds]
      exact (List.getElem?_eq_some_iff.1 hi).1
    have hmax := h.nfds_le
    unfold EventBasePoll.resize
    dsimp only
    rw [Slots.realloc_getElem? _ (by rw [h.length_events]; omega) (by omega),
      Slots.realloc_getElem? _ (by rw [h.length_fds]; omega) (by omega)]
    exact ⟨hevent, hfd, hbdata, hev⟩

private theorem InOrder.known (h : InOrder reg s) {e : Entry} {i : Nat} (hi : reg[i]? = some e) :
    unknown s e.addr = some false := by
  obtain ⟨hevent, hfd, hbdata, _⟩ := h.slot i e hi
  have hlt := (List.getElem?_eq_some_iff.1 hi).1
  unfold unknown
  dsimp only
  rw [hbdata, if_neg (by rw [h.nfds]; omega), Slots.load, hevent]
  simp

/-- The registry does not depend on the flags of the events, nor on events that are not registered. -/
private theorem InOrder.frame (h : InOrder reg s) {event : Nat → ExcomEvent}
    (hevent : ∀ e ∈ reg,
      (event e.addr).fd = (s.event e.addr).fd ∧ (event e.addr).bdata = (s.event e.addr).bdata) :
    InOrder reg { s with event } where
  __ := h
  slot i e hi := by
    obtain ⟨haddr, hfd, hbdata, hev⟩ := h.slot i e hi
    obtain ⟨hfd', hbdata'⟩ := hevent e (List.mem_of_getElem? hi)
    exact ⟨haddr, hfd'.trans hfd, hbdata'.trans hbdata, hev⟩

/-! ### Adding -/

/-- An event in the next slot -/
private def added (s : State) (p : Nat) : State :=
  { s with
    base :=
      { s.base with
        fds := s.base.fds.set s.base.nfds ⟨(s.event p).fd, short (s.event p).flags.toNat, 0⟩
        events := s.base.events.set s.base.nfds p
        nfds := s.base.nfds + 1 }
    event := Function.update s.event p { s.event p with bdata := s.base.nfds } }

private theorem add_eq (h : InOrder reg s) (p : Nat) :
    ∃ s1, InOrder reg s1 ∧ s1.base.nfds < s1.base.max ∧ s1.event = s.event ∧
    add J s p = some (0, added s1 p) := by
  have hmax := h.nfds_le
  have hpos := h.max_pos
  obtain ⟨s1, h1, hlt, hevent, heq⟩ : ∃ s1, InOrder reg s1 ∧ s1.base.nfds < s1.base.max ∧ s1.event = s.event ∧
      (if s.base.max < s.base.nfds + 1 then resize J s (s.base.max * 2) else s) = s1 := by
    split
    · exact ⟨_, h.resize (by omega) (by omega), (by omega : s.base.nfds < s.base.max * 2), rfl, rfl⟩
    · exact ⟨s, h, by omega, rfl, rfl⟩
  refine ⟨s1, h1, hlt, hevent, ?_⟩
  unfold add
  dsimp only
  rw [heq, Slots.store_eq (by rw [h1.length_events]; exact hlt), Slots.store_eq
    (by rw [h1.length_fds]; exact hlt)]
  simp [added]

private theorem InOrder.added (h : InOrder reg s) (hlt : s.base.nfds < s.base.max) {p : Nat}
    (hnew : ∀ e ∈ reg, e.addr ≠ p ∧ e.fd ≠ (s.event p).fd) (hflags : (s.event p).flags.toNat < 2 ^ 15) :
    InOrder (reg ++ [⟨p, (s.event p).fd, (s.event p).flags⟩]) (added s p) where
  nfds := by
    rw [List.length_append, ← h.nfds]
    rfl
  nfds_le := hlt
  max_pos := h.max_pos
  length_fds := (List.length_set ..).trans h.length_fds
  length_events := (List.length_set ..).trans h.length_events
  addrs := by
    rw [List.map_append, List.nodup_append]
    refine ⟨h.addrs, List.nodup_singleton _, ?_⟩
    intro a ha b hb
    obtain ⟨e, he, rfl⟩ := List.mem_map.1 ha
    rw [List.mem_singleton.1 hb]
    exact (hnew e he).1
  fds := by
    rw [List.map_append, List.nodup_append]
    refine ⟨h.fds, List.nodup_singleton _, ?_⟩
    intro a ha b hb
    obtain ⟨e, he, rfl⟩ := List.mem_map.1 ha
    rw [List.mem_singleton.1 hb]
    exact (hnew e he).2
  slot i e hi := by
    unfold EventBasePoll.added
    dsimp only
    rcases Nat.lt_or_ge i reg.length with hlt' | hge
    · rw [List.getElem?_append_left hlt'] at hi
      obtain ⟨hevent, hfd, hbdata, hev⟩ := h.slot i e hi
      have hne : e.addr ≠ p := (hnew e (List.mem_of_getElem? hi)).1
      rw [Function.update_of_ne hne, List.getElem?_set_ne (by rw [h.nfds]; omega),
        List.getElem?_set_ne (by rw [h.nfds]; omega)]
      exact ⟨hevent, hfd, hbdata, hev⟩
    · rw [List.getElem?_append_right hge] at hi
      have hlast := (List.getElem?_eq_some_iff.1 hi).1
      rw [List.length_singleton] at hlast
      have hidx : i = s.base.nfds := by
        rw [h.nfds]
        omega
      rw [show i - reg.length = 0 by omega] at hi
      cases hi
      subst hidx
      have hshort := (short_eq_iff _ (s.event p).flags.toNat_lt).2 hflags
      simp [Function.update_self, h.length_events, h.length_fds, hlt, hshort]

private theorem flags_of_added (h : InOrder reg s) (hlt : s.base.nfds < s.base.max) {p : Nat}
    (hf : Faithful (reg ++ [⟨p, (s.event p).fd, (s.event p).flags⟩]) (added s p)) :
    (s.event p).flags.toNat < 2 ^ 15 := by
  obtain ⟨q, ev, hq, hev, _, _, hflags⟩ := hf.slot s.base.nfds (Nat.lt_succ_self _)
  simp only [added] at hq hev
  rw [List.getElem?_set_self (by rw [h.length_events]; exact hlt)] at hq
  rw [List.getElem?_set_self (by rw [h.length_fds]; exact hlt)] at hev
  cases hq
  cases hev
  have hflags := hflags ⟨p, (s.event p).fd, (s.event p).flags⟩ (List.mem_append_right _ (.head _)) rfl
  dsimp only at hflags
  exact (short_eq_iff _ (s.event p).flags.toNat_lt).1 hflags

/-! ### Updating -/

/-- The flags of an event in its slot, which holds `ev` -/
private def updated (s : State) (p i : Nat) (ev : PollFd) : State :=
  { s with
    base := { s.base with fds := s.base.fds.set i { ev with events := short (s.event p).flags.toNat } } }

private theorem update_eq (h : InOrder reg s) {e : Entry} {i : Nat} (hi : reg[i]? = some e) :
    ∃ ev, s.base.fds[i]? = some ev ∧ ev.fd = e.fd ∧ update s e.addr = some (0, updated s e.addr i ev) := by
  obtain ⟨_, _, hbdata, ev, hev, hfd, _⟩ := h.slot i e hi
  refine ⟨ev, hev, hfd, ?_⟩
  unfold update
  rw [h.known hi]
  dsimp only
  rw [hbdata, Slots.load, hev]
  simp [updated, Slots.store_eq (List.getElem?_eq_some_iff.1 hev).1]

private theorem InOrder.updated (h : InOrder reg s) {e : Entry} {i : Nat} (hi : reg[i]? = some e) {ev : PollFd}
    (hfd : ev.fd = e.fd) (hflags : (s.event e.addr).flags.toNat < 2 ^ 15) :
    InOrder ((Op.update e.addr (s.event e.addr).flags).apply reg) (updated s e.addr i ev) where
  nfds := by
    rw [Op.apply, List.length_map]
    exact h.nfds
  nfds_le := h.nfds_le
  max_pos := h.max_pos
  length_fds := (List.length_set ..).trans h.length_fds
  length_events := h.length_events
  addrs := by
    rw [Op.apply, List.map_map, List.map_congr_left (g := Entry.addr)]
    · exact h.addrs
    · intro e' _
      dsimp only [Function.comp]
      split <;> rfl
  fds := by
    rw [Op.apply, List.map_map, List.map_congr_left (g := Entry.fd)]
    · exact h.fds
    · intro e' _
      dsimp only [Function.comp]
      split <;> rfl
  slot j e' hj := by
    rw [Op.apply, List.getElem?_map, Option.map_eq_some_iff] at hj
    obtain ⟨e0, hj, rfl⟩ := hj
    obtain ⟨hevent, hfd0, hbdata, ev0, hev0, hevfd0, hflags0⟩ := h.slot j e0 hj
    unfold EventBasePoll.updated
    dsimp only
    split
    · rename_i haddr
      obtain rfl : e0 = e := eq_of_addr h (List.mem_of_getElem? hj) (List.mem_of_getElem? hi) haddr
      have hij : i = j := by
        have := (h.slot i e0 hi).2.2.1
        exact this.symm.trans hbdata
      subst hij
      have hlt := (List.getElem?_eq_some_iff.1 hev0).1
      have hshort := (short_eq_iff _ (s.event e0.addr).flags.toNat_lt).2 hflags
      refine ⟨hevent, hfd0, hbdata, _, List.getElem?_set_self hlt, hfd, ?_⟩
      dsimp only
      exact hshort
    · rename_i haddr
      have hij : i ≠ j := by
        intro hij
        subst hij
        rw [hi] at hj
        exact haddr (congrArg Entry.addr (Option.some.inj hj).symm)
      rw [List.getElem?_set_ne hij]
      exact ⟨hevent, hfd0, hbdata, ev0, hev0, hevfd0, hflags0⟩

private theorem flags_of_updated (h : InOrder reg s) {e : Entry} {i : Nat} (hi : reg[i]? = some e) {ev : PollFd}
    (hf : Faithful ((Op.update e.addr (s.event e.addr).flags).apply reg) (updated s e.addr i ev)) :
    (s.event e.addr).flags.toNat < 2 ^ 15 := by
  obtain ⟨hevent, _, _, ev0, hev0, _⟩ := h.slot i e hi
  have hlt : i < s.base.nfds := by
    rw [h.nfds]
    exact (List.getElem?_eq_some_iff.1 hi).1
  obtain ⟨q, ev', hq, hev, _, _, hflags⟩ := hf.slot i hlt
  simp only [updated] at hq hev
  rw [hevent] at hq
  rw [List.getElem?_set_self (List.getElem?_eq_some_iff.1 hev0).1] at hev
  cases hq
  cases hev
  have hmem : ({ e with flags := (s.event e.addr).flags } : Entry) ∈
      (Op.update e.addr (s.event e.addr).flags).apply reg := by
    rw [Op.apply, List.mem_map]
    exact ⟨e, List.mem_of_getElem? hi, if_pos rfl⟩
  have hflags := hflags _ hmem rfl
  dsimp only at hflags
  exact (short_eq_iff _ (s.event e.addr).flags.toNat_lt).1 hflags

/-! ### Removing -/

/-- The last event is removed: the slots before it stay. -/
private theorem remove_last {e : Entry} (h : InOrder (reg ++ [e]) s) :
    ∃ s', remove J s e.addr = some (0, s') ∧ InOrder reg s' := by
  have hi : (reg ++ [e])[reg.length]? = some e := List.getElem?_concat_length
  have hbdata := (h.slot _ e hi).2.2.1
  have hlen : s.base.nfds = reg.length + 1 := by
    rw [h.nfds, List.length_append, List.length_singleton]
  have hmax := h.nfds_le
  let s1 : State := { s with base := { s.base with nfds := s.base.nfds - 1 } }
  have h1 : InOrder reg s1 :=
    { nfds := by
        show s.base.nfds - 1 = _
        omega
      nfds_le := by
        show s.base.nfds - 1 ≤ s.base.max
        omega
      max_pos := h.max_pos
      length_fds := h.length_fds
      length_events := h.length_events
      addrs := (List.nodup_append.1 (List.map_append ▸ h.addrs)).1
      fds := (List.nodup_append.1 (List.map_append ▸ h.fds)).1
      slot := by
        intro i e' hi'
        have hlt := (List.getElem?_eq_some_iff.1 hi').1
        exact h.slot i e' (by rw [List.getElem?_append_left hlt]; exact hi') }
  have hshift : shift s.base (s.event e.addr).bdata = some s.base := by
    unfold shift
    rw [hbdata, if_neg (by omega)]
  have hcount : countDown s.base = some s1.base := if_neg (by omega)
  refine ⟨if s1.base.nfds < s1.base.max / 2 then resize J s1 (s1.base.max / 2) else s1, ?_, ?_⟩
  · unfold remove
    rw [h.known hi]
    simp [hshift, hcount, s1]
  · split
    · rename_i hlt
      exact h1.resize (by omega) (by omega)
    · exact h1

/-- Another event is removed: `memmove` leaves it in its slot, and the slot stays in use. -/
private theorem not_faithful_of_remove (h : InOrder reg s) {e : Entry} {i : Nat} (hi : reg[i]? = some e)
    (hlast : i + 1 < reg.length) {r : Int} {s' : State} (hrun : remove J s e.addr = some (r, s')) :
    ¬ Faithful ((Op.remove e.addr).apply reg) s' := by
  intro hf
  obtain ⟨hevent, _, hbdata, _⟩ := h.slot i e hi
  unfold remove at hrun
  rw [h.known hi] at hrun
  simp only [Option.bind_eq_bind, Option.bind_some, Bool.false_eq_true, if_false, hbdata] at hrun
  rcases hshift : shift s.base i with _ | base
  · rw [hshift] at hrun
    cases hrun
  rw [hshift] at hrun
  have hbase : base.nfds = s.base.nfds ∧ base.events[i]? = some e.addr := by
    unfold shift at hshift
    rw [if_pos (by rw [h.nfds]; exact hlast)] at hshift
    simp only [Option.bind_eq_bind, Option.bind_eq_some_iff] at hshift
    obtain ⟨fds, _, events, hevents, hbase⟩ := hshift
    cases hbase
    exact ⟨rfl, (Slots.memmove_below hevents (Nat.lt_succ_self i)).trans hevent⟩
  have hcount : countDown base = some { base with nfds := base.nfds - 1 } := by
    refine if_neg ?_
    rw [hbase.1, h.nfds]
    omega
  have hlt : i < base.nfds - 1 := by
    rw [hbase.1, h.nfds]
    omega
  have hslot : s'.base.events[i]? = some e.addr ∧ i < s'.base.nfds := by
    simp only [Option.bind_some, hcount, Option.pure_def, Option.some.injEq, Prod.mk.injEq] at hrun
    rw [← hrun.2]
    split
    · rename_i hmax
      refine ⟨?_, hlt⟩
      dsimp only [EventBasePoll.resize]
      rw [Slots.realloc_getElem? _ (List.getElem?_eq_some_iff.1 hbase.2).1 (by omega)]
      exact hbase.2
    · exact ⟨hbase.2, hlt⟩
  have hmem : e.addr ∈ s'.base.events.take s'.base.nfds := by
    have htake := List.getElem?_take_of_lt (l := s'.base.events) hslot.2
    exact List.mem_of_getElem? (htake.trans hslot.1)
  obtain ⟨e', he', haddr⟩ := (hf.mem e.addr).1 hmem
  rw [Op.apply, List.mem_filter] at he'
  simp [haddr] at he'

/-! ### Runs -/

private theorem perform_add (h : InOrder reg s) {p : Nat} {fd : Int} {flags : UInt32}
    (hlegal : (Op.add p fd flags).Legal reg) :
    ∃ s1, InOrder reg s1 ∧ s1.base.nfds < s1.base.max ∧ s1.event p = { s.event p with fd, flags } ∧
      (Op.add p fd flags).perform J s = some (0, added s1 p) := by
  let s0 : State := { s with event := Function.update s.event p { s.event p with fd, flags } }
  have h0 : InOrder reg s0 := h.frame fun e he => by
    rw [Function.update_of_ne (hlegal e he).1]
    exact ⟨rfl, rfl⟩
  obtain ⟨s1, h1, hlt, hevent, heq⟩ := add_eq (J := J) h0 p
  refine ⟨s1, h1, hlt, ?_, heq⟩
  rw [hevent]
  exact Function.update_self ..

private theorem perform_update (h : InOrder reg s) {e : Entry} {i : Nat} (hi : reg[i]? = some e)
    (flags : UInt32) :
    ∃ s1 ev, InOrder reg s1 ∧ ev.fd = e.fd ∧ (s1.event e.addr).flags = flags ∧
      (Op.update e.addr flags).perform J s = some (0, updated s1 e.addr i ev) := by
  let s1 : State := { s with event := Function.update s.event e.addr { s.event e.addr with flags } }
  have h1 : InOrder reg s1 := h.frame fun e' _ => by
    by_cases haddr : e'.addr = e.addr
    · rw [haddr, Function.update_self]
      exact ⟨rfl, rfl⟩
    · rw [Function.update_of_ne haddr]
      exact ⟨rfl, rfl⟩
  obtain ⟨ev, _, hfd, heq⟩ := update_eq h1 hi
  refine ⟨s1, ev, h1, hfd, ?_, heq⟩
  show (Function.update s.event e.addr _ e.addr).flags = flags
  rw [Function.update_self]

/-- A safe operation succeeds and keeps the order. -/
theorem InOrder.perform (h : InOrder reg s) {op : Op} (hlegal : op.Legal reg) (hsafe : op.Safe reg) :
    ∃ s', op.perform J s = some (0, s') ∧ InOrder (op.apply reg) s' := by
  cases op with
  | add p fd flags =>
    obtain ⟨s1, h1, hlt, hevent, heq⟩ := perform_add (J := J) h hlegal
    have hadded := h1.added hlt (p := p) (by rw [hevent]; exact hlegal) (by rw [hevent]; exact hsafe)
    rw [hevent] at hadded
    exact ⟨_, heq, hadded⟩
  | update p flags =>
    obtain ⟨e, he, rfl⟩ := hlegal
    obtain ⟨i, hi⟩ := List.getElem?_of_mem he
    obtain ⟨s1, ev, h1, hfd, hflags, heq⟩ := perform_update (J := J) h hi flags
    have hupdated := h1.updated hi hfd (by rw [hflags]; exact hsafe)
    rw [hflags] at hupdated
    exact ⟨_, heq, hupdated⟩
  | remove p =>
    obtain ⟨e, hlast, rfl⟩ := hsafe
    obtain ⟨ys, rfl⟩ := List.getLast?_eq_some_iff.1 hlast
    obtain ⟨s', heq, h'⟩ := remove_last (J := J) h
    have hfilter : (Op.remove e.addr).apply (ys ++ [e]) = ys := Slots.filter_ne_last h.addrs
    rw [hfilter]
    exact ⟨s', heq, h'⟩

/-- After an operation that is not safe, the registry is not faithful. -/
theorem InOrder.safe_of_perform (h : InOrder reg s) {op : Op} (hlegal : op.Legal reg) {r : Int} {s' : State}
    (hrun : op.perform J s = some (r, s')) (hf : Faithful (op.apply reg) s') : op.Safe reg := by
  cases op with
  | add p fd flags =>
    obtain ⟨s1, h1, hlt, hevent, heq⟩ := perform_add (J := J) h hlegal
    rw [heq] at hrun
    cases hrun
    have hflags := flags_of_added (p := p) h1 hlt (by rw [hevent]; exact hf)
    rw [hevent] at hflags
    exact hflags
  | update p flags =>
    obtain ⟨e, he, rfl⟩ := hlegal
    obtain ⟨i, hi⟩ := List.getElem?_of_mem he
    obtain ⟨s1, ev, h1, hfd, hflags, heq⟩ := perform_update (J := J) h hi flags
    rw [heq] at hrun
    cases hrun
    have hfit := flags_of_updated h1 hi (by rw [hflags]; exact hf)
    rw [hflags] at hfit
    exact hfit
  | remove p =>
    obtain ⟨e, he, rfl⟩ := hlegal
    obtain ⟨i, hi⟩ := List.getElem?_of_mem he
    have hlt := (List.getElem?_eq_some_iff.1 hi).1
    refine ⟨e, ?_, rfl⟩
    rw [List.getLast?_eq_getElem?]
    by_cases hlast : i + 1 < reg.length
    · exact absurd hf (not_faithful_of_remove h hi hlast hrun)
    · rw [show reg.length - 1 = i by omega]
      exact hi

private theorem faithfulRun_iff (h : InOrder reg s) (ops : List Op) (hlegal : Along Op.Legal reg ops) :
    FaithfulRun J reg s ops ↔ Along Op.Safe reg ops := by
  induction ops generalizing reg s with
  | nil => exact ⟨fun _ => trivial, fun _ => h.faithful⟩
  | cons op ops ih =>
    obtain ⟨hop, hops⟩ := hlegal
    constructor
    · intro ⟨_, r, s', hrun, hf⟩
      have hsafe : op.Safe reg := h.safe_of_perform hop hrun (by cases ops <;> first | exact hf | exact hf.1)
      obtain ⟨s1, heq, h1⟩ := h.perform (J := J) hop hsafe
      rw [heq] at hrun
      cases hrun
      exact ⟨hsafe, (ih h1 hops).1 hf⟩
    · intro ⟨hsafe, hrest⟩
      obtain ⟨s', heq, h'⟩ := h.perform (J := J) hop hsafe
      exact ⟨h.faithful, 0, s', heq, (ih h' hops).2 hrest⟩

/-- Over any sequence of operations on different descriptors, the registry is faithful exactly when all flags
fit into a `short` and the events are removed in the opposite order. -/
theorem registry_faithful_iff (event : Nat → ExcomEvent) (ops : List Op)
    (hlegal : Along Op.Legal [] ops) : FaithfulRun J [] (init J event) ops ↔ Along Op.Safe [] ops :=
  faithfulRun_iff (init_inOrder event) ops hlegal

private def zeros : Junk := ⟨fun _ _ => ⟨0, 0, 0⟩, fun _ _ => 0⟩

/-- Two events are added, one of them is updated and the last one removed. -/
theorem registry_faithful_last :
    FaithfulRun zeros [] (init zeros fun _ => ⟨0, 0, 0⟩) [.add 1 5 1, .add 2 6 1, .update 1 5, .remove 2] := by
  refine (registry_faithful_iff _ _ ?_).2 ?_
  · simp [Along, Op.Legal, Op.apply]
  · simp [Along, Op.Safe, Op.apply]

/-- The first of two events is removed. -/
theorem registry_not_faithful_first :
    Along Op.Legal [] [.add 1 5 1, .add 2 6 1, .remove 1] ∧
      ¬ FaithfulRun zeros [] (init zeros fun _ => ⟨0, 0, 0⟩) [.add 1 5 1, .add 2 6 1, .remove 1] := by
  have hlegal : Along Op.Legal [] [.add 1 5 1, .add 2 6 1, .remove 1] := by simp [Along, Op.Legal, Op.apply]
  refine ⟨hlegal, ?_⟩
  rw [faithfulRun_iff (init_inOrder _) _ hlegal]
  simp [Along, Op.Safe, Op.apply]

end EventBasePoll

end Excom
