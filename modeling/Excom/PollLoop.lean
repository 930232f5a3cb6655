import Excom.PollRegistry

/-!
# One iteration of the `poll` loop

`excom_event_poll_loop`, from one call of `poll` to the next, with a runner that adds, updates and removes
events while the loop walks along the slots.  The abstract iteration (`Registry.turns`) goes through the events
that were registered when `poll` returned: each has one turn, in which the runner is called if the event is
still registered and was ready.

The loop does the same (`poll_exact`) as long as the runner removes only what was added last, as
`excom_event_poll_remove` needs it, and as long as the arrays keep the slot that is cleared after the call.
-/

namespace Excom

namespace EventBasePoll

/-- The event that the runner is called with -/
structure Call where
  root : Nat
  fd : Int
  data : Nat
  flags : UInt32
  deriving DecidableEq

/-- The conversion of a `short` to `uint32_t` -/
def toFlags (revents : Int) : UInt32 := UInt32.ofInt revents

section

variable (J : Junk) (data : Nat → Nat) (runner : List Call → List Op)

/-- The calls of the backend that the runner makes -/
def performAll (s : State) : List Op → Option State
  | [] => some s
  | op :: ops => do
    let (_, s) ← op.perform J s
    performAll s ops

/-- `base->fds[i].revents = 0` -/
def clearRevents (s : State) (i : Nat) : Option State := do
  let ev ← s.base.fds.load i
  let fds ← s.base.fds.store i { ev with revents := 0 }
  return { s with base := { s.base with fds } }

/-- The loop over the slots, where `poll` returned `n`.  The event at `p` has `data p`, and after a call of the
runner it is `runner calls` that the runner does, where `calls` are all calls so far. -/
def loop (n : Int) (i e : Nat) (s : State) (calls : List Call) : Option (State × List Call) :=
  if h : e < n ∧ i < s.base.nfds then do
    let ev ← s.base.fds.load i
    if ev.revents ≠ 0 then do
      let p ← s.base.events.load i
      let calls := calls ++ [⟨p, (s.event p).fd, data p, toFlags ev.revents⟩]
      let s ← performAll J s (runner calls)
      let s ← clearRevents s i
      loop n (i + 1) (e + 1) s calls
    else loop n (i + 1) e s calls
  else some (s, calls)
termination_by (n.toNat - e, s.base.nfds - i)

/-- `poll` writes the `revents` of the slots in use. -/
def polled (s : State) (revents : Nat → Int) : State :=
  { s with
    base :=
      { s.base with
        fds := s.base.fds.mapIdx fun i ev => if i < s.base.nfds then { ev with revents := revents i } else ev } }

/-- One iteration of `excom_event_poll_loop`: `poll` fails, or fills in `revents` and returns how many slots have
some. -/
def iterate (s : State) : Option (Nat → Int) → Option (State × List Call)
  | none => loop J data runner (-1) 0 0 s []
  | some revents =>
    loop J data runner ((List.range s.base.nfds).countP fun i => revents i ≠ 0) 0 0 (polled s revents) []

end

/-! ### What an iteration is for -/

/-- A registered event, with the `revents` of its slot -/
structure Slot where
  addr : Nat
  revents : Int

/-- What is registered, in the order of the slots, and how many slots there are -/
structure Registry where
  slots : List Slot
  max : Nat

namespace Registry

/-- An event that is added has no `revents`. -/
def apply (r : Registry) : Op → Registry
  | .add p _ _ =>
    { slots := r.slots ++ [⟨p, 0⟩], max := if r.max < r.slots.length + 1 then r.max * 2 else r.max }
  | .update _ _ => r
  | .remove p =>
    { slots := r.slots.filter fun x => x.addr ≠ p
      max := if (r.slots.filter fun x => x.addr ≠ p).length < r.max / 2 then r.max / 2 else r.max }

def applyAll (r : Registry) : List Op → Registry
  | [] => r
  | op :: ops => (r.apply op).applyAll ops

/-- The `revents` of an event, `0` if it is not registered -/
def revents (r : Registry) (p : Nat) : Int := ((r.slots.find? fun x => x.addr = p).map Slot.revents).getD 0

def clear (r : Registry) (p : Nat) : Registry :=
  { r with slots := r.slots.map fun x => if x.addr = p then { x with revents := 0 } else x }

def polled (r : Registry) (revents : Nat → Int) : Registry :=
  { r with slots := r.slots.mapIdx fun i x => { x with revents := revents i } }

variable (fd : Nat → Int) (data : Nat → Nat) (runner : List Call → List Op)

/-- The call for the event at `p` -/
def call (r : Registry) (p : Nat) : Call := ⟨p, fd p, data p, toFlags (r.revents p)⟩

/-- The turns of the events of a list.  In its turn an event is dispatched if it has `revents` and is registered
still, and afterwards it has none. -/
def turns : List Nat → Registry → List Call → Registry × List Call
  | [], r, calls => (r, calls)
  | p :: rest, r, calls =>
    if r.revents p = 0 then turns rest r calls
    else
      turns rest ((r.applyAll (runner (calls ++ [r.call fd data p]))).clear p) (calls ++ [r.call fd data p])

/-- What one iteration is to do -/
def iterate (r : Registry) : Option (Nat → Int) → Registry × List Call
  | none => (r, [])
  | some revents => turns fd data runner (r.slots.map Slot.addr) (r.polled revents) []

/-! ### What the runner may do -/

/-- What is added is new, what is updated is registered, and what is removed was added last. -/
def Safe (r : Registry) : Op → Prop
  | .add p _ _ => ∀ x ∈ r.slots, x.addr ≠ p
  | .update p _ => ∃ x ∈ r.slots, x.addr = p
  | .remove p => ∃ x, r.slots.getLast? = some x ∧ x.addr = p

def AllSafe : Registry → List Op → Prop
  | _, [] => True
  | r, op :: ops => r.Safe op ∧ AllSafe (r.apply op) ops

/-- In every turn the runner is safe, and leaves as many slots as the event of the turn needs. -/
def SafeTurns : Nat → List Nat → Registry → List Call → Prop
  | _, [], _, _ => True
  | i, p :: rest, r, calls =>
    (r.revents p = 0 → SafeTurns (i + 1) rest r calls) ∧
      (r.revents p ≠ 0 → r.AllSafe (runner (calls ++ [r.call fd data p])) ∧
        i < (r.applyAll (runner (calls ++ [r.call fd data p]))).max ∧
        SafeTurns (i + 1) rest ((r.applyAll (runner (calls ++ [r.call fd data p]))).clear p)
          (calls ++ [r.call fd data p]))

def SafeIteration (r : Registry) : Option (Nat → Int) → Prop
  | none => True
  | some revents => SafeTurns fd data runner 0 (r.slots.map Slot.addr) (r.polled revents) []

end Registry

/-- The slots in use hold what is registered. -/
structure Holds (r : Registry) (s : State) : Prop where
  events : s.base.events.take s.base.nfds = r.slots.map Slot.addr
  revents : (s.base.fds.take s.base.nfds).map PollFd.revents = r.slots.map Slot.revents
  nfds : s.base.nfds = r.slots.length
  nfds_le : s.base.nfds ≤ s.base.max
  max : s.base.max = r.max
  max_pos : 0 < s.base.max
  length_fds : s.base.fds.length = s.base.max
  length_events : s.base.events.length = s.base.max
  nodup : (r.slots.map Slot.addr).Nodup
  bdata (i : Nat) (x : Slot) (hi : r.slots[i]? = some x) : (s.event x.addr).bdata = i

/-- The runner is called as it should be, and an event that was not dispatched has the `revents` that it should
have. -/
def Exact (J : Junk) (data : Nat → Nat) (runner : List Call → List Op) (r : Registry) (s : State)
    (poll : Option (Nat → Int)) : Prop :=
  ∃ s' calls, iterate J data runner s poll = some (s', calls) ∧
    calls = (r.iterate (fun p => (s.event p).fd) data runner poll).2 ∧
    ∀ i p ev, i < s'.base.nfds → s'.base.events[i]? = some p → s'.base.fds[i]? = some ev →
      (∀ call ∈ calls, call.root ≠ p) →
      ev.revents = (r.iterate (fun p => (s.event p).fd) data runner poll).1.revents p

/-! ### Slots and what they hold -/

variable {J : Junk} {data : Nat → Nat} {runner : List Call → List Op}
variable {r : Registry} {s s' : State}

namespace Holds

private theorem event_slot (h : Holds r s) {i : Nat} {x : Slot} (hi : r.slots[i]? = some x) :
    s.base.events[i]? = some x.addr := by
  have hlt : i < s.base.nfds := by
    rw [h.nfds]
    exact (List.getElem?_eq_some_iff.1 hi).1
  have hslot := congrArg (fun l => l[i]?) h.events
  simpa [List.getElem?_take_of_lt hlt, hi] using hslot

private theorem fds_slot (h : Holds r s) {i : Nat} {x : Slot} (hi : r.slots[i]? = some x) :
    ∃ ev, s.base.fds[i]? = some ev ∧ ev.revents = x.revents := by
  have hlt : i < s.base.nfds := by
    rw [h.nfds]
    exact (List.getElem?_eq_some_iff.1 hi).1
  have hslot := congrArg (fun l => l[i]?) h.revents
  simpa [List.getElem?_take_of_lt hlt, hi] using hslot

private theorem frame (h : Holds r s) (event : Nat → ExcomEvent)
    (hbdata : ∀ x ∈ r.slots, (event x.addr).bdata = (s.event x.addr).bdata) : Holds r { s with event } where
  __ := h
  bdata i x hi := (hbdata x (List.mem_of_getElem? hi)).trans (h.bdata i x hi)

private theorem resize (h : Holds r s) {max : Nat} (hpos : 0 < max) (hle : s.base.nfds ≤ max) :
    Holds { r with max } (EventBasePoll.resize J s max) := by
  have hmax := h.nfds_le
  exact
    { events := by
        have hlen := h.length_events
        exact (Slots.take_realloc _ (by omega) hle).trans h.events
      revents := by
        have hlen := h.length_fds
        exact (congrArg _ (Slots.take_realloc _ (by omega) hle)).trans h.revents
      nfds := h.nfds
      nfds_le := hle
      max := rfl
      max_pos := hpos
      length_fds := Slots.length_realloc ..
      length_events := Slots.length_realloc ..
      nodup := h.nodup
      bdata := h.bdata }

private theorem known (h : Holds r s) {i : Nat} {x : Slot} (hi : r.slots[i]? = some x) :
    unknown s x.addr = some false := by
  have hlt := (List.getElem?_eq_some_iff.1 hi).1
  unfold unknown
  dsimp only
  rw [h.bdata i x hi, if_neg (by rw [h.nfds]; omega), Slots.load, h.event_slot hi]
  simp

/-! ### What the runner does -/

private theorem grow (h : Holds r s) :
    ∃ s₁, (if s.base.max < s.base.nfds + 1 then EventBasePoll.resize J s (s.base.max * 2) else s) = s₁ ∧
      Holds { r with max := if r.max < r.slots.length + 1 then r.max * 2 else r.max } s₁ ∧
      s₁.event = s.event ∧ s₁.base.nfds < s₁.base.max := by
  have hmax := h.nfds_le
  have hpos := h.max_pos
  have hcap := h.max
  have hcount := h.nfds
  by_cases hfull : s.base.max < s.base.nfds + 1
  · have hlt : s.base.nfds < s.base.max * 2 := by omega
    refine ⟨_, if_pos hfull, ?_, rfl, hlt⟩
    rw [if_pos (by omega), ← hcap]
    exact h.resize (by omega) (Nat.le_of_lt hlt)
  · refine ⟨s, if_neg hfull, ?_, rfl, by omega⟩
    rw [if_neg (by omega)]
    exact h

private theorem push (h : Holds r s) (hroom : s.base.nfds < s.base.max) {p : Nat}
    (hnew : ∀ x ∈ r.slots, x.addr ≠ p) (ev : PollFd) (hev : ev.revents = 0) {e : ExcomEvent}
    (he : e.bdata = s.base.nfds) :
    Holds { r with slots := r.slots ++ [⟨p, 0⟩] }
      { s with
        base :=
          { s.base with
            fds := s.base.fds.set s.base.nfds ev
            events := s.base.events.set s.base.nfds p
            nfds := s.base.nfds + 1 }
        event := Function.update s.event p e } where
  events := by
    have hlen := h.length_events
    show (s.base.events.set s.base.nfds p).take (s.base.nfds + 1) = _
    rw [Slots.take_set_self (by omega), h.events]
    simp
  revents := by
    have hlen := h.length_fds
    show ((s.base.fds.set s.base.nfds ev).take (s.base.nfds + 1)).map PollFd.revents = _
    rw [Slots.take_set_self (by omega), List.map_append, h.revents]
    simp [hev]
  nfds := by
    show s.base.nfds + 1 = _
    rw [h.nfds]
    simp
  nfds_le := hroom
  max := h.max
  max_pos := h.max_pos
  length_fds := (List.length_set ..).trans h.length_fds
  length_events := (List.length_set ..).trans h.length_events
  nodup := by
    simp only [List.map_append, List.map_cons, List.map_nil]
    rw [List.nodup_append]
    refine ⟨h.nodup, List.nodup_singleton p, ?_⟩
    intro q hq q' hq'
    obtain ⟨x, hx, rfl⟩ := List.mem_map.1 hq
    rw [List.mem_singleton.1 hq']
    exact hnew x hx
  bdata := by
    intro i x hi
    show (Function.update s.event p e x.addr).bdata = i
    dsimp only at hi
    by_cases hold : i < r.slots.length
    · rw [List.getElem?_append_left hold] at hi
      rw [Function.update_of_ne (hnew x (List.mem_of_getElem? hi))]
      exact h.bdata i x hi
    · have hlen := (List.getElem?_eq_some_iff.1 hi).1
      rw [List.length_append, List.length_singleton] at hlen
      obtain rfl : i = r.slots.length := by omega
      rw [List.getElem?_concat_length] at hi
      cases hi
      rw [Function.update_self, he]
      exact h.nfds

private theorem add (h : Holds r s) {p : Nat} (hnew : ∀ x ∈ r.slots, x.addr ≠ p) (fd : Int) (flags : UInt32) :
    ∃ s', EventBasePoll.add J s p = some (0, s') ∧ Holds (r.apply (.add p fd flags)) s' ∧
      ∀ q, q ≠ p → s'.event q = s.event q := by
  obtain ⟨s₁, hs₁, h₁, hevent, hroom⟩ := h.grow (J := J)
  have hevents := h₁.length_events
  have hfds := h₁.length_fds
  refine ⟨_, ?_, h₁.push hroom hnew ⟨(s.event p).fd, short (s.event p).flags.toNat, 0⟩ rfl
    (e := { s.event p with bdata := s₁.base.nfds }) rfl, ?_⟩
  · unfold EventBasePoll.add
    dsimp only
    rw [hs₁, Slots.store_eq (by omega), Slots.store_eq (by omega), hevent]
    simp
  · intro q hq
    rw [hevent]
    exact Function.update_of_ne hq _ _

private theorem update (h : Holds r s) {i : Nat} {x : Slot} (hi : r.slots[i]? = some x) :
    ∃ s', EventBasePoll.update s x.addr = some (0, s') ∧ Holds r s' ∧ s'.event = s.event := by
  obtain ⟨ev, hev, -⟩ := h.fds_slot hi
  have hlt := (List.getElem?_eq_some_iff.1 hev).1
  refine ⟨{ s with
      base := { s.base with fds := s.base.fds.set i { ev with events := short (s.event x.addr).flags.toNat } } },
    ?_, ?_, rfl⟩
  · unfold EventBasePoll.update
    rw [h.known hi]
    dsimp only
    rw [h.bdata i x hi, Slots.load, hev]
    simp [Slots.store_eq hlt]
  · exact
      { h with
        revents := by
          show ((s.base.fds.set i _).take s.base.nfds).map PollFd.revents = _
          rw [← h.revents, List.map_take, List.map_take, List.map_set]
          congr 1
          apply List.ext_getElem?
          intro j
          by_cases hj : i = j
          · subst hj
            rw [List.getElem?_set_self (by simpa using hlt)]
            simp [hev]
          · rw [List.getElem?_set_ne hj]
        length_fds := (List.length_set ..).trans h.length_fds }

private theorem pop {ys : List Slot} {x : Slot} (h : Holds r s) (hslots : r.slots = ys ++ [x]) :
    Holds { r with slots := ys } { s with base := { s.base with nfds := s.base.nfds - 1 } } := by
  have hcount := h.nfds
  rw [hslots, List.length_append, List.length_singleton] at hcount
  have hmax := h.nfds_le
  have hnodup := h.nodup
  rw [hslots, List.map_append] at hnodup
  have hlast : s.base.nfds - 1 = ys.length := by omega
  have htake {α : Type} (l : List α) : (l.take s.base.nfds).take ys.length = l.take (s.base.nfds - 1) := by
    rw [List.take_take, Nat.min_eq_left (by omega), hlast]
  exact
    { events := by
        show s.base.events.take (s.base.nfds - 1) = ys.map Slot.addr
        rw [← htake, h.events, hslots, List.map_append, List.take_left' (by simp)]
      revents := by
        show (s.base.fds.take (s.base.nfds - 1)).map PollFd.revents = ys.map Slot.revents
        rw [← htake, List.map_take, h.revents, hslots, List.map_append, List.take_left' (by simp)]
      nfds := hlast
      nfds_le := by
        show s.base.nfds - 1 ≤ s.base.max
        omega
      max := h.max
      max_pos := h.max_pos
      length_fds := h.length_fds
      length_events := h.length_events
      nodup := (List.nodup_append.1 hnodup).1
      bdata := by
        intro i y hy
        have hlt := (List.getElem?_eq_some_iff.1 hy).1
        refine h.bdata i y ?_
        rw [hslots, List.getElem?_append_left hlt]
        exact hy }

private theorem remove {ys : List Slot} {x : Slot} (h : Holds r s) (hslots : r.slots = ys ++ [x]) :
    ∃ s', EventBasePoll.remove J s x.addr = some (0, s') ∧ Holds (r.apply (.remove x.addr)) s' ∧
      s'.event = s.event := by
  have hi : r.slots[ys.length]? = some x := by
    rw [hslots]
    exact List.getElem?_concat_length
  have hcount := h.nfds
  rw [hslots, List.length_append, List.length_singleton] at hcount
  have hmax := h.nfds_le
  have hnodup := h.nodup
  rw [hslots] at hnodup
  let s₁ : State := { s with base := { s.base with nfds := s.base.nfds - 1 } }
  have h₁ : Holds { r with slots := ys } s₁ := h.pop hslots
  have hshift : shift s.base (s.event x.addr).bdata = some s.base := by
    unfold shift
    rw [h.bdata _ x hi, if_neg (by omega)]
  have hdown : countDown s.base = some s₁.base := if_neg (by omega)
  refine ⟨if s₁.base.nfds < s₁.base.max / 2 then EventBasePoll.resize J s₁ (s₁.base.max / 2) else s₁, ?_, ?_, ?_⟩
  · unfold EventBasePoll.remove
    rw [h.known hi]
    simp [hshift, hdown, s₁]
  · have hrest : r.slots.filter (fun y => y.addr ≠ x.addr) = ys := by
      rw [hslots]
      exact Slots.filter_ne_last hnodup
    have hnfds₁ : s₁.base.nfds = ys.length := h₁.nfds
    have hmax₁ : s₁.base.max = r.max := h₁.max
    simp only [Registry.apply, hrest]
    rw [hnfds₁, hmax₁]
    by_cases hhalf : ys.length < r.max / 2
    · rw [if_pos hhalf, if_pos hhalf]
      exact h₁.resize (by omega) (by omega)
    · rw [if_neg hhalf, if_neg hhalf]
      exact h₁
  · split <;> rfl

/-- A safe call of the backend succeeds. -/
theorem perform (h : Holds r s) {op : Op} (hsafe : r.Safe op) :
    ∃ s', op.perform J s = some (0, s') ∧ Holds (r.apply op) s' ∧
      ∀ x ∈ r.slots, (s'.event x.addr).fd = (s.event x.addr).fd := by
  cases op with
  | add p fd flags =>
    have hfilled := h.frame (Function.update s.event p { s.event p with fd, flags }) (by
      intro x hx
      rw [Function.update_of_ne (hsafe x hx)])
    obtain ⟨s', hadd, h', hevent⟩ := hfilled.add (J := J) hsafe fd flags
    refine ⟨s', hadd, h', ?_⟩
    intro x hx
    rw [hevent x.addr (hsafe x hx)]
    exact congrArg ExcomEvent.fd (Function.update_of_ne (hsafe x hx) _ _)
  | update p flags =>
    obtain ⟨x, hx, rfl⟩ := hsafe
    obtain ⟨i, hi⟩ := List.getElem?_of_mem hx
    have hsame : ∀ q, (Function.update s.event x.addr { s.event x.addr with flags } q).bdata =
        (s.event q).bdata ∧
        (Function.update s.event x.addr { s.event x.addr with flags } q).fd = (s.event q).fd := by
      intro q
      by_cases hq : q = x.addr
      · rw [hq, Function.update_self]
        exact ⟨rfl, rfl⟩
      · rw [Function.update_of_ne hq]
        exact ⟨rfl, rfl⟩
    have hfilled := h.frame (Function.update s.event x.addr { s.event x.addr with flags })
      fun y _ => (hsame y.addr).1
    obtain ⟨s', hupdate, h', hevent⟩ := hfilled.update hi
    refine ⟨s', hupdate, h', ?_⟩
    intro y _
    rw [hevent]
    exact (hsame y.addr).2
  | remove p =>
    obtain ⟨x, hlast, rfl⟩ := hsafe
    obtain ⟨ys, hslots⟩ := List.getLast?_eq_some_iff.1 hlast
    obtain ⟨s', hremove, h', hevent⟩ := h.remove (J := J) hslots
    refine ⟨s', hremove, h', ?_⟩
    intro y _
    rw [hevent]

end Holds

/-! ### What keeps its `revents` -/

namespace Registry

/-- What has `revents` later had them before, in the same slot. -/
def Kept (r r' : Registry) : Prop :=
  ∀ (i : Nat) (x : Slot), r'.slots[i]? = some x → x.revents ≠ 0 → r.slots[i]? = some x

theorem Kept.trans {r r' r'' : Registry} (h : Kept r r') (h' : Kept r' r'') : Kept r r'' :=
  fun i x hi hx => h i x (h' i x hi hx) hx

private theorem kept_apply {op : Op} (hnodup : (r.slots.map Slot.addr).Nodup) (hsafe : r.Safe op) :
    Kept r (r.apply op) := by
  intro i x hi hx
  cases op with
  | add p fd flags =>
    simp only [apply] at hi
    by_cases hold : i < r.slots.length
    · rw [List.getElem?_append_left hold] at hi
      exact hi
    · have hmem := List.mem_of_getElem? (List.getElem?_append_right (Nat.not_lt.1 hold) ▸ hi)
      rw [List.mem_singleton.1 hmem] at hx
      exact absurd rfl hx
  | update p flags => exact hi
  | remove p =>
    obtain ⟨y, hlast, rfl⟩ := hsafe
    obtain ⟨ys, hslots⟩ := List.getLast?_eq_some_iff.1 hlast
    rw [hslots] at hnodup
    have hrest : r.slots.filter (fun x => x.addr ≠ y.addr) = ys := by
      rw [hslots]
      exact Slots.filter_ne_last hnodup
    simp only [apply, hrest] at hi
    rw [hslots, List.getElem?_append_left (List.getElem?_eq_some_iff.1 hi).1]
    exact hi

private theorem kept_clear (r : Registry) (p : Nat) : Kept r (r.clear p) := by
  intro i x hi hx
  simp only [clear, List.getElem?_map, Option.map_eq_some_iff] at hi
  obtain ⟨y, hy, hyx⟩ := hi
  split at hyx
  · rw [← hyx] at hx
    exact absurd rfl hx
  · rw [← hyx]
    exact hy

private theorem find_slot (hnodup : (r.slots.map Slot.addr).Nodup) {x : Slot} (hx : x ∈ r.slots) :
    r.slots.find? (fun y => y.addr = x.addr) = some x := by
  rcases hfind : r.slots.find? (fun y => y.addr = x.addr) with _ | y
  · have hnone := List.find?_eq_none.1 hfind x hx
    simp at hnone
  · have haddr : y.addr = x.addr := by simpa using List.find?_some hfind
    rw [hfind, List.inj_on_of_nodup_map hnodup (List.mem_of_find?_eq_some hfind) hx haddr]

theorem revents_eq (hnodup : (r.slots.map Slot.addr).Nodup) {x : Slot} (hx : x ∈ r.slots) :
    r.revents x.addr = x.revents := by
  unfold revents
  rw [find_slot hnodup hx]
  rfl

/-- An event that has `revents` is registered. -/
theorem exists_slot {p : Nat} (h : r.revents p ≠ 0) :
    ∃ (i : Nat) (x : Slot), r.slots[i]? = some x ∧ x.addr = p := by
  unfold revents at h
  rcases hfind : r.slots.find? (fun x => x.addr = p) with _ | x
  · rw [hfind] at h
    exact absurd rfl h
  · obtain ⟨i, hi⟩ := List.getElem?_of_mem (List.mem_of_find?_eq_some hfind)
    exact ⟨i, x, hi, by simpa using List.find?_some hfind⟩

private theorem Kept.revents_ne_zero {r' : Registry} (h : Kept r r') (hnodup : (r.slots.map Slot.addr).Nodup)
    (hnodup' : (r'.slots.map Slot.addr).Nodup) {p : Nat} (hne : r'.revents p ≠ 0) : r.revents p ≠ 0 := by
  obtain ⟨i, x, hi, rfl⟩ := exists_slot hne
  rw [revents_eq hnodup' (List.mem_of_getElem? hi)] at hne
  rw [revents_eq hnodup (List.mem_of_getElem? (h i x hi hne))]
  exact hne

private theorem clear_revents {p : Nat} {x : Slot} (hx : x ∈ (r.clear p).slots) (haddr : x.addr = p) :
    x.revents = 0 := by
  simp only [clear, List.mem_map] at hx
  obtain ⟨y, -, rfl⟩ := hx
  split
  · rfl
  · rename_i hne
    rw [if_neg hne] at haddr
    exact absurd haddr hne

end Registry

/-! ### The runner and the slot that is cleared -/

/-- A safe runner succeeds. -/
theorem Holds.performAll (h : Holds r s) {ops : List Op} (hsafe : r.AllSafe ops) :
    ∃ s', EventBasePoll.performAll J s ops = some s' ∧ Holds (r.applyAll ops) s' ∧
      Registry.Kept r (r.applyAll ops) ∧
      ∀ x ∈ (r.applyAll ops).slots, x.revents ≠ 0 → (s'.event x.addr).fd = (s.event x.addr).fd := by
  induction ops generalizing r s with
  | nil => exact ⟨s, rfl, h, fun _ _ hi _ => hi, fun _ _ _ => rfl⟩
  | cons op ops ih =>
    obtain ⟨hop, hops⟩ := hsafe
    obtain ⟨s₁, hrun, h₁, hfd₁⟩ := h.perform (J := J) hop
    obtain ⟨s', hrest, h', hkept, hfd⟩ := ih h₁ hops
    refine ⟨s', ?_, h', (Registry.kept_apply h.nodup hop).trans hkept, ?_⟩
    · unfold EventBasePoll.performAll
      rw [hrun]
      exact hrest
    · intro x hx hne
      obtain ⟨i, hi⟩ := List.getElem?_of_mem hx
      have hold := Registry.kept_apply h.nodup hop i x (hkept i x hi hne) hne
      exact (hfd x hx hne).trans (hfd₁ x (List.mem_of_getElem? hold))

theorem Registry.clear_addrs (r : Registry) (p : Nat) : (r.clear p).slots.map Slot.addr = r.slots.map Slot.addr := by
  unfold Registry.clear
  rw [List.map_map]
  apply List.map_congr_left
  intro x _
  dsimp only [Function.comp]
  split <;> rfl

/-- To clear an event is to clear slot `i`, if that is its slot as far as either has `revents`. -/
private theorem Registry.set_revents {i p : Nat}
    (hslot : ∀ j x, r.slots[j]? = some x → x.revents ≠ 0 → (x.addr = p ↔ j = i)) :
    (r.slots.map Slot.revents).set i 0 = (r.clear p).slots.map Slot.revents := by
  apply List.ext_getElem?
  intro j
  unfold Registry.clear
  rw [List.getElem?_set, List.getElem?_map, List.getElem?_map, List.getElem?_map, List.length_map]
  rcases hj : r.slots[j]? with _ | x
  · have hlen := List.getElem?_eq_none_iff.1 hj
    by_cases hij : i = j
    · rw [if_pos hij, if_neg (by omega)]
      rfl
    · rw [if_neg hij]
      rfl
  · have hlen := (List.getElem?_eq_some_iff.1 hj).1
    by_cases hzero : x.revents = 0
    · have hclear : (if x.addr = p then { x with revents := 0 } else x).revents = 0 := by
        split
        · rfl
        · exact hzero
      by_cases hij : i = j
      · simp [hij, hlen, hclear]
      · simp [hij, hzero, hclear]
    · have hiff := hslot j x hj hzero
      by_cases hij : i = j
      · simp [hij, hlen, hiff.2 hij.symm]
      · have hp : x.addr ≠ p := fun hp => hij (hiff.1 hp).symm
        simp [hij, hp]

/-- The slot that is cleared is the one of the event, as far as either has `revents`. -/
theorem Holds.clearRevents (h : Holds r s) {i p : Nat} (hi : i < s.base.max)
    (hslot : ∀ j x, r.slots[j]? = some x → x.revents ≠ 0 → (x.addr = p ↔ j = i)) :
    ∃ s', EventBasePoll.clearRevents s i = some s' ∧ Holds (r.clear p) s' ∧ s'.event = s.event := by
  have hlt : i < s.base.fds.length := by
    rw [h.length_fds]
    exact hi
  obtain ⟨ev, hev⟩ : ∃ ev, s.base.fds[i]? = some ev := ⟨_, List.getElem?_eq_getElem hlt⟩
  have haddrs := r.clear_addrs p
  refine ⟨{ s with base := { s.base with fds := s.base.fds.set i { ev with revents := 0 } } }, ?_, ?_, rfl⟩
  · unfold EventBasePoll.clearRevents
    rw [Slots.load, hev]
    simp [Slots.store_eq hlt]
  · exact
      { events := h.events.trans haddrs.symm
        revents := by
          show ((s.base.fds.set i _).take s.base.nfds).map PollFd.revents = _
          rw [List.take_set, List.map_set, h.revents]
          exact Registry.set_revents hslot
        nfds := by
          rw [Registry.clear, List.length_map]
          exact h.nfds
        nfds_le := h.nfds_le
        max := h.max
        max_pos := h.max_pos
        length_fds := (List.length_set ..).trans h.length_fds
        length_events := h.length_events
        nodup := by
          rw [haddrs]
          exact h.nodup
        bdata := by
          intro j x hj
          simp only [Registry.clear, List.getElem?_map, Option.map_eq_some_iff] at hj
          obtain ⟨y, hy, rfl⟩ := hj
          split <;> exact h.bdata j y hy }

/-! ### The turns of the loop -/

variable {fd : Nat → Int} {n : Int} {i e : Nat} {calls : List Call}

/-- What has `revents` was registered when `poll` returned, and has its turn in slot `i` or later. -/
private def Waiting (addrs : List Nat) (i : Nat) (r : Registry) : Prop :=
  ∀ (j : Nat) (x : Slot), r.slots[j]? = some x → x.revents ≠ 0 → i ≤ j ∧ addrs[j]? = some x.addr

private theorem Waiting.kept {addrs : List Nat} {r' : Registry} (h : Waiting addrs i r)
    (hkept : Registry.Kept r r') : Waiting addrs i r' :=
  fun j x hj hx => h j x (hkept j x hj hx) hx

private theorem loop_skip (h : Holds r s) (hgo : e < n ∧ i < s.base.nfds)
    (hslot : ∀ x, r.slots[i]? = some x → x.revents = 0) :
    loop J data runner n i e s calls = loop J data runner n (i + 1) e s calls := by
  have hlt : i < r.slots.length := by
    rw [← h.nfds]
    exact hgo.2
  have hx := List.getElem?_eq_getElem hlt
  obtain ⟨ev, hev, hrevents⟩ := h.fds_slot hx
  rw [loop, dif_pos hgo, Slots.load, hev]
  dsimp only [Option.bind_eq_bind, Option.bind_some]
  rw [if_neg (not_not_intro (hrevents.trans (hslot _ hx)))]

/-- For a slot with `revents` the runner is called, and then the slot is cleared. -/
private theorem loop_call (h : Holds r s) (hgo : e < n ∧ i < s.base.nfds) {x : Slot}
    (hx : r.slots[i]? = some x) (hne : x.revents ≠ 0) {call : Call}
    (hcall : call = ⟨x.addr, (s.event x.addr).fd, data x.addr, toFlags x.revents⟩) {s₁ s₂ : State}
    (hperform : performAll J s (runner (calls ++ [call])) = some s₁) (hclear : clearRevents s₁ i = some s₂) :
    loop J data runner n i e s calls = loop J data runner n (i + 1) (e + 1) s₂ (calls ++ [call]) := by
  obtain ⟨ev, hev, hrevents⟩ := h.fds_slot hx
  rw [← hrevents] at hne hcall
  rw [loop, dif_pos hgo, Slots.load, hev]
  dsimp only [Option.bind_eq_bind, Option.bind_some]
  rw [if_pos hne, Slots.load, h.event_slot hx]
  dsimp only [Option.bind_some]
  rw [← hcall, hperform]
  dsimp only [Option.bind_some]
  rw [hclear]
  rfl

private theorem loop_quiet (h : Holds r s)
    (hquiet : ∀ (j : Nat) (x : Slot), r.slots[j]? = some x → i ≤ j → x.revents = 0) :
    loop J data runner n i e s calls = some (s, calls) := by
  obtain ⟨k, hk⟩ : ∃ k, k = s.base.nfds - i := ⟨_, rfl⟩
  induction k generalizing i with
  | zero =>
    rw [loop, dif_neg (by omega)]
  | succ k ih =>
    by_cases hgo : e < n ∧ i < s.base.nfds
    · rw [loop_skip h hgo fun x hx => hquiet i x hx (Nat.le_refl i)]
      exact ih (fun j x hj hij => hquiet j x hj (by omega)) (by omega)
    · rw [loop, dif_neg hgo]

private theorem turns_quiet {rest : List Nat} (h : ∀ p ∈ rest, r.revents p = 0) :
    r.turns fd data runner rest calls = (r, calls) := by
  induction rest with
  | nil => rfl
  | cons p rest ih =>
    rw [List.forall_mem_cons] at h
    rw [Registry.turns, if_pos h.1]
    exact ih h.2

/-- The loop is at the slot `i` and has called the runner `e` times, and the events of `rest` have their turns yet. -/
private structure Turning (addrs : List Nat) (fd : Nat → Int) (n : Int) (i e : Nat) (rest : List Nat)
    (r : Registry) (s : State) : Prop where
  holds : Holds r s
  nodup : addrs.Nodup
  drop : addrs.drop i = rest
  waiting : Waiting addrs i r
  count : (rest.countP fun p => r.revents p ≠ 0) + e ≤ n
  fd : ∀ x ∈ r.slots, x.revents ≠ 0 → (s.event x.addr).fd = fd x.addr

namespace Turning

variable {addrs rest : List Nat} {p : Nat}

/-- The slot of an event that waits is its place in the list. -/
private theorem slot_iff (h : Turning addrs fd n i e (p :: rest) r s) {j : Nat} {x : Slot}
    (hj : r.slots[j]? = some x) (hne : x.revents ≠ 0) : x.addr = p ↔ j = i := by
  have hp : addrs[i]? = some p := by
    have hhead := congrArg (fun l => l[0]?) h.drop
    simpa using hhead
  have haddr := (h.waiting j x hj hne).2
  constructor
  · intro hxp
    rw [hxp, ← hp] at haddr
    exact (List.getElem?_inj (List.getElem?_eq_some_iff.1 (hp ▸ haddr)).1 h.nodup).1 haddr
  · intro hji
    rw [hji, hp] at haddr
    exact (Option.some.inj haddr).symm

private theorem slot_quiet (h : Turning addrs fd n i e (p :: rest) r s) (hquiet : r.revents p = 0) {x : Slot}
    (hx : r.slots[i]? = some x) : x.revents = 0 := by
  by_contra hne
  have haddr := (h.slot_iff hx hne).2 rfl
  rw [← haddr, Registry.revents_eq h.holds.nodup (List.mem_of_getElem? hx)] at hquiet
  exact hne hquiet

/-- An event with `revents` is in the slot of its turn. -/
private theorem slot_ready (h : Turning addrs fd n i e (p :: rest) r s) (hne : r.revents p ≠ 0) :
    ∃ x, r.slots[i]? = some x ∧ x.addr = p ∧ x.revents ≠ 0 := by
  obtain ⟨j, x, hj, rfl⟩ := Registry.exists_slot hne
  rw [Registry.revents_eq h.holds.nodup (List.mem_of_getElem? hj)] at hne
  rw [(h.slot_iff hj hne).1 rfl] at hj
  exact ⟨x, hj, rfl, hne⟩

/-- Where the loop ends, no event has a call to come. -/
private theorem quiet_of_end (h : Turning addrs fd n i e rest r s) (hend : ¬ (e < n ∧ i < s.base.nfds)) :
    ∀ q ∈ rest, r.revents q = 0 := by
  intro q hq
  by_contra hne
  have hpos : 0 < rest.countP fun p => r.revents p ≠ 0 := List.countP_pos_iff.2 ⟨q, hq, decide_eq_true hne⟩
  obtain ⟨j, x, hj, rfl⟩ := Registry.exists_slot hne
  rw [Registry.revents_eq h.holds.nodup (List.mem_of_getElem? hj)] at hne
  have hij := (h.waiting j x hj hne).1
  have hlen := (List.getElem?_eq_some_iff.1 hj).1
  have hcount := h.count
  have hnfds := h.holds.nfds
  exact hend ⟨by omega, by omega⟩

/-- What waits once slot `i` has had its turn, if that slot has nothing left -/
private theorem waiting_succ {r' : Registry} (h : Turning addrs fd n i e rest r s) (hkept : Registry.Kept r r')
    (hslot : ∀ x, r'.slots[i]? = some x → x.revents = 0) : Waiting addrs (i + 1) r' := by
  intro j x hj hne
  obtain ⟨hij, haddr⟩ := h.waiting.kept hkept j x hj hne
  refine ⟨?_, haddr⟩
  by_contra hlt
  obtain rfl : j = i := by omega
  exact hne (hslot x hj)

private theorem drop_succ (h : Turning addrs fd n i e (p :: rest) r s) : addrs.drop (i + 1) = rest := by
  have htail := congrArg List.tail h.drop
  rwa [List.tail_drop] at htail

private theorem skip (h : Turning addrs fd n i e (p :: rest) r s) (hquiet : r.revents p = 0) :
    Turning addrs fd n (i + 1) e rest r s where
  holds := h.holds
  nodup := h.nodup
  drop := h.drop_succ
  waiting := h.waiting_succ (fun _ _ hi _ => hi) fun _ hx => h.slot_quiet hquiet hx
  count := by
    have hcount := h.count
    rwa [List.countP_cons_of_neg (by simpa using hquiet)] at hcount
  fd := h.fd

/-- The turn of an event with `revents`, where `s₁` is the state when the runner returns. -/
private theorem dispatch (h : Turning addrs fd n i e (p :: rest) r s) (hne : r.revents p ≠ 0) {r₁ : Registry}
    {s₁ : State} (h₁ : Holds r₁ s₁) (hkept : Registry.Kept r r₁)
    (hfd : ∀ x ∈ r₁.slots, x.revents ≠ 0 → (s₁.event x.addr).fd = (s.event x.addr).fd) (hroom : i < r₁.max) :
    ∃ s₂, clearRevents s₁ i = some s₂ ∧ Turning addrs fd n (i + 1) (e + 1) rest (r₁.clear p) s₂ := by
  rw [← h₁.max] at hroom
  obtain ⟨s₂, hclear, h₂, hevent⟩ :=
    h₁.clearRevents hroom fun j x hj hx => h.slot_iff (hkept j x hj hx) hx
  have hkept₂ : Registry.Kept r (r₁.clear p) := hkept.trans (Registry.kept_clear r₁ p)
  refine ⟨s₂, hclear, h₂, h.nodup, h.drop_succ, ?_, ?_, ?_⟩
  · apply h.waiting_succ hkept₂
    intro x hx
    by_contra hx'
    have haddr := (h.slot_iff (hkept₂ i x hx hx') hx').2 rfl
    exact hx' (Registry.clear_revents (List.mem_of_getElem? hx) haddr)
  · have hmono : (rest.countP fun q => (r₁.clear p).revents q ≠ 0) ≤ rest.countP fun q => r.revents q ≠ 0 := by
      apply List.countP_mono_left
      intro q _ hq
      exact decide_eq_true (hkept₂.revents_ne_zero h.holds.nodup h₂.nodup (of_decide_eq_true hq))
    have hcount := h.count
    rw [List.countP_cons_of_pos (by simpa using hne)] at hcount
    push_cast at hcount ⊢
    omega
  · intro x hx hx'
    obtain ⟨j, hj⟩ := List.getElem?_of_mem hx
    have hj₁ := Registry.kept_clear r₁ p j x hj hx'
    rw [hevent, hfd x (List.mem_of_getElem? hj₁) hx']
    exact h.fd x (List.mem_of_getElem? (hkept j x hj₁ hx')) hx'

end Turning

/-- Turn by turn the loop does what it is to do. -/
private theorem loop_eq_turns {addrs rest : List Nat} (h : Turning addrs fd n i e rest r s)
    (hsafe : r.SafeTurns fd data runner i rest calls) :
    ∃ s', loop J data runner n i e s calls = some (s', (r.turns fd data runner rest calls).2) ∧
      Holds (r.turns fd data runner rest calls).1 s' := by
  induction rest generalizing i r s e calls with
  | nil =>
    refine ⟨s, loop_quiet h.holds ?_, h.holds⟩
    intro j x hj hij
    by_contra hne
    have haddr := (h.waiting j x hj hne).2
    have hlen := (List.getElem?_eq_some_iff.1 haddr).1
    have hend := List.drop_eq_nil_iff.1 h.drop
    omega
  | cons p rest ih =>
    by_cases hgo : e < n ∧ i < s.base.nfds
    · rw [Registry.turns]
      rw [Registry.SafeTurns] at hsafe
      by_cases hquiet : r.revents p = 0
      · rw [if_pos hquiet, loop_skip h.holds hgo fun x hx => h.slot_quiet hquiet hx]
        exact ih (h.skip hquiet) (hsafe.1 hquiet)
      · rw [if_neg hquiet]
        obtain ⟨hops, hroom, hrest⟩ := hsafe.2 hquiet
        obtain ⟨x, hx, hxp, hne⟩ := h.slot_ready hquiet
        have hmem := List.mem_of_getElem? hx
        have hcall : r.call fd data p = ⟨x.addr, (s.event x.addr).fd, data x.addr, toFlags x.revents⟩ := by
          unfold Registry.call
          rw [← hxp, h.fd x hmem hne, Registry.revents_eq h.holds.nodup hmem]
        obtain ⟨s₁, hperform, h₁, hkept, hfd⟩ := h.holds.performAll (J := J) hops
        obtain ⟨s₂, hclear, hturning⟩ := h.dispatch hquiet h₁ hkept hfd hroom
        rw [loop_call h.holds hgo hx hne hcall hperform hclear]
        exact ih hturning hrest
    · rw [turns_quiet (h.quiet_of_end hgo), loop, dif_neg hgo]
      exact ⟨s, rfl, h.holds⟩

/-! ### The iteration -/

private theorem Holds.polled (h : Holds r s) (revents : Nat → Int) :
    Holds (r.polled revents) (EventBasePoll.polled s revents) := by
  have haddrs : (r.polled revents).slots.map Slot.addr = r.slots.map Slot.addr := by
    apply List.ext_getElem?
    intro i
    simp only [Registry.polled, List.getElem?_map, List.getElem?_mapIdx, Option.map_map]
    rfl
  exact
    { events := h.events.trans haddrs.symm
      revents := by
        apply List.ext_getElem?
        intro i
        simp only [EventBasePoll.polled, Registry.polled, List.getElem?_map, List.getElem?_take,
          List.getElem?_mapIdx, Option.map_map]
        by_cases hi : i < s.base.nfds
        · have hlt : i < r.slots.length := by
            rw [← h.nfds]
            exact hi
          obtain ⟨ev, hev, -⟩ := h.fds_slot (List.getElem?_eq_getElem hlt)
          rw [if_pos hi, hev, List.getElem?_eq_getElem hlt]
          simp [hi]
        · rw [if_neg hi, List.getElem?_eq_none (by rw [← h.nfds]; omega)]
          rfl
      nfds := by
        simp only [Registry.polled, List.length_mapIdx]
        exact h.nfds
      nfds_le := h.nfds_le
      max := h.max
      max_pos := h.max_pos
      length_fds := by
        simp only [EventBasePoll.polled, List.length_mapIdx]
        exact h.length_fds
      length_events := h.length_events
      nodup := by
        rw [haddrs]
        exact h.nodup
      bdata := by
        intro i x hi
        simp only [Registry.polled, List.getElem?_mapIdx, Option.map_eq_some_iff] at hi
        obtain ⟨y, hy, rfl⟩ := hi
        exact h.bdata i y hy }

private theorem countP_range {α : Type} {l : List α} {P : α → Bool} {Q : Nat → Bool}
    (h : ∀ (i : Nat) (a : α), l[i]? = some a → P a = Q i) : l.countP P = (List.range l.length).countP Q := by
  induction l generalizing Q with
  | nil => rfl
  | cons a l ih =>
    have hrest := ih (Q := fun i => Q (i + 1)) fun i b hb => h (i + 1) b hb
    rw [List.length_cons, List.range_succ_eq_map, List.countP_cons, List.countP_cons, List.countP_map, hrest,
      h 0 a rfl]
    rfl

private theorem Registry.polled_slot {revents : Nat → Int} {i : Nat} {x : Slot}
    (hi : (r.polled revents).slots[i]? = some x) :
    x.revents = revents i ∧ (r.slots.map Slot.addr)[i]? = some x.addr := by
  simp only [Registry.polled, List.getElem?_mapIdx, Option.map_eq_some_iff] at hi
  obtain ⟨y, hy, rfl⟩ := hi
  rw [List.getElem?_map, hy]
  exact ⟨rfl, rfl⟩

private theorem Holds.countP_polled (h : Holds r s) (revents : Nat → Int) :
    (r.slots.map Slot.addr).countP (fun p => (r.polled revents).revents p ≠ 0) =
    (List.range s.base.nfds).countP fun i => revents i ≠ 0 := by
  have hlen : s.base.nfds = (r.slots.map Slot.addr).length := by
    rw [List.length_map]
    exact h.nfds
  rw [hlen]
  apply countP_range
  intro i p hp
  have hlt : i < (r.polled revents).slots.length := by
    have hlt := (List.getElem?_eq_some_iff.1 hp).1
    simpa [Registry.polled] using hlt
  have hx := List.getElem?_eq_getElem hlt
  obtain ⟨hrevents, haddr⟩ := Registry.polled_slot hx
  obtain rfl := Option.some.inj (haddr.symm.trans hp)
  rw [Registry.revents_eq (h.polled revents).nodup (List.mem_of_getElem? hx), hrevents]

/-- With a safe runner, an iteration does what it is to do. -/
theorem iterate_eq (h : Holds r s) {poll : Option (Nat → Int)}
    (hsafe : r.SafeIteration (fun p => (s.event p).fd) data runner poll) :
    ∃ s', iterate J data runner s poll =
        some (s', (r.iterate (fun p => (s.event p).fd) data runner poll).2) ∧
      Holds (r.iterate (fun p => (s.event p).fd) data runner poll).1 s' := by
  cases poll with
  | none =>
    refine ⟨s, ?_, h⟩
    unfold iterate
    rw [loop, dif_neg (by omega)]
    rfl
  | some revents =>
    have hturning : Turning (r.slots.map Slot.addr) (fun p => (s.event p).fd)
        ((List.range s.base.nfds).countP fun i => revents i ≠ 0) 0 0 (r.slots.map Slot.addr) (r.polled revents)
        (EventBasePoll.polled s revents) :=
      { holds := h.polled revents
        nodup := h.nodup
        drop := rfl
        waiting := fun i x hi _ => ⟨Nat.zero_le i, (Registry.polled_slot hi).2⟩
        count := by
          rw [h.countP_polled]
          simp
        fd := fun _ _ _ => rfl }
    exact loop_eq_turns hturning hsafe

/-- With a safe runner every event that was ready is dispatched in its turn if it was not removed before, no other
is, and only what was dispatched loses its `revents`. -/
theorem poll_exact (h : Holds r s) {poll : Option (Nat → Int)}
    (hsafe : r.SafeIteration (fun p => (s.event p).fd) data runner poll) : Exact J data runner r s poll := by
  obtain ⟨s', hrun, h'⟩ := iterate_eq (J := J) h hsafe
  refine ⟨s', _, hrun, rfl, ?_⟩
  intro i p ev hi hp hev _
  have hlt : i < (r.iterate (fun p => (s.event p).fd) data runner poll).1.slots.length := by
    rw [← h'.nfds]
    exact hi
  have hx := List.getElem?_eq_getElem hlt
  obtain ⟨ev', hev', hrevents⟩ := h'.fds_slot hx
  obtain rfl : ev' = ev := Option.some.inj (hev'.symm.trans hev)
  have haddr := Option.some.inj ((h'.event_slot hx).symm.trans hp)
  rw [hrevents, ← haddr, Registry.revents_eq h'.nodup (List.getElem_mem hlt)]

/-- Two events, with the descriptors `5` and `6` -/
private def pair : State where
  base :=
    { fds := ⟨5, 1, 0⟩ :: ⟨6, 1, 0⟩ :: List.replicate 14 ⟨0, 0, 0⟩
      events := 1 :: 2 :: List.replicate 14 0
      nfds := 2
      max := 16 }
  event := fun p => if p = 1 then ⟨5, 1, 0⟩ else ⟨6, 1, 1⟩
  allocs := 1

private def pairRegistry : Registry := ⟨[⟨1, 0⟩, ⟨2, 0⟩], 16⟩

private def emptyJunk : Junk := ⟨fun _ _ => ⟨0, 0, 0⟩, fun _ _ => 0⟩

/-- A runner that removes its own event if this is `p` -/
private def removing (p : Nat) (calls : List Call) : List Op :=
  if (calls.getLast?.map Call.root) = some p then [.remove p] else []

private theorem pair_holds : Holds pairRegistry pair where
  events := rfl
  revents := rfl
  nfds := rfl
  nfds_le := by
    show 2 ≤ 16
    decide
  max := rfl
  max_pos := by
    show 0 < 16
    decide
  length_fds := rfl
  length_events := rfl
  nodup := by decide
  bdata i x hi := by
    rcases i with _ | _ | i
    · cases hi
      rfl
    · cases hi
      rfl
    · cases hi

/-- Both events are ready, and the second one is removed when it is dispatched. -/
theorem poll_exact_second :
    Exact emptyJunk (fun _ => 0) (removing 2) pairRegistry pair (some fun _ => 1) := by
  refine poll_exact pair_holds ?_
  refine ⟨fun h => absurd h (by decide), fun _ => ⟨trivial, by decide, ?_⟩⟩
  exact ⟨fun h => absurd h (by decide), fun _ => ⟨⟨⟨_, rfl, rfl⟩, trivial⟩, by decide, trivial⟩⟩

/-- Both events are ready, and the first one is removed when it is dispatched: the second one is not. -/
theorem poll_not_exact_first : Holds pairRegistry pair ∧
    ¬ Exact emptyJunk (fun _ => 0) (removing 1) pairRegistry pair (some fun _ => 1) := by
  refine ⟨pair_holds, ?_⟩
  rintro ⟨s', calls, hrun, hcalls, -⟩
  have hrun : loop emptyJunk (fun _ => 0) (removing 1) 2 0 0 (polled pair fun _ => 1) [] = some (s', calls) := hrun
  rw [loop, dif_pos (by decide)] at hrun
  -- the turn of the first event leaves one slot in use
  change loop emptyJunk (fun _ => 0) (removing 1) 2 1 1 _ _ = some (s', calls) at hrun
  rw [loop, dif_neg (by decide)] at hrun
  cases hrun
  exact absurd hcalls (by decide)

end EventBasePoll

end Excom
