import Excom.Memory
import Excom.PollRegistry

/-!
# The registry of the `select` backend

`excom/event/select.c`, up to its loop: an array of pointers to events behind a mutex, and in each event its
place in the array.  A call of `excom_event_select_remove` clears the slot of its event before it copies that
slot over the next one, and returns with the mutex locked when the slot belongs to another descriptor.  So the
registry holds what was added and not removed exactly as long as no event is added twice and the one that is
removed is always the last (`select_faithful_iff`).
-/

namespace Excom

/-- `excom_event_base_select_t`: the block `events`, how many of its slots are in use, and how many there are -/
structure EventBaseSelect where
  mutex : Mutex
  nfds : Nat
  max : Nat
  events : Slots (Option Nat)

namespace EventBaseSelect

/-- The base, and the events that the pointers lead to.  The `k`-th allocation finds `J k` in its block. -/
structure State where
  base : EventBaseSelect
  event : Nat → ExcomEvent
  allocs : Nat

def einval : Int := 22

def initialSize : Nat := 16

variable (J : Nat → Nat → Option Nat)

/-- `excom_event_base_select_init` -/
def init (event : Nat → ExcomEvent) : State where
  base :=
    { mutex := .unlocked
      nfds := 0
      max := initialSize
      events := Slots.realloc (J 0) [] initialSize }
  event
  allocs := 1

/-- The block gets `max` slots. -/
def resize (s : State) (max : Nat) : State :=
  { s with
    base := { s.base with events := Slots.realloc (J s.allocs) s.base.events max, max }
    allocs := s.allocs + 1 }

/-- `excom_mutex_lock`, which does not return when the mutex is locked -/
def lock (s : State) : Option State :=
  if s.base.mutex = .unlocked then some { s with base := { s.base with mutex := .locked } } else none

/-- `excom_mutex_unlock`, of a mutex that is locked -/
def unlock (s : State) : State := { s with base := { s.base with mutex := .unlocked } }

/-- The top of `excom_event_select_add` doubles the block when all of it is in use. -/
def grow (s : State) : State :=
  if s.base.nfds + 1 > s.base.max then resize J s (s.base.max * 2) else s

/-- `excom_event_select_add` -/
def add (s : State) (p : Nat) : Option (Int × State) := do
  let s ← lock s
  let s := grow J s
  let events ← s.base.events.store s.base.nfds (some p)
  let event := Function.update s.event p { s.event p with bdata := s.base.nfds }
  return (0, unlock { s with base := { s.base with events, nfds := s.base.nfds + 1 }, event })

/-- The `memmove` of `excom_event_select_remove` -/
def shift (base : EventBaseSelect) (index : Nat) : Option EventBaseSelect :=
  if index + 1 < base.nfds then do
    let events ← base.events.memmove (index + 1) index (base.nfds - index)
    return { base with events }
  else some base

/-- `base->nfds -= 1`.  There is no result where the number would wrap around. -/
def countDown (base : EventBaseSelect) : Option EventBaseSelect :=
  if base.nfds = 0 then none else some { base with nfds := base.nfds - 1 }

/-- The end of `excom_event_select_remove` halves the block when less than half of it is in use. -/
def shrink (s : State) : State :=
  if s.base.nfds < s.base.max / 2 then resize J s (s.base.max / 2) else s

/-- `excom_event_select_remove` -/
def remove (s : State) (p : Nat) : Option (Int × State) := do
  let index := (s.event p).bdata
  let s ← lock s
  let q ← ← s.base.events.load index
  if (s.event q).fd ≠ (s.event p).fd then return (einval, s)
  else
    let events ← s.base.events.store index none
    let base ← shift { s.base with events } index
    let base ← countDown base
    return (0, unlock (shrink J { s with base }))

/-! ### What the registry is for -/

/-- The event at `p` is filled in and added, or the event at `p` is removed, whatever is in it. -/
inductive Op where
  | add (p : Nat) (fd : Int) (flags : UInt32)
  | remove (p : Nat)
  deriving DecidableEq

namespace Op

def perform (s : State) : Op → Option (Int × State)
  | add p fd flags =>
    EventBaseSelect.add J { s with event := Function.update s.event p { s.event p with fd, flags } } p
  | remove p => EventBaseSelect.remove J s p

/-- What is registered afterwards, in the order in which it was added -/
def apply (reg : List Nat) : Op → List Nat
  | add p _ _ => reg ++ [p]
  | remove p => reg.filter fun q => q ≠ p

/-- What is added is new, and what is removed was added last. -/
def Safe (reg : List Nat) : Op → Prop
  | add p _ _ => p ∉ reg
  | remove p => reg.getLast? = some p

end Op

/-- Every operation of a sequence is safe, where `reg` is registered before it. -/
def AllSafe : List Nat → List Op → Prop
  | _, [] => True
  | reg, op :: ops => op.Safe reg ∧ AllSafe (op.apply reg) ops

/-- The registry holds what is registered, and its mutex is free. -/
structure Faithful (reg : List Nat) (s : State) : Prop where
  nodup : (s.base.events.take s.base.nfds).Nodup
  not_null : none ∉ s.base.events.take s.base.nfds
  mem (p : Nat) : some p ∈ s.base.events.take s.base.nfds ↔ p ∈ reg
  bdata (i p : Nat) (hi : i < s.base.nfds) (hp : s.base.events[i]? = some (some p)) : (s.event p).bdata = i
  nfds_le : s.base.nfds ≤ s.base.max
  /-- The block has `max` slots, and a slot beyond them cannot be written. -/
  length_events : s.base.events.length = s.base.max
  mutex : s.base.mutex = .unlocked

/-- Every operation runs within the block, and the registry is faithful before and after it. -/
def FaithfulRun : List Nat → State → List Op → Prop
  | reg, s, [] => Faithful reg s
  | reg, s, op :: ops =>
    Faithful reg s ∧ ∃ r s', op.perform J s = some (r, s') ∧ FaithfulRun (op.apply reg) s' ops

/-! ### Slots in the order of the registrations -/

/-- The slots hold the registered events in their order. -/
structure InOrder (reg : List Nat) (s : State) : Prop where
  slots : s.base.events.take s.base.nfds = reg.map some
  nfds : s.base.nfds = reg.length
  nodup : reg.Nodup
  bdata (i p : Nat) (hi : reg[i]? = some p) : (s.event p).bdata = i
  nfds_le : s.base.nfds ≤ s.base.max
  max_pos : 0 < s.base.max
  length_events : s.base.events.length = s.base.max
  mutex : s.base.mutex = .unlocked

variable {J}
variable {reg : List Nat} {s s' : State} {p : Nat}

private theorem InOrder.slot (h : InOrder reg s) {i : Nat} (hi : i < s.base.nfds) :
    s.base.events[i]? = reg[i]?.map some := by
  rw [← List.getElem?_take_of_lt hi, h.slots, List.getElem?_map]

/-- Slots in the order of the registrations are faithful. -/
theorem InOrder.faithful (h : InOrder reg s) : Faithful reg s where
  nodup := by
    rw [h.slots]
    exact h.nodup.map fun _ _ => Option.some.inj
  not_null := by
    rw [h.slots]
    simp
  mem p := by
    rw [h.slots]
    simp
  bdata i p hi hp := by
    rw [h.slot hi, Option.map_eq_some_iff] at hp
    obtain ⟨q, hq, hqp⟩ := hp
    cases hqp
    exact h.bdata i p hq
  nfds_le := h.nfds_le
  length_events := h.length_events
  mutex := h.mutex

theorem init_inOrder (event : Nat → ExcomEvent) : InOrder [] (init J event) where
  slots := by simp [init]
  nfds := rfl
  nodup := List.nodup_nil
  bdata i p hi := by simp at hi
  nfds_le := Nat.zero_le _
  max_pos := Nat.zero_lt_succ 15
  length_events := Slots.length_realloc ..
  mutex := rfl

/-! ### Growing and shrinking -/

private theorem resize_inOrder (h : InOrder reg s) {max : Nat} (hpos : 0 < max) (hle : s.base.nfds ≤ max) :
    InOrder reg (resize J s max) where
  slots := by
    have hmax := h.nfds_le
    have hlen := h.length_events
    exact (Slots.take_realloc _ (by omega) hle).trans h.slots
  nfds := h.nfds
  nodup := h.nodup
  bdata := h.bdata
  nfds_le := hle
  max_pos := hpos
  length_events := Slots.length_realloc ..
  mutex := h.mutex

/-- A grown block has a free slot. -/
theorem grow_inOrder (h : InOrder reg s) :
    InOrder reg (grow J s) ∧ (grow J s).base.nfds < (grow J s).base.max ∧ (grow J s).event = s.event := by
  have hmax := h.nfds_le
  have hpos := h.max_pos
  unfold grow
  by_cases hfull : s.base.nfds + 1 > s.base.max
  · rw [if_pos hfull]
    have hle : s.base.nfds < s.base.max * 2 := by omega
    exact ⟨resize_inOrder h (by omega) (by omega), hle, rfl⟩
  · rw [if_neg hfull]
    exact ⟨h, by omega, rfl⟩

private theorem shrink_inOrder (h : InOrder reg s) : InOrder reg (shrink J s) := by
  unfold shrink
  by_cases hhalf : s.base.nfds < s.base.max / 2
  · rw [if_pos hhalf]
    exact resize_inOrder h (by omega) (by omega)
  · rw [if_neg hhalf]
    exact h

/-- The slots in use survive. -/
theorem shrink_take (h : s.base.nfds ≤ s.base.events.length) :
    (shrink J s).base.events.take s.base.nfds = s.base.events.take s.base.nfds ∧
      (shrink J s).base.nfds = s.base.nfds := by
  unfold shrink
  by_cases hhalf : s.base.nfds < s.base.max / 2
  · rw [if_pos hhalf]
    exact ⟨Slots.take_realloc _ h (by omega), rfl⟩
  · rw [if_neg hhalf]
    exact ⟨rfl, rfl⟩

/-! ### The section behind the mutex -/

/-- The state in a section -/
def locked (s : State) : State := { s with base := { s.base with mutex := .locked } }

theorem lock_eq (h : s.base.mutex = .unlocked) : lock s = some (locked s) := if_pos h

private theorem unlock_locked (h : s.base.mutex = .unlocked) : unlock (locked s) = s := by
  unfold unlock locked
  rw [← h]

private theorem unlock_grow : unlock (grow J s) = grow J (unlock s) := apply_ite unlock ..

private theorem unlock_shrink : unlock (shrink J s) = shrink J (unlock s) := apply_ite unlock ..

/-! ### Adding -/

/-- The event comes into the next slot. -/
private def added (s : State) (p : Nat) : State :=
  { s with
    base := { s.base with events := s.base.events.set s.base.nfds (some p), nfds := s.base.nfds + 1 }
    event := Function.update s.event p { s.event p with bdata := s.base.nfds } }

private theorem add_eq (h : InOrder reg s) (p : Nat) : add J s p = some (0, added (grow J s) p) := by
  obtain ⟨h', hlt, -⟩ := grow_inOrder (J := J) h
  have hgrow : unlock (grow J (locked s)) = grow J s := by rw [unlock_grow, unlock_locked h.mutex]
  have hevents : (grow J (locked s)).base.events = (grow J s).base.events := by
    rw [← hgrow]
    rfl
  have hnfds : (grow J (locked s)).base.nfds = (grow J s).base.nfds := by
    rw [← hgrow]
    rfl
  have hroom : (grow J (locked s)).base.nfds < (grow J (locked s)).base.events.length := by
    rw [hevents, hnfds, h'.length_events]
    exact hlt
  have hstore := Slots.store_eq hroom (some p)
  unfold add
  rw [lock_eq h.mutex]
  dsimp only [Option.bind_eq_bind, Option.bind_some]
  rw [hstore, ← hgrow]
  rfl

private theorem added_take (h : InOrder reg s) (hlt : s.base.nfds < s.base.max) :
    (added s p).base.events.take (added s p).base.nfds = (reg ++ [p]).map some := by
  have hlen := h.length_events
  rw [List.map_append, ← h.slots]
  exact Slots.take_set_self (by omega) _

private theorem InOrder.added (h : InOrder reg s) (hlt : s.base.nfds < s.base.max) (hp : p ∉ reg) :
    InOrder (reg ++ [p]) (added s p) where
  slots := added_take h hlt
  nfds := by
    rw [List.length_append, ← h.nfds]
    rfl
  nodup := by
    rw [List.nodup_append]
    refine ⟨h.nodup, List.nodup_singleton p, ?_⟩
    intro a ha b hb
    rw [List.mem_singleton.1 hb]
    rintro rfl
    exact hp ha
  bdata i q hi := by
    show (Function.update s.event p { s.event p with bdata := s.base.nfds } q).bdata = i
    by_cases hlast : i < reg.length
    · rw [List.getElem?_append_left hlast] at hi
      have hne : q ≠ p := by
        rintro rfl
        exact hp (List.mem_of_getElem? hi)
      rw [Function.update_of_ne hne]
      exact h.bdata i q hi
    · have hlen := (List.getElem?_eq_some_iff.1 hi).1
      rw [List.length_append, List.length_singleton] at hlen
      obtain rfl : i = reg.length := by omega
      rw [List.getElem?_concat_length] at hi
      cases hi
      rw [Function.update_self]
      exact h.nfds
  nfds_le := hlt
  max_pos := h.max_pos
  length_events := (List.length_set ..).trans h.length_events
  mutex := h.mutex

/-- An event that is added twice is in two slots. -/
private theorem not_faithful_of_added (h : InOrder reg s) (hlt : s.base.nfds < s.base.max) (hp : p ∈ reg)
    {reg' : List Nat} : ¬ Faithful reg' (EventBaseSelect.added s p) := by
  intro hf
  have hnodup := hf.nodup
  rw [added_take h hlt, List.map_append, List.nodup_append] at hnodup
  exact hnodup.2.2 (some p) (List.mem_map_of_mem hp) (some p) (by simp) rfl

/-! ### Removing -/

/-- The last slot is cleared, and is in use no more. -/
private def dropped (s : State) : State :=
  { s with base := { s.base with events := s.base.events.set (s.base.nfds - 1) none, nfds := s.base.nfds - 1 } }

private theorem InOrder.dropped (h : InOrder (reg ++ [p]) s) : InOrder reg (dropped s) := by
  have hnfds := h.nfds
  rw [List.length_append, List.length_singleton] at hnfds
  have hmax := h.nfds_le
  exact
    { slots := by
        show (s.base.events.set (s.base.nfds - 1) none).take (s.base.nfds - 1) = _
        rw [List.take_set_of_le (Nat.le_refl _), hnfds, Nat.add_sub_cancel]
        have htake := congrArg (List.take reg.length) h.slots
        rw [List.take_take, hnfds, Nat.min_eq_left (by omega)] at htake
        rw [htake]
        simp
      nfds := by
        show s.base.nfds - 1 = _
        omega
      nodup := (List.nodup_append.1 h.nodup).1
      bdata := by
        intro i q hi
        have hlt := (List.getElem?_eq_some_iff.1 hi).1
        exact h.bdata i q (by rw [List.getElem?_append_left hlt]; exact hi)
      nfds_le := by
        show s.base.nfds - 1 ≤ s.base.max
        omega
      max_pos := h.max_pos
      length_events := (List.length_set ..).trans h.length_events
      mutex := h.mutex }

private theorem remove_last (h : InOrder (reg ++ [p]) s) :
    remove J s p = some (0, shrink J (EventBaseSelect.dropped s)) := by
  have hi : (reg ++ [p])[reg.length]? = some p := List.getElem?_concat_length
  have hnfds := h.nfds
  rw [List.length_append, List.length_singleton] at hnfds
  have hbdata : (s.event p).bdata = s.base.nfds - 1 := by
    rw [h.bdata _ p hi]
    omega
  have hload : s.base.events.load (s.base.nfds - 1) = some (some p) := by
    unfold Slots.load
    rw [h.slot (by omega), hnfds, Nat.add_sub_cancel, hi]
    rfl
  have hroom : s.base.nfds - 1 < s.base.events.length := (List.getElem?_eq_some_iff.1 hload).1
  have hstore := Slots.store_eq hroom none
  unfold remove
  rw [lock_eq h.mutex, hbdata]
  dsimp only [Option.bind_eq_bind, Option.bind_some, locked]
  rw [hload]
  dsimp only [Option.bind_some]
  rw [if_neg (not_not_intro rfl), hstore]
  dsimp only [Option.bind_some]
  unfold shift countDown
  rw [if_neg (by dsimp only; omega)]
  dsimp only [Option.bind_some]
  rw [if_neg (by omega)]
  dsimp only [Option.bind_some]
  have hdropped : unlock (locked (dropped s)) = dropped s := unlock_locked h.mutex
  rw [unlock_shrink]
  exact congrArg (fun s => some (0, shrink J s)) hdropped

private theorem shift_frame {base base' : EventBaseSelect} {i : Nat} (h : shift base i = some base') :
    base'.nfds = base.nfds ∧ base'.events.length = base.events.length := by
  unfold shift at h
  split at h
  · simp only [Option.bind_eq_bind, Option.bind_eq_some_iff] at h
    obtain ⟨events, hevents, hbase⟩ := h
    cases hbase
    exact ⟨rfl, Slots.length_memmove hevents⟩
  · cases h
    exact ⟨rfl, rfl⟩

private theorem shift_slot {base base' : EventBaseSelect} {i : Nat} (h : shift base i = some base') :
    base'.events[i]? = base.events[i]? := by
  unfold shift at h
  split at h
  · simp only [Option.bind_eq_bind, Option.bind_eq_some_iff] at h
    obtain ⟨events, hevents, hbase⟩ := h
    cases hbase
    exact Slots.memmove_below hevents (Nat.lt_succ_self i)
  · cases h
    rfl

/-- A call that returns has left the mutex locked, or has cleared a slot and taken one out of use. -/
private theorem remove_eq_some {r : Int} (h : remove J s p = some (r, s')) :
    s'.base.mutex = .locked ∨ ∃ base, (s.event p).bdata < s.base.events.length ∧ 0 < s.base.nfds ∧
      shift { s.base with mutex := .locked, events := s.base.events.set (s.event p).bdata none }
        (s.event p).bdata = some base ∧
      s' = unlock (shrink J { s with base := { base with nfds := base.nfds - 1 } }) := by
  unfold remove at h
  simp only [Option.bind_eq_bind, Option.bind_eq_some_iff] at h
  obtain ⟨s₁, hlock, slot, hload, q, rfl, h⟩ := h
  have hs₁ : s₁ = locked s := by
    unfold lock at hlock
    split at hlock
    · cases hlock
      rfl
    · cases hlock
  subst hs₁
  have hlt : (s.event p).bdata < s.base.events.length := (List.getElem?_eq_some_iff.1 hload).1
  by_cases hfd : (s.event q).fd ≠ (s.event p).fd
  · left
    have h : (if (s.event q).fd ≠ (s.event p).fd then some (einval, locked s) else _) = some (r, s') := h
    rw [if_pos hfd] at h
    cases h
    rfl
  · right
    have h : (if (s.event q).fd ≠ (s.event p).fd then some (einval, locked s) else _) = some (r, s') := h
    rw [if_neg hfd] at h
    simp only [Option.bind_eq_some_iff] at h
    obtain ⟨events, hstore, base, hshift, base', hcount, h⟩ := h
    have hevents : events = s.base.events.set (s.event p).bdata none := by
      have hstore' := Slots.store_eq hlt (none : Option Nat)
      exact Option.some.inj (hstore.symm.trans hstore')
    subst hevents
    unfold countDown at hcount
    split at hcount
    · cases hcount
    · cases hcount
      cases h
      refine ⟨base, hlt, ?_, hshift, rfl⟩
      have hnfds : base.nfds = s.base.nfds := (shift_frame hshift).1
      omega

/-- A slot that is cleared in front of the last one stays in use. -/
private theorem null_stays {base : EventBaseSelect} {i : Nat} (hlt : i < s.base.events.length)
    (hi : i + 1 < s.base.nfds)
    (h : shift { s.base with mutex := .locked, events := s.base.events.set i none } i = some base) :
    none ∈ base.events.take (s.base.nfds - 1) := by
  have hslot : base.events[i]? = some none := by
    rw [shift_slot h]
    exact List.getElem?_set_self hlt
  exact List.mem_of_getElem? ((List.getElem?_take_of_lt (by omega)).trans hslot)

/-- Behind the last one nothing is moved, and the last event goes out of use. -/
private theorem last_drops {e : Nat} (h : InOrder (reg ++ [e]) s) {base : EventBaseSelect} {i : Nat}
    (hi : ¬ i + 1 < s.base.nfds)
    (hshift : shift { s.base with mutex := .locked, events := s.base.events.set i none } i = some base) :
    base.events.take (s.base.nfds - 1) = reg.map some := by
  have hnfds := h.nfds
  rw [List.length_append, List.length_singleton] at hnfds
  unfold shift at hshift
  rw [if_neg hi] at hshift
  cases hshift
  show (s.base.events.set i none).take (s.base.nfds - 1) = reg.map some
  have htake := congrArg (List.take reg.length) h.slots
  rw [List.take_take, Nat.min_eq_left (by omega)] at htake
  rw [List.take_set_of_le (by omega), hnfds, Nat.add_sub_cancel, htake]
  simp

/-- Another event is removed: its cleared slot stays in use, or the last event goes in its place. -/
private theorem not_faithful_of_remove (h : InOrder reg s) (hp : reg.getLast? ≠ some p) {r : Int}
    (hrun : remove J s p = some (r, s')) : ¬ Faithful ((Op.remove p).apply reg) s' := by
  intro hf
  rcases remove_eq_some hrun with hlocked | ⟨base, hlt, hpos, hshift, rfl⟩
  · have hmutex := hf.mutex
    rw [hlocked] at hmutex
    cases hmutex
  obtain ⟨hnfds, hlen⟩ := shift_frame hshift
  have hnfds : base.nfds = s.base.nfds := hnfds
  have hlen : base.events.length = s.base.max := by
    rw [hlen, List.length_set, h.length_events]
  have hmax := h.nfds_le
  obtain ⟨htake, hcount⟩ := shrink_take (J := J) (s := { s with base := { base with nfds := base.nfds - 1 } })
    (by show base.nfds - 1 ≤ base.events.length; omega)
  have hslots : (shrink J { s with base := { base with nfds := base.nfds - 1 } }).base.events.take
      (shrink J { s with base := { base with nfds := base.nfds - 1 } }).base.nfds =
      base.events.take (s.base.nfds - 1) := by
    rw [hcount, htake, hnfds]
  by_cases hi : (s.event p).bdata + 1 < s.base.nfds
  · have hmem := null_stays hlt hi hshift
    rw [← hslots] at hmem
    exact hf.not_null hmem
  · -- the last event goes out of use, and it is another one
    obtain ⟨ys, e, rfl⟩ : ∃ ys e, reg = ys ++ [e] := by
      have hne : reg ≠ [] := by
        rintro rfl
        rw [h.nfds] at hpos
        exact absurd hpos (Nat.lt_irrefl 0)
      exact ⟨_, _, (List.dropLast_append_getLast hne).symm⟩
    have hmem : some e ∈ base.events.take (s.base.nfds - 1) := by
      rw [← hslots]
      refine (hf.mem e).2 ?_
      rw [Op.apply, List.mem_filter]
      refine ⟨by simp, ?_⟩
      simpa using hp
    rw [last_drops h hi hshift] at hmem
    have hys : e ∈ ys := by simpa using hmem
    exact (List.nodup_append.1 h.nodup).2.2 e hys e (by simp) rfl

/-! ### Runs -/

private theorem InOrder.fill (h : InOrder reg s) (p : Nat) (fd : Int) (flags : UInt32) :
    InOrder reg { s with event := Function.update s.event p { s.event p with fd, flags } } where
  __ := h
  bdata i q hi := by
    show (Function.update s.event p _ q).bdata = i
    by_cases hq : q = p
    · rw [hq, Function.update_self]
      exact h.bdata i p (by rw [← hq]; exact hi)
    · rw [Function.update_of_ne hq]
      exact h.bdata i q hi

/-- A safe operation succeeds and keeps the order. -/
theorem InOrder.perform (h : InOrder reg s) {op : Op} (hsafe : op.Safe reg) :
    ∃ s', op.perform J s = some (0, s') ∧ InOrder (op.apply reg) s' := by
  cases op with
  | add p fd flags =>
    have hfilled := h.fill p fd flags
    obtain ⟨h', hlt, -⟩ := grow_inOrder (J := J) hfilled
    exact ⟨_, add_eq hfilled p, h'.added hlt hsafe⟩
  | remove p =>
    obtain ⟨ys, rfl⟩ := List.getLast?_eq_some_iff.1 hsafe
    have hrest : (Op.remove p).apply (ys ++ [p]) = ys :=
      Slots.filter_ne_last (by rw [List.map_id]; exact h.nodup : ((ys ++ [p]).map id).Nodup)
    rw [hrest]
    exact ⟨_, remove_last h, shrink_inOrder h.dropped⟩

/-- After an operation that is not safe, the registry is not faithful. -/
theorem InOrder.safe_of_perform (h : InOrder reg s) {op : Op} {r : Int}
    (hrun : op.perform J s = some (r, s')) (hf : Faithful (op.apply reg) s') : op.Safe reg := by
  cases op with
  | add p fd flags =>
    have hfilled := h.fill p fd flags
    obtain ⟨h', hlt, -⟩ := grow_inOrder (J := J) hfilled
    have hadd := (add_eq (J := J) hfilled p).symm.trans hrun
    cases hadd
    intro hp
    exact not_faithful_of_added h' hlt hp hf
  | remove p =>
    by_contra hp
    exact not_faithful_of_remove h hp hrun hf

private theorem faithfulRun_iff (h : InOrder reg s) (ops : List Op) :
    FaithfulRun J reg s ops ↔ AllSafe reg ops := by
  induction ops generalizing reg s with
  | nil => exact ⟨fun _ => trivial, fun _ => h.faithful⟩
  | cons op ops ih =>
    constructor
    · intro ⟨_, r, s', hrun, hf⟩
      have hfaithful : Faithful (op.apply reg) s' := by
        cases ops with
        | nil => exact hf
        | cons => exact hf.1
      have hsafe : op.Safe reg := h.safe_of_perform hrun hfaithful
      obtain ⟨s₁, heq, h₁⟩ := h.perform (J := J) hsafe
      rw [heq] at hrun
      cases hrun
      exact ⟨hsafe, (ih h₁).1 hf⟩
    · intro ⟨hsafe, hrest⟩
      obtain ⟨s', heq, h'⟩ := h.perform (J := J) hsafe
      exact ⟨h.faithful, 0, s', heq, (ih h').2 hrest⟩

/-- Over any sequence of calls, whatever the events that are removed hold, the registry is faithful and its
mutex free exactly when no event is added twice and the one that is removed is always the last. -/
theorem select_faithful_iff (event : Nat → ExcomEvent) (ops : List Op) :
    FaithfulRun J [] (init J event) ops ↔ AllSafe [] ops :=
  faithfulRun_iff (init_inOrder event) ops

/-- The first of two events is removed. -/
theorem select_not_faithful_first : ¬ FaithfulRun (fun _ _ => none) []
    (init (fun _ _ => none) fun _ => ⟨0, 0, 0⟩) [.add 1 5 2, .add 2 6 2, .remove 1] := by
  rw [faithfulRun_iff (init_inOrder _)]
  rintro ⟨-, -, hlast, -⟩
  cases hlast

end EventBaseSelect

end Excom
