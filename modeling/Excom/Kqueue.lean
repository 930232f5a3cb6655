import Excom.Epoll
import Excom.WriteEvents

/-!
# The `kqueue` backend

`excom/event/kqueue.c`.  The filters of `kqueue` are the numbers `-1` and `-2`, and the code combines and tests them
like bits: with both of them it asks for reading only, it deletes with a filter that does not exist, and it never
drops a filter.  So the kernel watches what is registered exactly as long as writing is asked for before reading, an
update takes nothing back, and events are removed by closing their descriptors (`kqueue_faithful_iff`).
-/

namespace Excom.EventBaseKqueue

open EventBasePoll (Entry Op)
open EventBaseEpoll (Event enoent nodup_add map_update update_other event_add event_update)

/-! ### The code -/

def eventRead : UInt32 := 0x2
def eventError : UInt32 := 0x8
def eventClose : UInt32 := 0x10

def evfiltRead : BitVec 16 := -1
def evfiltWrite : BitVec 16 := -2

/-- The filters that the kernel knows, of those that the code can ask for -/
inductive Filter where
  | read
  | write
  deriving DecidableEq

def Filter.ofShort (filter : BitVec 16) : Option Filter :=
  if filter = evfiltRead then some .read else if filter = evfiltWrite then some .write else none

/-- What the kernel holds for each descriptor and filter: the address of an event -/
abbrev Knotes := Int → Filter → Option Nat

/-- The base, and the events.  There is none where memory was freed. -/
structure State where
  loop : Bool
  maxevents : Nat
  knote : Knotes
  event : Nat → Option Event

def einval : Int := 22

/-- `excom_event_base_kqueue_init`, where `kqueue` succeeds -/
def init (event : Nat → Option Event) : State where
  loop := true
  maxevents := 32
  knote _ _ := none
  event

/-- `EV_ADD | EV_ENABLE`, or `EV_DELETE` -/
inductive Change where
  | add (udata : Nat)
  | delete

/-- `kevent` with one change: what the kernel holds afterwards, or `errno` -/
def kevent (knote : Knotes) (fd : Int) (filter : BitVec 16) (c : Change) : Except Int Knotes :=
  match Filter.ofShort filter, c with
  | none, _ => .error einval
  | some f, .add udata => .ok (Function.update knote fd (Function.update (knote fd) f (some udata)))
  | some f, .delete =>
    if (knote fd f).isSome then .ok (Function.update knote fd (Function.update (knote fd) f none)) else .error enoent

def change (s : State) (fd : Int) (filter : BitVec 16) (c : Change) : Int × State :=
  match kevent s.knote fd filter c with
  | .error errno => (errno, s)
  | .ok knote => (0, { s with knote })

/-- The `filter` of `excom_event_kqueue_add` -/
def filter (flags : UInt32) : BitVec 16 :=
  let filter := if Carries flags (eventRead ||| eventError ||| eventClose) then 0 ||| evfiltRead else 0
  if Carries flags eventWrite then filter ||| evfiltWrite else filter

/-- `excom_event_kqueue_add` -/
def add (s : State) (p : Nat) : Option (Int × State) := do
  let event ← s.event p
  return change s event.fd (filter event.flags) (.add p)

/-- `excom_event_kqueue_update` -/
def update (s : State) (p : Nat) : Option (Int × State) := add s p

/-- `excom_event_kqueue_remove` -/
def remove (s : State) (p : Nat) : Option (Int × State) := do
  let event ← s.event p
  return change s event.fd 0 .delete

/-- `excom_event_kqueue_loop_end` -/
def loopEnd (s : State) : State := { s with loop := false }

/-- The flags that `excom_event_kqueue_loop` passes on for what the kernel found -/
def triggered (filter : BitVec 16) (eof error : Bool) : UInt32 :=
  (if eof then eventClose else 0) ||| (if error then eventError else 0) |||
    (if filter &&& evfiltRead ≠ 0 then eventRead else 0) |||
    if filter &&& evfiltWrite ≠ 0 then eventWrite else 0

/-- The event is filled in, and the backend is called. -/
def request (s : State) : Op → Option (Int × State)
  | .add p fd flags => add { s with event := Function.update s.event p (some ⟨fd, flags⟩) } p
  | .update p flags => do
    let event ← s.event p
    update { s with event := Function.update s.event p (some { event with flags }) } p
  | .remove p => remove s p

/-- A call of the backend, or an event is removed and its descriptor closed, as the server and its clients do it -/
inductive Act where
  | request (op : Op)
  | disconnect (p : Nat)

/-- The kernel drops a descriptor that is closed. -/
def Act.perform (s : State) : Act → Option State
  | request op => (EventBaseKqueue.request s op).map Prod.snd
  | disconnect p => do
    let event ← s.event p
    let (_, s) ← remove s p
    return { s with knote := Function.update s.knote event.fd fun _ => none }

/-! ### What the registry is for -/

/-- The flags ask for what the filter reports. -/
def Filter.Asked (flags : UInt32) : Filter → Prop
  | read => Carries flags (eventRead ||| eventError ||| eventClose)
  | write => Carries flags eventWrite

instance (flags : UInt32) : (f : Filter) → Decidable (f.Asked flags)
  | .read => inferInstanceAs (Decidable (Carries flags _))
  | .write => inferInstanceAs (Decidable (Carries flags _))

namespace Act

/-- What is registered afterwards -/
def apply (reg : List Entry) : Act → List Entry
  | request op => op.apply reg
  | disconnect p => (Op.remove p).apply reg

/-- The backend is used as it should be. -/
def Legal (reg : List Entry) : Act → Prop
  | request op => op.Legal reg
  | disconnect p => (Op.remove p).Legal reg

/-- Reading and writing are not asked for together unless writing was asked for before, nothing is taken back, and
what is removed is closed. -/
def Safe (reg : List Entry) : Act → Prop
  | request (.add _ _ flags) => ¬ (Filter.read.Asked flags ∧ Filter.write.Asked flags)
  | request (.update p flags) => ∀ e ∈ reg, e.addr = p → (∀ f : Filter, f.Asked e.flags → f.Asked flags) ∧
      (Filter.read.Asked flags → Filter.write.Asked flags → Filter.write.Asked e.flags)
  | request (.remove p) => ∀ e ∈ reg, e.addr = p → ∀ f : Filter, ¬ f.Asked e.flags
  | disconnect _ => True

end Act

/-- `P` holds of every act of a sequence, where `reg` is registered before it. -/
def Along (P : List Entry → Act → Prop) : List Entry → List Act → Prop
  | _, [] => True
  | reg, a :: acts => P reg a ∧ Along P (a.apply reg) acts

/-- The kernel watches what is registered for what its flags ask, and nothing else. -/
structure Faithful (reg : List Entry) (knote : Knotes) : Prop where
  registered : ∀ e ∈ reg, ∀ f : Filter, knote e.fd f = if f.Asked e.flags then some e.addr else none
  others (fd : Int) (hfd : ∀ e ∈ reg, e.fd ≠ fd) (f : Filter) : knote fd f = none

/-- The kernel is faithful before and after every act of a run. -/
def FaithfulRun : List Entry → State → List Act → Prop
  | reg, s, [] => Faithful reg s.knote
  | reg, s, a :: acts =>
    Faithful reg s.knote ∧ ∃ s', a.perform s = some s' ∧ FaithfulRun (a.apply reg) s' acts

/-- The events are as they were registered. -/
structure Keeps (reg : List Entry) (s : State) : Prop where
  addrs : (reg.map Entry.addr).Nodup
  fds : (reg.map Entry.fd).Nodup
  event : ∀ e ∈ reg, s.event e.addr = some ⟨e.fd, e.flags⟩

variable {reg reg' : List Entry} {s : State} {knote : Knotes} {e : Entry} {p : Nat} {fd : Int} {flags : UInt32}

/-! ### Filters -/

/-- With both flags it is the filter for reading. -/
theorem ofShort_filter (flags : UInt32) : Filter.ofShort (filter flags) =
    if Filter.read.Asked flags then some .read else if Filter.write.Asked flags then some .write else none := by
  unfold filter Filter.Asked
  by_cases hread : Carries flags (eventRead ||| eventError ||| eventClose) <;>
    by_cases hwrite : Carries flags eventWrite <;> simp only [hread, hwrite, if_true, if_false] <;> decide

/-- An event that is reported is one for reading and writing, whatever the kernel found. -/
theorem triggered_carries (f : BitVec 16) (hf : Filter.ofShort f ≠ none) (eof error : Bool) :
    Carries (triggered f eof error) eventRead ∧ Carries (triggered f eof error) eventWrite := by
  have hfilter : f = evfiltRead ∨ f = evfiltWrite := by
    by_contra hnot
    rw [not_or] at hnot
    exact hf (by rw [Filter.ofShort, if_neg hnot.1, if_neg hnot.2])
  rcases hfilter with rfl | rfl <;> cases eof <;> cases error <;> decide

/-! ### The calls of the backend -/

private theorem add_eq (hevent : s.event p = some ⟨fd, flags⟩) : ∃ err, add s p = some (err, { s with
    knote := Function.update s.knote fd fun f =>
      if Filter.ofShort (filter flags) = some f then some p else s.knote fd f }) := by
  unfold add change kevent
  rw [hevent]
  rcases hfilter : Filter.ofShort (filter flags) with _ | f
  · exact ⟨einval, by simp [hfilter]⟩
  · refine ⟨0, ?_⟩
    have hset : (fun f' => if f = f' then some p else s.knote fd f') =
        Function.update (s.knote fd) f (some p) := by
      funext f'
      by_cases hf : f' = f
      · simp [hf]
      · simp [hf, Ne.symm hf]
    simp [hfilter, hset]

private theorem remove_eq (hevent : s.event p = some ⟨fd, flags⟩) : remove s p = some (einval, s) := by
  unfold remove
  rw [hevent]
  rfl

/-- Where the filters of one descriptor change, it depends on this descriptor whether the kernel is faithful. -/
private theorem faithful_update (h : Faithful reg knote) (hsame : ∀ e, e.fd ≠ fd → (e ∈ reg' ↔ e ∈ reg))
    (filters : Filter → Option Nat) : Faithful reg' (Function.update knote fd filters) ↔
      (∀ e ∈ reg', e.fd = fd → ∀ f : Filter, filters f = if f.Asked e.flags then some e.addr else none) ∧
        ((∀ e ∈ reg', e.fd ≠ fd) → ∀ f, filters f = none) := by
  constructor
  · intro h'
    constructor
    · rintro e he rfl f
      simpa using h'.registered e he f
    · intro hnone f
      simpa using h'.others fd hnone f
  · intro ⟨hmine, hnone⟩
    constructor
    · intro e he f
      by_cases hfd : e.fd = fd
      · rw [hfd, Function.update_self]
        exact hmine e he hfd f
      · rw [Function.update_of_ne hfd]
        exact h.registered e ((hsame e hfd).1 he) f
    · intro fd' hfd' f
      by_cases hfd : fd' = fd
      · subst hfd
        rw [Function.update_self]
        exact hnone hfd' f
      · rw [Function.update_of_ne hfd]
        apply h.others
        intro e he hsame'
        exact hfd' e ((hsame e (hsame' ▸ hfd)).2 he) hsame'

private theorem faithful_update_at (h : Faithful reg knote) (hsame : ∀ e, e.fd ≠ fd → (e ∈ reg' ↔ e ∈ reg))
    (he : e ∈ reg') (hfd : e.fd = fd) (hunique : ∀ e' ∈ reg', e'.fd = fd → e' = e) (filters : Filter → Option Nat) :
    Faithful reg' (Function.update knote fd filters) ↔
      ∀ f : Filter, filters f = if f.Asked e.flags then some e.addr else none := by
  rw [faithful_update h hsame]
  constructor
  · exact fun hall => hall.1 e he hfd
  · intro hmine
    constructor
    · intro e' he' hfd' f
      rw [hunique e' he' hfd']
      exact hmine f
    · exact fun hnone => absurd hfd (hnone e he)

private theorem faithful_update_gone (h : Faithful reg knote) (hsame : ∀ e, e.fd ≠ fd → (e ∈ reg' ↔ e ∈ reg))
    (hnone : ∀ e ∈ reg', e.fd ≠ fd) (filters : Filter → Option Nat) :
    Faithful reg' (Function.update knote fd filters) ↔ ∀ f, filters f = none := by
  rw [faithful_update h hsame]
  constructor
  · exact fun hall => hall.2 hnone
  · exact fun hall => ⟨fun e he hfd => absurd hfd (hnone e he), fun _ => hall⟩

private theorem set_iff (flags : UInt32) (p : Nat) (asked : Filter → Prop) [DecidablePred asked] :
    (∀ f : Filter, (if Filter.ofShort (filter flags) = some f then some p else
        if asked f then some p else none) = if f.Asked flags then some p else none) ↔
      (∀ f : Filter, asked f → f.Asked flags) ∧
        (Filter.read.Asked flags → Filter.write.Asked flags → asked .write) := by
  rw [ofShort_filter]
  constructor
  · intro h
    have hread := h .read
    have hwrite := h .write
    constructor
    · rintro (_ | _) hasked
      · by_contra hnot
        simp [hnot, hasked] at hread
      · by_contra hnot
        simp [hnot, hasked] at hwrite
    · intro hr hw
      by_contra hnot
      simp [hr, hw, hnot] at hwrite
  · rintro ⟨hback, hboth⟩ (_ | _)
    · by_cases hr : Filter.read.Asked flags
      · simp [hr]
      · have hnot : ¬ asked .read := fun ha => hr (hback _ ha)
        by_cases hw : Filter.write.Asked flags <;> simp [hr, hw, hnot]
    · by_cases hw : Filter.write.Asked flags
      · by_cases hr : Filter.read.Asked flags
        · simp [hr, hw, hboth hr hw]
        · simp [hr, hw]
      · have hnot : ¬ asked .write := fun ha => hw (hback _ ha)
        by_cases hr : Filter.read.Asked flags <;> simp [hr, hw, hnot]

namespace Keeps

private theorem eq_of_addr (h : Keeps reg s) {e' : Entry} (he : e ∈ reg) (he' : e' ∈ reg) (haddr : e.addr = e'.addr) :
    e = e' :=
  List.inj_on_of_nodup_map h.addrs he he' haddr

private theorem eq_of_fd (h : Keeps reg s) {e' : Entry} (he : e ∈ reg) (he' : e' ∈ reg) (hfd : e.fd = e'.fd) :
    e = e' :=
  List.inj_on_of_nodup_map h.fds he he' hfd

private theorem filter (h : Keeps reg s) (P : Entry → Bool) (knote : Knotes) :
    Keeps (reg.filter P) { s with knote } where
  addrs := h.addrs.sublist (List.filter_sublist.map Entry.addr)
  fds := h.fds.sublist (List.filter_sublist.map Entry.fd)
  event e he := h.event e (List.mem_of_mem_filter he)

private theorem add (h : Keeps reg s) (flags : UInt32) (knote : Knotes) (hnew : ∀ e ∈ reg, e.addr ≠ p ∧ e.fd ≠ fd) :
    Keeps (reg ++ [⟨p, fd, flags⟩])
      { s with event := Function.update s.event p (some ⟨fd, flags⟩), knote := knote } where
  addrs := nodup_add h.addrs fun e he => (hnew e he).1
  fds := nodup_add h.fds fun e he => (hnew e he).2
  event := event_add h.event fun e he => (hnew e he).1

private theorem update (h : Keeps reg s) (he : e ∈ reg) (flags : UInt32) (knote : Knotes) :
    Keeps ((Op.update e.addr flags).apply reg)
      { s with event := Function.update s.event e.addr (some ⟨e.fd, flags⟩), knote := knote } where
  addrs := by
    rw [map_update fun _ _ => rfl]
    exact h.addrs
  fds := by
    rw [map_update fun _ _ => rfl]
    exact h.fds
  event := event_update h.addrs h.event he flags

end Keeps

/-! ### Runs -/

variable {a : Act} {acts : List Act}

private theorem step_add (h : Keeps reg s) (hf : Faithful reg s.knote) (flags : UInt32)
    (hnew : ∀ e ∈ reg, e.addr ≠ p ∧ e.fd ≠ fd) : ∃ s', (Act.request (.add p fd flags)).perform s = some s' ∧
      Keeps (reg ++ [⟨p, fd, flags⟩]) s' ∧
      (Faithful (reg ++ [⟨p, fd, flags⟩]) s'.knote ↔ ¬ (Filter.read.Asked flags ∧ Filter.write.Asked flags)) := by
  let s₀ : State := { s with event := Function.update s.event p (some ⟨fd, flags⟩) }
  have hevent : s₀.event p = some ⟨fd, flags⟩ := by simp [s₀]
  obtain ⟨err, hadd⟩ := add_eq hevent
  refine ⟨_, congrArg (Option.map Prod.snd) hadd, h.add flags _ hnew, ?_⟩
  have hsame : ∀ e : Entry, e.fd ≠ fd → (e ∈ reg ++ [⟨p, fd, flags⟩] ↔ e ∈ reg) := by
    intro e hfd
    have hne : e ≠ ⟨p, fd, flags⟩ := fun heq => hfd (by rw [heq])
    simp [hne]
  have hunique : ∀ e ∈ reg ++ [⟨p, fd, flags⟩], e.fd = fd → e = ⟨p, fd, flags⟩ := by
    intro e he hfd
    rcases List.mem_append.1 he with hold | hlast
    · exact absurd hfd (hnew e hold).2
    · exact List.mem_singleton.1 hlast
  have hnone (f : Filter) : s₀.knote fd f = none := hf.others fd (fun e he => (hnew e he).2) f
  have hset := set_iff flags p fun _ => False
  simp only [if_false, false_implies, implies_true, true_and, imp_false] at hset
  show Faithful _ (Function.update s.knote fd _) ↔ _
  rw [faithful_update_at hf hsame (by simp) rfl hunique, not_and, ← hset]
  simp only [hnone]

private theorem step_update (h : Keeps reg s) (hf : Faithful reg s.knote) (flags : UInt32) (he : e ∈ reg) :
    ∃ s', (Act.request (.update e.addr flags)).perform s = some s' ∧
      Keeps ((Op.update e.addr flags).apply reg) s' ∧
      (Faithful ((Op.update e.addr flags).apply reg) s'.knote ↔ (∀ f : Filter, f.Asked e.flags → f.Asked flags) ∧
        (Filter.read.Asked flags → Filter.write.Asked flags → Filter.write.Asked e.flags)) := by
  let s₀ : State := { s with event := Function.update s.event e.addr (some ⟨e.fd, flags⟩) }
  have hevent : s₀.event e.addr = some ⟨e.fd, flags⟩ := by simp [s₀]
  obtain ⟨err, hadd⟩ := add_eq hevent
  have hperform : (Act.request (.update e.addr flags)).perform s = (add s₀ e.addr).map Prod.snd := by
    simp [Act.perform, request, update, h.event e he, s₀]
  rw [hperform, hadd]
  refine ⟨_, rfl, h.update he flags _, ?_⟩
  have hfds {e' : Entry} : (if e'.addr = e.addr then { e' with flags } else e').fd = e'.fd := by split <;> rfl
  have hsame : ∀ e' : Entry, e'.fd ≠ e.fd → (e' ∈ (Op.update e.addr flags).apply reg ↔ e' ∈ reg) := by
    intro e' hfd
    constructor
    · intro hmem
      obtain ⟨e₀, he₀, rfl⟩ := List.mem_map.1 hmem
      rwa [update_other h.addrs he he₀ (hfds ▸ hfd)]
    · intro he'
      exact List.mem_map.2 ⟨e', he', update_other h.addrs he he' hfd flags⟩
  have hunique : ∀ e' ∈ (Op.update e.addr flags).apply reg, e'.fd = e.fd → e' = { e with flags } := by
    intro e' hmem hfd
    obtain ⟨e₀, he₀, rfl⟩ := List.mem_map.1 hmem
    obtain rfl := h.eq_of_fd he₀ he (hfds ▸ hfd)
    simp
  have hmem : { e with flags } ∈ (Op.update e.addr flags).apply reg := List.mem_map.2 ⟨e, he, by simp⟩
  have hold (f : Filter) : s₀.knote e.fd f = if f.Asked e.flags then some e.addr else none := hf.registered e he f
  show Faithful _ (Function.update s.knote e.fd _) ↔ _
  rw [faithful_update_at hf hsame hmem rfl hunique, ← set_iff flags e.addr fun f => f.Asked e.flags]
  simp only [hold]

private theorem step_remove (h : Keeps reg s) (hf : Faithful reg s.knote) (he : e ∈ reg) :
    remove s e.addr = some (einval, s) ∧ ∀ filters, Keeps ((Op.remove e.addr).apply reg)
        { s with knote := Function.update s.knote e.fd filters } ∧
      (Faithful ((Op.remove e.addr).apply reg) (Function.update s.knote e.fd filters) ↔ ∀ f, filters f = none) := by
  refine ⟨remove_eq (h.event e he), fun filters => ⟨h.filter _ _, ?_⟩⟩
  apply faithful_update_gone hf
  · intro e' hfd
    have hne : e'.addr ≠ e.addr ∨ e' ∉ reg := by
      by_contra hnot
      rw [not_or, not_not, not_not] at hnot
      exact hfd (by rw [h.eq_of_addr hnot.2 he hnot.1])
    simp only [Op.apply, List.mem_filter, decide_eq_true_eq]
    constructor
    · exact fun hmem => hmem.1
    · intro hmem
      exact ⟨hmem, hne.resolve_right fun hnot => hnot hmem⟩
  · intro e' he' hfd
    obtain ⟨hmem, hne⟩ := List.mem_filter.1 he'
    exact of_decide_eq_true hne (by rw [h.eq_of_fd hmem he hfd])

private theorem step (h : Keeps reg s) (hf : Faithful reg s.knote) (hlegal : a.Legal reg) :
    ∃ s', a.perform s = some s' ∧ Keeps (a.apply reg) s' ∧ (Faithful (a.apply reg) s'.knote ↔ a.Safe reg) := by
  cases a with
  | request op =>
    cases op with
    | add p fd flags => exact step_add h hf flags hlegal
    | update p flags =>
      obtain ⟨e, he, rfl⟩ := hlegal
      obtain ⟨s', hrun, h', hiff⟩ := step_update h hf flags he
      refine ⟨s', hrun, h', hiff.trans ?_⟩
      constructor
      · intro hsafe e' he' haddr
        rwa [h.eq_of_addr he' he haddr]
      · exact fun hsafe => hsafe e he rfl
    | remove p =>
      obtain ⟨e, he, rfl⟩ := hlegal
      obtain ⟨hremove, hstep⟩ := step_remove h hf he
      obtain ⟨h', hiff⟩ := hstep (s.knote e.fd)
      rw [Function.update_eq_self] at h' hiff
      refine ⟨s, congrArg (Option.map Prod.snd) hremove, h', hiff.trans ?_⟩
      simp only [hf.registered e he, ite_eq_right_iff, reduceCtorEq, imp_false]
      constructor
      · intro hnone e' he' haddr
        rwa [h.eq_of_addr he' he haddr]
      · exact fun hsafe => hsafe e he rfl
  | disconnect p =>
    obtain ⟨e, he, rfl⟩ := hlegal
    obtain ⟨hremove, hstep⟩ := step_remove h hf he
    obtain ⟨h', hiff⟩ := hstep fun _ => none
    refine ⟨_, ?_, h', hiff.trans ?_⟩
    · simp [Act.perform, h.event e he, hremove]
    · simp [Act.Safe]

private theorem run_iff (h : Keeps reg s) (hf : Faithful reg s.knote) (hlegal : Along Act.Legal reg acts) :
    FaithfulRun reg s acts ↔ Along Act.Safe reg acts := by
  induction acts generalizing reg s with
  | nil => simp [FaithfulRun, Along, hf]
  | cons a acts ih =>
    obtain ⟨ha, hlegal⟩ := hlegal
    obtain ⟨s', hrun, h', hiff⟩ := step h hf ha
    constructor
    · rintro ⟨-, s₁, hrun₁, hrest⟩
      cases hrun.symm.trans hrun₁
      have hf' : Faithful (a.apply reg) s'.knote := by
        cases acts with
        | nil => exact hrest
        | cons => exact hrest.1
      exact ⟨hiff.1 hf', (ih h' hf' hlegal).1 hrest⟩
    · rintro ⟨hsafe, hrest⟩
      have hf' := hiff.2 hsafe
      exact ⟨hf, s', hrun, (ih h' hf' hlegal).2 hrest⟩

/-- Over any run in which the backend is used as it should be, the kernel watches exactly what is registered if and
only if writing is asked for before reading, nothing is taken back, and events are removed by closing their
descriptors. -/
theorem kqueue_faithful_iff (event : Nat → Option Event) (hlegal : Along Act.Legal [] acts) :
    FaithfulRun [] (init event) acts ↔ Along Act.Safe [] acts := by
  have h : Keeps [] (init event) := ⟨by simp, by simp, by simp⟩
  have hf : Faithful [] (init event).knote := ⟨by simp, fun _ _ _ => rfl⟩
  exact run_iff h hf hlegal

/-- A client is registered for reading, and then a worker asks for write events. -/
theorem kqueue_not_faithful_write :
    ¬ FaithfulRun [] (init fun _ => none) [.request (.add 2 5 0x1a), .request (.update 2 0x1e)] := by
  have hlegal : Along Act.Legal [] [.request (.add 2 5 0x1a), .request (.update 2 0x1e)] := by
    simp [Along, Act.Legal, Act.apply, Op.Legal, Op.apply]
  rw [kqueue_faithful_iff _ hlegal]
  rintro ⟨-, hsafe, -⟩
  have hboth := (hsafe ⟨2, 5, 0x1a⟩ (by simp [Act.apply, Op.apply]) rfl).2
  exact absurd (hboth (by decide) (by decide)) (by decide)

end Excom.EventBaseKqueue
