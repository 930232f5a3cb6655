import Excom.PollLoop

/-!
# The `epoll` backend

`excom/event/epoll.c`.  The kernel holds the address of an event for each descriptor that is registered, and
`excom_event_epoll_loop` goes through the addresses that `epoll_wait` found ready, whatever the runner did to these
events since then.  The abstract loop (`Watch.loop`) calls the runner for an event only if it has been registered all
the time, and the code does the same exactly if no event is removed while its turn is to come (`epoll_exact_iff`).
-/

namespace Excom

/-- `struct epoll_event` -/
structure EpollEvent where
  events : UInt32
  ptr : Nat

namespace EventBaseEpoll

open EventBasePoll (Entry Op Call)

/-- The fields of an `excom_event_t` that the backend reads.  The field `data` is a parameter of the loop. -/
structure Event where
  fd : Int
  flags : UInt32

/-- The base, which descriptors are open, what the kernel holds for each descriptor, and the events.  There is none
where memory was freed. -/
structure State where
  loop : Bool
  maxevents : Nat
  isOpen : Int → Bool
  interest : Int → Option EpollEvent
  event : Nat → Option Event

def enoent : Int := 2
def eintr : Int := 4
def ebadf : Int := 9
def eexist : Int := 17

/-- `excom_event_base_epoll_init`, where `epoll_create` succeeds -/
def init (event : Nat → Option Event) : State where
  loop := true
  maxevents := 32
  isOpen _ := false
  interest _ := none
  event

/-- `EPOLL_CTL_ADD`, and so on -/
inductive Ctl where
  | add
  | mod
  | del

/-- `epoll_ctl` for a descriptor that is open: what the kernel holds afterwards, or `errno` -/
def epollCtl (interest : Int → Option EpollEvent) (fd : Int) (ev : EpollEvent) :
    Ctl → Except Int (Int → Option EpollEvent)
  | .add => if (interest fd).isSome then .error eexist else .ok (Function.update interest fd (some ev))
  | .mod => if (interest fd).isSome then .ok (Function.update interest fd (some ev)) else .error enoent
  | .del => if (interest fd).isSome then .ok (Function.update interest fd none) else .error enoent

/-- What `excom_event_epoll_add`, `.._update` and `.._remove` have in common -/
def control (ctl : Ctl) (s : State) (p : Nat) : Option (Int × State) := do
  let event ← s.event p
  if s.isOpen event.fd then
    match epollCtl s.interest event.fd ⟨event.flags, p⟩ ctl with
    | .error errno => return (errno, s)
    | .ok interest => return (0, { s with interest })
  else return (ebadf, s)

/-- `excom_event_epoll_add` -/
def add : State → Nat → Option (Int × State) := control .add

/-- `excom_event_epoll_update` -/
def update : State → Nat → Option (Int × State) := control .mod

/-- `excom_event_epoll_remove` -/
def remove : State → Nat → Option (Int × State) := control .del

/-- `excom_event_epoll_loop_end` -/
def loopEnd (s : State) : State := { s with loop := false }

/-- The event is filled in, and the backend is called.  The descriptor of a new event is open. -/
def request (s : State) : Op → Option (Int × State)
  | .add p fd flags =>
    add { s with
      isOpen := Function.update s.isOpen fd true
      event := Function.update s.event p (some ⟨fd, flags⟩) } p
  | .update p flags => do
    let event ← s.event p
    update { s with event := Function.update s.event p (some { event with flags }) } p
  | .remove p => remove s p

/-- What the runner and the other threads do: a call of the backend, the memory of an event is freed, a descriptor is
closed, or the loop is to end. -/
inductive Act where
  | request (op : Op)
  | free (p : Nat)
  | close (fd : Int)
  | loopEnd

/-- The kernel drops a descriptor that is closed. -/
def Act.perform (s : State) : Act → Option State
  | request op => (EventBaseEpoll.request s op).map Prod.snd
  | free p => some { s with event := Function.update s.event p none }
  | close fd => some { s with
      isOpen := Function.update s.isOpen fd false
      interest := Function.update s.interest fd none }
  | loopEnd => some (EventBaseEpoll.loopEnd s)

def performAll (s : State) (acts : List Act) : Option State := acts.foldlM Act.perform s

/-- What happens while `epoll_wait` waits, what it returns (descriptors that are ready for something, or `errno`), and
what other threads do then, before the runner is called for the first time -/
structure Round where
  meanwhile : List Act
  wait : Except Int (List (Int × UInt32))
  early : List Act

section

variable (data : Nat → Nat) (runner : List Call → List Act)

/-- `epoll_wait` fills in `events`. -/
def epollWait (s : State) (ready : List (Int × UInt32)) : List EpollEvent :=
  (ready.filterMap fun x => (s.interest x.1).map fun ev => ⟨x.2, ev.ptr⟩).take s.maxevents

/-- The loop over `events`, where the event at `p` has `data p`, and `runner calls` is what the runner and the other
threads do from a call on until the next one, where `calls` are all calls so far. -/
def dispatch : List EpollEvent → State → List Call → Option (State × List Call)
  | [], s, calls => some (s, calls)
  | ev :: events, s, calls => do
    let event ← s.event ev.ptr
    let calls := calls ++ [⟨ev.ptr, event.fd, data ev.ptr, ev.events⟩]
    let s ← performAll s (runner calls)
    dispatch events s calls

/-- One turn of the `while` loop -/
def turn (s : State) (calls : List Call) (r : Round) : Option (State × List Call) := do
  let s ← performAll s r.meanwhile
  match r.wait with
  | .error errno =>
    let s ← performAll (if errno = eintr then { s with loop := false } else s) r.early
    return (s, calls)
  | .ok ready =>
    let events := epollWait s ready
    let s ← performAll s r.early
    dispatch data runner events s calls

/-- `excom_event_epoll_loop`, as long as the rounds are given -/
def loop : List Round → State → List Call → Option (State × List Call)
  | [], s, calls => some (s, calls)
  | r :: rounds, s, calls =>
    if s.loop then do
      let (s, calls) ← turn data runner s calls r
      loop rounds s calls
    else some (s, calls)

end

/-! ### What the loop is for -/

/-- What is registered, how many events come in a round, and whether there is another round -/
structure Watch where
  reg : List Entry
  maxevents : Nat
  runs : Bool

namespace Act

/-- What is registered afterwards -/
def apply (w : Watch) : Act → Watch
  | request op => { w with reg := op.apply w.reg }
  | free _ => w
  | close fd => { w with reg := w.reg.filter fun e => e.fd ≠ fd }
  | loopEnd => { w with runs := false }

/-- The backend is used as it should be, and an event that is registered is not freed. -/
def Legal (w : Watch) : Act → Prop
  | request op => op.Legal w.reg
  | free p => ∀ e ∈ w.reg, e.addr ≠ p
  | close _ | loopEnd => True

end Act

namespace Watch

/-- What has been registered all the time, of the events at `alive` -/
def applyAll : List Act → Watch → List Nat → Watch × List Nat
  | [], w, alive => (w, alive)
  | a :: acts, w, alive => applyAll acts (a.apply w) (alive.filter fun p => ∃ e ∈ (a.apply w).reg, e.addr = p)

def AllLegal : List Act → Watch → Prop
  | [], _ => True
  | a :: acts, w => a.Legal w ∧ AllLegal acts (a.apply w)

variable (data : Nat → Nat) (runner : List Call → List Act)

/-- The calls for the descriptors that are ready -/
def ready (w : Watch) (fds : List (Int × UInt32)) : List Call :=
  (fds.filterMap fun x => (w.reg.find? fun e => e.fd = x.1).map fun e => ⟨e.addr, e.fd, data e.addr, x.2⟩).take
    w.maxevents

/-- The runner is called for the events that are registered still. -/
def dispatch : List Call → Watch → List Nat → List Call → Watch × List Call
  | [], w, _, calls => (w, calls)
  | c :: rest, w, alive, calls =>
    if c.root ∈ alive then
      dispatch rest (applyAll (runner (calls ++ [c])) w alive).1 (applyAll (runner (calls ++ [c])) w alive).2
        (calls ++ [c])
    else dispatch rest w alive calls

/-- What is registered when `epoll_wait` returns -/
def waited (w : Watch) (r : Round) : Watch := (applyAll r.meanwhile w []).1

/-- A signal ends the loop. -/
def interrupt (w : Watch) (errno : Int) : Watch := if errno = eintr then { w with runs := false } else w

/-- What is registered at the first call, and which of the events that are ready have been registered all the time -/
def entered (w : Watch) (r : Round) (ready : List Call) : Watch × List Nat :=
  applyAll r.early (w.waited r) (ready.map Call.root)

/-- What one round is to do -/
def turn (w : Watch) (calls : List Call) (r : Round) : Watch × List Call :=
  match r.wait with
  | .error errno => ((applyAll r.early ((w.waited r).interrupt errno) []).1, calls)
  | .ok fds =>
    let ready := (w.waited r).ready data fds
    dispatch runner ready (w.entered r ready).1 (w.entered r ready).2 calls

/-- What the loop is to do -/
def loop : List Round → Watch → List Call → Watch × List Call
  | [], w, calls => (w, calls)
  | r :: rounds, w, calls =>
    if w.runs then loop rounds (w.turn data runner calls r).1 (w.turn data runner calls r).2 else (w, calls)

/-! ### What the runner may do -/

/-- `P` holds of every call of a round, with what is registered before it and the calls that came first. -/
def DispatchAlong (P : Watch → List Call → Call → Prop) : List Call → Watch → List Nat → List Call → Prop
  | [], _, _, _ => True
  | c :: rest, w, alive, calls =>
    (c.root ∈ alive → P w calls c ∧
      DispatchAlong P rest (applyAll (runner (calls ++ [c])) w alive).1
        (applyAll (runner (calls ++ [c])) w alive).2 (calls ++ [c])) ∧
    (c.root ∉ alive → DispatchAlong P rest w alive calls)

/-- The runner does only what is legal, whenever it is called. -/
def LegalDispatch : List Call → Watch → List Nat → List Call → Prop :=
  DispatchAlong runner fun w calls c => AllLegal (runner (calls ++ [c])) w

/-- No event is removed while its turn is to come. -/
def UndisturbedDispatch : List Call → Watch → List Nat → List Call → Prop
  | [], _, _, _ => True
  | c :: rest, w, alive, calls => c.root ∈ alive ∧
    UndisturbedDispatch rest (applyAll (runner (calls ++ [c])) w alive).1
      (applyAll (runner (calls ++ [c])) w alive).2 (calls ++ [c])

def LegalTurn (w : Watch) (calls : List Call) (r : Round) : Prop :=
  AllLegal r.meanwhile w ∧ AllLegal r.early (w.waited r) ∧ ∀ fds, r.wait = .ok fds →
    LegalDispatch runner ((w.waited r).ready data fds) (w.entered r ((w.waited r).ready data fds)).1
      (w.entered r ((w.waited r).ready data fds)).2 calls

def UndisturbedTurn (w : Watch) (calls : List Call) (r : Round) : Prop :=
  ∀ fds, r.wait = .ok fds →
    UndisturbedDispatch runner ((w.waited r).ready data fds) (w.entered r ((w.waited r).ready data fds)).1
      (w.entered r ((w.waited r).ready data fds)).2 calls

/-- `P` holds of every round, until the loop ends. -/
def Along (P : Watch → List Call → Round → Prop) : List Round → Watch → List Call → Prop
  | [], _, _ => True
  | r :: rounds, w, calls => w.runs = true →
    P w calls r ∧ Along P rounds (w.turn data runner calls r).1 (w.turn data runner calls r).2

end Watch

/-- The base, the kernel and the events are as they should be. -/
structure Holds (w : Watch) (s : State) : Prop where
  loop : s.loop = w.runs
  maxevents : s.maxevents = w.maxevents
  addrs : (w.reg.map Entry.addr).Nodup
  fds : (w.reg.map Entry.fd).Nodup
  isOpen : ∀ e ∈ w.reg, s.isOpen e.fd = true
  interest (fd : Int) (ev : EpollEvent) : s.interest fd = some ev ↔ ∃ e ∈ w.reg, e.fd = fd ∧ ⟨e.flags, e.addr⟩ = ev
  event : ∀ e ∈ w.reg, s.event e.addr = some ⟨e.fd, e.flags⟩

/-- After any number of rounds, the runner was called as it should be. -/
def Exact (data : Nat → Nat) (runner : List Call → List Act) (w : Watch) (s : State) (rounds : List Round) : Prop :=
  ∀ n, (loop data runner (rounds.take n) s []).map Prod.snd = some (w.loop data runner (rounds.take n) []).2

variable {data : Nat → Nat} {runner : List Call → List Act}
variable {w : Watch} {s : State}

/-- A new base watches nothing. -/
theorem init_holds (event : Nat → Option Event) : Holds ⟨[], 32, true⟩ (init event) where
  loop := rfl
  maxevents := rfl
  addrs := List.nodup_nil
  fds := List.nodup_nil
  isOpen e he := absurd he List.not_mem_nil
  interest fd ev := by simp [init]
  event e he := absurd he List.not_mem_nil

/-! ### What is registered after a call -/

section Entries

variable {α : Type} {f : Entry → α} {reg : List Entry} {event : Nat → Option Event} {e e' : Entry}

theorem nodup_add (h : (reg.map f).Nodup) (hnew : ∀ e' ∈ reg, f e' ≠ f e) : ((reg ++ [e]).map f).Nodup := by
  rw [List.map_append, List.nodup_append]
  refine ⟨h, List.nodup_singleton _, ?_⟩
  intro x hx y hy
  obtain ⟨e', he', rfl⟩ := List.mem_map.1 hx
  rw [List.mem_singleton.1 hy]
  exact hnew e' he'

/-- An update changes flags only. -/
theorem map_update (hf : ∀ (e : Entry) (flags : UInt32), f { e with flags } = f e) (p : Nat) (flags : UInt32) :
    ((Op.update p flags).apply reg).map f = reg.map f := by
  rw [Op.apply, List.map_map]
  apply List.map_congr_left
  intro e _
  dsimp only [Function.comp]
  split
  · exact hf e flags
  · rfl

/-- The entries of the other descriptors stay as they are. -/
theorem update_other (haddrs : (reg.map Entry.addr).Nodup) (he : e ∈ reg) (he' : e' ∈ reg) (hfd : e'.fd ≠ e.fd)
    (flags : UInt32) : (if e'.addr = e.addr then { e' with flags } else e') = e' := by
  rw [if_neg]
  intro haddr
  exact hfd (congrArg Entry.fd (List.inj_on_of_nodup_map haddrs he' he haddr))

theorem event_add {p : Nat} {fd : Int} {flags : UInt32} (h : ∀ e ∈ reg, event e.addr = some ⟨e.fd, e.flags⟩)
    (hnew : ∀ e ∈ reg, e.addr ≠ p) : ∀ e ∈ reg ++ [⟨p, fd, flags⟩],
      Function.update event p (some ⟨fd, flags⟩) e.addr = some ⟨e.fd, e.flags⟩ := by
  intro e he
  rcases List.mem_append.1 he with hold | hlast
  · rw [Function.update_of_ne (hnew e hold)]
    exact h e hold
  · rw [List.mem_singleton.1 hlast]
    simp

/-- An update of one event keeps the fields of the others. -/
theorem event_update (haddrs : (reg.map Entry.addr).Nodup) (h : ∀ e ∈ reg, event e.addr = some ⟨e.fd, e.flags⟩)
    (he : e ∈ reg) (flags : UInt32) : ∀ e' ∈ (Op.update e.addr flags).apply reg,
      Function.update event e.addr (some ⟨e.fd, flags⟩) e'.addr = some ⟨e'.fd, e'.flags⟩ := by
  intro e' he'
  simp only [Op.apply, List.mem_map] at he'
  obtain ⟨e₀, he₀, rfl⟩ := he'
  by_cases haddr : e₀.addr = e.addr
  · obtain rfl := List.inj_on_of_nodup_map haddrs he₀ he haddr
    simp
  · rw [if_neg haddr, Function.update_of_ne haddr]
    exact h e₀ he₀

end Entries

/-! ### The calls of the backend -/

namespace Holds

private theorem eq_of_addr (h : Holds w s) {e e' : Entry} (he : e ∈ w.reg) (he' : e' ∈ w.reg)
    (haddr : e.addr = e'.addr) : e = e' :=
  List.inj_on_of_nodup_map h.addrs he he' haddr

private theorem eq_of_fd (h : Holds w s) {e e' : Entry} (he : e ∈ w.reg) (he' : e' ∈ w.reg)
    (hfd : e.fd = e'.fd) : e = e' :=
  List.inj_on_of_nodup_map h.fds he he' hfd

private theorem interest_some (h : Holds w s) {e : Entry} (he : e ∈ w.reg) :
    s.interest e.fd = some ⟨e.flags, e.addr⟩ :=
  (h.interest e.fd _).2 ⟨e, he, rfl, rfl⟩

private theorem interest_none (h : Holds w s) {fd : Int} (hnew : ∀ e ∈ w.reg, e.fd ≠ fd) : s.interest fd = none := by
  rcases hev : s.interest fd with _ | ev
  · rfl
  · obtain ⟨e, he, hfd, -⟩ := (h.interest fd ev).1 hev
    exact absurd hfd (hnew e he)

private theorem request_add (h : Holds w s) {p : Nat} {fd : Int} (flags : UInt32)
    (hnew : ∀ e ∈ w.reg, e.addr ≠ p ∧ e.fd ≠ fd) :
    ∃ s', request s (.add p fd flags) = some (0, s') ∧
      Holds ((Act.request (.add p fd flags)).apply w) s' := by
  have hnone := h.interest_none fun e he => (hnew e he).2
  refine ⟨{ s with
    isOpen := Function.update s.isOpen fd true
    event := Function.update s.event p (some ⟨fd, flags⟩)
    interest := Function.update s.interest fd (some ⟨flags, p⟩) }, ?_, ?_⟩
  · simp [request, add, control, epollCtl, hnone]
  · exact
      { loop := h.loop
        maxevents := h.maxevents
        addrs := nodup_add h.addrs fun e he => (hnew e he).1
        fds := nodup_add h.fds fun e he => (hnew e he).2
        isOpen := by
          intro e he
          rcases List.mem_append.1 he with hold | hlast
          · exact (Function.update_of_ne (hnew e hold).2 ..).trans (h.isOpen e hold)
          · rw [List.mem_singleton.1 hlast]
            exact Function.update_self ..
        interest := by
          intro fd' ev
          simp only [Act.apply, Op.apply, List.mem_append, List.mem_singleton, or_and_right, exists_or,
            exists_eq_left]
          by_cases hfd : fd' = fd
          · subst hfd
            rw [Function.update_self, Option.some.injEq]
            constructor
            · exact fun hev => .inr ⟨rfl, hev⟩
            · rintro (⟨e, he, hfd, -⟩ | ⟨-, hev⟩)
              · exact absurd hfd (hnew e he).2
              · exact hev
          · rw [Function.update_of_ne hfd, h.interest]
            constructor
            · exact .inl
            · rintro (hold | ⟨hfd', -⟩)
              · exact hold
              · exact absurd hfd'.symm hfd
        event := event_add h.event fun e he => (hnew e he).1 }

private theorem request_update (h : Holds w s) {e : Entry} (he : e ∈ w.reg) (flags : UInt32) :
    ∃ s', request s (.update e.addr flags) = some (0, s') ∧
      Holds ((Act.request (.update e.addr flags)).apply w) s' := by
  have hsome := h.interest_some he
  have hevent := h.event e he
  refine ⟨{ s with
    event := Function.update s.event e.addr (some ⟨e.fd, flags⟩)
    interest := Function.update s.interest e.fd (some ⟨flags, e.addr⟩) }, ?_, ?_⟩
  · simp [request, update, control, epollCtl, hevent, hsome, h.isOpen e he]
  · exact
      { loop := h.loop
        maxevents := h.maxevents
        addrs := by
          show (((Op.update e.addr flags).apply w.reg).map Entry.addr).Nodup
          rw [map_update fun _ _ => rfl]
          exact h.addrs
        fds := by
          show (((Op.update e.addr flags).apply w.reg).map Entry.fd).Nodup
          rw [map_update fun _ _ => rfl]
          exact h.fds
        isOpen := by
          intro e' he'
          obtain ⟨e₀, he₀, rfl⟩ := List.mem_map.1 he'
          split <;> exact h.isOpen e₀ he₀
        interest := by
          intro fd ev
          simp only [Act.apply, Op.apply, List.mem_map, exists_exists_and_eq_and]
          by_cases hfd : fd = e.fd
          · rw [hfd, Function.update_self, Option.some.injEq]
            constructor
            · intro hev
              exact ⟨e, he, by simp, by simpa using hev⟩
            · rintro ⟨e', he', hfd', hev⟩
              have hsame : e'.fd = e.fd := by
                split at hfd' <;> exact hfd'
              obtain rfl := h.eq_of_fd he' he hsame
              simpa using hev
          · rw [Function.update_of_ne hfd, h.interest]
            constructor
            · rintro ⟨e', he', hfd', hev⟩
              refine ⟨e', he', ?_⟩
              rw [update_other h.addrs he he' (hfd' ▸ hfd)]
              exact ⟨hfd', hev⟩
            · rintro ⟨e', he', hfd', hev⟩
              have hsame : e'.fd = fd := by
                split at hfd' <;> exact hfd'
              rw [update_other h.addrs he he' (hsame ▸ hfd)] at hev
              exact ⟨e', he', hsame, hev⟩
        event := event_update h.addrs h.event he flags }

private theorem filter (h : Holds w s) (P : Entry → Bool) {isOpen : Int → Bool}
    {interest : Int → Option EpollEvent} (hopen : ∀ e ∈ w.reg.filter P, isOpen e.fd = true)
    (hinterest : ∀ fd ev, interest fd = some ev ↔ ∃ e ∈ w.reg.filter P, e.fd = fd ∧ ⟨e.flags, e.addr⟩ = ev) :
    Holds { w with reg := w.reg.filter P } { s with isOpen, interest } where
  loop := h.loop
  maxevents := h.maxevents
  addrs := h.addrs.sublist (List.filter_sublist.map Entry.addr)
  fds := h.fds.sublist (List.filter_sublist.map Entry.fd)
  isOpen := hopen
  interest := hinterest
  event e he := h.event e (List.mem_of_mem_filter he)

/-- The kernel drops a descriptor, which the other descriptors do not notice. -/
private theorem drop (h : Holds w s) (fd : Int) {isOpen : Int → Bool}
    (hopen : ∀ e ∈ w.reg, e.fd ≠ fd → isOpen e.fd = true) :
    Holds { w with reg := w.reg.filter fun e => e.fd ≠ fd }
      { s with isOpen, interest := Function.update s.interest fd none } := by
  refine h.filter _ (fun e he => ?_) fun fd' ev => ?_
  · obtain ⟨he, hne⟩ := List.mem_filter.1 he
    exact hopen e he (of_decide_eq_true hne)
  simp only [List.mem_filter, decide_eq_true_eq]
  by_cases hfd : fd' = fd
  · rw [hfd, Function.update_self]
    simp only [reduceCtorEq, false_iff]
    rintro ⟨e, ⟨-, hne⟩, hfd', -⟩
    exact hne hfd'
  · rw [Function.update_of_ne hfd, h.interest]
    constructor
    · rintro ⟨e, he, hfd', hev⟩
      exact ⟨e, ⟨he, hfd' ▸ hfd⟩, hfd', hev⟩
    · rintro ⟨e, ⟨he, -⟩, hfd', hev⟩
      exact ⟨e, he, hfd', hev⟩

private theorem request_remove (h : Holds w s) {e : Entry} (he : e ∈ w.reg) :
    ∃ s', request s (.remove e.addr) = some (0, s') ∧ Holds ((Act.request (.remove e.addr)).apply w) s' := by
  have hsome := h.interest_some he
  have hevent := h.event e he
  refine ⟨{ s with interest := Function.update s.interest e.fd none }, ?_, ?_⟩
  · simp [request, remove, control, epollCtl, hevent, hsome, h.isOpen e he]
  · have hdrop := h.drop e.fd fun e' he' _ => h.isOpen e' he'
    have hfilter : (w.reg.filter fun e' => e'.fd ≠ e.fd) = w.reg.filter fun e' => e'.addr ≠ e.addr := by
      apply List.filter_congr
      intro e' he'
      have hiff : e'.fd = e.fd ↔ e'.addr = e.addr :=
        ⟨fun hfd => congrArg Entry.addr (h.eq_of_fd he' he hfd),
          fun haddr => congrArg Entry.fd (h.eq_of_addr he' he haddr)⟩
      simp only [ne_eq, hiff]
    rw [hfilter] at hdrop
    exact hdrop

/-- A legal call of the backend succeeds. -/
theorem request (h : Holds w s) {op : Op} (hlegal : op.Legal w.reg) :
    ∃ s', EventBaseEpoll.request s op = some (0, s') ∧ Holds ((Act.request op).apply w) s' := by
  cases op with
  | add p fd flags => exact h.request_add flags hlegal
  | update p flags =>
    obtain ⟨e, he, rfl⟩ := hlegal
    exact h.request_update he flags
  | remove p =>
    obtain ⟨e, he, rfl⟩ := hlegal
    exact h.request_remove he

/-- What is legal can be done, and the kernel holds what is registered afterwards. -/
theorem perform (h : Holds w s) {a : Act} (hlegal : a.Legal w) :
    ∃ s', a.perform s = some s' ∧ Holds (a.apply w) s' := by
  cases a with
  | request op =>
    obtain ⟨s', hrun, h'⟩ := h.request hlegal
    refine ⟨s', ?_, h'⟩
    rw [Act.perform, hrun]
    rfl
  | free p =>
    refine ⟨_, rfl, { h with event := ?_ }⟩
    intro e he
    exact (Function.update_of_ne (hlegal e he) _ _).trans (h.event e he)
  | close fd =>
    refine ⟨_, rfl, h.drop fd ?_⟩
    intro e he hne
    exact (Function.update_of_ne hne ..).trans (h.isOpen e he)
  | loopEnd => exact ⟨_, rfl, { h with loop := rfl }⟩

end Holds

/-! ### Events whose turn is to come -/

variable {acts : List Act} {alive : List Nat} {rest calls : List Call}

private theorem Act.apply_fd {a : Act} (hnodup : (w.reg.map Entry.addr).Nodup) (hlegal : a.Legal w) {e e' : Entry}
    (he : e ∈ w.reg) (he' : e' ∈ (a.apply w).reg) (haddr : e'.addr = e.addr) : e'.fd = e.fd := by
  have hsame {e₀ : Entry} (he₀ : e₀ ∈ w.reg) (haddr₀ : e₀.addr = e.addr) : e₀.fd = e.fd := by
    rw [List.inj_on_of_nodup_map hnodup he₀ he haddr₀]
  cases a with
  | request op =>
    cases op with
    | add p fd flags =>
      rcases List.mem_append.1 he' with hold | hlast
      · exact hsame hold haddr
      · rw [List.mem_singleton.1 hlast] at haddr
        exact absurd haddr.symm (hlegal e he).1
    | update p flags =>
      obtain ⟨e₀, he₀, rfl⟩ := List.mem_map.1 he'
      by_cases hp : e₀.addr = p
      · rw [if_pos hp] at haddr ⊢
        show e₀.fd = e.fd
        exact hsame he₀ haddr
      · rw [if_neg hp] at haddr ⊢
        exact hsame he₀ haddr
    | remove p => exact hsame (List.mem_of_mem_filter he') haddr
  | close fd => exact hsame (List.mem_of_mem_filter he') haddr
  | free p => exact hsame he' haddr
  | loopEnd => exact hsame he' haddr

/-- The calls that are to come, if their events have been registered all the time -/
def Awaited (data : Nat → Nat) (rest : List Call) (w : Watch) (alive : List Nat) : Prop :=
  ∀ c ∈ rest, c.data = data c.root ∧ (c.root ∈ alive → ∃ e ∈ w.reg, e.addr = c.root ∧ e.fd = c.fd)

/-- Legal acts do what they are to do, and the calls that are to come are the same. -/
theorem Holds.performAll (h : Holds w s) (hlegal : Watch.AllLegal acts w)
    (hawait : Awaited data rest w alive) :
    ∃ s', EventBaseEpoll.performAll s acts = some s' ∧ Holds (Watch.applyAll acts w alive).1 s' ∧
      Awaited data rest (Watch.applyAll acts w alive).1 (Watch.applyAll acts w alive).2 := by
  induction acts generalizing w s alive with
  | nil => exact ⟨s, rfl, h, hawait⟩
  | cons a acts ih =>
    obtain ⟨ha, hacts⟩ := hlegal
    obtain ⟨s₁, hrun, h₁⟩ := h.perform ha
    have hawait₁ : Awaited data rest (a.apply w) (alive.filter fun p => ∃ e ∈ (a.apply w).reg, e.addr = p) := by
      intro c hc
      obtain ⟨hdata, hreg⟩ := hawait c hc
      refine ⟨hdata, ?_⟩
      intro halive
      obtain ⟨hold, hstill⟩ := List.mem_filter.1 halive
      obtain ⟨e', he', haddr'⟩ := of_decide_eq_true hstill
      obtain ⟨e, he, haddr, hfd⟩ := hreg hold
      exact ⟨e', he', haddr', (Act.apply_fd h.addrs ha he he' (haddr'.trans haddr.symm)).trans hfd⟩
    obtain ⟨s', hrest, h', hawait'⟩ := ih h₁ hacts hawait₁
    refine ⟨s', ?_, h', hawait'⟩
    unfold EventBaseEpoll.performAll
    rw [List.foldlM_cons, hrun]
    exact hrest

namespace Watch

theorem applyAll_append (acts acts' : List Act) (w : Watch) (alive : List Nat) :
    applyAll (acts ++ acts') w alive = applyAll acts' (applyAll acts w alive).1 (applyAll acts w alive).2 := by
  induction acts generalizing w alive with
  | nil => rfl
  | cons a acts ih => exact ih ..

theorem allLegal_append {acts' : List Act} (alive : List Nat) :
    AllLegal (acts ++ acts') w ↔ AllLegal acts w ∧ AllLegal acts' (applyAll acts w alive).1 := by
  induction acts generalizing w alive with
  | nil => simp [AllLegal, applyAll]
  | cons a acts ih =>
    rw [List.cons_append, AllLegal, AllLegal, ih (alive.filter fun p => ∃ e ∈ (a.apply w).reg, e.addr = p), and_assoc]
    rfl

end Watch

/-- What the kernel filled in for a call -/
private def fired (c : Call) : EpollEvent := ⟨c.flags, c.root⟩

/-- If no event is removed while its turn is to come, the loop over `events` does what it is to do. -/
private theorem dispatch_eq (h : Holds w s) (hawait : Awaited data rest w alive)
    (hlegal : Watch.LegalDispatch runner rest w alive calls)
    (hstill : Watch.UndisturbedDispatch runner rest w alive calls) :
    ∃ s', dispatch data runner (rest.map fired) s calls =
        some (s', (Watch.dispatch runner rest w alive calls).2) ∧
      Holds (Watch.dispatch runner rest w alive calls).1 s' := by
  induction rest generalizing w s alive calls with
  | nil => exact ⟨s, rfl, h⟩
  | cons c rest ih =>
    obtain ⟨halive, hstill⟩ := hstill
    obtain ⟨hacts, hlegal⟩ := hlegal.1 halive
    obtain ⟨⟨hdata, hreg⟩, hawait⟩ := List.forall_mem_cons.1 hawait
    obtain ⟨e, he, haddr, hfd⟩ := hreg halive
    have hevent : s.event c.root = some ⟨c.fd, e.flags⟩ := by
      rw [← haddr, ← hfd]
      exact h.event e he
    obtain ⟨s₁, hperform, h₁, hawait₁⟩ := h.performAll hacts hawait
    obtain ⟨s', hrun, h'⟩ := ih h₁ hawait₁ hlegal hstill
    rw [Watch.dispatch, if_pos halive]
    refine ⟨s', ?_, h'⟩
    rw [List.map_cons, dispatch]
    simp only [fired, hevent, Option.bind_eq_bind, Option.bind_some, ← hdata]
    rw [hperform]
    exact hrun

/-! ### How often the runner is called -/

/-- The code calls the runner for whatever the kernel filled in. -/
private theorem length_dispatch {events : List EpollEvent} {s' : State} {calls' : List Call}
    (hrun : dispatch data runner events s calls = some (s', calls')) :
    calls'.length = calls.length + events.length := by
  induction events generalizing s calls with
  | nil =>
    cases hrun
    rfl
  | cons ev events ih =>
    simp only [dispatch, Option.bind_eq_bind, Option.bind_eq_some_iff] at hrun
    obtain ⟨event, -, s₁, -, hrun⟩ := hrun
    rw [ih hrun, List.length_append, List.length_singleton, List.length_cons]
    omega

private theorem Watch.length_dispatch_le :
    (Watch.dispatch runner rest w alive calls).2.length ≤ calls.length + rest.length := by
  induction rest generalizing w alive calls with
  | nil => exact Nat.le_refl _
  | cons c rest ih =>
    rw [Watch.dispatch, List.length_cons]
    split
    · apply Nat.le_trans ih
      rw [List.length_append, List.length_singleton]
      omega
    · apply Nat.le_trans ih
      omega

/-- An event that was removed costs a call. -/
private theorem Watch.undisturbed_of_length
    (hlength : (Watch.dispatch runner rest w alive calls).2.length = calls.length + rest.length) :
    UndisturbedDispatch runner rest w alive calls := by
  induction rest generalizing w alive calls with
  | nil => trivial
  | cons c rest ih =>
    rw [Watch.dispatch, List.length_cons] at hlength
    by_cases halive : c.root ∈ alive
    · rw [if_pos halive] at hlength
      refine ⟨halive, ih ?_⟩
      rw [List.length_append, List.length_singleton]
      omega
    · rw [if_neg halive] at hlength
      have hle : (dispatch runner rest w alive calls).2.length ≤ calls.length + rest.length :=
        Watch.length_dispatch_le
      omega

/-! ### Rounds -/

variable {r : Round} {rounds : List Round}

/-- The kernel finds ready what is registered. -/
private theorem Holds.epollWait_eq (data : Nat → Nat) (h : Holds w s) (fds : List (Int × UInt32)) :
    epollWait s fds = (w.ready data fds).map fired := by
  have hfind (fd : Int) : s.interest fd = (w.reg.find? fun e => e.fd = fd).map fun e => ⟨e.flags, e.addr⟩ := by
    rcases hfd : w.reg.find? (fun e => e.fd = fd) with _ | e
    · have hnew : ∀ e ∈ w.reg, e.fd ≠ fd := by
        intro e he
        simpa using List.find?_eq_none.1 hfd e he
      rw [h.interest_none hnew, hfd]
      rfl
    · have hmem := List.mem_of_find?_eq_some hfd
      obtain rfl : e.fd = fd := by simpa using List.find?_some hfd
      rw [h.interest_some hmem, hfd]
      rfl
  unfold epollWait Watch.ready
  rw [h.maxevents, List.map_take, List.map_filterMap]
  congr 2
  funext x
  rw [hfind, Option.map_map, Option.map_map]
  rfl

/-- What is ready is registered. -/
theorem Watch.awaited_ready (w : Watch) (fds : List (Int × UInt32)) (alive : List Nat) :
    Awaited data (w.ready data fds) w alive := by
  intro c hc
  obtain ⟨x, -, hx⟩ := List.mem_filterMap.1 (List.mem_of_mem_take hc)
  obtain ⟨e, he, rfl⟩ := Option.map_eq_some_iff.1 hx
  exact ⟨rfl, fun _ => ⟨e, List.mem_of_find?_eq_some he, rfl, rfl⟩⟩

/-- While `epoll_wait` waits, the registrations follow what the other threads ask for. -/
theorem Holds.waited (h : Holds w s) (hlegal : Watch.AllLegal r.meanwhile w) :
    ∃ s', EventBaseEpoll.performAll s r.meanwhile = some s' ∧ Holds (w.waited r) s' := by
  have hawait : Awaited (fun _ => 0) [] w [] := fun c hc => absurd hc List.not_mem_nil
  obtain ⟨s', hrun, h', -⟩ := h.performAll hlegal hawait
  exact ⟨s', hrun, h'⟩

variable (data) in
/-- What other threads do before the first call -/
theorem Holds.entered (h : Holds (w.waited r) s) (hlegal : Watch.AllLegal r.early (w.waited r))
    (fds : List (Int × UInt32)) : ∃ s', EventBaseEpoll.performAll s r.early = some s' ∧
      Holds (w.entered r ((w.waited r).ready data fds)).1 s' ∧
      Awaited data ((w.waited r).ready data fds) (w.entered r ((w.waited r).ready data fds)).1
        (w.entered r ((w.waited r).ready data fds)).2 :=
  h.performAll hlegal ((w.waited r).awaited_ready fds _)

private theorem Holds.interrupt (h : Holds w s) (errno : Int) :
    Holds (w.interrupt errno) (if errno = eintr then { s with loop := false } else s) := by
  unfold Watch.interrupt
  split
  · exact { h with loop := rfl }
  · exact h

private theorem Watch.AllLegal.congr {w' : Watch} (h : AllLegal acts w) (hreg : w'.reg = w.reg) :
    AllLegal acts w' := by
  induction acts generalizing w w' with
  | nil => trivial
  | cons a acts ih =>
    obtain ⟨ha, hacts⟩ := h
    refine ⟨?_, ih hacts ?_⟩
    · unfold Act.Legal at *
      rwa [hreg]
    · cases a <;> simp [Act.apply, hreg]

/-- A round in which no event is removed while its turn is to come does what it is to do. -/
theorem Holds.turn_eq (h : Holds w s) (hlegal : w.LegalTurn data runner calls r)
    (hstill : w.UndisturbedTurn data runner calls r) :
    ∃ s', turn data runner s calls r = some (s', (w.turn data runner calls r).2) ∧
      Holds (w.turn data runner calls r).1 s' := by
  obtain ⟨hmeanwhile, hearly, hcalls⟩ := hlegal
  obtain ⟨s₁, hperform, h₁⟩ := h.waited hmeanwhile
  unfold turn Watch.turn
  rw [hperform]
  rcases hwait : r.wait with errno | fds
  · have hnone : Awaited data [] ((w.waited r).interrupt errno) [] := fun c hc => absurd hc List.not_mem_nil
    have hreg : ((w.waited r).interrupt errno).reg = (w.waited r).reg := by
      unfold Watch.interrupt
      split <;> rfl
    obtain ⟨s₂, hrun, h₂, -⟩ := (h₁.interrupt errno).performAll (hearly.congr hreg) hnone
    refine ⟨s₂, ?_, h₂⟩
    simp only [Option.bind_eq_bind, Option.bind_some]
    rw [hrun]
    rfl
  · obtain ⟨s₂, hrun, h₂, hawait⟩ := h₁.entered data hearly fds
    obtain ⟨s', hdispatch, h'⟩ := dispatch_eq h₂ hawait (hcalls fds hwait) (hstill fds hwait)
    refine ⟨s', ?_, h'⟩
    simp only [Option.bind_eq_bind, Option.bind_some]
    rw [h₁.epollWait_eq data, hrun]
    exact hdispatch

/-- A round that makes as many calls as it is to make is not disturbed. -/
private theorem Holds.undisturbed_of_turn (h : Holds w s) (hmeanwhile : Watch.AllLegal r.meanwhile w)
    (hearly : Watch.AllLegal r.early (w.waited r))
    (hrun : (turn data runner s calls r).map Prod.snd = some (w.turn data runner calls r).2) :
    w.UndisturbedTurn data runner calls r := by
  intro fds hwait
  obtain ⟨s₁, hperform, h₁⟩ := h.waited hmeanwhile
  obtain ⟨s₂, hperform', -⟩ := h₁.entered data hearly fds
  obtain ⟨⟨s', calls'⟩, hrun, hcalls⟩ := Option.map_eq_some_iff.1 hrun
  unfold turn at hrun
  unfold Watch.turn at hcalls
  rw [hperform, hwait] at hrun
  rw [hwait] at hcalls
  simp only [Option.bind_eq_bind, Option.bind_some, h₁.epollWait_eq data, hperform'] at hrun
  have hlength := length_dispatch hrun
  rw [List.length_map] at hlength
  apply Watch.undisturbed_of_length
  rw [← hlength]
  exact congrArg List.length hcalls.symm

/-- With legal acts, the runner was called as it should be after any number of rounds exactly if no event was removed
while its turn was to come. -/
private theorem exact_iff (h : Holds w s)
    (hlegal : Watch.Along data runner (Watch.LegalTurn data runner) rounds w calls) :
    (∀ n, (loop data runner (rounds.take n) s calls).map Prod.snd =
      some (w.loop data runner (rounds.take n) calls).2) ↔
    Watch.Along data runner (Watch.UndisturbedTurn data runner) rounds w calls := by
  induction rounds generalizing w s calls with
  | nil => simp [Watch.Along, loop, Watch.loop]
  | cons r rounds ih =>
    by_cases hgo : w.runs = true
    · have hloop : s.loop = true := h.loop.trans hgo
      obtain ⟨hturn, hrest⟩ := hlegal hgo
      -- one round, and what the rounds after it do
      have hstep (hstill : w.UndisturbedTurn data runner calls r) :
          ∃ s', Holds (w.turn data runner calls r).1 s' ∧ ∀ n,
            loop data runner ((r :: rounds).take (n + 1)) s calls =
              loop data runner (rounds.take n) s' (w.turn data runner calls r).2 := by
        obtain ⟨s', hrun, h'⟩ := h.turn_eq hturn hstill
        refine ⟨s', h', ?_⟩
        intro n
        rw [List.take_succ_cons, loop, if_pos hloop, hrun]
        rfl
      have hspec (n : Nat) : w.loop data runner ((r :: rounds).take (n + 1)) calls =
          (w.turn data runner calls r).1.loop data runner (rounds.take n) (w.turn data runner calls r).2 := by
        rw [List.take_succ_cons, Watch.loop, if_pos hgo]
      constructor
      · intro hexact _
        have hfirst := hexact 1
        rw [hspec 0, List.take_succ_cons, loop, if_pos hloop] at hfirst
        have hstill : w.UndisturbedTurn data runner calls r := by
          apply h.undisturbed_of_turn hturn.1 hturn.2.1
          rcases hrun : turn data runner s calls r with _ | ⟨s', calls'⟩
          · rw [hrun] at hfirst
            cases hfirst
          · rw [hrun] at hfirst
            exact hfirst
        obtain ⟨s', h', hloop'⟩ := hstep hstill
        refine ⟨hstill, (ih h' hrest).1 ?_⟩
        intro n
        rw [← hloop', ← hspec]
        exact hexact (n + 1)
      · intro hstill n
        obtain ⟨hfirst, hstill⟩ := hstill hgo
        obtain ⟨s', h', hloop'⟩ := hstep hfirst
        cases n with
        | zero => rfl
        | succ n =>
          rw [hloop', hspec]
          exact (ih h' hrest).2 hstill n
    · have hloop : ¬ s.loop = true := by rwa [h.loop]
      refine ⟨fun _ hgo' => absurd hgo' hgo, ?_⟩
      intro _ n
      cases n with
      | zero => rfl
      | succ n =>
        rw [List.take_succ_cons, loop, if_neg hloop, Watch.loop, if_neg hgo]
        rfl

/-- Over any rounds, in which the runner and the other threads do only what is legal: after each of them the runner
was called as it should be, exactly if no event is removed while its turn is to come. -/
theorem epoll_exact_iff (h : Holds w s) (hlegal : Watch.Along data runner (Watch.LegalTurn data runner) rounds w []) :
    Exact data runner w s rounds ↔ Watch.Along data runner (Watch.UndisturbedTurn data runner) rounds w [] :=
  exact_iff h hlegal

/-- Two events are added, and then they are ready. -/
private def both (early : List Act) : Round where
  meanwhile := [.request (.add 1 5 1), .request (.add 2 6 1)]
  wait := .ok [(5, 1), (6, 1)]
  early

/-- The second event is removed and freed. -/
private def gone : List Act := [.request (.remove 2), .free 2]

/-- A runner that does this when it is called for the first event -/
private def removing (calls : List Call) : List Act := if calls.getLast?.map Call.root = some 1 then gone else []

private theorem gone_legal {w : Watch} (h : ∃ e ∈ w.reg, e.addr = 2) : Watch.AllLegal gone w :=
  ⟨h, fun _ he => of_decide_eq_true (List.mem_filter.1 he).2, trivial⟩

private theorem both_legal (early : List Act) :
    Watch.AllLegal (both early).meanwhile ⟨[], 32, true⟩ := by
  simp [both, Watch.AllLegal, Act.Legal, Op.Legal, Act.apply, Op.apply]

private theorem removing_legal :
    Watch.Along id removing (Watch.LegalTurn id removing) [both []] ⟨[], 32, true⟩ [] := by
  refine fun _ => ⟨⟨both_legal [], trivial, ?_⟩, trivial⟩
  intro fds hwait
  cases hwait
  refine ⟨fun _ => ⟨gone_legal ⟨⟨2, 6, 1⟩, .tail _ (.head _), rfl⟩, ?_⟩, fun h => absurd (by decide) h⟩
  exact ⟨fun h => absurd h (by decide), fun _ => trivial⟩

private theorem early_legal :
    Watch.Along id (fun _ => []) (Watch.LegalTurn id fun _ => []) [both gone] ⟨[], 32, true⟩ [] := by
  refine fun _ => ⟨⟨both_legal gone, gone_legal ⟨⟨2, 6, 1⟩, .tail _ (.head _), rfl⟩, ?_⟩, trivial⟩
  intro fds hwait
  cases hwait
  exact ⟨fun _ => ⟨trivial, fun h => absurd h (by decide), fun _ => trivial⟩, fun h => absurd (by decide) h⟩

/-- The second event is removed in the call for the first one, or by another thread before this call. -/
theorem epoll_not_exact_second : ¬ Exact id removing ⟨[], 32, true⟩ (init fun _ => none) [both []] ∧
    ¬ Exact id (fun _ => []) ⟨[], 32, true⟩ (init fun _ => none) [both gone] := by
  rw [epoll_exact_iff (init_holds _) removing_legal, epoll_exact_iff (init_holds _) early_legal]
  constructor
  · intro h
    exact absurd ((h rfl).1 _ rfl).2.1 (by decide)
  · intro h
    exact absurd ((h rfl).1 _ rfl).2.1 (by decide)

/-! ### A runner that removes only the event of the call -/

/-- What is removed or closed is the event of the call. -/
def Act.OfCall (c : Call) : Act → Prop
  | request (.remove p) => p = c.root
  | close fd => fd = c.fd
  | _ => True

/-- In a call for an event, no other event is removed and no other descriptor closed. -/
def Own (runner : List Call → List Act) : Prop := ∀ calls c, ∀ a ∈ runner (calls ++ [c]), a.OfCall c

/-- Calls for different events -/
private def Apart (c c' : Call) : Prop := c.root ≠ c'.root ∧ c.fd ≠ c'.fd

private theorem Act.mem_apply {a : Act} {c : Call} {e : Entry} (hown : a.OfCall c) (he : e ∈ w.reg)
    (hroot : c.root ≠ e.addr) (hfd : c.fd ≠ e.fd) : ∃ e' ∈ (a.apply w).reg, e'.addr = e.addr ∧ e'.fd = e.fd := by
  cases a with
  | request op =>
    cases op with
    | add p fd flags => exact ⟨e, List.mem_append_left _ he, rfl, rfl⟩
    | update p flags =>
      refine ⟨_, List.mem_map_of_mem he, ?_⟩
      split <;> exact ⟨rfl, rfl⟩
    | remove p =>
      have hp : p = c.root := hown
      exact ⟨e, List.mem_filter.2 ⟨he, decide_eq_true (hp ▸ hroot.symm)⟩, rfl, rfl⟩
  | close fd =>
    have hclosed : fd = c.fd := hown
    exact ⟨e, List.mem_filter.2 ⟨he, decide_eq_true (hclosed ▸ hfd.symm)⟩, rfl, rfl⟩
  | free p => exact ⟨e, he, rfl, rfl⟩
  | loopEnd => exact ⟨e, he, rfl, rfl⟩

/-- The other events stay registered during a call. -/
private theorem Watch.alive_applyAll {c c' : Call} (hown : ∀ a ∈ acts, a.OfCall c) (hapart : Apart c c')
    (halive : c'.root ∈ alive) {e : Entry} (he : e ∈ w.reg) (haddr : e.addr = c'.root) (hfd : e.fd = c'.fd) :
    c'.root ∈ (applyAll acts w alive).2 := by
  induction acts generalizing w alive e with
  | nil => exact halive
  | cons a acts ih =>
    obtain ⟨ha, hown⟩ := List.forall_mem_cons.1 hown
    obtain ⟨e', he', haddr', hfd'⟩ := Act.mem_apply ha he (haddr ▸ hapart.1) (hfd ▸ hapart.2)
    have haddr₁ := haddr'.trans haddr
    exact ih hown (List.mem_filter.2 ⟨halive, decide_eq_true ⟨e', he', haddr₁⟩⟩) he' haddr₁ (hfd'.trans hfd)

private theorem undisturbedDispatch_of_own (hown : Own runner) (h : Holds w s) (hawait : Awaited data rest w alive)
    (hlegal : Watch.LegalDispatch runner rest w alive calls) (hapart : rest.Pairwise Apart)
    (halive : ∀ c ∈ rest, c.root ∈ alive) : Watch.UndisturbedDispatch runner rest w alive calls := by
  induction rest generalizing w s alive calls with
  | nil => trivial
  | cons c rest ih =>
    obtain ⟨hc, halive⟩ := List.forall_mem_cons.1 halive
    obtain ⟨hfirst, hapart⟩ := List.pairwise_cons.1 hapart
    obtain ⟨hacts, hlegal⟩ := hlegal.1 hc
    have hawait := (List.forall_mem_cons.1 hawait).2
    obtain ⟨s₁, -, h₁, hawait₁⟩ := h.performAll hacts hawait
    refine ⟨hc, ih h₁ hawait₁ hlegal hapart ?_⟩
    intro c' hc'
    obtain ⟨e, he, haddr, hfd⟩ := (hawait c' hc').2 (halive c' hc')
    exact Watch.alive_applyAll (hown calls c) (hfirst c' hc') (halive c' hc') he haddr hfd

private theorem Holds.apart_ready (h : Holds w s) {fds : List (Int × UInt32)} (hnodup : (fds.map Prod.fst).Nodup) :
    (w.ready data fds).Pairwise Apart := by
  refine List.Pairwise.sublist (List.take_sublist ..) ?_
  rw [List.pairwise_filterMap]
  apply (List.pairwise_map.1 hnodup).imp
  intro x x' hne c hc c' hc'
  obtain ⟨e, he, rfl⟩ := Option.map_eq_some_iff.1 hc
  obtain ⟨e', he', rfl⟩ := Option.map_eq_some_iff.1 hc'
  have hfd : e.fd = x.1 := by simpa using List.find?_some he
  have hfd' : e'.fd = x'.1 := by simpa using List.find?_some he'
  rw [← hfd, ← hfd'] at hne
  refine ⟨?_, hne⟩
  intro haddr
  rw [h.eq_of_addr (List.mem_of_find?_eq_some he) (List.mem_of_find?_eq_some he') haddr] at hne
  exact hne rfl

/-- If the runner removes only the event that it is called for, and nothing is removed before the first call, no event
is removed while its turn is to come. -/
theorem Holds.undisturbed_of_own (h : Holds w s) (hown : Own runner) (hearly : ∀ a ∈ r.early, ∀ c, a.OfCall c)
    (hdistinct : ∀ fds, r.wait = .ok fds → (fds.map Prod.fst).Nodup) (hlegal : w.LegalTurn data runner calls r) :
    w.UndisturbedTurn data runner calls r := by
  obtain ⟨s₁, -, h₁⟩ := h.waited hlegal.1
  intro fds hwait
  obtain ⟨s₂, -, h₂, hawait⟩ := h₁.entered data hlegal.2.1 fds
  refine undisturbedDispatch_of_own hown h₂ hawait (hlegal.2.2 fds hwait) (h₁.apart_ready (hdistinct fds hwait)) ?_
  intro c hc
  have hroot : c.root ∈ ((w.waited r).ready data fds).map Call.root := List.mem_map_of_mem hc
  obtain ⟨e, he, haddr, hfd⟩ := ((w.waited r).awaited_ready fds _ c hc).2 hroot
  -- what is done before the first call could be done in a call for any other event
  have hapart : Apart ⟨c.root + 1, c.fd + 1, 0, 0⟩ c := ⟨Nat.succ_ne_self _, Int.ne_of_gt (Int.lt_succ _)⟩
  exact Watch.alive_applyAll (fun a ha => hearly a ha _) hapart hroot he haddr hfd

end EventBaseEpoll

end Excom
