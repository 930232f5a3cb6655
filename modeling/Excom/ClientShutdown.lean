import Excom.Epoll
import Excom.Lib.Ledger
import Excom.Lib.Transition
import Excom.WriteEvents

/-!
# Shutting a client down

`excom_client_destroy` closes the socket and joins the thread that runs `event_loop`, but it does not end the loop.
Only `clclose` does, in a call of `event_listener` for an event with `EXCOM_EVENT_CLOSE`, or a signal that interrupts
`epoll_wait`.  As the kernel reports nothing of a socket that is closed, `excom_client_destroy` returns if the loop
has ended before it or such a call is under way, and otherwise never (`destroy_returns_or_hangs`).  What the two
threads share is used only as long as it is there (`shutdown_safe`).
-/

namespace Excom.ClientShutdown

open EventBaseEpoll
open EventBasePoll (Op)
open Relation (ReflTransGen)

/-! ### The code -/

def eventRead : UInt32 := 0x1
def eventError : UInt32 := 0x8
def eventClose : UInt32 := 0x2010

/-- The flags of the socket of a client -/
def sockFlags : UInt32 := eventRead ||| eventClose ||| eventError

/-- The functions that `event_listener` calls -/
inductive Handler where
  | clread
  | clwrite
  | clclose
  | clerror
  deriving DecidableEq

/-- The calls in `event_listener` for an event with these flags -/
def eventListener (flags : UInt32) : List Handler :=
  (if Carries flags eventRead then [.clread, .clwrite] else []) ++
    (if Carries flags eventWrite then [.clwrite] else []) ++
    (if Carries flags eventClose then [.clclose] else []) ++
    if Carries flags eventError then [.clerror] else []

/-- Where the thread of the loop is: at the test of `base->loop`, in `epoll_wait`, with events that are to come, in a
call of `event_listener` with calls that are to come, or out of the loop -/
inductive LoopPc where
  | test
  | wait
  | dispatch (events : List EpollEvent)
  | listen (ev : EpollEvent) (todo : List Handler) (events : List EpollEvent)
  | exited

/-- Where the thread is that calls `excom_client_destroy`: not in it, at the join, behind it, or out of it again -/
inductive DestroyPc where
  | idle
  | join
  | out
  | done
  deriving DecidableEq

/-- A client with its base, the address of its `event`, the packets of its list, the blocks that packets are in, and
which of its buffers are destroyed -/
structure State where
  base : EventBaseEpoll.State
  sock : Int
  event : Nat
  disconnected : Bool
  packets : List Nat
  blocks : Ledger Nat
  inDestroyed : Bool
  outDestroyed : Bool
  thread : LoopPc
  destroyer : DestroyPc

/-- What the system calls come to: what `epoll_wait` finds ready, whether `read` brings bytes and then fails with
`EAGAIN`, the block for a packet if one is complete, whether it is answered, and what `excom_buffer_write` returns -/
structure World where
  ready : List (Int × UInt32)
  bytes : Bool
  again : Bool
  packet : Option Nat
  answered : Bool
  written : Int

/-- A buffer is used, which must not be destroyed. -/
def use (destroyed : Bool) : Option Unit := if destroyed then none else some ()

/-- The flags of an event are set, and `excom_event_update` is called. -/
def State.update (s : State) (p : Nat) (flags : UInt32) : Option State :=
  (request s.base (.update p flags)).map fun (_, base) => { s with base }

/-- `default_handler` -/
def defaultHandler (s : State) (x : World) : Option State := do
  if x.answered then use s.outDestroyed
  let event ← s.base.event s.event
  s.update s.event (event.flags ||| eventWrite)

/-- `check_packet`, where the packet is read without an error if it is complete -/
def checkPacket (s : State) (x : World) : Option State := do
  use s.inDestroyed
  match x.packet with
  | none => return s
  | some packet =>
    let blocks ← s.blocks.acquire packet
    defaultHandler { s with blocks, packets := packet :: s.packets } x

def clread (s : State) (x : World) : Option State := do
  if s.disconnected then return s
  if x.bytes then use s.inDestroyed
  if x.again then checkPacket s x else return s

def clwrite (s : State) (ev : EpollEvent) (x : World) : Option State := do
  use s.outDestroyed
  let event ← s.base.event ev.ptr
  if x.written = EAGAIN ∧ ¬ Carries ev.events eventWrite then s.update ev.ptr (event.flags ||| eventWrite)
  else if x.written = 0 ∧ Carries ev.events eventWrite then s.update ev.ptr (event.flags ^^^ eventWrite)
  else return s

/-- `clclose`: reading the `_next` of a packet that is freed is a fault, as freeing it is. -/
def clclose (s : State) : Option State := do
  use s.inDestroyed
  let blocks ← s.packets.foldlM Ledger.release s.blocks
  return { s with inDestroyed := true, blocks, disconnected := true, base := loopEnd s.base }

def Handler.run (s : State) (ev : EpollEvent) (x : World) : Handler → Option State
  | clread => ClientShutdown.clread s x
  | clwrite => ClientShutdown.clwrite s ev x
  | clclose => ClientShutdown.clclose s
  | clerror => some s

/-- The next statement of `excom_event_epoll_loop`, or the next call in `event_listener` -/
def advance (s : State) (x : World) : Option State :=
  match s.thread with
  | .test => some { s with thread := if s.base.loop then .wait else .exited }
  | .wait => some { s with thread := .dispatch (epollWait s.base x.ready) }
  | .dispatch [] => some { s with thread := .test }
  | .dispatch (ev :: events) => do
    let _ ← s.base.event ev.ptr
    return { s with thread := .listen ev (eventListener ev.events) events }
  | .listen _ [] events => some { s with thread := .dispatch events }
  | .listen ev (h :: todo) events => do
    let s ← h.run s ev x
    return { s with thread := .listen ev todo events }
  | .exited => some s

/-- The next statement of `excom_client_destroy`, where the join is over -/
def destroy (s : State) : Option State :=
  match s.destroyer with
  | .idle => do
    let base ← Act.perform s.base (.close s.sock)
    return { s with base, destroyer := .join }
  | .join => some { s with destroyer := .out }
  | .out => do
    use s.outDestroyed
    return { s with outDestroyed := true, destroyer := .done }
  | .done => some s

/-! ### Runs -/

/-- After `excom_client_connect` and `excom_client_handle_packets` -/
inductive Initial : State → Prop where
  | intro {sock err : Int} {event : Nat} {base : EventBaseEpoll.State}
      (h : request (init fun _ => none) (.add event sock sockFlags) = some (err, base)) :
      Initial
        { base, sock, event, disconnected := false, packets := [], blocks := .empty, inDestroyed := false,
          outDestroyed := false, thread := .test, destroyer := .idle }

/-- A descriptor is ready at most once, and `malloc` returns a block that is free. -/
structure Possible (s : State) (x : World) : Prop where
  ready : (x.ready.map Prod.fst).Nodup
  packet : ∀ p, x.packet = some p → ¬ s.blocks.Live p

/-- The thread of the loop goes on, or the destroying one, which waits for the other one at the join. -/
inductive Step : State → State → Prop where
  | advance {s s' : State} (x : World) (hx : Possible s x) (hpc : s.thread ≠ .exited)
      (h : ClientShutdown.advance s x = some s') : Step s s'
  | destroy {s s' : State} (hpc : s.destroyer ≠ .done) (hjoin : s.destroyer = .join → s.thread = .exited)
      (h : ClientShutdown.destroy s = some s') : Step s s'

/-- A signal interrupts `epoll_wait`. -/
inductive Interrupt : State → State → Prop where
  | intro {s : State} (hpc : s.thread = .wait) :
      Interrupt s { s with base := { s.base with loop := false }, thread := .test }

def AnyStep (s s' : State) : Prop := Step s s' ∨ Interrupt s s'

/-- No buffer that is destroyed is used, and no packet that is freed. -/
structure Faultless (s : State) : Prop where
  advance : ∀ x, Possible s x → (ClientShutdown.advance s x).isSome
  destroy : (ClientShutdown.destroy s).isSome

/-- The calls that are to come in this round -/
def LoopPc.pending : LoopPc → List Handler
  | .dispatch events => events.flatMap fun ev => eventListener ev.events
  | .listen _ todo events => todo ++ events.flatMap fun ev => eventListener ev.events
  | .test | .wait | .exited => []

/-- The loop has ended, or it is about to. -/
def Ending (s : State) : Prop := s.base.loop = false ∨ .clclose ∈ s.thread.pending

variable {s s' : State} {x : World} {ev : EpollEvent} {handler : Handler} {todo : List Handler} {flags : UInt32}

/-! ### The calls for one event -/

private theorem length_eventListener (flags : UInt32) : (eventListener flags).length ≤ 5 := by
  unfold eventListener
  split <;> split <;> split <;> split <;> simp

/-- After `clclose` there is at most a call of `clerror`. -/
private theorem clerror_of_suffix (hsuffix : (.clclose :: todo) <:+ eventListener flags) :
    ∀ h ∈ todo, h = .clerror := by
  unfold eventListener at hsuffix
  intro h hmem
  revert hsuffix
  split <;> split <;> split <;> split <;> simp [List.suffix_cons_iff]
  all_goals
    rintro rfl
    simp_all

private theorem length_ready {fd : Int} {f : Int × UInt32 → Option EpollEvent} {ready : List (Int × UInt32)}
    (hnodup : (ready.map Prod.fst).Nodup) (hf : ∀ r ev, f r = some ev → r.1 = fd) :
    (ready.filterMap f).length ≤ 1 := by
  induction ready with
  | nil => simp
  | cons r ready ih =>
    rw [List.map_cons, List.nodup_cons] at hnodup
    cases hr : f r with
    | none => simpa [hr] using ih hnodup.2
    | some ev =>
      have hnone : ready.filterMap f = [] := by
        rw [List.filterMap_eq_nil_iff]
        intro r' hr'
        cases hfr : f r' with
        | none => rfl
        | some ev' =>
          have hsame : r'.1 = r.1 := (hf r' ev' hfr).trans (hf r ev hr).symm
          exact absurd (List.mem_map.2 ⟨r', hr', hsame⟩) hnodup.1
      simp [hr, hnone]

/-! ### The invariant -/

/-- There is one event at most, and what is to come is the rest of the calls for it. -/
private def LoopPc.Fits (event : Nat) : LoopPc → Prop
  | .dispatch events => events.length ≤ 1 ∧ ∀ ev ∈ events, ev.ptr = event
  | .listen ev todo events => ev.ptr = event ∧ todo <:+ eventListener ev.events ∧ events = []
  | .test | .wait | .exited => True

private structure Sound (s : State) : Prop where
  registered : ∀ fd ev, s.base.interest fd = some ev → fd = s.sock ∧ ev.ptr = s.event ∧ s.destroyer = .idle
  event : ∃ flags, s.base.event s.event = some ⟨s.sock, flags⟩
  thread : s.thread.Fits s.event
  exited : s.thread = .exited → s.base.loop = false
  joined : s.destroyer = .out ∨ s.destroyer = .done → s.thread = .exited
  closed : s.disconnected = true → s.base.loop = false ∧ s.thread ≠ .wait ∧ ∀ h ∈ s.thread.pending, h = .clerror
  nodup : s.packets.Nodup
  blocks : ∀ p, s.blocks.Live p ↔ p ∈ s.packets ∧ s.disconnected = false
  inDestroyed : s.inDestroyed = s.disconnected
  outDestroyed : s.outDestroyed = true ↔ s.destroyer = .done

private theorem Sound.start (h : Initial s) : Sound s := by
  obtain ⟨hadd⟩ := h
  simp [request, add, EventBaseEpoll.control, epollCtl, init] at hadd
  obtain ⟨-, rfl⟩ := hadd
  constructor <;> simp [LoopPc.Fits, LoopPc.pending, Ledger.not_live_empty, Function.update_apply]

/-! ### The calls in a round -/

/-- The flags change, and what the kernel holds for the descriptor if it is open and the kernel holds something. -/
private theorem request_update {base : EventBaseEpoll.State} {p : Nat} {fd : Int} {old : UInt32}
    (hevent : base.event p = some ⟨fd, old⟩) (flags : UInt32) : ∃ err interest, request base (.update p flags) =
        some (err, { base with event := Function.update base.event p (some ⟨fd, flags⟩), interest }) ∧
      ∀ fd' ev, interest fd' = some ev →
        base.interest fd' = some ev ∨ fd' = fd ∧ ev.ptr = p ∧ ∃ ev', base.interest fd = some ev' := by
  by_cases hopen : base.isOpen fd = true
  swap
  · refine ⟨ebadf, base.interest, ?_, fun _ _ => .inl⟩
    simp [request, EventBaseEpoll.update, EventBaseEpoll.control, hevent, hopen]
  cases hold : base.interest fd with
  | none =>
    refine ⟨enoent, base.interest, ?_, fun _ _ => .inl⟩
    simp [request, EventBaseEpoll.update, EventBaseEpoll.control, epollCtl, hevent, hold, hopen]
  | some ev =>
    refine ⟨0, Function.update base.interest fd (some ⟨flags, p⟩), ?_, ?_⟩
    · simp [request, EventBaseEpoll.update, EventBaseEpoll.control, epollCtl, hevent, hold, hopen]
    · intro fd' ev' hev
      by_cases hfd : fd' = fd
      · rw [hfd, Function.update_self] at hev
        cases hev
        exact .inr ⟨hfd, rfl, ev, rfl⟩
      · rw [Function.update_of_ne hfd] at hev
        exact .inl hev

/-- A call other than `clclose` -/
private structure Handled (s s' : State) : Prop where
  sound : Sound s'
  loop : s'.base.loop = s.base.loop
  thread : s'.thread = s.thread
  destroyer : s'.destroyer = s.destroyer

private theorem Sound.handled (h : Sound s) : Handled s s := ⟨h, rfl, rfl, rfl⟩

private theorem Sound.update (h : Sound s) (flags : UInt32) :
    ∃ s', s.update s.event flags = some s' ∧ Handled s s' := by
  obtain ⟨old, hevent⟩ := h.event
  obtain ⟨err, interest, hrequest, hinterest⟩ := request_update hevent flags
  refine ⟨_, congrArg (Option.map _) hrequest, ?_, rfl, rfl, rfl⟩
  refine { h with registered := ?_, event := ⟨flags, by simp⟩ }
  intro fd ev hev
  rcases hinterest fd ev hev with hold | ⟨rfl, hptr, ev', hold⟩
  · exact h.registered fd ev hold
  · exact ⟨rfl, hptr, (h.registered _ ev' hold).2.2⟩

private theorem Sound.use_in (h : Sound s) (hopen : s.disconnected = false) : use s.inDestroyed = some () := by
  simp [use, h.inDestroyed, hopen]

private theorem Sound.use_out (h : Sound s) (hnot : s.destroyer ≠ .done) : use s.outDestroyed = some () := by
  cases hout : s.outDestroyed with
  | false => rfl
  | true => exact absurd (h.outDestroyed.1 hout) hnot

/-- `buf.out` is there as long as the thread is. -/
private theorem Sound.not_done (h : Sound s) (hpc : s.thread ≠ .exited) : s.destroyer ≠ .done :=
  fun hdone => hpc (h.joined (.inr hdone))

private theorem Sound.defaultHandler (h : Sound s) (hpc : s.thread ≠ .exited) (x : World) :
    ∃ s', defaultHandler s x = some s' ∧ Handled s s' := by
  obtain ⟨old, hevent⟩ := h.event
  obtain ⟨s', hupdate, h'⟩ := h.update (old ||| eventWrite)
  refine ⟨s', ?_, h'⟩
  simp [ClientShutdown.defaultHandler, h.use_out (h.not_done hpc), hevent, hupdate]

private theorem Sound.checkPacket (h : Sound s) (hpc : s.thread ≠ .exited) (hopen : s.disconnected = false)
    (hx : Possible s x) : ∃ s', checkPacket s x = some s' ∧ Handled s s' := by
  cases hpacket : x.packet with
  | none => exact ⟨s, by simp [ClientShutdown.checkPacket, h.use_in hopen, hpacket], h.handled⟩
  | some p =>
    have hfree := hx.packet p hpacket
    obtain ⟨blocks, hblocks⟩ := Option.isSome_iff_exists.1 (Ledger.acquire_isSome.2 hfree)
    have hfresh : p ∉ s.packets := by
      intro hmem
      exact hfree ((h.blocks p).2 ⟨hmem, hopen⟩)
    have hqueued : Sound { s with blocks, packets := p :: s.packets } := by
      refine { h with nodup := List.nodup_cons.2 ⟨hfresh, h.nodup⟩, blocks := ?_ }
      intro q
      rw [Ledger.live_of_acquire hblocks, h.blocks]
      simp [hopen]
    obtain ⟨s', hrun, h'⟩ := hqueued.defaultHandler hpc x
    refine ⟨s', ?_, h'.sound, h'.loop, h'.thread, h'.destroyer⟩
    simp [ClientShutdown.checkPacket, h.use_in hopen, hpacket, hblocks, hrun]

private theorem Sound.clread (h : Sound s) (hpc : s.thread ≠ .exited) (hx : Possible s x) :
    ∃ s', clread s x = some s' ∧ Handled s s' := by
  cases hclosed : s.disconnected with
  | true => exact ⟨s, by simp [ClientShutdown.clread, hclosed], h.handled⟩
  | false =>
    by_cases hagain : x.again
    · obtain ⟨s', hrun, h'⟩ := h.checkPacket hpc hclosed hx
      exact ⟨s', by simp [ClientShutdown.clread, h.use_in hclosed, hclosed, hagain, hrun], h'⟩
    · exact ⟨s, by simp [ClientShutdown.clread, h.use_in hclosed, hclosed, hagain], h.handled⟩

private theorem Sound.clwrite (h : Sound s) (hpc : s.thread ≠ .exited) (hptr : ev.ptr = s.event) (x : World) :
    ∃ s', clwrite s ev x = some s' ∧ Handled s s' := by
  obtain ⟨old, hevent⟩ := h.event
  simp only [ClientShutdown.clwrite, h.use_out (h.not_done hpc), hptr, hevent, Option.bind_eq_bind, Option.bind_some]
  split
  · exact h.update _
  · split
    · exact h.update _
    · exact ⟨s, rfl, h.handled⟩

private theorem Sound.run (h : Sound s) (hpc : s.thread ≠ .exited) (hptr : ev.ptr = s.event) (hx : Possible s x)
    (hne : handler ≠ .clclose) : ∃ s', handler.run s ev x = some s' ∧ Handled s s' := by
  cases handler with
  | clread => exact h.clread hpc hx
  | clwrite => exact h.clwrite hpc hptr x
  | clclose => exact absurd rfl hne
  | clerror => exact ⟨s, rfl, h.handled⟩

private theorem Sound.clclose (h : Sound s) (hopen : s.disconnected = false) : ∃ blocks,
    clclose s = some { s with inDestroyed := true, blocks, disconnected := true, base := loopEnd s.base } ∧
      ∀ p, ¬ blocks.Live p := by
  obtain ⟨blocks, hfree, hlive⟩ := Ledger.exists_releaseAll h.nodup fun p hp => (h.blocks p).2 ⟨hp, hopen⟩
  refine ⟨blocks, by simp [ClientShutdown.clclose, h.use_in hopen, hfree], ?_⟩
  intro p hp
  rw [hlive, h.blocks] at hp
  exact hp.2 hp.1.1

/-! ### The thread of the loop -/

/-- What the thread does next -/
private inductive Advances (s : State) : State → Prop where
  | again (hpc : s.thread = .test) (hloop : s.base.loop = true) : Advances s { s with thread := .wait }
  | exit (hpc : s.thread = .test) (hloop : s.base.loop = false) : Advances s { s with thread := .exited }
  | ready {events : List EpollEvent} (hpc : s.thread = .wait) (hone : events.length ≤ 1)
      (hptr : ∀ ev ∈ events, ev.ptr = s.event) (hclosed : s.destroyer ≠ .idle → events = []) :
      Advances s { s with thread := .dispatch events }
  | round (hpc : s.thread = .dispatch []) : Advances s { s with thread := .test }
  | call {ev : EpollEvent} (hpc : s.thread = .dispatch [ev]) (hptr : ev.ptr = s.event) :
      Advances s { s with thread := .listen ev (eventListener ev.events) [] }
  | back {ev : EpollEvent} (hpc : s.thread = .listen ev [] []) : Advances s { s with thread := .dispatch [] }
  | handle {s' : State} {ev : EpollEvent} {handler : Handler} {todo : List Handler}
      (hpc : s.thread = .listen ev (handler :: todo) []) (hne : handler ≠ .clclose) (h : Handled s s') :
      Advances s { s' with thread := .listen ev todo [] }
  | close {ev : EpollEvent} {todo : List Handler} {blocks : Ledger Nat}
      (hpc : s.thread = .listen ev (.clclose :: todo) []) (hblocks : ∀ p, ¬ blocks.Live p) :
      Advances s
        { s with
          inDestroyed := true, blocks, disconnected := true, base := loopEnd s.base, thread := .listen ev todo [] }

/-- The kernel reports the one socket, as long as it is open. -/
private theorem Sound.waited (h : Sound s) {ready : List (Int × UInt32)} (hready : (ready.map Prod.fst).Nodup) :
    (epollWait s.base ready).length ≤ 1 ∧ (∀ ev ∈ epollWait s.base ready, ev.ptr = s.event) ∧
      (s.destroyer ≠ .idle → epollWait s.base ready = []) := by
  have hfound {r : Int × UInt32} {ev : EpollEvent}
      (hev : ((s.base.interest r.1).map fun ev => EpollEvent.mk r.2 ev.ptr) = some ev) :
      r.1 = s.sock ∧ ev.ptr = s.event ∧ s.destroyer = .idle := by
    obtain ⟨ev', hev', rfl⟩ := Option.map_eq_some_iff.1 hev
    exact h.registered r.1 ev' hev'
  have hmem : ∀ ev ∈ epollWait s.base ready, ev.ptr = s.event ∧ s.destroyer = .idle := by
    intro ev hev
    obtain ⟨r, -, hr⟩ := List.mem_filterMap.1 (List.mem_of_mem_take hev)
    exact (hfound hr).2
  refine ⟨?_, fun ev hev => (hmem ev hev).1, ?_⟩
  · exact (List.length_take_le' _ _).trans (length_ready hready fun r ev hev => (hfound hev).1)
  · intro hclosed
    rw [List.eq_nil_iff_forall_not_mem]
    exact fun ev hev => hclosed (hmem ev hev).2

private theorem Sound.opened (h : Sound s) (hpc : s.thread = .listen ev (.clclose :: todo) []) :
    s.disconnected = false := by
  by_contra hclosed
  have hall := (h.closed (by simpa using hclosed)).2.2
  simp [hpc, LoopPc.pending] at hall

private theorem Sound.advance (h : Sound s) (hpc : s.thread ≠ .exited) (hx : Possible s x) :
    ∃ s', advance s x = some s' ∧ Advances s s' := by
  have hfits := h.thread
  unfold ClientShutdown.advance
  cases hthread : s.thread with
  | test =>
    cases hloop : s.base.loop with
    | true => exact ⟨_, rfl, .again hthread hloop⟩
    | false => exact ⟨_, rfl, .exit hthread hloop⟩
  | wait =>
    obtain ⟨hone, hptr, hclosed⟩ := h.waited hx.ready
    exact ⟨_, rfl, .ready hthread hone hptr hclosed⟩
  | dispatch events =>
    rw [hthread] at hfits
    obtain ⟨hone, hptr⟩ := hfits
    match events, hone with
    | [], _ => exact ⟨_, rfl, .round hthread⟩
    | [ev], _ =>
      obtain ⟨flags, hevent⟩ := h.event
      have hev := hptr ev (by simp)
      refine ⟨_, ?_, .call hthread hev⟩
      simp [hev, hevent]
  | listen ev todo events =>
    rw [hthread] at hfits
    obtain ⟨hptr, -, rfl⟩ := hfits
    cases todo with
    | nil => exact ⟨_, rfl, .back hthread⟩
    | cons handler todo =>
      by_cases hclose : handler = .clclose
      · subst hclose
        obtain ⟨blocks, hrun, hblocks⟩ := h.clclose (h.opened hthread)
        refine ⟨_, ?_, .close hthread hblocks⟩
        simp [Handler.run, hrun]
      · obtain ⟨s', hrun, h'⟩ := h.run hpc hptr hx hclose
        refine ⟨_, ?_, .handle hthread hclose h'⟩
        simp [hrun]
  | exited => exact absurd hthread hpc

private theorem Sound.moved (h : Sound s) (hpc : s.thread ≠ .exited) {pc : LoopPc} (hfits : pc.Fits s.event)
    (hexited : pc = .exited → s.base.loop = false) (hwait : pc = .wait → s.base.loop = true)
    (hpending : s.disconnected = true → ∀ handler ∈ pc.pending, handler ∈ s.thread.pending) :
    Sound { s with thread := pc } := by
  refine { h with thread := hfits, exited := hexited, joined := ?_, closed := ?_ }
  · exact fun hout => absurd (h.joined hout) hpc
  · intro hclosed
    obtain ⟨hloop, -, hall⟩ := h.closed hclosed
    refine ⟨hloop, ?_, fun handler hmem => hall handler (hpending hclosed handler hmem)⟩
    rintro rfl
    simp [hloop] at hwait

private theorem Sound.advances (h : Sound s) (hadv : Advances s s') : Sound s' := by
  have hfits := h.thread
  cases hadv with
  | again hpc hloop => exact h.moved (by simp [hpc]) trivial (by simp) (fun _ => hloop) (by simp [LoopPc.pending])
  | exit hpc hloop => exact h.moved (by simp [hpc]) trivial (fun _ => hloop) (by simp) (by simp [LoopPc.pending])
  | ready hpc hone hptr hclosed =>
    refine h.moved (by simp [hpc]) ⟨hone, hptr⟩ (by simp) (by simp) ?_
    exact fun hdis => absurd hpc (h.closed hdis).2.1
  | round hpc => exact h.moved (by simp [hpc]) trivial (by simp) (by simp) (by simp [LoopPc.pending])
  | call hpc hptr =>
    refine h.moved (by simp [hpc]) ⟨hptr, List.suffix_rfl, rfl⟩ (by simp) (by simp) ?_
    simp [hpc, LoopPc.pending]
  | back hpc => exact h.moved (by simp [hpc]) ⟨by simp, by simp⟩ (by simp) (by simp) (by simp [LoopPc.pending])
  | @handle s' ev handler todo hpc hne h' =>
    have hthread := h'.thread.trans hpc
    have hfits' := h'.sound.thread
    rw [hthread] at hfits'
    obtain ⟨hptr, hsuffix, -⟩ := hfits'
    refine h'.sound.moved (by simp [hthread]) ⟨hptr, (List.suffix_cons _ _).trans hsuffix, rfl⟩ (by simp) (by simp) ?_
    intro _ next hmem
    rw [hthread]
    simp only [LoopPc.pending, List.flatMap_nil, List.append_nil, List.mem_cons] at hmem ⊢
    exact .inr hmem
  | @close ev todo blocks hpc hblocks =>
    rw [hpc] at hfits
    obtain ⟨hptr, hsuffix, -⟩ := hfits
    exact
      { h with
        thread := ⟨hptr, (List.suffix_cons _ _).trans hsuffix, rfl⟩
        exited := by simp
        joined := fun hout => absurd (h.joined hout) (by simp [hpc])
        closed := fun _ => ⟨rfl, by simp, by simpa [LoopPc.pending] using clerror_of_suffix hsuffix⟩
        blocks := by simp [hblocks]
        inDestroyed := rfl }

/-! ### Runs -/

private theorem Sound.destroy (h : Sound s) (hpc : s.destroyer ≠ .done)
    (hjoin : s.destroyer = .join → s.thread = .exited) :
    ∃ s', destroy s = some s' ∧ Sound s' ∧ s'.base.loop = s.base.loop ∧ s'.thread = s.thread := by
  unfold ClientShutdown.destroy
  cases hdestroyer : s.destroyer with
  | idle =>
    refine ⟨_, rfl, ?_, rfl, rfl⟩
    refine { h with registered := ?_, joined := by simp, outDestroyed := by simp [h.outDestroyed, hdestroyer] }
    -- the kernel drops the socket
    intro fd ev hev
    by_cases hfd : fd = s.sock
    · simp [hfd] at hev
    · exact absurd (h.registered fd ev ((Function.update_of_ne hfd _ _).symm.trans hev)).1 hfd
  | join =>
    refine ⟨_, rfl, ?_, rfl, rfl⟩
    exact
      { h with
        registered := fun fd ev hev => absurd (h.registered fd ev hev).2.2 (by simp [hdestroyer])
        joined := fun _ => hjoin hdestroyer
        outDestroyed := by simp [h.outDestroyed, hdestroyer] }
  | out =>
    refine ⟨{ s with outDestroyed := true, destroyer := .done }, by simp [h.use_out hpc], ?_, rfl, rfl⟩
    exact
      { h with
        registered := fun fd ev hev => absurd (h.registered fd ev hev).2.2 (by simp [hdestroyer])
        joined := fun _ => h.joined (.inl hdestroyer)
        outDestroyed := by simp }
  | done => exact absurd hdestroyer hpc

private theorem Sound.step (h : Sound s) (hstep : Step s s') : Sound s' := by
  cases hstep with
  | advance x hx hpc hrun =>
    obtain ⟨s₁, hrun₁, hadv⟩ := h.advance hpc hx
    cases hrun.symm.trans hrun₁
    exact h.advances hadv
  | destroy hpc hjoin hrun =>
    obtain ⟨s₁, hrun₁, h₁, -⟩ := h.destroy hpc hjoin
    cases hrun.symm.trans hrun₁
    exact h₁

private theorem Sound.interrupt (h : Sound s) (hstep : Interrupt s s') : Sound s' := by
  obtain ⟨hpc⟩ := hstep
  refine { h with thread := trivial, exited := by simp, joined := ?_, closed := by simp [LoopPc.pending] }
  exact fun hout => absurd (h.joined hout) (by simp [hpc])

private theorem sound (h : Reachable Initial AnyStep s) : Sound s :=
  h.invariant (fun _ => Sound.start) fun _ _ h hstep => hstep.elim h.step h.interrupt

/-- Every run keeps to what is there: no handler comes to a buffer that is destroyed or to a packet that is freed, and
when `excom_client_destroy` has returned, all packets are freed if and only if the thread was told that the connection
is closed, or no packet came. -/
theorem shutdown_safe (h : Reachable Initial AnyStep s) :
    Faultless s ∧ (s.destroyer = .done → (s.blocks.Settled ↔ s.disconnected = true ∨ s.packets = [])) := by
  have hs := sound h
  constructor
  · constructor
    · intro x hx
      by_cases hpc : s.thread = .exited
      · simp [advance, hpc]
      · obtain ⟨s', hrun, -⟩ := hs.advance hpc hx
        simp [hrun]
    · cases hdestroyer : s.destroyer with
      | out => simp [destroy, hdestroyer, hs.use_out (by simp [hdestroyer])]
      | idle | join | done => simp [destroy, hdestroyer, Act.perform]
  · intro _
    rw [Ledger.settled_iff]
    simp only [hs.blocks]
    constructor
    · intro hnone
      by_contra hnot
      rw [not_or, Bool.not_eq_true] at hnot
      obtain ⟨p, hp⟩ := List.exists_mem_of_ne_nil _ hnot.2
      exact hnone p ⟨hp, hnot.1⟩
    · rintro (hclosed | hnil) p ⟨hp, hopen⟩
      · simp [hclosed] at hopen
      · simp [hnil] at hp

/-- A packet comes, and then the other side closes the connection. -/
theorem shutdown_safe_closed : ∃ s : State, s.destroyer = .done ∧ s.disconnected = true ∧ s.packets = [200] ∧
    Faultless s ∧ s.blocks.Settled := by
  let x : World := ⟨[(3, eventRead ||| eventClose)], true, true, some 200, true, 0⟩
  have hx {s : State} (hnew : ¬ s.blocks.Live 200) : Possible s x :=
    ⟨by simp [x], fun p hp => by obtain rfl := Option.some.inj hp; exact hnew⟩
  let y : World := ⟨[], false, false, none, false, 0⟩
  have hy {s : State} : Possible s y := ⟨by simp [y], by simp [y]⟩
  have h₀ : Reachable Initial AnyStep _ := .start (@Initial.intro 3 0 100 _ rfl)
  have h₁ := h₀.step (.inl (.advance x (hx Ledger.not_live_empty) nofun rfl))
  have h₂ := h₁.step (.inl (.advance x (hx Ledger.not_live_empty) nofun rfl))
  have h₃ := h₂.step (.inl (.advance x (hx Ledger.not_live_empty) nofun rfl))
  have h₄ := h₃.step (.inl (.advance x (hx Ledger.not_live_empty) nofun rfl))
  have h₅ := h₄.step (.inl (.advance y hy nofun rfl))
  have h₆ := h₅.step (.inl (.destroy (by simp) nofun rfl))
  have h₇ := h₆.step (.inl (.advance y hy nofun rfl))
  have h₈ := h₇.step (.inl (.advance y hy nofun rfl))
  have h₉ := h₈.step (.inl (.advance y hy nofun rfl))
  have h₁₀ := h₉.step (.inl (.advance y hy nofun rfl))
  have h₁₁ := h₁₀.step (.inl (.destroy nofun (fun _ => rfl) rfl))
  have h₁₂ := h₁₁.step (.inl (.destroy (by simp) nofun rfl))
  obtain ⟨hfaultless, hsettled⟩ := shutdown_safe h₁₂
  exact ⟨_, rfl, rfl, rfl, hfaultless, (hsettled rfl).2 (.inl rfl)⟩

/-! ### Whether `excom_client_destroy` returns -/

/-- How far it is to the end of the loop, once it is to end -/
private def LoopPc.rank : LoopPc → Nat
  | .exited => 0
  | .test => 1
  | .wait => 3
  | .dispatch events => 2 + (events.map fun ev => (eventListener ev.events).length + 2).sum
  | .listen _ todo _ => todo.length + 3

private def DestroyPc.rank : DestroyPc → Nat
  | .idle => 3
  | .join => 2
  | .out => 1
  | .done => 0

private def rank (s : State) : Nat := s.thread.rank + s.destroyer.rank

/-- `excom_client_destroy` is on its way, and the loop is to end. -/
private structure Returning (s : State) : Prop where
  sound : Sound s
  destroyer : s.destroyer = .join ∨ s.destroyer = .out
  ending : Ending s

private theorem Returning.rank_le (h : Returning s) : rank s ≤ 11 := by
  have hdestroyer : s.destroyer.rank ≤ 2 := by rcases h.destroyer with hd | hd <;> simp [hd, DestroyPc.rank]
  have hthread : s.thread.rank ≤ 9 := by
    have hfits := h.sound.thread
    cases hpc : s.thread with
    | test | wait | exited => simp [LoopPc.rank]
    | dispatch events =>
      rw [hpc] at hfits
      match events, hfits.1 with
      | [], _ => simp [LoopPc.rank]
      | [ev], _ =>
        have hlen := length_eventListener ev.events
        simp [LoopPc.rank]
        omega
    | listen ev todo events =>
      rw [hpc] at hfits
      have hlen := hfits.2.1.length_le.trans (length_eventListener ev.events)
      simp only [LoopPc.rank]
      omega
  unfold rank
  omega

private theorem Returning.advances (h : Returning s) (hadv : Advances s s') : Returning s' ∧ rank s' < rank s := by
  have h' := h.sound.advances hadv
  have hending := h.ending
  have hclosed : s.destroyer ≠ .idle := by rcases h.destroyer with hd | hd <;> simp [hd]
  unfold Ending at hending
  cases hadv with
  | again hpc hloop => simp [hpc, hloop, LoopPc.pending] at hending
  | exit hpc hloop => exact ⟨⟨h', h.destroyer, .inl hloop⟩, by simp [rank, hpc, LoopPc.rank]⟩
  | ready hpc _ _ hnone =>
    have hloop : s.base.loop = false := by simpa [hpc, LoopPc.pending] using hending
    exact ⟨⟨h', h.destroyer, .inl hloop⟩, by simp [rank, hpc, hnone hclosed, LoopPc.rank]⟩
  | round hpc =>
    have hloop : s.base.loop = false := by simpa [hpc, LoopPc.pending] using hending
    exact ⟨⟨h', h.destroyer, .inl hloop⟩, by simp [rank, hpc, LoopPc.rank]⟩
  | call hpc hptr =>
    refine ⟨⟨h', h.destroyer, ?_⟩, by simp [rank, hpc, LoopPc.rank]; omega⟩
    simpa [Ending, hpc, LoopPc.pending] using hending
  | back hpc =>
    refine ⟨⟨h', h.destroyer, ?_⟩, by simp [rank, hpc, LoopPc.rank]⟩
    simpa [Ending, hpc, LoopPc.pending] using hending
  | handle hpc hne hrun =>
    refine ⟨⟨h', by rw [hrun.destroyer]; exact h.destroyer, ?_⟩, by simp [rank, hpc, hrun.destroyer, LoopPc.rank]⟩
    simpa [Ending, hpc, hrun.loop, LoopPc.pending, Ne.symm hne] using hending
  | close hpc hblocks => exact ⟨⟨h', h.destroyer, .inl rfl⟩, by simp [rank, hpc, LoopPc.rank]⟩

private theorem Returning.step (h : Returning s) (hstep : Step s s') :
    s'.destroyer = .done ∨ Returning s' ∧ rank s' < rank s := by
  cases hstep with
  | advance x hx hpc hrun =>
    obtain ⟨s₁, hrun₁, hadv⟩ := h.sound.advance hpc hx
    cases hrun.symm.trans hrun₁
    exact .inr (h.advances hadv)
  | destroy hpc hjoin hrun =>
    obtain ⟨s₁, hrun₁, h₁, hloop, hthread⟩ := h.sound.destroy hpc hjoin
    cases hrun.symm.trans hrun₁
    rcases h.destroyer with hd | hd
    · simp only [destroy, hd, Option.some.injEq] at hrun
      subst hrun
      exact .inr ⟨⟨h₁, .inr rfl, h.ending⟩, by simp [rank, hd, DestroyPc.rank]⟩
    · have huse := h.sound.use_out hpc
      simp only [destroy, hd, huse, Option.bind_eq_bind, Option.bind_some, Option.pure_def, Option.some.injEq] at hrun
      subst hrun
      exact .inl rfl

private theorem Returning.live (h : Returning s) : ∃ s', Step s s' := by
  have hnot : s.destroyer ≠ .done := by rcases h.destroyer with hd | hd <;> simp [hd]
  by_cases hpc : s.thread = .exited
  · obtain ⟨s', hrun, -⟩ := h.sound.destroy hnot fun _ => hpc
    exact ⟨s', .destroy hnot (fun _ => hpc) hrun⟩
  · have hx : Possible s ⟨[], false, false, none, false, 0⟩ := ⟨by simp, by simp⟩
    obtain ⟨s', hrun, -⟩ := h.sound.advance hpc hx
    exact ⟨s', .advance _ hx hpc hrun⟩

/-- The socket is closed, and nobody ends the loop. -/
private structure Hanging (s : State) : Prop where
  sound : Sound s
  destroyer : s.destroyer = .join
  ending : ¬ Ending s

private theorem Hanging.step (h : Hanging s) (hstep : Step s s') : Hanging s' := by
  have hloop : s.base.loop = true := by
    have hnot := h.ending
    simp only [Ending, not_or, Bool.not_eq_false] at hnot
    exact hnot.1
  have hpc : s.thread ≠ .exited := by
    intro hexited
    simpa [hloop] using h.sound.exited hexited
  have hending := h.ending
  unfold Ending at hending
  cases hstep with
  | destroy _ hjoin => exact absurd (hjoin h.destroyer) hpc
  | advance x hx _ hrun =>
    obtain ⟨s₁, hrun₁, hadv⟩ := h.sound.advance hpc hx
    cases hrun.symm.trans hrun₁
    have h' := h.sound.advances hadv
    have hclosed : s.destroyer ≠ .idle := by simp [h.destroyer]
    cases hadv with
    | again hpc | round hpc => exact ⟨h', h.destroyer, by simp [Ending, hloop, LoopPc.pending]⟩
    | exit _ hexit => simp [hloop] at hexit
    | ready _ _ _ hnone => exact ⟨h', h.destroyer, by simp [Ending, hloop, hnone hclosed, LoopPc.pending]⟩
    | call hpc | back hpc =>
      refine ⟨h', h.destroyer, ?_⟩
      simpa [Ending, hpc, LoopPc.pending] using hending
    | handle hpc hne hhandled =>
      refine ⟨h', hhandled.destroyer.trans h.destroyer, ?_⟩
      simpa [Ending, hpc, hhandled.loop, LoopPc.pending, Ne.symm hne] using hending
    | close hpc => simp [hpc, LoopPc.pending] at hending

/-- Where `excom_client_destroy` waits for the thread, it returns after at most eleven steps of both, whatever they
are, if the loop has ended or a call of `clclose` is to come in this round; and otherwise it never returns, as long as
no signal comes. -/
theorem destroy_returns_or_hangs (h : Reachable Initial AnyStep s) (hjoin : s.destroyer = .join) :
    (Ending s → ∀ run, Exhaustive Step run → run 0 = s → ∃ k, k ≤ 11 ∧ (run k).destroyer = .done) ∧
      (¬ Ending s → ∀ s', ReflTransGen Step s s' → s'.destroyer = .join) := by
  have hs := sound h
  constructor
  · rintro hending run hrun rfl
    have hstart : Returning (run 0) := ⟨hs, .inl hjoin, hending⟩
    have hpos : ∀ s, Returning s → 0 < rank s := by
      intro s hs
      rcases hs.destroyer with hd | hd <;> simp [rank, hd, DestroyPc.rank]
    obtain ⟨k, hk, hdone⟩ := hrun.attains hpos (fun _ => Returning.live) (fun _ _ => Returning.step) hstart
    exact ⟨k, hk.trans hstart.rank_le, hdone⟩
  · intro hnot s' hrun
    have hhangs : Hanging s' := by
      induction hrun with
      | refl => exact ⟨hs, hjoin, hnot⟩
      | tail _ hstep ih => exact ih.step hstep
    exact hhangs.destroyer

/-- The client is destroyed while nothing happens. -/
theorem destroy_hangs_idle : ∃ s : State, s.destroyer = .join ∧
    ∀ s', ReflTransGen Step s s' → s'.destroyer = .join := by
  have h₀ : Reachable Initial AnyStep _ := .start (@Initial.intro 3 0 100 _ rfl)
  have h₁ := h₀.step (.inl (.destroy (by simp) (by simp) rfl))
  refine ⟨_, rfl, (destroy_returns_or_hangs h₁ rfl).2 ?_⟩
  simp [Ending, LoopPc.pending, init]

end Excom.ClientShutdown
