import Excom.Worker

/-!
# The packet queue between the two threads

`check_packet` puts packets at the end of the queue under the mutex, `worker` takes them from its front
without it.  So every statement of the one can come between two statements of the other, and at three places
that breaks the queue:

- a packet is put on the empty queue after the worker has seen that it is empty and before it sets `last` to
  `NULL`, which leaves a queue without `last`;
- the worker takes the last packet off after `check_packet` has seen that the queue is not empty and before it
  links its packet, which is linked to a packet that is not in the queue any more;
- the worker takes a packet off whose `_next` is not written yet.

As long as none of that happens (`QueueStep`), the worker handles the packets one after the other, and none is
lost; and each of them can leave the queue in disorder (`queue_ok_iff`).
-/

namespace Excom.Worker

open Relation

/-- The packet that the worker took off the queue and has not begun with. -/
def WorkerPc.taken : WorkerPc → List PacketPtr
  | .check packet | .reset packet | .dispatch packet => [packet]
  | _ => []

/-- The packet that the worker took off the queue without looking after `last`. -/
def WorkerPc.popped : WorkerPc → List PacketPtr
  | .check packet | .reset packet => [packet]
  | _ => []

/-- A step of the worker: every other step moves the thread of the events. -/
def WorkStep (s s' : State) : Prop := Step s s' ∧ s'.reader = s.reader

/-- A step of the thread of the events. -/
def ReadStep (s s' : State) : Prop := Step s s' ∧ s'.worker = s.worker

/-- How far the worker is from the end of its round. -/
def WorkerPc.rank : WorkerPc → Nat
  | .handle _ => 9
  | .reply _ => 8
  | .next | .woken => 7
  | .test none => 6
  | .top => 5
  | .test (some _) => 4
  | .pop _ => 3
  | .check _ => 2
  | .reset _ => 1
  | .dispatch _ | .waiting | .exited => 0

/-- More steps than the worker takes before it sleeps, if no more packets arrive. -/
def State.work (s : State) : Nat := 10 * (s.enqueued.length - s.handled.length) + s.worker.rank

/-- How far `check_packet` is from giving the mutex back, if it reads no more packets. -/
def ReaderPc.rank : ReaderPc → Nat
  | .choose _ => 5
  | .link _ => 4
  | .first _ | .setLast _ => 3
  | .finish _ => 2
  | .scan => 1
  | _ => 0

/-- The queue is in order.  While `check_packet` puts a packet on, the chain may end in a link that is not
written, and while the worker takes one off, `last` may lag behind. -/
structure QueueOk (s : State) : Prop where
  /-- The packets are handled in the order of their arrival, each once, and none is lost. -/
  order : ∃ l, s.enqueued = s.handled ++ s.worker.taken ++ l ∧ s.enqueued.Nodup ∧
    (s.reader.unset = none → Chain s.next s.packets l)
  /-- `last` is the end of the queue. -/
  last : s.reader.unset = none → s.worker.popped = [] → ∃ l, Chain s.next s.packets l ∧ s.last = l.getLast?
  last_none : s.reader.unset = none → s.worker.popped = [] → (s.packets = none ↔ s.last = none)
  /-- `client_data->last->_next` is not stored through `NULL`. -/
  link : ∀ packet, s.reader = .link packet → s.last ≠ none
  /-- The worker does not sleep on packets, but for a signal that is still to come. -/
  handled : s.worker = .waiting → s.reader.checking = false → s.handled = s.enqueued
  /-- Unless it sleeps or the mutex is taken, the worker can go on, and comes closer to sleep with every step. -/
  progress : (s.worker = .waiting ∨ s.reader.locked = true ∨ ∃ s', WorkStep s s') ∧
    ∀ s', WorkStep s s' → s'.work < s.work
  /-- `check_packet` can go on until it gives the mutex back. -/
  leaves : s.reader.locked = true → ∃ s', ReadStep s s' ∧ s'.reader.rank < s.reader.rank

/-- A step that is none of the three. -/
structure QueueStep (s s' : State) : Prop where
  step : Step s s'
  /-- No packet is put on the empty queue between the worker's test and its store. -/
  first : ∀ packet packet', s.reader = .first packet → s'.reader ≠ s.reader → s.worker ≠ .reset packet'
  /-- The last packet is not taken off between the test and the store of `check_packet`. -/
  link : ∀ packet packet', s.worker = .pop packet → s'.worker ≠ s.worker → s.reader = .link packet' →
    s.next packet ≠ none
  /-- No packet is taken off before its `_next` is written. -/
  unset : ∀ packet, s.worker = .pop packet → s'.worker ≠ s.worker → s.reader.unset ≠ some packet

/-- The links, as they are when `check_packet` has written them all. -/
def State.links (s : State) : PacketPtr → Option PacketPtr :=
  match s.reader.unset with
  | none => s.next
  | some packet => Function.update s.next packet none

/-- The queue holds `l`. -/
private structure Queued (s : State) (l : List PacketPtr) : Prop where
  chain : Chain s.links s.packets l
  enqueued : s.enqueued = s.handled ++ s.worker.taken ++ l
  nodup : s.enqueued.Nodup
  last : (∀ packet, s.reader ≠ .setLast packet) → s.last = (s.worker.popped ++ l).getLast?
  reset : ∀ packet, s.worker = .reset packet → l = []
  fresh : ∀ packet, s.reader = .choose packet ∨ s.reader = .first packet ∨ s.reader = .link packet →
    packet ∉ s.enqueued
  link : ∀ packet, s.reader = .link packet → l ≠ []
  unset : ∀ packet, s.reader.unset = some packet → l.getLast? = some packet

/-! ### `check_packet` -/

private theorem State.links_of_unset {s : State} (h : s.reader.unset = none) : s.links = s.next := by
  unfold State.links
  rw [h]

private theorem State.links_of_set {s : State} {packet : PacketPtr} (h : s.reader.unset = some packet) :
    s.links = Function.update s.next packet none := by
  unfold State.links
  rw [h]

private theorem State.links_apply {s : State} {packet : PacketPtr} (h : s.reader.unset ≠ some packet) :
    s.links packet = s.next packet := by
  cases hunset : s.reader.unset with
  | none => rw [links_of_unset hunset]
  | some packet' =>
    rw [links_of_set hunset, Function.update_of_ne]
    rintro rfl
    exact h hunset

section Read

variable {s : State} {l : List PacketPtr} (h : Queued s l)

include h

private theorem Queued.move {pc : ReaderPc} (hunset : s.reader.unset = none) (hunset' : pc.unset = none)
    (hfresh : ∀ packet, pc = .choose packet ∨ pc = .first packet ∨ pc = .link packet → packet ∉ s.enqueued)
    (hlink : ∀ packet, pc = .link packet → l ≠ []) : Queued { s with reader := pc } l := by
  have hlast : ∀ packet, s.reader ≠ .setLast packet := by
    intro packet hpc
    simp [hpc] at hunset
  refine ⟨?_, h.enqueued, h.nodup, fun _ => h.last hlast, h.reset, hfresh, hlink, ?_⟩
  · rw [State.links_of_unset hunset']
    exact State.links_of_unset hunset ▸ h.chain
  · intro packet hpacket
    rw [show pc.unset = some packet from hpacket] at hunset'
    cases hunset'

private theorem Queued.nodup_put {packet : PacketPtr} (hfresh : packet ∉ s.enqueued) :
    (s.enqueued ++ [packet]).Nodup := by
  rw [List.nodup_append]
  refine ⟨h.nodup, by simp, ?_⟩
  intro a ha b hb hab
  obtain rfl := List.mem_singleton.1 hb
  exact hfresh (hab ▸ ha)

private theorem Queued.first {packet : PacketPtr} (hpc : s.reader = .first packet) (hempty : s.packets = none)
    (hworker : ∀ packet, s.worker ≠ .reset packet) :
    Queued { s with
      packets := some packet, last := some packet, enqueued := s.enqueued ++ [packet],
      reader := .finish packet } [packet] := by
  obtain rfl : l = [] := h.chain.eq_nil_iff.2 hempty
  refine ⟨⟨rfl, Function.update_self _ _ _⟩, ?_, ?_, by simp, fun p hp => absurd hp (hworker p), by simp, by simp,
    by simp⟩
  · show s.enqueued ++ [packet] = _
    rw [h.enqueued, List.append_nil]
  · exact h.nodup_put (h.fresh packet (.inr (.inl hpc)))

private theorem Queued.put {packet last : PacketPtr} (hpc : s.reader = .link packet) (hlast : s.last = some last) :
    Queued { s with
      next := Function.update s.next last (some packet), enqueued := s.enqueued ++ [packet],
      reader := .setLast packet } (l ++ [packet]) := by
  have hnodup := h.nodup_put (h.fresh packet (.inr (.inr hpc)))
  obtain ⟨l, a, rfl⟩ := (List.eq_nil_or_concat l).resolve_left (h.link packet hpc)
  rw [List.concat_eq_append] at h ⊢
  obtain rfl : last = a := by
    have hl := h.last (by simp [hpc])
    rw [hlast, ← List.append_assoc, List.getLast?_concat] at hl
    exact Option.some.inj hl
  have hchain : Chain s.next s.packets (l ++ [last]) := by
    rw [← State.links_of_unset (by simp [hpc])]
    exact h.chain
  have hqueue : (l ++ [last, packet]).Nodup := by
    rw [h.enqueued, List.append_assoc] at hnodup
    simpa using (List.nodup_append.1 hnodup).2.1
  refine ⟨?_, ?_, hnodup, by simp, ?_, by simp, by simp, by simp⟩
  · rw [List.append_assoc]
    exact hchain.snoc hqueue
  · show s.enqueued ++ [packet] = _
    rw [h.enqueued]
    simp only [List.append_assoc]
  · intro p hp
    have hnil := h.reset p hp
    simp at hnil

private theorem Queued.setLast {packet : PacketPtr} (hpc : s.reader = .setLast packet) :
    Queued { s with last := some packet, reader := .finish packet } l := by
  have hend := h.unset packet (by simp [hpc])
  refine ⟨?_, h.enqueued, h.nodup, ?_, h.reset, by simp, by simp, by simpa using hend⟩
  · have hchain := h.chain
    rw [State.links_of_set (by rw [hpc]; rfl)] at hchain
    exact hchain
  · intro _
    show some packet = _
    rw [List.getLast?_append, hend]
    rfl

private theorem Queued.finish {packet : PacketPtr} (hpc : s.reader = .finish packet) :
    Queued { s with next := Function.update s.next packet none, reader := .scan } l := by
  refine ⟨?_, h.enqueued, h.nodup, fun _ => h.last (by simp [hpc]), h.reset, by simp, by simp, by simp⟩
  have hchain := h.chain
  rw [State.links_of_set (by rw [hpc]; rfl)] at hchain
  exact hchain

end Read

/-! ### The worker -/

section Work

variable {s : State} {l : List PacketPtr} (h : Queued s l)

include h

private theorem Queued.work {pc : WorkerPc} (htaken : pc.taken = s.worker.taken)
    (hpopped : pc.popped = s.worker.popped) (hreset : ∀ packet, pc = .reset packet → l = []) :
    Queued { s with worker := pc } l := by
  refine ⟨h.chain, ?_, h.nodup, ?_, hreset, h.fresh, h.link, h.unset⟩
  · rw [h.enqueued, ← htaken]
  · intro hpc
    rw [h.last hpc, ← hpopped]

private theorem Queued.pop {packet : PacketPtr} {next : Option PacketPtr} (hfreed : s.freed = [])
    (hpc : s.worker = .pop packet) (hpackets : s.packets = some packet) (hload : s.Loads packet next)
    (hunset : s.reader.unset ≠ some packet) (hlink : ∀ packet', s.reader = .link packet' → s.next packet ≠ none) :
    ∃ l', Queued { s with packets := next, worker := .check packet } l' := by
  obtain ⟨a, l', rfl⟩ : ∃ a l', l = a :: l' := by
    refine List.exists_cons_of_ne_nil ?_
    intro hl
    rw [h.chain.eq_nil_iff.1 hl] at hpackets
    cases hpackets
  obtain ⟨ha, hchain⟩ := h.chain
  obtain rfl : packet = a := Option.some.inj (hpackets.symm.trans ha)
  have hmem : packet ∈ s.enqueued := by
    rw [h.enqueued]
    simp
  have hnext : next = s.links packet := by
    rw [hload ⟨hmem, by simp [hfreed], hunset⟩, State.links_apply hunset]
  have hlast : ∀ packet', s.reader.unset = some packet' → l'.getLast? = some packet' := by
    intro packet' hpacket'
    have hend := h.unset packet' hpacket'
    cases l' with
    | nil =>
      obtain rfl : packet = packet' := by simpa using hend
      exact absurd hpacket' hunset
    | cons b l' => simpa using hend
  subst hnext
  refine ⟨l', hchain, ?_, h.nodup, ?_, by simp, h.fresh, ?_, hlast⟩
  · show s.enqueued = s.handled ++ [packet] ++ l'
    rw [h.enqueued, hpc]
    simp [WorkerPc.taken]
  · intro hset
    show s.last = ([packet] ++ l').getLast?
    rw [h.last hset, hpc]
    rfl
  · rintro packet' hpacket' rfl
    refine hlink packet' hpacket' ?_
    rw [← State.links_apply hunset]
    exact hchain

end Work

private theorem WorkerPc.taken_wake (pc : WorkerPc) : pc.wake.taken = pc.taken := by
  cases pc <;> rfl

private theorem WorkerPc.popped_wake (pc : WorkerPc) : pc.wake.popped = pc.popped := by
  cases pc <;> rfl

/-- While the connection is open the worker goes on with the queue. -/
private theorem take_of_open {s : State} (hs : Located s) (hopen : s.reader.isOpen = true) :
    s.take = .test s.packets := by
  have hd : s.disconnected = false := hs.disconnected.trans (ReaderPc.isOpen_disconnected hopen)
  exact if_neg (by rw [hd]; decide)

private theorem Queued.step {s s' : State} (hs : Located s) {l : List PacketPtr} (h : Queued s l)
    (hstep : QueueStep s s') (hopen : s'.reader.isOpen = true) : ∃ l', Queued s' l' := by
  obtain ⟨hstep, hfirst, hlink, hunset⟩ := hstep
  cases hstep with
  | check hpc | leave hpc | close hpc | destroyIn hpc | lockClose hpc =>
    exact ⟨l, h.move (by simp [hpc]) (by simp) (by simp) (by simp)⟩
  | read hpc hfresh => exact ⟨l, h.move (by simp [hpc]) (by simp) (by simpa using hfresh) (by simp)⟩
  | chooseFirst hpc hempty =>
    have hfresh := h.fresh _ (.inl hpc)
    exact ⟨l, h.move (by simp [hpc]) (by simp) (by simpa using hfresh) (by simp)⟩
  | chooseLink hpc hsome =>
    have hfresh := h.fresh _ (.inl hpc)
    refine ⟨l, h.move (by simp [hpc]) (by simp) (by simpa using hfresh) ?_⟩
    rintro - - rfl
    rw [show s.packets = none from h.chain] at hsome
    cases hsome
  | first hpc => exact ⟨_, h.first hpc (hs.first _ hpc) fun p => hfirst _ p hpc (by simp [hpc])⟩
  | link hpc hlast => exact ⟨_, h.put hpc hlast⟩
  | setLast hpc => exact ⟨l, h.setLast hpc⟩
  | finish hpc => exact ⟨l, h.finish hpc⟩
  | signal hpc =>
    have hq := h.work (WorkerPc.taken_wake _) (WorkerPc.popped_wake _) (fun packet hp => by
      rw [WorkerPc.wake_eq_iff (by simp) (by simp)] at hp
      exact h.reset packet hp)
    exact ⟨l, hq.move (by simp [hpc]) (by simp) (by simp) (by simp)⟩
  | destroyOut hpc =>
    have hq : Queued { s with reader := .lock } l := h.move (by simp [hpc]) (by simp) (by simp) (by simp)
    exact ⟨l, hq.chain, hq.enqueued, hq.nodup, hq.last, hq.reset, hq.fresh, hq.link, hq.unset⟩
  | load hpc | walkDone hpc | walk hpc | free hpc | disconnect hpc | broadcast hpc | unlock hpc | join hpc =>
    cases hopen
  | wait hpc _ | done hpc | test hpc | reply hpc | next hpc =>
    exact ⟨l, h.work (by rw [hpc]; rfl) (by rw [hpc]; rfl) (by simp)⟩
  | lock hpc hfree hsome | woken hpc hfree =>
    rw [take_of_open hs hopen]
    exact ⟨l, h.work (by rw [hpc]; rfl) (by rw [hpc]; rfl) (by simp)⟩
  | @pop packet next hpc hload =>
    exact h.pop (hs.freed hopen) hpc (hs.current packet (.inr hpc)) hload
      (hunset packet hpc (by simp [hpc])) fun packet' => hlink packet packet' hpc (by simp [hpc])
  | checkNone hpc hempty =>
    exact ⟨l, h.work (by rw [hpc]; rfl) (by rw [hpc]; rfl) fun _ _ => h.chain.eq_nil_iff.2 hempty⟩
  | @checkSome packet packet' hpc hsome =>
    have hne : l ≠ [] := by
      rintro rfl
      rw [show s.packets = none from h.chain] at hsome
      cases hsome
    refine ⟨l, h.chain, ?_, h.nodup, ?_, by simp, h.fresh, h.link, h.unset⟩
    · rw [h.enqueued, hpc]
      rfl
    · intro hset
      show s.last = ([] ++ l).getLast?
      rw [h.last hset, hpc]
      cases l with
      | nil => exact absurd rfl hne
      | cons a l => rfl
  | @reset packet hpc =>
    -- the queue is empty, and now `last` says so too
    obtain rfl := h.reset packet hpc
    refine ⟨[], h.chain, ?_, h.nodup, fun _ => rfl, by simp, h.fresh, h.link, h.unset⟩
    rw [h.enqueued, hpc]
    rfl
  | @dispatch packet hpc =>
    refine ⟨l, h.chain, ?_, h.nodup, ?_, by simp, h.fresh, h.link, h.unset⟩
    · show s.enqueued = (s.handled ++ [packet]) ++ [] ++ l
      rw [h.enqueued, hpc]
      simp [WorkerPc.taken]
    · intro hset
      rw [h.last hset, hpc]
      rfl
  | handle replies hpc =>
    cases replies <;> exact ⟨l, h.work (by rw [hpc]; rfl) (by rw [hpc]; rfl) (by simp)⟩

/-- A connection that is closed stays closed. -/
private theorem Step.isOpen {s s' : State} (h : Step s s') (hopen : s'.reader.isOpen = true) :
    s.reader.isOpen = true := by
  cases h with
  | load hpc | walkDone hpc | walk hpc | free hpc | disconnect hpc | broadcast hpc | unlock hpc | join hpc
  | lockClose hpc => cases hopen
  | check hpc | read hpc | leave hpc | chooseFirst hpc | chooseLink hpc | first hpc | link hpc | setLast hpc
  | finish hpc | signal hpc | close hpc | destroyIn hpc | destroyOut hpc => simp [hpc]
  | _ => exact hopen

private theorem Queued.last_ne_none {s : State} {l : List PacketPtr} (h : Queued s l) {packet : PacketPtr}
    (hpc : s.reader = .link packet) : s.last ≠ none := by
  rw [h.last (by simp [hpc])]
  simp [h.link packet hpc]

private theorem queued {s : State} (hs : Reachable (· = connect) QueueStep s) :
    Located s ∧ (s.reader.isOpen = true → ∃ l, Queued s l) := by
  refine hs.invariant (I := fun s => Located s ∧ (s.reader.isOpen = true → ∃ l, Queued s l)) ?_ ?_
  · rintro s rfl
    exact ⟨.connect, fun _ => ⟨[], rfl, rfl, List.nodup_nil, fun _ => rfl, fun _ _ => rfl, by simp [connect],
      by simp [connect], by simp [connect]⟩⟩
  · rintro s s' ⟨hlocated, hqueued⟩ hstep
    refine ⟨hlocated.step hstep.step, ?_⟩
    intro hopen
    obtain ⟨l, hl⟩ := hqueued (hstep.step.isOpen hopen)
    exact hl.step hlocated hstep hopen

/-! ### What a queue in order means -/

private theorem workStep_exists {s : State} (hs : Located s) (hopen : s.reader.isOpen = true) :
    s.worker = .waiting ∨ s.reader.locked = true ∨ ∃ s', WorkStep s s' := by
  cases hlocked : s.reader.locked with
  | true => exact .inr (.inl rfl)
  | false =>
    rw [or_iff_right (a := false = true) (by simp)]
    cases hw : s.worker with
    | waiting => exact .inl rfl
    | exited =>
      rcases hs.exited hw with hr | hr
      · simp [hr] at hopen
      · simp [hr] at hopen
    | top =>
      right
      cases hp : s.packets with
      | none => exact ⟨_, .wait hw hlocked hp, rfl⟩
      | some packet => exact ⟨_, .lock hw hlocked hp, rfl⟩
    | woken => exact .inr ⟨_, .woken hw hlocked, rfl⟩
    | test packet =>
      right
      cases packet with
      | none => exact ⟨_, .done hw, rfl⟩
      | some packet => exact ⟨_, .test hw, rfl⟩
    | pop packet => exact .inr ⟨_, .pop hw fun _ => rfl, rfl⟩
    | check packet =>
      right
      cases hp : s.packets with
      | none => exact ⟨_, .checkNone hw hp, rfl⟩
      | some packet => exact ⟨_, .checkSome hw hp, rfl⟩
    | reset packet => exact .inr ⟨_, .reset hw, rfl⟩
    | dispatch packet => exact .inr ⟨_, .dispatch hw, rfl⟩
    | handle packet => exact .inr ⟨_, .handle true hw, rfl⟩
    | reply packet => exact .inr ⟨_, .reply hw, rfl⟩
    | next => exact .inr ⟨_, .next hw, rfl⟩

private theorem readStep_exists {s : State} {l : List PacketPtr} (h : Queued s l) (hopen : s.reader.isOpen = true)
    (hlocked : s.reader.locked = true) : ∃ s', ReadStep s s' ∧ s'.reader.rank < s.reader.rank := by
  cases hr : s.reader with
  | scan => exact ⟨_, ⟨.leave hr, rfl⟩, by simp [ReaderPc.rank]⟩
  | choose packet =>
    cases hp : s.packets with
    | none => exact ⟨_, ⟨.chooseFirst hr hp, rfl⟩, by simp [ReaderPc.rank]⟩
    | some packet' => exact ⟨_, ⟨.chooseLink hr hp, rfl⟩, by simp [ReaderPc.rank]⟩
  | first packet => exact ⟨_, ⟨.first hr, rfl⟩, by simp [ReaderPc.rank]⟩
  | link packet =>
    obtain ⟨last, hlast⟩ := Option.ne_none_iff_exists'.1 (h.last_ne_none hr)
    exact ⟨_, ⟨.link hr hlast, rfl⟩, by simp [ReaderPc.rank]⟩
  | setLast packet => exact ⟨_, ⟨.setLast hr, rfl⟩, by simp [ReaderPc.rank]⟩
  | finish packet => exact ⟨_, ⟨.finish hr, rfl⟩, by simp [ReaderPc.rank]⟩
  | _ => simp [hr] at hopen hlocked

private theorem Queued.work_lt {s s' : State} {l : List PacketPtr} (h : Queued s l) (hs : Located s)
    (hopen : s.reader.isOpen = true) (hstep : WorkStep s s') : s'.work < s.work := by
  obtain ⟨hstep, hreader⟩ := hstep
  have htake := take_of_open hs hopen
  unfold State.work
  cases hstep with
  | check hpc | read hpc | leave hpc | chooseFirst hpc | chooseLink hpc | first hpc | link hpc | setLast hpc
  | finish hpc | signal hpc | close hpc | destroyIn hpc | destroyOut hpc | lockClose hpc | load hpc | walkDone hpc
  | walk hpc | free hpc | disconnect hpc | broadcast hpc | unlock hpc | join hpc => simp [hpc] at hreader
  | lock hpc hfree hsome => simp [htake, hpc, hsome, WorkerPc.rank]
  | woken hpc hfree | next hpc =>
    cases hp : s.packets with
    | none => simp [htake, hpc, hp, WorkerPc.rank]
    | some packet => simp [htake, hpc, hp, WorkerPc.rank]
  | dispatch hpc =>
    have henq := congrArg List.length h.enqueued
    simp only [hpc, WorkerPc.taken, List.length_append, List.length_singleton] at henq
    simp only [hpc, WorkerPc.rank, List.length_append, List.length_singleton]
    omega
  | handle replies hpc => cases replies <;> simp [hpc, WorkerPc.rank]
  | wait hpc | done hpc | test hpc | pop hpc | checkNone hpc | checkSome hpc | reset hpc | reply hpc =>
    simp [hpc, WorkerPc.rank]

private theorem Queued.ok {s : State} (hs : Located s) (hopen : s.reader.isOpen = true) {l : List PacketPtr}
    (h : Queued s l) : QueueOk s := by
  have hchain : s.reader.unset = none → Chain s.next s.packets l := by
    intro hunset
    exact State.links_of_unset hunset ▸ h.chain
  have hlast : s.reader.unset = none → s.worker.popped = [] → s.last = l.getLast? := by
    intro hunset hpopped
    rw [h.last (by rintro packet hpc; simp [hpc] at hunset), hpopped, List.nil_append]
  refine ⟨⟨l, h.enqueued, h.nodup, hchain⟩, fun hunset hpopped => ⟨l, hchain hunset, hlast hunset hpopped⟩, ?_,
    fun packet => h.last_ne_none, ?_, ⟨workStep_exists hs hopen, fun s' => h.work_lt hs hopen⟩,
    readStep_exists h hopen⟩
  · intro hunset hpopped
    rw [hlast hunset hpopped, List.getLast?_eq_none_iff, h.chain.eq_nil_iff]
  · intro hwaiting hchecking
    have hempty : s.packets = none := (hs.waiting hwaiting).resolve_right (by rw [hchecking]; decide)
    have henq := h.enqueued
    rw [h.chain.eq_nil_iff.2 hempty, hwaiting] at henq
    simpa [WorkerPc.taken] using henq.symm

/-! ### The three steps that break the queue -/

/-- A step that is none of `QueueStep` can be made from here, after which the queue may come to be in disorder. -/
private def Breaks (s : State) : Prop :=
  ∃ s₁ s₂, Step s s₁ ∧ ¬ QueueStep s s₁ ∧ ReflTransGen Step s₁ s₂ ∧ s₂.reader.isOpen = true ∧ ¬ QueueOk s₂

/-- The worker's store wipes out the `last` of the packet that was put on meanwhile. -/
private theorem breaks_of_first {s : State} {packet packet' : PacketPtr} (hpc : s.reader = .first packet)
    (hworker : s.worker = .reset packet') : Breaks s := by
  refine ⟨_, _, .first hpc, ?_, .head (.finish rfl) (.head (.reset hworker) .refl), rfl, ?_⟩
  · intro hstep
    exact hstep.first packet packet' hpc (by simp [hpc]) hworker
  · intro hok
    have hnone := (hok.last_none rfl rfl).2 rfl
    cases hnone

/-- The packet is linked to one that was taken off meanwhile, and `packets` stays `NULL`. -/
private theorem breaks_of_link {s : State} (hs : Located s) {l : List PacketPtr} (h : Queued s l)
    {packet packet' : PacketPtr} (hpc : s.worker = .pop packet) (hreader : s.reader = .link packet')
    (hnext : s.next packet = none) : Breaks s := by
  have hpackets : s.packets = some packet := hs.current packet (.inr hpc)
  obtain ⟨last, hlast⟩ := Option.ne_none_iff_exists'.1 (h.last_ne_none hreader)
  refine ⟨_, _, @Step.pop _ _ none hpc fun _ => hnext.symm, ?_,
    .head (.link hreader hlast) (.head (.setLast rfl) (.head (.finish rfl) .refl)), rfl, ?_⟩
  · intro hstep
    exact hstep.link packet packet' hpc (by simp [hpc]) hreader hnext
  · intro hok
    obtain ⟨l', henq, -, hchain⟩ := hok.order
    obtain rfl : l' = [] := (hchain rfl).eq_nil_iff.2 rfl
    -- the worker has one packet in its hand, but there are two that it has not begun with
    have hlength := congrArg List.length henq
    have hne : l ≠ [] := h.link packet' hreader
    have hold := congrArg List.length h.enqueued
    simp [hpc, WorkerPc.taken] at hlength hold
    have hpos := List.length_pos_iff.2 hne
    omega

/-- What is read from a link that is not written may be the packet itself, which is then handled twice. -/
private theorem breaks_of_unset {s : State} {l : List PacketPtr} (h : Queued s l) {packet : PacketPtr}
    (hpc : s.worker = .pop packet)
    (hunset : s.reader.unset = some packet) : Breaks s := by
  have hmem : packet ∈ s.enqueued := by
    rw [h.enqueued]
    have hend := h.unset packet hunset
    exact List.mem_append_right _ (List.mem_of_getLast? hend)
  have hload : s.Loads packet (some packet) := fun hwhole => absurd hunset hwhole.2.2
  -- however far `check_packet` is, it comes to the end of the packet
  have hbroken : ∀ s' : State, s'.enqueued = s.enqueued → s'.handled = s.handled → s'.worker = .check packet →
      s'.packets = some packet → s'.reader = .scan → s'.next packet = none → ¬ QueueOk s' := by
    intro s' henq' hhandled hworker hpackets hreader hnext hok
    obtain ⟨l', henq, hnodup, hchain⟩ := hok.order
    have hchain' := hchain (by simp [hreader])
    rw [hpackets] at hchain'
    cases l' with
    | nil => cases hchain'
    | cons a l' =>
      obtain rfl : packet = a := Option.some.inj hchain'.1
      rw [henq, hworker] at hnodup
      simp [WorkerPc.taken, List.nodup_append] at hnodup
  have hviolates : ¬ QueueStep s { s with packets := some packet, worker := .check packet } := by
    intro hstep
    exact hstep.unset packet hpc (by simp [hpc]) hunset
  cases hr : s.reader with
  | setLast packet' =>
    obtain rfl : packet' = packet := by simpa [hr] using hunset
    refine ⟨_, _, .pop hpc hload, hviolates, .head (.setLast hr) (.head (.finish rfl) .refl), rfl, ?_⟩
    exact hbroken _ rfl rfl rfl rfl rfl (Function.update_self _ _ _)
  | finish packet' =>
    obtain rfl : packet' = packet := by simpa [hr] using hunset
    refine ⟨_, _, .pop hpc hload, hviolates, .head (.finish hr) .refl, rfl, ?_⟩
    exact hbroken _ rfl rfl rfl rfl rfl (Function.update_self _ _ _)
  | _ => simp [hr] at hunset

/-! ### Runs -/

/-- In a run whose steps are none of the three the queue is in order until the connection is closed; and where one
of the three can be made, the queue may come to be in disorder. -/
theorem queue_ok_iff (s : State) :
    (Reachable (· = connect) QueueStep s → s.reader.isOpen = true → QueueOk s) ∧
      ∀ s', Reachable (· = connect) QueueStep s → s'.reader.isOpen = true → Step s s' → ¬ QueueStep s s' →
        ∃ s₁ s₂, Step s s₁ ∧ ¬ QueueStep s s₁ ∧ ReflTransGen Step s₁ s₂ ∧ s₂.reader.isOpen = true ∧
          ¬ QueueOk s₂ := by
  constructor
  · intro hs hopen
    obtain ⟨hlocated, hqueued⟩ := queued hs
    obtain ⟨l, hl⟩ := hqueued hopen
    exact hl.ok hlocated hopen
  · intro s' hs hopen' hstep hnot
    obtain ⟨hlocated, hqueued⟩ := queued hs
    have hopen := hstep.isOpen hopen'
    obtain ⟨l, hl⟩ := hqueued hopen
    by_contra hbreaks
    refine hnot ⟨hstep, ?_, ?_, ?_⟩
    · intro packet packet' hreader _ hworker
      exact hbreaks (breaks_of_first hreader hworker)
    · intro packet packet' hworker _ hreader hnext
      exact hbreaks (breaks_of_link hlocated hl hworker hreader hnext)
    · intro packet hworker _ hunset
      exact hbreaks (breaks_of_unset hl hworker hunset)

/-- The second packet is queued after the worker has seen that the first one was the last, and before it says
so. -/
theorem queue_broken_after_two :
    ∃ s, Reachable (· = connect) Step s ∧ s.reader.isOpen = true ∧ ¬ QueueOk s := by
  have h₀ : Reachable (· = connect) Step connect := .start rfl
  have h₁ := h₀.step (.check rfl (by decide))
  have h₂ := h₁.step (@Step.read _ 1 rfl (by simp [connect]))
  have h₃ := h₂.step (.chooseFirst rfl rfl)
  have h₄ := h₃.step (.first rfl)
  have h₅ := h₄.step (.finish rfl)
  have h₆ := h₅.step (.leave rfl)
  have h₇ := h₆.step (.signal rfl)
  -- the worker takes the packet and sees that it was the last
  have h₈ := h₇.step (.lock rfl rfl rfl)
  have h₉ := h₈.step (.test rfl)
  have k₀ := h₉.step (@Step.pop _ _ none rfl fun _ => rfl)
  have k₁ := k₀.step (.checkNone rfl rfl)
  have k₂ := k₁.step (.check rfl (by simp))
  have k₃ := k₂.step (@Step.read _ 2 rfl (by simp [connect]))
  have k₄ := k₃.step (.chooseFirst rfl rfl)
  have k₅ := k₄.step (.first rfl)
  have k₆ := k₅.step (.finish rfl)
  refine ⟨_, k₆.step (.reset rfl), rfl, ?_⟩
  intro hok
  have hnone := (hok.last_none rfl rfl).2 rfl
  cases hnone

end Excom.Worker
