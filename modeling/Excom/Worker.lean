import Excom.Lib.Chain
import Excom.Lib.Transition
import Mathlib.Logic.Relation

/-!
# The two threads of a connection

The thread of the events and the worker of one connection of the server (`excom-server/client.c`):
`check_packet` and `excom_server_client_close` on one side, `worker` on the other.  Every statement that uses
what the threads share is one step, for the worker takes packets off the queue without
`client_data->mutex`.  Only its section between `excom_mutex_lock` and `excom_mutex_unlock` is one step as a
whole, since everything that it uses there is changed by the other thread under the mutex.  A packet is the
address of its record; what it says is left out, so a packet may be replied to or not.

`enqueued` and `handled` record which packets were queued, and with which the worker began.
-/

namespace Excom.Worker

/-- The address of an `excom_packet_t`. -/
abbrev PacketPtr := Nat

/-- Where the thread of the events is: before the statement named.  What comes before `excom_mutex_lock` and
behind `excom_mutex_unlock` in `check_packet` uses nothing that the threads share, up to the signal. -/
inductive ReaderPc where
  /-- between two events -/
  | idle
  /-- `while(excom_buffer_remaining(&client_data->buf.in) > 4)`, from here on with the mutex -/
  | scan
  /-- `if(client_data->packets == NULL)` -/
  | choose (packet : PacketPtr)
  /-- `client_data->packets = client_data->last = packet` -/
  | first (packet : PacketPtr)
  /-- `client_data->last->_next = packet` -/
  | link (packet : PacketPtr)
  /-- `client_data->last = packet` -/
  | setLast (packet : PacketPtr)
  /-- `packet->_next = NULL`, at the end of both branches -/
  | finish (packet : PacketPtr)
  /-- `excom_cond_signal`, without the mutex -/
  | signal
  /-- `excom_server_client_close`, `excom_buffer_destroy(&client_data->buf.in)` -/
  | destroyIn
  | destroyOut
  /-- `excom_mutex_lock` -/
  | lock
  /-- `packet = client_data->packets`, from here on with the mutex -/
  | load
  /-- `while(packet)` and `next = packet->_next` -/
  | walk (packet : Option PacketPtr)
  /-- `excom_free(packet)` and `packet = next` -/
  | free (packet : PacketPtr) (next : Option PacketPtr)
  /-- `client_data->disconnected = true` -/
  | disconnect
  /-- `excom_cond_broadcast` -/
  | broadcast
  /-- `excom_mutex_unlock` -/
  | unlock
  /-- in `excom_thread_join` -/
  | join
  | closed
  deriving DecidableEq, Repr

/-- Where the worker is: before the statement named. -/
inductive WorkerPc where
  /-- `excom_mutex_lock` -/
  | top
  /-- in `excom_cond_wait` -/
  | waiting
  /-- woken, without the mutex -/
  | woken
  /-- `while(packet)` -/
  | test (packet : Option PacketPtr)
  /-- `client_data->packets = packet->_next` -/
  | pop (packet : PacketPtr)
  /-- `if(client_data->packets == NULL)` -/
  | check (packet : PacketPtr)
  /-- `client_data->last = NULL` -/
  | reset (packet : PacketPtr)
  /-- `switch(packet->type)` -/
  | dispatch (packet : PacketPtr)
  /-- `packet = raw->data.p` -/
  | handle (packet : PacketPtr)
  /-- the macro `send` -/
  | reply (packet : PacketPtr)
  /-- `packet = client_data->packets`, at the end of the loop -/
  | next
  | exited
  deriving DecidableEq, Repr

/-- `client_data_t`, and where the threads are. -/
structure State where
  /-- `packet->_next` -/
  next : PacketPtr → Option PacketPtr
  packets : Option PacketPtr
  last : Option PacketPtr
  disconnected : Bool
  freed : List PacketPtr
  /-- `buf.out` was destroyed. -/
  outDestroyed : Bool
  reader : ReaderPc
  worker : WorkerPc
  enqueued : List PacketPtr
  handled : List PacketPtr

/-- `excom_server_client_connect` -/
def connect : State :=
  { next := fun _ => none, packets := none, last := none, disconnected := false,
    freed := [], outDestroyed := false, reader := .idle, worker := .top, enqueued := [], handled := [] }

/-! ### The thread of the events -/

namespace ReaderPc

/-- The thread of the events has the mutex. -/
@[simp]
def locked : ReaderPc → Bool
  | .scan | .choose _ | .first _ | .link _ | .setLast _ | .finish _ => true
  | .load | .walk _ | .free _ _ | .disconnect | .broadcast | .unlock => true
  | _ => false

/-- The thread is in `check_packet`. -/
@[simp]
def checking : ReaderPc → Bool
  | .scan | .choose _ | .first _ | .link _ | .setLast _ | .finish _ | .signal => true
  | _ => false

/-- No close has come to its section. -/
@[simp]
def isOpen : ReaderPc → Bool
  | .idle | .destroyIn | .destroyOut | .lock => true
  | pc => pc.checking

/-- The close has set `disconnected`. -/
@[simp]
def disconnected : ReaderPc → Bool
  | .broadcast | .unlock | .join | .closed => true
  | _ => false

/-- The close has destroyed the buffers. -/
@[simp]
def destroyed : ReaderPc → Bool
  | .lock | .load | .walk _ | .free _ _ | .disconnect => true
  | pc => pc.disconnected

/-- The packet that is in the queue, while its `_next` was not written yet. -/
@[simp]
def unset : ReaderPc → Option PacketPtr
  | .setLast packet | .finish packet => some packet
  | _ => none

end ReaderPc

/-- The packet is in memory, and its `_next` was written. -/
def State.Whole (s : State) (packet : PacketPtr) : Prop :=
  packet ∈ s.enqueued ∧ packet ∉ s.freed ∧ s.reader.unset ≠ some packet

/-- Reading `packet->_next` can give `next`.  From memory that was not written, or that was given back, anything
can be read. -/
def State.Loads (s : State) (packet : PacketPtr) (next : Option PacketPtr) : Prop :=
  s.Whole packet → next = s.next packet

/-! ### The steps -/

/-- `excom_cond_signal` and `excom_cond_broadcast`: there is one thread that can wait. -/
def WorkerPc.wake : WorkerPc → WorkerPc
  | .waiting => .woken
  | pc => pc

/-- `packet = client_data->packets; if(client_data->disconnected) { break; }` -/
def State.take (s : State) : WorkerPc := if s.disconnected then .exited else .test s.packets

/-- A step of one of the threads.  Storing through `client_data->last` while it is `NULL` is no step.  The worker
exits with the mutex. -/
inductive Step : State → State → Prop where
  | check {s : State} (hpc : s.reader = .idle) (hfree : s.worker ≠ .exited) : Step s { s with reader := .scan }
  /-- `excom_malloc` gives a packet that is not in use, and `excom_protocol_read_packet` fills it. -/
  | read {s : State} {packet : PacketPtr} (hpc : s.reader = .scan) (hfresh : packet ∉ s.enqueued) :
      Step s { s with reader := .choose packet }
  | leave {s : State} (hpc : s.reader = .scan) : Step s { s with reader := .signal }
  | chooseFirst {s : State} {packet : PacketPtr} (hpc : s.reader = .choose packet) (hempty : s.packets = none) :
      Step s { s with reader := .first packet }
  | chooseLink {s : State} {packet packet' : PacketPtr} (hpc : s.reader = .choose packet)
      (hsome : s.packets = some packet') : Step s { s with reader := .link packet }
  | first {s : State} {packet : PacketPtr} (hpc : s.reader = .first packet) :
      Step s { s with
        packets := some packet, last := some packet, enqueued := s.enqueued ++ [packet],
        reader := .finish packet }
  | link {s : State} {packet last : PacketPtr} (hpc : s.reader = .link packet) (hlast : s.last = some last) :
      Step s { s with
        next := Function.update s.next last (some packet), enqueued := s.enqueued ++ [packet],
        reader := .setLast packet }
  | setLast {s : State} {packet : PacketPtr} (hpc : s.reader = .setLast packet) :
      Step s { s with last := some packet, reader := .finish packet }
  | finish {s : State} {packet : PacketPtr} (hpc : s.reader = .finish packet) :
      Step s { s with next := Function.update s.next packet none, reader := .scan }
  | signal {s : State} (hpc : s.reader = .signal) : Step s { s with reader := .idle, worker := s.worker.wake }
  | close {s : State} (hpc : s.reader = .idle) : Step s { s with reader := .destroyIn }
  | destroyIn {s : State} (hpc : s.reader = .destroyIn) : Step s { s with reader := .destroyOut }
  | destroyOut {s : State} (hpc : s.reader = .destroyOut) :
      Step s { s with outDestroyed := true, reader := .lock }
  | lockClose {s : State} (hpc : s.reader = .lock) (hfree : s.worker ≠ .exited) : Step s { s with reader := .load }
  | load {s : State} (hpc : s.reader = .load) : Step s { s with reader := .walk s.packets }
  | walkDone {s : State} (hpc : s.reader = .walk none) : Step s { s with reader := .disconnect }
  | walk {s : State} {packet : PacketPtr} {next : Option PacketPtr} (hpc : s.reader = .walk (some packet))
      (hload : s.Loads packet next) : Step s { s with reader := .free packet next }
  | free {s : State} {packet : PacketPtr} {next : Option PacketPtr} (hpc : s.reader = .free packet next) :
      Step s { s with freed := s.freed ++ [packet], reader := .walk next }
  | disconnect {s : State} (hpc : s.reader = .disconnect) :
      Step s { s with disconnected := true, reader := .broadcast }
  | broadcast {s : State} (hpc : s.reader = .broadcast) :
      Step s { s with worker := s.worker.wake, reader := .unlock }
  | unlock {s : State} (hpc : s.reader = .unlock) : Step s { s with reader := .join }
  | join {s : State} (hpc : s.reader = .join) (hworker : s.worker = .exited) :
      Step s { s with reader := .closed }
  | wait {s : State} (hpc : s.worker = .top) (hfree : s.reader.locked = false) (hempty : s.packets = none) :
      Step s { s with worker := .waiting }
  | lock {s : State} {packet : PacketPtr} (hpc : s.worker = .top) (hfree : s.reader.locked = false)
      (hsome : s.packets = some packet) : Step s { s with worker := s.take }
  | woken {s : State} (hpc : s.worker = .woken) (hfree : s.reader.locked = false) :
      Step s { s with worker := s.take }
  | done {s : State} (hpc : s.worker = .test none) : Step s { s with worker := .top }
  | test {s : State} {packet : PacketPtr} (hpc : s.worker = .test (some packet)) :
      Step s { s with worker := .pop packet }
  | pop {s : State} {packet : PacketPtr} {next : Option PacketPtr} (hpc : s.worker = .pop packet)
      (hload : s.Loads packet next) : Step s { s with packets := next, worker := .check packet }
  | checkNone {s : State} {packet : PacketPtr} (hpc : s.worker = .check packet) (hempty : s.packets = none) :
      Step s { s with worker := .reset packet }
  | checkSome {s : State} {packet packet' : PacketPtr} (hpc : s.worker = .check packet)
      (hsome : s.packets = some packet') : Step s { s with worker := .dispatch packet }
  | reset {s : State} {packet : PacketPtr} (hpc : s.worker = .reset packet) :
      Step s { s with last := none, worker := .dispatch packet }
  | dispatch {s : State} {packet : PacketPtr} (hpc : s.worker = .dispatch packet) :
      Step s { s with handled := s.handled ++ [packet], worker := .handle packet }
  | handle {s : State} {packet : PacketPtr} (replies : Bool) (hpc : s.worker = .handle packet) :
      Step s { s with worker := if replies then .reply packet else .next }
  | reply {s : State} {packet : PacketPtr} (hpc : s.worker = .reply packet) : Step s { s with worker := .next }
  | next {s : State} (hpc : s.worker = .next) : Step s { s with worker := .test s.packets }

/-! ### Where the threads can be -/

/-- What is known of a connection without looking along its queue. -/
structure Located (s : State) : Prop where
  disconnected : s.disconnected = s.reader.disconnected
  exited : s.worker = .exited → s.reader = .join ∨ s.reader = .closed
  freed : s.reader.isOpen = true → s.freed = []
  destroyed : s.outDestroyed = s.reader.destroyed
  current : ∀ packet, s.worker = .test (some packet) ∨ s.worker = .pop packet → s.packets = some packet
  /-- The worker sleeps on a queue that is not empty only until it is signalled. -/
  waiting : s.worker = .waiting → s.packets = none ∨ s.reader.checking = true
  /-- Only this thread puts packets on an empty queue. -/
  first : ∀ packet, s.reader = .first packet → s.packets = none

theorem Located.connect : Located connect := by
  constructor <;> simp [Worker.connect]

theorem WorkerPc.wake_eq_iff {pc pc' : WorkerPc} (hpc' : pc' ≠ .waiting) (hpc : pc' ≠ .woken) :
    pc.wake = pc' ↔ pc = pc' := by
  cases pc <;> simp [WorkerPc.wake, hpc.symm, hpc'.symm]

private theorem WorkerPc.wake_ne_waiting (pc : WorkerPc) : pc.wake ≠ .waiting := by
  cases pc <;> simp [WorkerPc.wake]

/-- A close that has set `disconnected` keeps the mutex until it waits for the worker. -/
theorem ReaderPc.disconnected_unlocked {pc : ReaderPc} (h : pc.disconnected = true) (hfree : pc.locked = false) :
    pc = .join ∨ pc = .closed := by
  cases pc <;> simp_all

theorem ReaderPc.isOpen_disconnected {pc : ReaderPc} (h : pc.isOpen = true) : pc.disconnected = false := by
  cases pc <;> simp_all

section Located

variable {s : State} (hs : Located s)

include hs

private theorem Located.move {pc : ReaderPc} (hdisconnected : pc.disconnected = s.reader.disconnected)
    (hdestroyed : pc.destroyed = s.reader.destroyed) (hopen : pc.isOpen = true → s.reader.isOpen = true)
    (hexited : s.reader = .join ∨ s.reader = .closed → pc = .join ∨ pc = .closed)
    (hchecking : s.reader.checking = true → pc.checking = true)
    (hfirst : ∀ packet, pc = .first packet → s.packets = none) : Located { s with reader := pc } :=
  ⟨hs.disconnected.trans hdisconnected.symm, hexited ∘ hs.exited, hs.freed ∘ hopen,
    hs.destroyed.trans hdestroyed.symm, hs.current, fun h => (hs.waiting h).imp id hchecking, hfirst⟩

private theorem Located.work {pc : WorkerPc} (hexited : pc = .exited → s.reader = .join ∨ s.reader = .closed)
    (hcurrent : ∀ packet, pc = .test (some packet) ∨ pc = .pop packet → s.packets = some packet)
    (hwaiting : pc = .waiting → s.packets = none ∨ s.reader.checking = true) : Located { s with worker := pc } :=
  ⟨hs.disconnected, hexited, hs.freed, hs.destroyed, hcurrent, hwaiting, hs.first⟩

private theorem Located.take (hfree : s.reader.locked = false) : Located { s with worker := s.take } := by
  unfold State.take
  split
  · rename_i hdisconnected
    rw [hs.disconnected] at hdisconnected
    exact hs.work (fun _ => ReaderPc.disconnected_unlocked hdisconnected hfree) (by simp) (by simp)
  · exact hs.work (by simp) (by simp) (by simp)

private theorem Located.wake : Located { s with worker := s.worker.wake } := by
  refine hs.work ?_ ?_ ?_
  · rw [WorkerPc.wake_eq_iff (by simp) (by simp)]
    exact hs.exited
  · intro packet
    rw [WorkerPc.wake_eq_iff (by simp) (by simp), WorkerPc.wake_eq_iff (by simp) (by simp)]
    exact hs.current packet
  · intro h
    exact absurd h (WorkerPc.wake_ne_waiting _)

end Located

/-- Every step keeps it. -/
theorem Located.step {s s' : State} (hs : Located s) (h : Step s s') : Located s' := by
  cases h with
  | check hpc hfree | close hpc | destroyIn hpc =>
    refine hs.move ?_ ?_ ?_ ?_ ?_ ?_ <;>
      simp [hpc]
  | read hpc | leave hpc | chooseLink hpc hsome =>
    refine hs.move ?_ ?_ ?_ ?_ ?_ ?_ <;>
      simp [hpc]
  | chooseFirst hpc hempty =>
    refine hs.move ?_ ?_ ?_ ?_ ?_ (fun _ _ => hempty) <;>
      simp [hpc]
  | lockClose hpc hfree | load hpc | walkDone hpc | walk hpc hload | unlock hpc | join hpc hworker =>
    refine hs.move ?_ ?_ ?_ ?_ ?_ ?_ <;>
      simp [hpc]
  | @first packet hpc =>
    have hnone := hs.first packet hpc
    refine ⟨by simpa [hpc] using hs.disconnected, by simpa [hpc] using hs.exited, fun _ => hs.freed (by simp [hpc]),
      by simpa [hpc] using hs.destroyed, ?_, fun _ => .inr rfl, by simp⟩
    intro packet' hpacket
    have h := hs.current packet' hpacket
    rw [hnone] at h
    cases h
  | link hpc hlast | setLast hpc | finish hpc =>
    exact ⟨by simpa [hpc] using hs.disconnected, by simpa [hpc] using hs.exited, fun _ => hs.freed (by simp [hpc]),
      by simpa [hpc] using hs.destroyed, hs.current, fun _ => .inr rfl, by simp⟩
  | signal hpc =>
    have hwake := hs.wake
    exact ⟨by simpa [hpc] using hs.disconnected, by simpa [hpc] using hwake.exited,
      fun _ => hs.freed (by simp [hpc]), by simpa [hpc] using hs.destroyed, hwake.current,
      fun h => absurd h (WorkerPc.wake_ne_waiting _), by simp⟩
  | destroyOut hpc =>
    exact ⟨by simpa [hpc] using hs.disconnected, by simpa [hpc] using hs.exited, fun _ => hs.freed (by simp [hpc]),
      by simp, hs.current, by simpa [hpc] using hs.waiting, by simp⟩
  | free hpc =>
    exact ⟨by simpa [hpc] using hs.disconnected, by simpa [hpc] using hs.exited, by simp,
      by simpa [hpc] using hs.destroyed, hs.current, by simpa [hpc] using hs.waiting, by simp⟩
  | disconnect hpc =>
    exact ⟨by simp, by simpa [hpc] using hs.exited, by simp, by simpa [hpc] using hs.destroyed, hs.current,
      by simpa [hpc] using hs.waiting, by simp⟩
  | broadcast hpc =>
    have hwake := hs.wake
    exact ⟨by simpa [hpc] using hs.disconnected, by simpa [hpc] using hwake.exited, by simp,
      by simpa [hpc] using hs.destroyed, hwake.current, fun h => absurd h (WorkerPc.wake_ne_waiting _), by simp⟩
  | wait hpc hfree hempty => exact hs.work (by simp) (by simp) fun _ => .inl hempty
  | lock hpc hfree hsome | woken hpc hfree => exact hs.take hfree
  | test hpc =>
    refine hs.work (by simp) ?_ (by simp)
    intro packet hpacket
    exact hs.current packet (.inl (by simpa [hpc] using hpacket))
  | next hpc => exact hs.work (by simp) (by simp) (by simp)
  | @pop packet next hpc hload =>
    refine ⟨hs.disconnected, by simp, hs.freed, hs.destroyed, by simp, by simp, ?_⟩
    intro packet' hfirst
    have h := hs.current packet (.inr hpc)
    rw [hs.first packet' hfirst] at h
    cases h
  | handle replies hpc => cases replies <;> exact hs.work (by simp) (by simp) (by simp)
  | reset hpc | dispatch hpc =>
    exact ⟨hs.disconnected, by simp, hs.freed, hs.destroyed, by simp, by simp, hs.first⟩
  | done hpc | checkNone hpc hempty | checkSome hpc hsome | reply hpc =>
    exact hs.work (by simp) (by simp) (by simp)

/-- In every reachable state the threads are where they say. -/
theorem located {s : State} (h : Reachable (· = connect) Step s) : Located s := by
  refine h.invariant ?_ fun s s' => Located.step
  rintro s rfl
  exact .connect

end Excom.Worker
