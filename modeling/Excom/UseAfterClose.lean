import Excom.Worker

/-!
# Packets and buffers that a close takes away

`excom_server_client_close` destroys both buffers and frees the queue before it waits for the worker, which
walks along the queue without the mutex and tests `disconnected` only between two walks.  What the worker uses
is safe when the close begins while the queue is empty and the worker has no packet in its hand (`Idle`);
otherwise some run uses what is gone (`safe_iff`).
-/

namespace Excom.Worker

open Relation

/-- The next statement of the worker reads the packet. -/
def Reads (s : State) (packet : PacketPtr) : Prop :=
  s.worker = .pop packet ∨ s.worker = .dispatch packet ∨ s.worker = .handle packet ∨ s.worker = .reply packet

/-- The next statement of the worker uses nothing that is gone. -/
structure Safe (s : State) : Prop where
  read : ∀ packet, Reads s packet → packet ∉ s.freed
  /-- No packet is begun with on a closed connection. -/
  start : ∀ packet, s.worker = .dispatch packet → s.disconnected = false
  write : ∀ packet, s.worker = .reply packet → s.outDestroyed = false

/-- The queue is empty, and the worker has no packet. -/
def Idle (s : State) : Prop :=
  s.packets = none ∧
    (s.worker = .top ∨ s.worker = .waiting ∨ s.worker = .woken ∨ s.worker = .test none ∨ s.worker = .next)

/-- A step which is not the beginning of a close with work left to do. -/
def IdleStep (s s' : State) : Prop := Step s s' ∧ (s.reader = .idle → s'.reader = .destroyIn → Idle s)

/-- A close has begun, on a connection without work. -/
private structure Closing (s : State) : Prop where
  reader : s.reader ≠ .idle ∧ s.reader.checking = false
  idle : Idle s ∨ s.worker = .exited

private theorem Closing.safe {s : State} (hs : Closing s) : Safe s := by
  have hpc : ∀ packet, ¬ Reads s packet := by
    intro packet
    rcases hs.idle with ⟨-, h | h | h | h | h⟩ | h <;> simp [Reads, h]
  refine ⟨fun packet h => absurd h (hpc packet), ?_, ?_⟩
  · intro packet h
    exact absurd (.inr (.inl h)) (hpc packet)
  · intro packet h
    exact absurd (.inr (.inr (.inr h))) (hpc packet)

private theorem Closing.wake {s : State} (hs : Closing s) :
    (s.packets = none ∧ (s.worker.wake = .top ∨ s.worker.wake = .waiting ∨ s.worker.wake = .woken ∨
      s.worker.wake = .test none ∨ s.worker.wake = .next)) ∨ s.worker.wake = .exited := by
  rcases hs.idle with ⟨hnone, h | h | h | h | h⟩ | h <;> simp [h, WorkerPc.wake]
  all_goals exact hnone

private theorem Closing.step {s s' : State} (hs : Closing s) (h : Step s s') : Closing s' := by
  have hwake := hs.wake
  obtain ⟨hreader, hidle⟩ := hs
  have hnone : s.worker ≠ .exited → s.packets = none := by
    intro hw
    exact (hidle.resolve_right hw).1
  have htake : s.worker ≠ .exited → s.take = .exited ∨ s.take = .test none := by
    intro hw
    unfold State.take
    rw [hnone hw]
    split
    · exact .inl rfl
    · exact .inr rfl
  cases h with
  | check hpc | close hpc => exact absurd hpc hreader.1
  | read hpc | leave hpc | chooseFirst hpc | chooseLink hpc | first hpc | link hpc | setLast hpc | finish hpc
  | signal hpc => simp [hpc] at hreader
  | destroyIn hpc | destroyOut hpc | lockClose hpc | load hpc | walkDone hpc | walk hpc | free hpc | disconnect hpc
  | unlock hpc | join hpc => exact ⟨by simp, hidle⟩
  | broadcast hpc => exact ⟨by simp, hwake⟩
  | wait hpc hfree hempty => exact ⟨hreader, .inl ⟨hempty, by simp⟩⟩
  | lock hpc hfree hsome =>
    rw [hnone (by simp [hpc])] at hsome
    cases hsome
  | woken hpc hfree =>
    refine ⟨hreader, ?_⟩
    rcases htake (by simp [hpc]) with h | h
    · exact .inr h
    · exact .inl ⟨hnone (by simp [hpc]), by simp [h]⟩
  | done hpc => exact ⟨hreader, .inl ⟨hnone (by simp [hpc]), by simp⟩⟩
  | next hpc =>
    have hpackets := hnone (by simp [hpc])
    exact ⟨hreader, .inl ⟨hpackets, by simp [hpackets]⟩⟩
  | test hpc | pop hpc | checkNone hpc | checkSome hpc | reset hpc | dispatch hpc | handle replies hpc
  | reply hpc => simp [Idle, hpc] at hidle

/-- While no close has begun nothing is gone. -/
private theorem safe_of_open {s : State} (hs : Located s) (hreader : s.reader = .idle ∨ s.reader.checking = true) :
    Safe s := by
  have hpc : s.reader.isOpen = true ∧ s.reader.disconnected = false ∧ s.reader.destroyed = false := by
    rcases hreader with hr | hr
    · rw [hr]
      decide
    · cases hpc : s.reader <;> simp [hpc] at hr ⊢
  refine ⟨?_, fun _ _ => hs.disconnected.trans hpc.2.1, fun _ _ => hs.destroyed.trans hpc.2.2⟩
  intro packet _
  rw [hs.freed hpc.1]
  simp

/-! ### A close with work left to do -/

/-- Some run from here uses what is gone. -/
private def Exposed (s : State) : Prop := ∃ s', ReflTransGen Step s s' ∧ ¬ Safe s'

private theorem Exposed.head {s s' : State} (h : Step s s') : Exposed s' → Exposed s := by
  rintro ⟨s'', hrun, hunsafe⟩
  exact ⟨s'', .head h hrun, hunsafe⟩

section Left

variable {s : State} {packet : PacketPtr} (hout : s.outDestroyed = true)

include hout

private theorem exposed_handle (hpc : s.worker = .handle packet) : Exposed s := by
  refine .head (.handle true hpc) ⟨_, .refl, ?_⟩
  intro hsafe
  have h : s.outDestroyed = false := hsafe.write packet rfl
  rw [hout] at h
  cases h

private theorem exposed_dispatch (hpc : s.worker = .dispatch packet) : Exposed s :=
  .head (.dispatch hpc) (exposed_handle hout rfl)

private theorem exposed_reset (hpc : s.worker = .reset packet) : Exposed s :=
  .head (.reset hpc) (exposed_dispatch hout rfl)

private theorem exposed_check (hpc : s.worker = .check packet) : Exposed s := by
  cases hp : s.packets with
  | none => exact .head (.checkNone hpc hp) (exposed_reset hout rfl)
  | some packet' => exact .head (.checkSome hpc hp) (exposed_dispatch hout rfl)

private theorem exposed_pop (hpc : s.worker = .pop packet) : Exposed s :=
  .head (.pop hpc fun _ => rfl) (exposed_check hout rfl)

private theorem exposed_test (hpc : s.worker = .test (some packet)) : Exposed s :=
  .head (.test hpc) (exposed_pop hout rfl)

/-- The worker can take the packet before the close has the mutex. -/
private theorem exposed_top (hreader : s.reader = .lock) (hopen : s.disconnected = false)
    (hpackets : s.packets = some packet) (hpc : s.worker = .top ∨ s.worker = .woken) : Exposed s := by
  have htake : s.take = .test (some packet) := by
    unfold State.take
    rw [if_neg (by rw [hopen]; decide), hpackets]
  have hfree : s.reader.locked = false := by rw [hreader]; rfl
  rcases hpc with hpc | hpc
  · exact .head (.lock hpc hfree hpackets) (exposed_test hout htake)
  · exact .head (.woken hpc hfree) (exposed_test hout htake)

end Left

/-- Only the thread of the events moves when a close begins. -/
private theorem Step.eq_of_close {s s' : State} (h : Step s s') (hpc : s.reader = .idle)
    (hpc' : s'.reader = .destroyIn) : s' = { s with reader := .destroyIn } := by
  cases h with
  | close => rfl
  | check => cases hpc'
  | wait | lock | woken | done | test | pop | checkNone | checkSome | reset | dispatch | handle | reply | next =>
    simp [hpc] at hpc'
  | read h | leave h | chooseFirst h | chooseLink h | first h | link h | setLast h | finish h | signal h | destroyIn h
  | destroyOut h | lockClose h | load h | walkDone h | walk h | free h | disconnect h | broadcast h | unlock h
  | join h => simp [hpc] at h

/-- The buffers can be destroyed before the worker comes to its next packet. -/
private theorem exposed_of_not_idle {s : State} (hs : Located s) (hpc : s.reader = .idle) (hidle : ¬ Idle s) :
    Exposed { s with reader := .destroyIn } := by
  have hopen : s.disconnected = false := by simpa [hpc] using hs.disconnected
  refine .head (.destroyIn rfl) (.head (.destroyOut rfl) ?_)
  have hsome : (s.worker = .top ∨ s.worker = .waiting ∨ s.worker = .woken ∨ s.worker = .test none ∨
      s.worker = .next) → ∃ packet, s.packets = some packet := by
    intro hw
    refine Option.ne_none_iff_exists'.1 ?_
    intro hnone
    exact hidle ⟨hnone, hw⟩
  cases hw : s.worker with
  | exited =>
    have h := hs.exited hw
    simp [hpc] at h
  | waiting =>
    -- the worker does not sleep on packets
    obtain ⟨packet, hpacket⟩ := hsome (by simp [hw])
    have h := hs.waiting hw
    simp [hpacket, hpc] at h
  | top =>
    obtain ⟨packet, hpacket⟩ := hsome (by simp [hw])
    exact exposed_top rfl rfl hopen hpacket (.inl rfl)
  | woken =>
    obtain ⟨packet, hpacket⟩ := hsome (by simp [hw])
    exact exposed_top rfl rfl hopen hpacket (.inr rfl)
  | test packet =>
    cases packet with
    | none =>
      obtain ⟨packet, hpacket⟩ := hsome (by simp [hw])
      exact .head (.done rfl) (exposed_top rfl rfl hopen hpacket (.inl rfl))
    | some packet => exact exposed_test rfl rfl
  | pop packet => exact exposed_pop rfl rfl
  | check packet => exact exposed_check rfl rfl
  | reset packet => exact exposed_reset rfl rfl
  | dispatch packet => exact exposed_dispatch rfl rfl
  | handle packet => exact exposed_handle rfl rfl
  | reply packet =>
    refine ⟨_, .refl, ?_⟩
    intro hsafe
    have h := hsafe.write packet rfl
    cases h
  | next =>
    obtain ⟨packet, hpacket⟩ := hsome (by simp [hw])
    refine .head (.next rfl) (exposed_test rfl (congrArg WorkerPc.test hpacket))

/-! ### Runs -/

/-- In a run in which a close begins with no work left nothing is used after it is gone; and if a close begins
with work left, then some continuation uses what is gone. -/
theorem safe_iff (s : State) :
    (Reachable (· = connect) IdleStep s → Safe s) ∧
      ∀ s', Reachable (· = connect) Step s → Step s s' → s.reader = .idle → s'.reader = .destroyIn →
        ((∀ s'', ReflTransGen Step s' s'' → Safe s'') ↔ Idle s) := by
  constructor
  · intro hs
    have hinv : Located s ∧ ((s.reader = .idle ∨ s.reader.checking = true) ∨ Closing s) := by
      refine hs.invariant
        (I := fun s => Located s ∧ ((s.reader = .idle ∨ s.reader.checking = true) ∨ Closing s)) ?_ ?_
      · rintro s rfl
        exact ⟨.connect, .inl (.inl rfl)⟩
      · rintro s s' ⟨hlocated, hbefore⟩ ⟨hstep, hidle⟩
        refine ⟨hlocated.step hstep, ?_⟩
        rcases hbefore with hreader | hclosing
        swap
        · exact .inr (hclosing.step hstep)
        cases hstep with
        | close hpc => exact .inr ⟨by simp, .inl (hidle hpc rfl)⟩
        | signal hpc => exact .inl (.inl rfl)
        | check | read | leave | chooseFirst | chooseLink | first | link | setLast | finish => exact .inl (.inr rfl)
        | destroyIn hpc | destroyOut hpc | lockClose hpc | load hpc | walkDone hpc | walk hpc | free hpc
        | disconnect hpc | broadcast hpc | unlock hpc | join hpc => simp [hpc] at hreader
        | _ => exact .inl hreader
    rcases hinv.2 with hreader | hclosing
    · exact safe_of_open hinv.1 hreader
    · exact hclosing.safe
  · intro s' hs hstep hpc hpc'
    obtain rfl := hstep.eq_of_close hpc hpc'
    constructor
    · intro hsafe
      by_contra hidle
      obtain ⟨s'', hrun, hunsafe⟩ := exposed_of_not_idle (located hs) hpc hidle
      exact hunsafe (hsafe s'' hrun)
    · intro hidle s'' hrun
      have hclosing : Closing s'' := by
        induction hrun with
        | refl => exact ⟨by simp, .inl hidle⟩
        | tail _ h ih => exact ih.step h
      exact hclosing.safe

/-- The client disconnects while the worker is about to take its first packet, which close frees. -/
theorem freed_packet_read :
    ∃ s, Reachable (· = connect) Step s ∧ s.worker = .pop 1 ∧ 1 ∈ s.freed ∧ ¬ Safe s := by
  have h₀ : Reachable (· = connect) Step connect := .start rfl
  have h₁ := h₀.step (.check rfl (by decide))
  have h₂ := h₁.step (@Step.read _ 1 rfl (by simp [connect]))
  have h₃ := h₂.step (.chooseFirst rfl rfl)
  have h₄ := h₃.step (.first rfl)
  have h₅ := h₄.step (.finish rfl)
  have h₆ := h₅.step (.leave rfl)
  have h₇ := h₆.step (.signal rfl)
  have h₈ := h₇.step (.lock rfl rfl rfl)
  have h₉ := h₈.step (.test rfl)
  -- the worker has the packet, and the connection is closed
  have k₁ := h₉.step (.close rfl)
  have k₂ := k₁.step (.destroyIn rfl)
  have k₃ := k₂.step (.destroyOut rfl)
  have k₄ := k₃.step (.lockClose rfl (by decide))
  have k₅ := k₄.step (.load rfl)
  have k₆ := k₅.step (@Step.walk _ _ none rfl fun _ => rfl)
  have k₇ := k₆.step (.free rfl)
  refine ⟨_, k₇, rfl, by simp, ?_⟩
  intro hsafe
  exact hsafe.read 1 (.inl rfl) (by simp)

end Excom.Worker
