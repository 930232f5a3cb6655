import Excom.Lib.Transition
import Excom.Pending

/-!
# A buffer is a queue of bytes

Any sequence of appends and calls of `excom_buffer_write` on one buffer (`Traffic.Step`).  `Traffic.fifo`:
what the socket has taken, and behind it what lies between the cursor and the end of the buffer, is what was
appended.
-/

namespace Excom

/-- A call of one of the append functions, or of `excom_buffer_write` -/
inductive BufferCall where
  | cappend (str : Bytes) (size : Nat)
  | sappend (body : Option Block) (size : UInt32)
  | bappend (src : Buffer)
  | bappend2 (src : Buffer) (amount : Nat)
  | bappendRemaining (src : Buffer)
  | bappendRemaining2 (src : Buffer) (amount : Nat)
  | write (outcome : Except Int Nat)

namespace BufferCall

/-- What the call returns, the buffer, and the bytes that the socket took -/
def run (E : Env) (b : Buffer) : BufferCall → M (Int × Buffer × Bytes)
  | cappend str size => do
    let (err, b) ← b.cappend E str size
    return (err, b, [])
  | sappend body size => do
    let (err, b) ← b.sappend E body size
    return (err, b, [])
  | bappend src => do
    let (err, b) ← b.bappend E src
    return (err, b, [])
  | bappend2 src amount => do
    let (err, b) ← b.bappend2 E src amount
    return (err, b, [])
  | bappendRemaining src => do
    let (err, b) ← b.bappendRemaining E src
    return (err, b, [])
  | bappendRemaining2 src amount => do
    let (err, b) ← b.bappendRemaining2 E src amount
    return (err, b, [])
  | write outcome => b.write E outcome

/-- The bytes that the call appends -/
def bytes : BufferCall → Bytes
  | cappend str size => str.take size
  | sappend body size => (blockBytes body).take size.toNat
  | bappend src => src.contents
  | bappend2 src amount => (blockBytes src.buf).take amount
  | bappendRemaining src => src.unread
  | bappendRemaining2 src amount => src.ahead.take amount
  | write _ => []

/-- The amount is within the source. -/
def Within (E : Env) : BufferCall → Prop
  | cappend str size => size ≤ str.length
  | sappend body size => size.toNat ≤ (blockBytes body).length
  | bappend src => src.used ≤ (blockBytes src.buf).length
  | bappend2 src amount => amount ≤ (blockBytes src.buf).length
  | bappendRemaining src => src.pos ≤ src.used ∧ src.used ≤ (blockBytes src.buf).length ∧ src.used < E.word
  | bappendRemaining2 src amount => src.pos + amount ≤ (blockBytes src.buf).length
  | write _ => True

end BufferCall

/-- A buffer, the bytes that the socket has taken from it, and those that were appended to it -/
structure Traffic where
  buffer : Buffer
  world : World
  sent : Bytes
  appended : Bytes

namespace Traffic

/-- A buffer of `start` bytes, freeable or not -/
def Initial (E : Env) (start : Nat) (s : Traffic) : Prop :=
  ∃ err b w freeable, Buffer.init E start w = .ok ((err, b), s.world) ∧ s.buffer = { b with freeable } ∧
    s.sent = [] ∧ s.appended = []

/-- One call; fewer than `2 ^ 32` bytes are appended in all. -/
inductive Step (E : Env) : Traffic → Traffic → Prop where
  | call {s : Traffic} {err : Int} {b : Buffer} {taken : Bytes} {w : World} (call : BufferCall)
      (hwithin : call.Within E) (htotal : (s.appended ++ call.bytes).length < 2 ^ 32)
      (hrun : call.run E s.buffer s.world = .ok ((err, b, taken), w)) :
      Step E s { buffer := b, world := w, sent := s.sent ++ taken, appended := s.appended ++ call.bytes }

end Traffic

variable {E : Env}

/-! ### One call -/

private theorem canGrow_of_reserve {b : Buffer} {size : Nat} (hsum : b.used + size < E.word) {w w' : World}
    {r : Int × Buffer} (hrun : b.reserve E size w = .ok (r, w')) : b.CanGrow E size := by
  refine ⟨hsum, ?_⟩
  intro hlt
  unfold Buffer.reserve at hrun
  rw [Nat.mod_eq_of_lt hsum, if_pos hlt] at hrun
  obtain ⟨m, hgrow, -⟩ := Buffer.resize_ensures b _ w r w' hrun
  exact ⟨m, hgrow⟩

private theorem canGrow_of_append {b : Buffer} (hb : b.WF E) {size : Nat} (hsum : b.used + size < E.word)
    {src : M Bytes} {w w' : World} {r : Int × Buffer} (hrun : b.append E size src w = .ok (r, w')) :
    b.CanGrow E size := by
  unfold Buffer.append at hrun
  rw [hb.mutex, mutexLock_unlocked, Exec.pure_bind] at hrun
  obtain ⟨r1, w1, hreserve, _⟩ := Exec.bind_eq_ok.1 hrun
  exact canGrow_of_reserve (b := { b with mutex := .locked }) hsum hreserve

private theorem canGrow_zero {b : Buffer} (hb : b.WF E) : b.CanGrow E 0 :=
  ⟨Nat.lt_of_le_of_lt hb.used_le hb.max_lt, fun hlt => absurd hb.used_le (Nat.not_le.2 hlt)⟩

/-- The calls that append from a buffer return at once if there is nothing to append. -/
private theorem canGrow_of_bappend {b : Buffer} (hb : b.WF E) (hm : b.unmutable = false) {amount : Nat}
    (hsum : b.used + amount < E.word) {src : M Bytes} {w w' : World} {r : Int × Buffer}
    (hrun : (if b.unmutable then pure (EACCES, b) else if amount = 0 then pure (0, b)
      else b.append E amount src) w = .ok (r, w')) : b.CanGrow E amount := by
  rw [if_neg (by rw [hm]; decide)] at hrun
  split at hrun
  · rename_i h0
    rw [h0]
    exact canGrow_zero hb
  · exact canGrow_of_append hb hsum hrun

theorem remaining_src {src : Buffer} (h : BufferCall.Within E (.bappendRemaining src)) :
    src.remaining E = src.used - src.pos ∧ src.ahead.take (src.used - src.pos) = src.unread := by
  obtain ⟨hpos, hused, hlt⟩ := h
  refine ⟨Buffer.remaining_of_lt hpos hlt, ?_⟩
  rw [Buffer.ahead_eq hused hpos, ← Buffer.length_unread hused, List.take_left]

/-- The number of bytes that a call asks for -/
def amountOf : BufferCall → Nat
  | .cappend _ size => size
  | .sappend _ size => size.toNat
  | .bappend src => src.used
  | .bappend2 _ amount => amount
  | .bappendRemaining src => src.used - src.pos
  | .bappendRemaining2 _ amount => amount
  | .write _ => 0

/-- A call appends as many bytes as it is asked for. -/
theorem length_bytes {call : BufferCall} (h : call.Within E) : call.bytes.length = amountOf call := by
  cases call with
  | cappend str size => exact List.length_take_of_le h
  | sappend body size => exact List.length_take_of_le h
  | bappend src => exact List.length_take_of_le h
  | bappend2 src amount => exact List.length_take_of_le h
  | bappendRemaining src => exact Buffer.length_unread h.2.1
  | bappendRemaining2 src amount =>
    have hle : src.pos + amount ≤ (blockBytes src.buf).length := h
    refine List.length_take_of_le ?_
    rw [Buffer.ahead, List.length_drop]
    omega
  | write outcome => rfl

private theorem canGrow_of_run {b : Buffer} (hb : b.WF E) (hm : b.unmutable = false) {call : BufferCall}
    (hwithin : call.Within E) (hsum : b.used + call.bytes.length < E.word) {w w' : World}
    {r : Int × Buffer × Bytes} (hrun : call.run E b w = .ok (r, w')) : b.CanGrow E call.bytes.length := by
  rw [length_bytes hwithin] at hsum ⊢
  cases call with
  | cappend str size =>
    obtain ⟨r1, w1, hrun, _⟩ := Exec.bind_eq_ok.1 hrun
    unfold Buffer.cappend at hrun
    rw [if_neg (by rw [hm]; decide)] at hrun
    exact canGrow_of_append hb hsum hrun
  | sappend body size =>
    obtain ⟨r1, w1, hrun, _⟩ := Exec.bind_eq_ok.1 hrun
    unfold Buffer.sappend at hrun
    rw [if_neg (by rw [hm]; decide), hb.mutex, mutexLock_unlocked, Exec.pure_bind] at hrun
    obtain ⟨r2, w2, hreserve, _⟩ := Exec.bind_eq_ok.1 hrun
    exact canGrow_of_reserve (b := { b with mutex := .locked }) hsum hreserve
  | bappend src =>
    obtain ⟨r1, w1, hrun, _⟩ := Exec.bind_eq_ok.1 hrun
    exact canGrow_of_bappend hb hm hsum hrun
  | bappend2 src amount =>
    obtain ⟨r1, w1, hrun, _⟩ := Exec.bind_eq_ok.1 hrun
    exact canGrow_of_bappend hb hm hsum hrun
  | bappendRemaining src =>
    obtain ⟨r1, w1, hrun, _⟩ := Exec.bind_eq_ok.1 hrun
    unfold Buffer.bappendRemaining at hrun
    rw [(remaining_src hwithin).1] at hrun
    exact canGrow_of_bappend hb hm hsum hrun
  | bappendRemaining2 src amount =>
    obtain ⟨r1, w1, hrun, _⟩ := Exec.bind_eq_ok.1 hrun
    exact canGrow_of_bappend hb hm hsum hrun
  | write outcome => exact canGrow_zero hb

/-- What a call does to the buffer and to the bytes `bs` that wait in it -/
def Keeps (E : Env) (n : Nat) (bs : Bytes) (call : BufferCall) (r : Int × Buffer × Bytes) : Prop :=
  (call.bytes ≠ [] → r.1 = 0) ∧
    ∃ rest, bs ++ call.bytes = r.2.2 ++ rest ∧ r.2.1.Pending E (n + call.bytes.length) rest

private theorem keeps_of_appended {n : Nat} (hn : n < 2 ^ 32) {bs : Bytes} {b : Buffer} (hb : b.Pending E n bs)
    {call : BufferCall} {x : M (Int × Buffer)} {w : World}
    (hx : Exec.Returns x w fun r _ => r.1 = 0 ∧ Buffer.Appended E b call.bytes r.2) :
    Exec.Returns (do let (err, b) ← x; return (err, b, [])) w fun r _ => Keeps E n bs call r := by
  refine hx.bind ?_
  intro ⟨err, b'⟩ w1 ⟨herr, happ⟩
  exact .pure ⟨fun _ => herr, _, rfl, hb.append happ.extends hn⟩

private theorem call_returns (hA : E.AllocSucceeds) {n : Nat} (hn : n < 2 ^ 32) {bs : Bytes} {b : Buffer}
    (hb : b.Pending E n bs) {call : BufferCall} (hwithin : call.Within E) (hg : b.CanGrow E call.bytes.length)
    (w : World) : Exec.Returns (call.run E b) w fun r _ => Keeps E n bs call r := by
  have hP : b.used = 0 ∨ ∀ l : Load, (fun _ => True) l := .inr fun _ => trivial
  have hlen := length_bytes hwithin
  rw [hlen] at hg
  cases call with
  | cappend str size =>
    exact keeps_of_appended hn hb ((Buffer.cappend_returns hA hb.wf hP hb.mutable hwithin hg w).mono
      fun _ _ h => ⟨h.1, h.2.2.2⟩)
  | sappend body size =>
    exact keeps_of_appended hn hb
      ((Buffer.sappend_returns hA hb.wf hP hb.mutable hwithin hg (fun _ _ => trivial) w).mono
        fun _ _ h => ⟨h.1, h.2.2⟩)
  | bappend src =>
    exact keeps_of_appended hn hb
      ((Buffer.bappend2_returns hA hb.wf hP hb.mutable src hwithin hg (fun _ _ => trivial) w).mono
        fun _ _ h => ⟨h.1, h.2.2.2⟩)
  | bappend2 src amount =>
    exact keeps_of_appended hn hb
      ((Buffer.bappend2_returns hA hb.wf hP hb.mutable src hwithin hg (fun _ _ => trivial) w).mono
        fun _ _ h => ⟨h.1, h.2.2.2⟩)
  | bappendRemaining src =>
    obtain ⟨hrem, htake⟩ := remaining_src hwithin
    obtain ⟨hpos, hused, _⟩ := hwithin
    refine keeps_of_appended hn hb ?_
    unfold Buffer.bappendRemaining
    rw [hrem]
    have hle : src.pos + (src.used - src.pos) ≤ (blockBytes src.buf).length := by omega
    refine (Buffer.bappendRemaining2_returns hA hb.wf hP hb.mutable src hle hg (fun _ _ _ => trivial) w).mono ?_
    intro r w' h
    refine ⟨h.1, ?_⟩
    rw [BufferCall.bytes, ← htake]
    exact h.2.2.2
  | bappendRemaining2 src amount =>
    exact keeps_of_appended hn hb
      ((Buffer.bappendRemaining2_returns hA hb.wf hP hb.mutable src hwithin hg (fun _ _ _ => trivial) w).mono
        fun _ _ h => ⟨h.1, h.2.2.2⟩)
  | write outcome =>
    refine (write_returns hb outcome w).mono ?_
    intro r w' ⟨rest, hbs, hrest, _⟩
    refine ⟨fun h => absurd rfl h, rest, ?_, hrest⟩
    rw [BufferCall.bytes, List.append_nil]
    exact hbs

/-! ### All calls -/

namespace Traffic

/-- What waits in the buffer, where the cursor is, and how much was appended -/
structure InOrder (E : Env) (s : Traffic) : Prop where
  pending : s.buffer.Pending E s.appended.length s.buffer.unread
  fifo : s.sent ++ s.buffer.unread = s.appended
  total : s.appended.length < 2 ^ 32

private theorem initial_inOrder (hA : E.AllocSucceeds) {start : Nat} (hstart : start < E.word) {s : Traffic}
    (h : Initial E start s) : InOrder E s := by
  obtain ⟨err, b, w, freeable, hrun, hbuffer, hsent, happended⟩ := h
  have hb : Buffer.Empty E start b :=
    ((Buffer.init_returns hA start hstart (fun _ => True) w).ensures _ _ hrun).2.2.1
  have hpending : ({ b with freeable } : Buffer).Pending E 0 [] :=
    have := hb.pending
    ⟨⟨this.wf.mutex, this.wf.block, this.wf.used_le, this.wf.max_lt⟩, this.mutable, this.pos_le, this.used_le,
      this.unread⟩
  rw [← hbuffer] at hpending
  have hunread := hpending.unread
  refine ⟨?_, ?_, ?_⟩
  · rw [happended, hunread]
    exact hpending
  · rw [hsent, happended, hunread]
    rfl
  · rw [happended]
    decide

private theorem InOrder.room {s : Traffic} (h : InOrder E s) (call : BufferCall) :
    s.buffer.used + call.bytes.length ≤ (s.appended ++ call.bytes).length := by
  have hused := h.pending.used_le
  rw [List.length_append]
  omega

private theorem step_inOrder (hA : E.AllocSucceeds) {s s' : Traffic} (hs : InOrder E s) (h : Step E s s') :
    InOrder E s' := by
  cases h with
  | call call hwithin htotal hrun =>
    have h32 := E.le_word
    have hused := hs.room call
    have hg := canGrow_of_run hs.pending.wf hs.pending.mutable hwithin (by omega) hrun
    obtain ⟨_, rest, hrest, hpending⟩ := (call_returns hA hs.total hs.pending hwithin hg s.world).ensures _ _
      hrun
    dsimp only at hrest hpending
    have hunread := hpending.unread
    refine ⟨?_, ?_, htotal⟩
    · dsimp only
      rw [List.length_append, hunread]
      exact hpending
    · dsimp only
      rw [hunread, List.append_assoc, ← hrest, ← List.append_assoc, hs.fifo]

/-- A buffer with successful allocations is a queue: what the socket has taken, followed by what lies between
the cursor and the end, is what was appended.  Where `size_t` has more than 32 bits, the next call returns as
well, and an append reports success; where it has 32, the loop of `excom_buffer_resize` has no end from
`2 ^ 31` bytes on. -/
theorem fifo (hA : E.AllocSucceeds) {start : Nat} (hstart : start < E.word) {s : Traffic}
    (h : Reachable (Initial E start) (Step E) s) :
    s.sent ++ s.buffer.unread = s.appended ∧ s.buffer.used ≤ s.buffer.max ∧ s.buffer.pos ≤ s.buffer.used ∧
      (2 ^ 33 ≤ E.word → ∀ call : BufferCall, call.Within E → (s.appended ++ call.bytes).length < 2 ^ 32 →
        Exec.Returns (call.run E s.buffer) s.world fun r _ => call.bytes ≠ [] → r.1 = 0) := by
  have hs : InOrder E s := h.invariant (fun s => initial_inOrder hA hstart) (fun s s' => step_inOrder hA)
  refine ⟨hs.fifo, hs.pending.wf.used_le, hs.pending.pos_le, ?_⟩
  intro hword call hwithin htotal
  have hused := hs.room call
  have hg : s.buffer.CanGrow E call.bytes.length := Buffer.canGrow_of_le (by omega)
  exact (call_returns hA hs.total hs.pending hwithin hg s.world).mono fun _ _ h => h.1

/-- Three bytes are appended, and the socket takes two of them. -/
theorem fifo_after_short_write :
    ∃ s : Traffic, s.sent = [1, 2] ∧ s.appended = [1, 2, 3] ∧
      s.sent ++ s.buffer.unread = s.appended ∧ s.buffer.used ≤ s.buffer.max ∧ s.buffer.pos ≤ s.buffer.used ∧
        (2 ^ 33 ≤ (Env.amd64 0).word → ∀ call : BufferCall, call.Within (Env.amd64 0) →
          (s.appended ++ call.bytes).length < 2 ^ 32 →
            Exec.Returns (call.run (Env.amd64 0) s.buffer) s.world fun r _ => call.bytes ≠ [] → r.1 = 0) := by
  let E := Env.amd64 0
  let s0 : Traffic := ⟨⟨1, 1, 0, 0, some ⟨0, [0]⟩, false, true, .unlocked⟩, ⟨0, 1, 0, [], [], 0⟩, [], []⟩
  have h0 : Initial E 1 s0 := ⟨0, _, World.start, true, rfl, rfl, rfl, rfl⟩
  have h1 : Step E s0 _ := .call (.cappend [1, 2, 3] 3) (Nat.le_refl 3) (by decide) rfl
  have h2 := Reachable.step (.step (.start h0) h1) (.call (.write (.ok 2)) trivial (by decide) rfl)
  exact ⟨_, rfl, rfl, fifo (Env.amd64_allocSucceeds 0) (by decide) h2⟩

end Traffic

end Excom
