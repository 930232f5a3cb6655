import Excom.Client
import Excom.Lib.Transition
import Excom.Receive

/-!
# The cursor of the input buffer

The cursor of an input buffer stays inside the bytes received, the number of bytes that remain never wraps
around, the decoder is only entered where a whole frame is there, and the loop of the server ends, in every
run in which each frame that the test lets through is complete and begins with the fields of its type
(`input_cursor_inside`).
-/

namespace Excom

variable (E : Env)

/-- The cursor is inside the bytes received, and what remains is the number of bytes from there on. -/
def CursorInside (b : Buffer) : Prop := b.pos ≤ b.used ∧ b.remaining E = b.used - b.pos

/-- The unread bytes once `n` more of them, `bs`, have been received. -/
def Buffer.unreadAfter (b : Buffer) (bs : Bytes) : Bytes := (b.contents ++ bs).drop (b.cursorAfter bs.length)

/-- Where the test lets the decoder in, there are the header and the bytes that it announces. -/
def EntersSafely (least : Nat) (b : Buffer) : Prop :=
  least ≤ b.remaining E → (4 + unpackUint32 E (b.ahead.take 4)).toNat ≤ b.remaining E →
    8 + (unpackUint32 E (b.ahead.take 4)).toNat ≤ b.used - b.pos

/-- The input buffer of a connection, at any moment between two calls. -/
structure Alive (b : Buffer) (keys : Encrypt) : Prop where
  ready : Ready E b keys
  mutable : b.unmutable = false

variable {E}

private theorem Ready.cursorInside {b : Buffer} {keys : Encrypt} (h : Ready E b keys) : CursorInside E b :=
  ⟨h.pos_le, Buffer.remaining_eq h.buf h.pos_le⟩

theorem Buffer.Empty.alive {start : Nat} {b : Buffer} (h : b.Empty E start) {keys : Encrypt}
    (hkeys : keys.remote.active = false) : Alive E b keys := by
  have hused := h.used
  have hpos := h.pos
  exact ⟨⟨h.wf, by omega, by omega, hkeys⟩, h.unmutable⟩

/-- The bytes of an event are appended to a buffer that has room for them. -/
theorem Alive.append_returns (hA : E.AllocSucceeds) {b : Buffer} {keys : Encrypt} (hb : Alive E b keys)
    {pieces : List Bytes} (hroom : 2 * (b.used + pieces.flatten.length) ≤ E.word) (w : World) :
    Exec.Returns (appendPieces E b pieces) w fun b' _ => Alive E b' keys ∧
      b'.unread = b.unreadAfter pieces.flatten := by
  refine (appendPieces_returns hA hb.ready.buf hb.mutable hroom w).mono ?_
  intro b' w' h
  have hused : b'.used = b.used + pieces.flatten.length := by
    rw [← h.wf.length_contents, h.contents, List.length_append, hb.ready.buf.length_contents]
  have hpos : b'.pos ≤ b.pos := by
    rw [h.pos, Buffer.cursorAfter]
    split
    · exact Nat.le_refl _
    · exact Nat.mod_le _ _
  have hle := hb.ready.pos_le
  refine ⟨⟨⟨h.wf, by omega, by omega, hb.ready.cleartext⟩, h.unmutable.trans hb.mutable⟩, ?_⟩
  rw [Buffer.unread, h.contents, h.pos, Buffer.unreadAfter]

/-- The cursor may move over bytes that are unread. -/
theorem Alive.advance {b : Buffer} {keys : Encrypt} (hb : Alive E b keys) {n : Nat} (h : n ≤ b.unread.length) :
    Alive E { b with pos := b.pos + n, mutex := .unlocked } keys :=
  ⟨hb.ready.advance h, hb.mutable⟩

/-- A frame that is complete wherever it passes the test. -/
theorem Ready.entersSafely {b : Buffer} {keys : Encrypt} (hb : Ready E b keys) {least : Nat} (h4 : 4 ≤ least)
    (hc : least ≤ b.unread.length → (4 + frameSize E b.unread).toNat ≤ b.unread.length → Complete E b.unread) :
    EntersSafely E least b := by
  intro h1 h2
  rw [hb.remaining] at h1 h2
  rw [hb.size (by omega)] at h2 ⊢
  have := hc h1 h2
  rwa [← hb.buf.length_unread]

/-! ### The server -/

namespace Server

/-- The bytes of a read event leave the server room, and every frame that passes its test is complete and
begins with the fields of its type.  Only after `EAGAIN` there is a test. -/
structure Accounted (E : Env) (b : Buffer) (pieces : List Bytes) (stop : ReadEnd) : Prop where
  room : 2 * (b.used + pieces.flatten.length) ≤ E.word
  scans : stop = .error EAGAIN → ∃ ms rest, Scan E (b.unreadAfter pieces.flatten) ms rest

/-- A read event, or any step of other code: the worker handles packets and appends to the output buffer, but
leaves the input buffer alone. -/
inductive Step (E : Env) : ClientData × World → ClientData × World → Prop where
  | read {d d' : ClientData} {w w' : World} (pieces : List Bytes) (stop : ReadEnd)
      (hok : Accounted E d.bufIn pieces stop) (h : read E d pieces stop w = .ok (some d', w')) :
        Step E (d, w) (d', w')
  | other {d d' : ClientData} {w w' : World} (hin : d'.bufIn = d.bufIn) (hmutex : d'.mutex = d.mutex)
      (hkeys : d'.keys.remote.active = false) : Step E (d, w) (d', w')

/-- A connection that was just set up. -/
def Initial (E : Env) (s : ClientData × World) : Prop := ∃ pair w, connect E pair w = .ok s

/-- The turns of the loop of `check_packet` in a read event. -/
def AtTurn (E : Env) (d : ClientData) (pieces : List Bytes) (w : World) (d' : ClientData) (w' : World) : Prop :=
  ∃ b w1, appendPieces E d.bufIn pieces w = .ok (b, w1) ∧
    Exec.Turns (checkTurn E) { d with bufIn := b, mutex := .locked } w1 d' w'

/-- The cursor is inside; a read event returns, and at each turn of its loop the cursor is inside and the
decoder is entered only for what is there. -/
structure CursorSafe (E : Env) (s : ClientData × World) : Prop where
  inside : CursorInside E s.1.bufIn
  returns : ∀ pieces stop, Accounted E s.1.bufIn pieces stop →
    Exec.Returns (read E s.1 pieces stop) s.2 fun _ _ => True
  turns : ∀ pieces d' w', Accounted E s.1.bufIn pieces (.error EAGAIN) → AtTurn E s.1 pieces s.2 d' w' →
    CursorInside E d'.bufIn ∧ EntersSafely E 5 d'.bufIn

private theorem server_connect_alive (hA : E.AllocSucceeds) {s : ClientData × World} (h : Initial E s) :
    Alive E s.1.bufIn s.1.keys ∧ s.1.mutex = .unlocked := by
  obtain ⟨pair, w, h⟩ := h
  have hfresh := (connect_returns hA pair w).ensures _ _ h
  exact ⟨hfresh.bufIn.alive (by rw [hfresh.keys]; rfl), hfresh.mutex⟩

private theorem read_returns (hA : E.AllocSucceeds) {d : ClientData} (hd : Alive E d.bufIn d.keys)
    (hm : d.mutex = .unlocked) {pieces : List Bytes} {stop : ReadEnd} (hok : Accounted E d.bufIn pieces stop)
    (w : World) :
    Exec.Returns (read E d pieces stop) w fun r _ => ∀ d', r = some d' →
      Alive E d'.bufIn d'.keys ∧ d'.mutex = .unlocked := by
  unfold read
  by_cases hdis : d.disconnected = true
  · rw [if_pos hdis]
    refine .pure ?_
    rintro d' ⟨⟩
    exact ⟨hd, hm⟩
  rw [if_neg hdis]
  refine (hd.append_returns hA hok.room w).bind ?_
  rintro b w1 ⟨hb, hun⟩
  cases stop with
  | eof =>
    show Exec.Returns (close { d with bufIn := b }) w1 _
    unfold close
    rw [if_neg hdis]
    refine (Buffer.destroy_returns (fun _ => True) b w1).bind ?_
    rintro _ w2 -
    refine (Buffer.destroy_returns (fun _ => True) d.bufOut w2).bind ?_
    rintro _ w3 -
    show Exec.Returns (mutexLock d.mutex >>= _) w3 _
    rw [hm, mutexLock_unlocked, Exec.pure_bind, mutexUnlock_locked, Exec.pure_bind]
    exact .pure fun d' h => by cases h
  | error errno =>
    show Exec.Returns (if errno = EAGAIN then _ else _) w1 _
    by_cases he : errno = EAGAIN
    · rw [if_pos he]
      obtain ⟨ms, rest, hscan⟩ := hok.scans (by rw [he])
      rw [← hun] at hscan
      refine (checkPacket_returns (d := { d with bufIn := b }) hA hb.ready hm hscan w1).bind ?_
      rintro _ w2 ⟨-, -, -, k, packets, hk, rfl⟩
      refine .pure ?_
      rintro d' ⟨⟩
      exact ⟨hb.advance hk, hm⟩
    · rw [if_neg he]
      refine .pure ?_
      rintro d' ⟨⟩
      exact ⟨hb, hm⟩

/-- A turn of the loop keeps what can be scanned. -/
private theorem checkTurn_scans (hA : E.AllocSucceeds) (d : ClientData) (w : World)
    (h : Ready E d.bufIn d.keys ∧ ∃ ms rest, Scan E d.bufIn.unread ms rest) :
    Exec.Ensures (checkTurn E d) w fun r _ => r.2 = true →
      Ready E r.1.bufIn r.1.keys ∧ ∃ ms rest, Scan E r.1.bufIn.unread ms rest := by
  obtain ⟨hd, ms, rest, hscan⟩ := h
  generalize hbs : d.bufIn.unread = bs at hscan
  cases hscan with
  | stop hstop =>
    refine (checkTurn_stop hd (by rwa [hbs]) w).ensures.mono ?_
    rintro _ _ ⟨mutex, -, rfl⟩ hmore
    cases hmore
  | refuse hdec =>
    refine (checkTurn_refuse hA hd (by rw [hbs]; exact hdec) w).ensures.mono ?_
    rintro _ _ rfl hmore
    cases hmore
  | @accept _ _ n m ms hdec hrest =>
    subst hbs
    refine (checkTurn_accept hA hd hdec w).ensures.mono ?_
    rintro _ _ ⟨p, -, -, rfl⟩ -
    refine ⟨hd.advance hdec.le_length, ms, rest, ?_⟩
    rw [unread_advance]
    exact hrest

private theorem cursorSafe (hA : E.AllocSucceeds) {s : ClientData × World} (hs : Alive E s.1.bufIn s.1.keys)
    (hm : s.1.mutex = .unlocked) : CursorSafe E s := by
  refine ⟨hs.ready.cursorInside, fun pieces stop hok => ?_, fun pieces d' w' hok hturn => ?_⟩
  · exact (read_returns hA hs hm hok s.2).mono fun _ _ _ => trivial
  · obtain ⟨b, w1, happ, hturns⟩ := hturn
    obtain ⟨hb, hun⟩ := (hs.append_returns hA hok.room s.2).ensures b w1 happ
    obtain ⟨hd', ms, rest, hscan⟩ := hturns.invariant (checkTurn_scans hA)
      ⟨hb.ready, by rw [hun]; exact hok.scans rfl⟩
    refine ⟨hd'.cursorInside, hd'.entersSafely (by decide) fun h1 h2 => ?_⟩
    cases hscan with
    | stop hstop => exact absurd ⟨h1, h2⟩ hstop
    | refuse hdec => exact hdec.complete
    | accept hdec _ => exact hdec.complete

private theorem reachable_cursorSafe (hA : E.AllocSucceeds) {s : ClientData × World}
    (h : Reachable (Initial E) (Step E) s) : CursorSafe E s := by
  have hinv : Alive E s.1.bufIn s.1.keys ∧ s.1.mutex = .unlocked := by
    refine h.invariant (I := fun s => Alive E s.1.bufIn s.1.keys ∧ s.1.mutex = .unlocked)
      (fun s hs => server_connect_alive hA hs) ?_
    rintro _ _ ⟨hs, hm⟩ hstep
    cases hstep with
    | read pieces stop hok hrun => exact (read_returns hA hs hm hok _).ensures _ _ hrun _ rfl
    | other hin hmutex hkeys =>
      refine ⟨⟨⟨?_, ?_, ?_, hkeys⟩, ?_⟩, hmutex.trans hm⟩
      all_goals rw [hin]
      · exact hs.ready.buf
      · exact hs.ready.pos_le
      · exact hs.ready.fits
      · exact hs.mutable
  exact cursorSafe hA hinv.1 hinv.2

end Server

/-! ### The client -/

namespace Client

/-- The bytes of a read event leave the client room, and a frame that passes its test is complete and begins
with the fields of its type.  Only after `EAGAIN` there is a test. -/
structure Accounted (E : Env) (b : Buffer) (pieces : List Bytes) (stop : ReadEnd) : Prop where
  room : 2 * (b.used + pieces.flatten.length) ≤ E.word
  decodes : stop = .error EAGAIN → 4 ≤ (b.unreadAfter pieces.flatten).length →
    (4 + frameSize E (b.unreadAfter pieces.flatten)).toNat ≤ (b.unreadAfter pieces.flatten).length →
    ∃ n r, Decodes E (b.unreadAfter pieces.flatten) n r

/-- A packet handler that leaves the input buffer alone. -/
def KeepsInput (handler : Packet → ExcomClient → M ExcomClient) : Prop :=
  ∀ p c w, Exec.Ensures (handler p c) w fun c' _ => c'.bufIn = c.bufIn

/-- A read event, or any step of other code, which leaves the input buffer alone. -/
inductive Step (E : Env) (handler : Packet → ExcomClient → M ExcomClient) :
    ExcomClient × World → ExcomClient × World → Prop where
  | read {c c' : ExcomClient} {w w' : World} (pieces : List Bytes) (stop : ReadEnd)
      (hok : Accounted E c.bufIn pieces stop)
      (h : read E handler c pieces stop w = .ok (c', w')) (hkeys : c'.keys.remote.active = false) :
      Step E handler (c, w) (c', w')
  | other {c c' : ExcomClient} {w w' : World} (hin : c'.bufIn = c.bufIn)
      (hkeys : c'.keys.remote.active = false) :
      Step E handler (c, w) (c', w')

/-- A connection that was just set up. -/
def Initial (E : Env) (s : ExcomClient × World) : Prop := ∃ pair w, connect E pair w = .ok s

/-- The cursor is inside, and the decoder is entered only for what is there. -/
structure CursorSafe (E : Env) (s : ExcomClient × World) : Prop where
  inside : CursorInside E s.1.bufIn
  enters : ∀ pieces b w', Accounted E s.1.bufIn pieces (.error EAGAIN) →
    appendPieces E s.1.bufIn pieces s.2 = .ok (b, w') → CursorInside E b ∧ EntersSafely E 4 b

private theorem connect_alive (hA : E.AllocSucceeds) {s : ExcomClient × World} (h : Initial E s) :
    Alive E s.1.bufIn s.1.keys := by
  obtain ⟨pair, w, h⟩ := h
  have hfresh := (connect_returns hA pair w).ensures _ _ h
  exact hfresh.bufIn.alive (by rw [hfresh.keys]; rfl)

private theorem checkPacket_ensures (hA : E.AllocSucceeds) {handler : Packet → ExcomClient → M ExcomClient}
    (hh : KeepsInput handler) {c : ExcomClient} (hc : Alive E c.bufIn c.keys)
    (hok : 4 ≤ c.bufIn.unread.length → (4 + frameSize E c.bufIn.unread).toNat ≤ c.bufIn.unread.length →
      ∃ n r, Decodes E c.bufIn.unread n r) (w : World) :
    Exec.Ensures (checkPacket E handler c) w fun c' _ => c'.keys.remote.active = false →
      Alive E c'.bufIn c'.keys := by
  by_cases hp : Passes E c.bufIn.unread
  · obtain ⟨n, r, hdec⟩ := hok hp.1 hp.2
    have hadv := hc.advance hdec.le_length
    cases r with
    | none =>
      refine (checkPacket_refuse handler hc.ready hA hdec w).ensures.mono ?_
      intro c' w' h _
      rw [h]
      exact hadv
    | some m =>
      obtain ⟨p, w1, -, -, heq⟩ := checkPacket_accept handler hc.ready hA hdec w
      intro c' w' hrun hkeys
      have hin : c'.bufIn = (c.advance n).bufIn :=
        hh p { c.advance n with packets := p :: c.packets } w1 c' w' (heq.symm.trans hrun)
      rw [hin]
      exact ⟨⟨hadv.ready.buf, hadv.ready.pos_le, hadv.ready.fits, hkeys⟩, hadv.mutable⟩
  · refine (checkPacket_wait handler hc.ready hp w).ensures.mono ?_
    intro c' w' h _
    rw [h]
    exact hc

private theorem read_ensures (hA : E.AllocSucceeds) {handler : Packet → ExcomClient → M ExcomClient}
    (hh : KeepsInput handler) {c : ExcomClient} (hc : Alive E c.bufIn c.keys) {pieces : List Bytes}
    {stop : ReadEnd} (hok : Accounted E c.bufIn pieces stop) (w : World) :
    Exec.Ensures (read E handler c pieces stop) w fun c' _ => c'.keys.remote.active = false →
      Alive E c'.bufIn c'.keys := by
  unfold read
  by_cases hdis : c.disconnected = true
  · rw [if_pos hdis]
    exact .pure fun _ => hc
  rw [if_neg hdis]
  refine (hc.append_returns hA hok.room w).ensures.bind ?_
  rintro b w1 ⟨hb, hun⟩
  cases stop with
  | eof => exact .pure fun _ => hb
  | error errno =>
    show Exec.Ensures (if errno = EAGAIN then _ else _) w1 _
    by_cases he : errno = EAGAIN
    · rw [if_pos he]
      exact checkPacket_ensures (c := { c with bufIn := b }) hA hh hb (by rw [hun]; exact hok.decodes (by rw [he])) w1
    · rw [if_neg he]
      exact .pure fun _ => hb

private theorem reachable_cursorSafe (hA : E.AllocSucceeds) {handler : Packet → ExcomClient → M ExcomClient}
    (hh : KeepsInput handler) {s : ExcomClient × World} (h : Reachable (Initial E) (Step E handler) s) :
    CursorSafe E s := by
  have hinv : Alive E s.1.bufIn s.1.keys := by
    refine h.invariant (I := fun s => Alive E s.1.bufIn s.1.keys) (fun s hs => connect_alive hA hs) ?_
    rintro _ _ hs hstep
    cases hstep with
    | read pieces stop hok hrun hkeys => exact read_ensures hA hh hs hok _ _ _ hrun hkeys
    | other hin hkeys =>
      refine ⟨⟨?_, ?_, ?_, hkeys⟩, ?_⟩
      all_goals rw [hin]
      · exact hs.ready.buf
      · exact hs.ready.pos_le
      · exact hs.ready.fits
      · exact hs.mutable
  refine ⟨hinv.ready.cursorInside, fun pieces b w' hok happ => ?_⟩
  obtain ⟨hb, hun⟩ := (hinv.append_returns hA hok.room s.2).ensures b w' happ
  refine ⟨hb.ready.cursorInside, hb.ready.entersSafely (by decide) fun h1 h2 => ?_⟩
  rw [hun] at h1 h2 ⊢
  obtain ⟨n, r, hdec⟩ := hok.decodes rfl h1 h2
  exact hdec.complete

end Client

/-- In every run of a connection of the server or of the client, without encryption, whose read events are
accounted for, the cursor stays inside the bytes received and the decoder is entered only for frames that are
there; the server's read events return. -/
theorem input_cursor_inside (hA : E.AllocSucceeds) :
    (∀ s, Reachable (Server.Initial E) (Server.Step E) s → Server.CursorSafe E s) ∧
      ∀ handler, Client.KeepsInput handler →
        ∀ s, Reachable (Client.Initial E) (Client.Step E handler) s → Client.CursorSafe E s :=
  ⟨fun _ h => Server.reachable_cursorSafe hA h, fun _ hh _ h => Client.reachable_cursorSafe hA hh h⟩

/-- After an `OK` packet the cursor is behind its eight bytes. -/
theorem cursor_inside_after_ok :
    ∃ s, Reachable (Server.Initial (Env.amd64 0)) (Server.Step (Env.amd64 0)) s ∧ s.1.bufIn.pos = 8 ∧
      Server.CursorSafe (Env.amd64 0) s := by
  have hr : Reachable (Server.Initial (Env.amd64 0)) (Server.Step (Env.amd64 0)) _ := .step
    (.start ⟨⟨Vector.replicate _ 1, Vector.replicate _ 2⟩, World.start, rfl⟩)
    (.read [[0, 0, 0, 0, 0, 1, 0, 1]] (.error EAGAIN)
      ⟨by decide, fun _ => ⟨_, _, .accept (.known (by decide) (t := .ok) (by decide) (show _ = [] ++ [] by decide)
        .nil) (.stop (by decide))⟩⟩ rfl)
  exact ⟨_, hr, rfl, (input_cursor_inside (Env.amd64_allocSucceeds 0)).1 _ hr⟩

/-- Five bytes are taken for a frame with an empty body, and the cursor ends three bytes behind them. -/
theorem cursor_outside_after_five_bytes :
    ∃ d w d' w',
      Server.connect (Env.amd64 0) ⟨Vector.replicate _ 1, Vector.replicate _ 2⟩ World.start = .ok (d, w) ∧
      Server.read (Env.amd64 0) d [[0, 0, 0, 0, 0]] (.error EAGAIN) w = .ok (some d', w') ∧
      ¬ CursorInside (Env.amd64 0) d'.bufIn := by
  refine ⟨_, _, _, _, rfl, rfl, ?_⟩
  rintro ⟨h, -⟩
  revert h
  decide

end Excom
