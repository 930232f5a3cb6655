import Excom.Cursor
import Excom.Handshake
import Excom.RoundTrip

/-!
# Frames that arrive together

The bytes of one read event complete any number of frames and leave the beginning of another one (`Arrives`).
The client handles one frame for each event: it handles what has arrived and keeps the rest exactly when no more
than one frame is complete (`drains_iff`), and when there is none its test must not take the beginning of one
for a frame.
-/

namespace Excom

/-- With the bytes of a read event the frames of `ps` are complete, and `tail` is left of a frame that is
not. -/
structure Arrives (E : Env) (b : Buffer) (keys : Encrypt) (pieces : List Bytes) (ps : List Packet)
    (tail : Bytes) : Prop where
  alive : Alive E b keys
  room : 2 * (b.used + pieces.flatten.length) ≤ E.word
  bytes : b.unread ++ pieces.flatten = frames E ps ++ tail
  known : ∀ p ∈ ps, ∃ t, p.Known t
  small : ∀ p ∈ ps, (p.body E).length < 2 ^ 32
  incomplete : ¬ Complete E tail

/-- The next `n` bytes need no resize, or the cursor fits into the 32 bits in which a resize keeps it. -/
def Buffer.KeepsCursor (b : Buffer) (n : Nat) : Prop := b.used + n ≤ b.max ∨ b.pos < 2 ^ 32

instance (b : Buffer) (n : Nat) : Decidable (b.KeepsCursor n) := inferInstanceAs (Decidable (_ ∨ _))

theorem Buffer.KeepsCursor.cursorAfter {b : Buffer} {n : Nat} (h : b.KeepsCursor n) : b.cursorAfter n = b.pos := by
  unfold Buffer.cursorAfter
  rcases h with hfit | hpos
  · exact if_pos hfit
  · rw [Nat.mod_eq_of_lt hpos, ite_self]

/-- A cursor that is not kept moves back by 2^32 bytes at least. -/
theorem Buffer.cursorAfter_lost {b : Buffer} {n : Nat} (h : ¬ b.KeepsCursor n) :
    b.cursorAfter n + 2 ^ 32 ≤ b.pos := by
  unfold KeepsCursor at h
  unfold Buffer.cursorAfter
  rw [if_neg (by omega)]
  omega

variable {E : Env}

namespace Arrives

variable {b : Buffer} {keys : Encrypt} {pieces : List Bytes} {ps : List Packet} {tail : Bytes}
  (h : Arrives E b keys pieces ps tail)

include h

/-- Every byte is before the cursor, in one of the frames, or behind them. -/
theorem length : b.used + pieces.flatten.length = b.pos + (frames E ps).length + tail.length := by
  have hl := congrArg List.length h.bytes
  rw [List.length_append, List.length_append, h.alive.ready.buf.length_unread] at hl
  have := h.alive.ready.pos_le
  omega

/-- The input buffer once the bytes are appended. -/
theorem append_returns (hA : E.AllocSucceeds) (w : World) :
    Exec.Returns (appendPieces E b pieces) w fun b' _ => Ready E b' keys ∧
      b'.used = b.used + pieces.flatten.length ∧ b'.pos = b.cursorAfter pieces.flatten.length ∧
      (b.KeepsCursor pieces.flatten.length → b'.unread = frames E ps ++ tail) := by
  have hready := h.alive.ready
  obtain ⟨b', w', hrun, hr⟩ := appendPieces_returns hA hready.buf h.alive.mutable h.room w
  obtain ⟨_, _, hrun', halive, -⟩ := h.alive.append_returns hA h.room w
  rw [hrun] at hrun'
  cases hrun'
  refine ⟨b', w', hrun, halive.ready, ?_, hr.pos, fun hkeep => ?_⟩
  · rw [← hr.wf.length_contents, hr.contents, List.length_append, hready.buf.length_contents]
  · have hle : b.pos ≤ b.contents.length := by
      rw [hready.buf.length_contents]
      exact hready.pos_le
    rw [Buffer.unread, hr.contents, hr.pos, hkeep.cursorAfter, List.drop_append_of_le_length hle]
    exact h.bytes

end Arrives

/-- A `PING` packet. -/
def Packet.ping (id : UInt16) : Packet := ⟨0, id, PacketType.ping.id, []⟩

private theorem Packet.ping_known (id : UInt16) : ∃ t, (ping id).Known t := ⟨.ping, rfl, rfl, by simp [ping]⟩

private theorem Packet.length_ping (id : UInt16) : ((ping id).body E).length < 2 ^ 32 := Nat.pow_pos (by decide)

namespace Client

/-- From `c` the handler is called for the packets `ps`, one after the other, and each of them is put on the
list of packets before; `c'` is the client after the last call. -/
inductive Handled (handler : Packet → ExcomClient → M ExcomClient) (c : ExcomClient) :
    List Packet → ExcomClient → Prop where
  | none {c' : ExcomClient} (h : c'.packets = c.packets) : Handled handler c [] c'
  | call {ps : List Packet} {p : Packet} {c₁ c₂ c' : ExcomClient} {w w' : World}
      (before : Handled handler c ps c₁) (taken : c₂.packets = p :: c₁.packets)
      (h : handler p c₂ w = .ok (c', w')) : Handled handler c (ps ++ [p]) c'

/-- A handler that leaves the input buffer and the list of packets alone. -/
def Keeps (handler : Packet → ExcomClient → M ExcomClient) : Prop :=
  ∀ p c w, Exec.Ensures (handler p c) w fun c' _ => c'.bufIn = c.bufIn ∧ c'.packets = c.packets

/-- A handler that leaves the input buffer and the list of packets alone, and returns when it is called for one
of the packets of `ps`. -/
structure Serves (E : Env) (handler : Packet → ExcomClient → M ExcomClient) (c : ExcomClient)
    (ps : List Packet) : Prop where
  keeps : Keeps handler
  returns : ∀ p ∈ ps, ∀ q b w, (q.size, q.message) = described E p → (∀ s, Value.string s ∈ q.data → s.Valid) →
    Exec.Returns (handler q { c with bufIn := b, packets := q :: c.packets }) w fun _ _ => True

/-- The packets `ps` were decoded and given to the handler, and the bytes `tail` are still to be read. -/
def Drained (E : Env) (handler : Packet → ExcomClient → M ExcomClient) (c : ExcomClient) (ps : List Packet)
    (tail : Bytes) (c' : ExcomClient) : Prop :=
  ∃ handled, Handled handler c handled c' ∧
    handled.map (fun p => (p.size, p.message)) = ps.map (described E) ∧ c'.bufIn.unread = tail

/-- A packet that is handled is put in front of the list. -/
theorem Handled.packets {handler : Packet → ExcomClient → M ExcomClient} (hh : Keeps handler)
    {c c' : ExcomClient} {ps : List Packet} (h : Handled handler c ps c') :
    c'.packets = ps.reverse ++ c.packets := by
  induction h with
  | none h => exact h
  | call _ taken hrun ih =>
    rw [(hh _ _ _ _ _ hrun).2, taken, ih, List.reverse_append]
    rfl

/-- An event that ends with `EAGAIN`, once its bytes are appended. -/
theorem read_again (handler : Packet → ExcomClient → M ExcomClient) {c : ExcomClient}
    (hc : c.disconnected = false) {pieces : List Bytes} {b : Buffer} {w w₁ : World}
    (h : appendPieces E c.bufIn pieces w = .ok (b, w₁)) :
    read E handler c pieces (.error EAGAIN) w = checkPacket E handler { c with bufIn := b } w₁ := by
  unfold read
  rw [if_neg (by rw [hc]; decide), Exec.bind_of_ok h]
  rfl

/-- `check_packet` keeps the bytes and moves the cursor.  If the test finds a frame the cursor moves by eight
bytes at least, and one packet may be handled; otherwise nothing happens. -/
theorem checkPacket_moves {handler : Packet → ExcomClient → M ExcomClient} (hA : E.AllocSucceeds)
    (hh : Keeps handler) {c : ExcomClient} (hc : Ready E c.bufIn c.keys) (w : World) :
    Exec.Ensures (checkPacket E handler c) w fun c' _ =>
      ∃ k new, Handled handler c new c' ∧ c'.bufIn.contents.drop (c.bufIn.pos + k) = c'.bufIn.unread ∧
        c'.bufIn.contents = c.bufIn.contents ∧ new.length ≤ 1 ∧ k + new.length ≤ 8 + new.length * 2 ^ 32 ∧
        if Passes E c.bufIn.unread then 8 ≤ k else k = 0 ∧ new = [] := by
  by_cases hp : Passes E c.bufIn.unread
  · simp only [if_pos hp]
    obtain ⟨w1, node, heq⟩ := checkPacket_pass handler hc hA hp w
    intro c' w' hrun
    rw [heq] at hrun
    revert c' w'
    refine (readPacket_cursor _ (activeKeys_none hc.cleartext) w1).bind ?_
    intro ⟨err, p, bufIn, enc⟩ w2 ⟨k, hk, herr, hr⟩
    cases hr
    refine .seq fun mutex w3 => ?_
    dsimp only
    split
    · rename_i hne
      have hk0 : k = 0 := herr hne
      refine .seq fun _ w4 => .pure ⟨8 + k, [], .none rfl, ?_, rfl, Nat.zero_le 1, ?_, by omega⟩
      · rw [Buffer.unread, Nat.add_assoc]
      · rw [hk0]
        exact Nat.le_refl 8
    · intro c' w4 hrun
      have hin := (hh p _ w3 c' w4 hrun).1
      refine ⟨8 + k, [p], .call (.none rfl) rfl hrun, ?_, by rw [hin]; rfl, Nat.le_refl 1,
        by rw [List.length_singleton]; omega, by omega⟩
      rw [Buffer.unread, hin, Nat.add_assoc]
  · simp only [if_neg hp]
    refine (checkPacket_wait handler hc hp w).ensures.mono ?_
    intro c' w' h
    rw [h]
    exact ⟨0, [], .none rfl, rfl, rfl, Nat.zero_le 1, Nat.zero_le _, rfl, rfl⟩

section Drain

variable {handler : Packet → ExcomClient → M ExcomClient} {c : ExcomClient} {pieces : List Bytes}
  {ps : List Packet} {tail : Bytes}

/-- One complete frame is handled. -/
theorem checkPacket_drains (hE : E.littleEndian = true) (hA : E.AllocSucceeds) (hh : Serves E handler c ps)
    {p : Packet} (hmem : p ∈ ps) {b : Buffer} (hb : Ready E b c.keys) (hp : ∃ t, p.Known t)
    (hsize : (p.body E).length < 2 ^ 32) (hun : b.unread = p.frame E ++ tail) (w : World) :
    Exec.Returns (checkPacket E handler { c with bufIn := b }) w fun c' _ =>
      Drained E handler c [p] tail c' := by
  have hdec := decodes_frame hE hp hsize tail
  rw [← hun] at hdec
  obtain ⟨q, w1, hq, hvalid, heq⟩ := checkPacket_accept handler (c := { c with bufIn := b }) hb hA
    hdec w
  obtain ⟨c', w2, hrun, -⟩ := hh.returns p hmem q _ w1 hq hvalid
  refine .intro (heq.trans hrun) ⟨[q], .call (.none rfl) rfl hrun, ?_, ?_⟩
  · rw [List.map_singleton, hq]
    rfl
  · have hin := (hh.keeps q _ w1 _ _ hrun).1
    rw [hin]
    show ({ b with pos := b.pos + (p.frame E).length } : Buffer).unread = tail
    rw [Buffer.unread_advance, hun, List.drop_left]

/-- What is handled and what is left tell how many frames there were. -/
private theorem of_drained (hA : E.AllocSucceeds) (hh : Keeps handler)
    (h : Arrives E c.bufIn c.keys pieces ps tail) {b : Buffer} (hb : Ready E b c.keys)
    (hused : b.used = c.bufIn.used + pieces.flatten.length)
    (hpos : b.pos = c.bufIn.cursorAfter pieces.flatten.length)
    (hun : c.bufIn.KeepsCursor pieces.flatten.length → b.unread = frames E ps ++ tail) {w w' : World}
    {c' : ExcomClient} (hrun : checkPacket E handler { c with bufIn := b } w = .ok (c', w'))
    (hd : Drained E handler c ps tail c') :
    c.bufIn.KeepsCursor pieces.flatten.length ∧ (ps.length = 1 ∨ ps = [] ∧ ¬ Passes E tail) := by
  obtain ⟨handled, hhandled, hmap, htail⟩ := hd
  obtain ⟨k, new, hnew, hdrop, hcont, hone, hk, hcase⟩ := checkPacket_moves (c := { c with bufIn := b }) hA hh hb
    w c' w' hrun
  have hlen := h.length
  -- as many packets were put on the list as there were frames
  have hcount : ps.length = new.length := by
    have hl := congrArg List.length hmap
    have hl' := congrArg List.length ((hhandled.packets hh).symm.trans (hnew.packets hh))
    simp only [List.length_map, List.length_append, List.length_reverse] at hl hl'
    omega
  -- and the cursor has moved over their bytes
  have hmoved : b.used - (b.pos + k) = tail.length := by
    rw [← htail, ← hdrop, List.length_drop, hcont]
    show _ = b.contents.length - _
    rw [hb.buf.length_contents]
  have hframes : ps.length * 8 ≤ (frames E ps).length := length_frames_ge ps
  -- a cursor that was cut to 32 bits leaves more than `tail`
  have hkeep : c.bufIn.KeepsCursor pieces.flatten.length := by
    by_contra hlost
    have := Buffer.cursorAfter_lost hlost
    rw [← hcount] at hk hone
    have hpos' : b.pos + 2 ^ 32 ≤ c.bufIn.pos := by omega
    omega
  refine ⟨hkeep, ?_⟩
  rcases ps with _ | ⟨p, _ | ⟨q, ps⟩⟩
  · right
    refine ⟨rfl, fun hp => ?_⟩
    have hun' : b.unread = tail := hun hkeep
    rw [if_pos (by rw [hun']; exact hp)] at hcase
    have := hp.1
    rw [hkeep.cursorAfter] at hpos
    rw [frames_nil, List.length_nil] at hlen
    omega
  · exact Or.inl rfl
  · simp only [List.length_cons] at hcount
    omega

end Drain

/-- With the bytes of one event the client handles all frames that are complete, and keeps what has arrived of
the next one, exactly when one frame is complete, or none is and its test waits for more. -/
theorem drains_iff (hE : E.littleEndian = true) (hA : E.AllocSucceeds)
    {handler : Packet → ExcomClient → M ExcomClient} {c : ExcomClient} {pieces : List Bytes} {ps : List Packet}
    {tail : Bytes} (hh : Serves E handler c ps) (hc : c.disconnected = false)
    (h : Arrives E c.bufIn c.keys pieces ps tail) (w : World) :
    Exec.Returns (read E handler c pieces (.error EAGAIN)) w (fun c' _ => Drained E handler c ps tail c') ↔
      c.bufIn.KeepsCursor pieces.flatten.length ∧ (ps.length = 1 ∨ ps = [] ∧ ¬ Passes E tail) := by
  obtain ⟨b, w1, happend, hb, hused, hpos, hun⟩ := h.append_returns hA w
  have heq := read_again handler hc happend
  constructor
  · intro ⟨c', w', hrun, hd⟩
    exact of_drained hA hh.keeps h hb hused hpos hun (heq.symm.trans hrun) hd
  · intro ⟨hkeep, hcase⟩
    have hun := hun hkeep
    suffices hcheck : Exec.Returns (checkPacket E handler { c with bufIn := b }) w1 fun c' _ =>
        Drained E handler c ps tail c' by
      obtain ⟨c', w', hrun, hd⟩ := hcheck
      exact ⟨c', w', heq.trans hrun, hd⟩
    rcases hcase with hone | ⟨rfl, hwait⟩
    · obtain ⟨p, rfl⟩ := List.length_eq_one_iff.1 hone
      have hmem := List.mem_singleton_self p
      refine checkPacket_drains hE hA hh hmem hb (h.known p hmem) (h.small p hmem) ?_ w1
      rw [hun, frames_cons, frames_nil, List.append_nil]
    · rw [frames_nil, List.nil_append] at hun
      refine (checkPacket_wait handler (c := { c with bufIn := b }) hb (by rw [hun]; exact hwait) w1).mono ?_
      intro c' w' h
      rw [h]
      exact ⟨[], .none rfl, rfl, hun⟩

/-- A new connection on a host whose fresh blocks are zero. -/
def blank : ExcomClient :=
  { state := .prehandshake, enc := ⟨Vector.replicate _ 0, Vector.replicate _ 0⟩,
    keys := Encrypt.init ⟨Vector.replicate _ 0, Vector.replicate _ 0⟩, packets := [], disconnected := false,
    bufIn := ⟨32, 32, 0, 0, some ⟨0, List.replicate 32 0⟩, false, false, .unlocked⟩,
    bufOut := ⟨32, 32, 0, 0, some ⟨1, List.replicate 32 0⟩, false, false, .unlocked⟩ }

private theorem blank_alive : Alive (Env.amd64 0) blank.bufIn blank.keys :=
  ⟨⟨⟨rfl, rfl, by decide, by decide⟩, by decide, by decide, rfl⟩, rfl⟩

/-- A `PING` and three bytes of another packet: the first is handled, the others stay. -/
theorem drains_one :
    Exec.Returns (read (Env.amd64 0) (defaultHandler (Env.amd64 0)) blank [[0, 0, 0, 0, 0, 1, 0, 5, 0, 0, 0]]
      (.error EAGAIN)) World.start fun c' _ =>
        Drained (Env.amd64 0) (defaultHandler (Env.amd64 0)) blank [.ping 1] [0, 0, 0] c' := by
  have hserves : Serves (Env.amd64 0) (defaultHandler (Env.amd64 0)) blank [.ping 1] := by
    refine ⟨fun p c w => defaultHandler_keeps _ p c w, fun p hp q b w hq _ => ?_⟩
    obtain rfl := List.mem_singleton.1 hp
    have htype : q.type = 5 := congrArg (fun x => x.2.type) hq
    unfold defaultHandler
    rw [htype]
    exact .pure trivial
  refine (drains_iff rfl (Env.amd64_allocSucceeds 0) hserves rfl
    ⟨blank_alive, by decide, by decide, ?_, ?_, by decide⟩ World.start).2 ⟨by decide, Or.inl rfl⟩
  · intro p hp
    obtain rfl := List.mem_singleton.1 hp
    exact Packet.ping_known 1
  · intro p hp
    obtain rfl := List.mem_singleton.1 hp
    exact Packet.length_ping 1

/-- Two `PING` packets that arrive in one event: the second one stays in the buffer. -/
theorem not_drains_two :
    Arrives (Env.amd64 0) blank.bufIn blank.keys [[0, 0, 0, 0, 0, 1, 0, 5], [0, 0, 0, 0, 0, 2, 0, 5]]
        [.ping 1, .ping 2] [] ∧
      ¬ Exec.Returns (read (Env.amd64 0) (defaultHandler (Env.amd64 0)) blank
          [[0, 0, 0, 0, 0, 1, 0, 5], [0, 0, 0, 0, 0, 2, 0, 5]] (.error EAGAIN)) World.start fun c' _ =>
        Drained (Env.amd64 0) (defaultHandler (Env.amd64 0)) blank [.ping 1, .ping 2] [] c' := by
  have harrives : Arrives (Env.amd64 0) blank.bufIn blank.keys
      [[0, 0, 0, 0, 0, 1, 0, 5], [0, 0, 0, 0, 0, 2, 0, 5]] [.ping 1, .ping 2] [] := by
    refine ⟨blank_alive, by decide, by decide, ?_, ?_, by decide⟩
    · intro p hp
      rcases List.mem_pair.1 hp with rfl | rfl
      · exact Packet.ping_known 1
      · exact Packet.ping_known 2
    · intro p hp
      rcases List.mem_pair.1 hp with rfl | rfl
      · exact Packet.length_ping 1
      · exact Packet.length_ping 2
  refine ⟨harrives, ?_⟩
  intro ⟨c', w', hrun, hd⟩
  obtain ⟨b, w1, happend, hb, hused, hpos, hun⟩ := harrives.append_returns (Env.amd64_allocSucceeds 0) World.start
  obtain ⟨-, hone | ⟨hnil, -⟩⟩ := of_drained (c := blank) (Env.amd64_allocSucceeds 0)
    (fun p c w => defaultHandler_keeps _ p c w) harrives hb hused hpos hun
    ((read_again _ rfl happend).symm.trans hrun) hd
  · cases hone
  · cases hnil

end Client

end Excom
