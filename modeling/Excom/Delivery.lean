import Excom.Channel

/-!
# What the two sides do with the frames on their way

The events of a session one at a time, over the channels of `Channel`.  The reply to a packet joins the frames on
their way in the mode that the conversation says (`writeReply_returns`).  A read event, wherever it ends but inside
the last four bytes of a frame, only moves bytes, or takes the frame off that is there completely
(`Server.read_channel`, `Client.read_channel`): this needs frames that are read as they were written.
-/

namespace Excom

variable {E : Env}

/-! ### What the handlers answer -/

/-- The reply can be written, and what is written into the packet fits. -/
structure Reaction.Sound (E : Env) (raw : Packet) (r : Reaction) : Prop where
  known : ∀ p, r.reply = some p → ∃ t, p.Known t
  short : ∀ p, r.reply = some p → (p.body E).length ≤ 36
  copies : r.copies = true → (raw.stringAt 0).size.toNat = cryptoBoxPublicKeyBytes

namespace Reaction

variable {raw : Packet} {state level : ProtocolState}

private theorem sound_quiet {r : Reaction} (hreply : r.reply = none) (hcopies : r.copies = false) :
    r.Sound E raw := by
  refine ⟨?_, ?_, ?_⟩
  · intro p hp
    rw [hreply] at hp
    cases hp
  · intro p hp
    rw [hreply] at hp
    cases hp
  · intro h
    rw [hcopies] at h
    cases h

private theorem sound_answer {r : Reaction} {id : UInt16} {t : PacketType} {data : List Value}
    (hreply : r.reply = some ⟨0, id, t.id, data⟩) (hdata : data.map Value.field = t.fields)
    (hvalid : ∀ s, Value.string s ∈ data → s.Valid) (hshort : (encodeBody E (data.map Value.content)).length ≤ 36)
    (hcopies : r.copies = true → (raw.stringAt 0).size.toNat = cryptoBoxPublicKeyBytes) : r.Sound E raw := by
  refine ⟨?_, ?_, hcopies⟩
  · intro p hp
    obtain rfl := Option.some.inj (hreply.symm.trans hp)
    exact ⟨t, rfl, hdata, hvalid⟩
  · intro p hp
    obtain rfl := Option.some.inj (hreply.symm.trans hp)
    exact hshort

private theorem sound_error {raw' : Packet} (reason : ErrorReason) : (Reaction.error raw' reason state).Sound E raw :=
  sound_answer rfl rfl (by simp) (by simp [Value.content, Content.encode]) (absurd · Bool.false_ne_true)

private theorem sound_require {r : Reaction} (h : state = level → r.Sound E raw) :
    (Reaction.require raw state level r).Sound E raw := by
  unfold require
  split
  · exact sound_error _
  · rename_i hstate
    exact h (not_not.1 hstate)

/-- A string over bytes is a field that can be written. -/
theorem sound_string {r : Reaction} {id : UInt16} {t : PacketType} {bs : Bytes} (ht : t.fields = [.string])
    (hreply : r.reply = some ⟨0, id, t.id, [.string (.ofBytes bs)]⟩) (hlen : bs.length ≤ 32)
    (hcopies : r.copies = true → (raw.stringAt 0).size.toNat = cryptoBoxPublicKeyBytes) : r.Sound E raw := by
  refine sound_answer hreply ht.symm ?_ ?_ hcopies
  · intro s hs
    obtain rfl := Value.string.inj (List.mem_singleton.1 hs)
    exact ExcomString.ofBytes_valid (by omega)
  · simp only [List.map_cons, List.map_nil, Value.content, encodeBody_cons, encodeBody_nil, Content.encode,
      ExcomString.bytes_ofBytes (show bs.length < 2 ^ 32 by omega), List.length_append, length_wire32,
      List.length_nil]
    omega

end Reaction

/-- The replies of the server can be written, and what it copies is as long as a key. -/
theorem Server.react_sound (state : ProtocolState) (own : Key) (raw : Packet) :
    (Server.react state own raw).Sound E raw := by
  have hown : own.toList.length ≤ 32 := Nat.le_of_eq own.length_toList
  unfold Server.react
  rcases packetType? raw.type with _ | t
  · exact Reaction.sound_quiet rfl rfl
  cases t with
  | ok | reject | error | pong => exact Reaction.sound_quiet rfl rfl
  | protocolVersion =>
    refine Reaction.sound_require fun _ => ?_
    split
    · exact Reaction.sound_answer rfl rfl (by simp) (by simp [Value.content, Content.encode])
        (absurd · Bool.false_ne_true)
    · exact Reaction.sound_answer rfl rfl (by simp) (by simp) (absurd · Bool.false_ne_true)
  | ping => exact Reaction.sound_answer rfl rfl (by simp) (by simp) (absurd · Bool.false_ne_true)
  | publicKey =>
    refine Reaction.sound_require fun _ => ?_
    split
    · exact Reaction.sound_error _
    · rename_i hsize
      exact Reaction.sound_string (t := .publicKey) rfl rfl hown fun _ => not_not.1 hsize
  | command => exact Reaction.sound_require fun _ => Reaction.sound_quiet rfl rfl
  | commandResponse => exact Reaction.sound_require fun _ => Reaction.sound_quiet rfl rfl

/-- So can those of the client. -/
theorem Client.react_sound (state : ProtocolState) (own : Key) (raw : Packet) :
    (Client.react state own raw).Sound E raw := by
  have hown : own.toList.length ≤ 32 := Nat.le_of_eq own.length_toList
  unfold Client.react
  rcases packetType? raw.type with _ | t
  · exact Reaction.sound_quiet rfl rfl
  cases t with
  | reject | error | ping | command | commandResponse => exact Reaction.sound_quiet rfl rfl
  | protocolVersion => exact Reaction.sound_error _
  | ok =>
    dsimp only
    split
    · exact Reaction.sound_string (t := .publicKey) rfl rfl hown (absurd · Bool.false_ne_true)
    · exact Reaction.sound_quiet rfl rfl
  | pong =>
    dsimp only
    split
    · exact Reaction.sound_string (t := .command) rfl rfl (by decide) (absurd · Bool.false_ne_true)
    · exact Reaction.sound_quiet rfl rfl
  | publicKey =>
    refine Reaction.sound_require fun _ => ?_
    split
    · exact Reaction.sound_error _
    · rename_i hsize
      exact Reaction.sound_answer (t := .ping) rfl rfl (by simp) (by simp) fun _ => not_not.1 hsize

/-- The body of the packet is overwritten or printed inside its block. -/
theorem touchBody_returns {raw : Packet} {r : Reaction} (hr : r.Sound E raw) (hvalid : (raw.stringAt 0).Valid)
    (keys : Encrypt) (w : World) : Exec.Returns (touchBody raw keys r) w fun _ _ => True := by
  unfold touchBody
  split
  · rename_i hcopies
    have hsize := hr.copies hcopies
    have hlen : keys.remote.pkey.toList.length = cryptoBoxPublicKeyBytes := Vector.length_toList
    unfold ExcomString.Valid at hvalid
    obtain ⟨p, hstore, -⟩ := store_eq (raw.stringAt 0).body 0 keys.remote.pkey.toList (by omega)
    rw [hstore]
    exact .pure trivial
  split
  · refine (load_returns (P := fun _ => True) _ 0 _ (by rw [Nat.zero_add]; exact hvalid) (fun _ _ _ => trivial)
      w).bind ?_
    exact fun _ _ _ => .pure trivial
  · exact .pure trivial

/-! ### Plain frames are read -/

/-- A frame of a known type without a body is read in the same way whatever the keys are. -/
theorem readBare_returns (hA : E.AllocSucceeds) (input : Buffer) (enc : Option Encrypt)
    (hlen : 8 ≤ input.ahead.length) (hsize : frameSize E input.ahead = 0) {t : PacketType}
    (ht : packetType? (frameType E input.ahead) = some t) (hfields : t.fields = []) (w : World) :
    Exec.Returns (protocolReadPacket E input enc) w fun r _ =>
      r = (0, ⟨0, frameId E input.ahead, frameType E input.ahead, []⟩, { input with pos := input.pos + 8 }, enc) := by
  obtain ⟨w1, buf, -, -, -, heq⟩ := readHeader_eq input enc w hA hlen (P := fun _ => True) (fun _ _ => trivial)
  have hfetch : fetchBody E { input with pos := input.pos + 8 } enc buf (frameSize E input.ahead) =
      pure ({ input with pos := input.pos + 8 }, enc, buf) := by
    rw [hsize]
    unfold fetchBody
    rcases hkeys : activeKeys enc with _ | keys
    · show (buf.bappendRemaining2 E _ 0 >>= _) = _
      unfold Buffer.bappendRemaining2
      cases buf.unmutable <;> rfl
    · obtain rfl : enc = some keys := (Option.filter_eq_some_iff.1 hkeys).1
      rfl
  have hparse : Exec.Returns (parseBody E (frameSize E input.ahead) (frameId E input.ahead) (frameType E input.ahead)
      { input with pos := input.pos + 8 } enc buf) w1 fun r _ =>
        r = (0, ⟨0, frameId E input.ahead, frameType E input.ahead, []⟩, { input with pos := input.pos + 8 },
          enc) := by
    unfold parseBody readData
    rw [if_neg (ne_packetInvalid ht), ht]
    dsimp only
    rw [hfields, hsize]
    refine (Buffer.destroy_returns (fun _ => True) buf w1).bind ?_
    exact fun _ _ _ => .pure rfl
  obtain ⟨r, w2, hrun, hr⟩ := hparse
  rw [hfetch] at heq
  exact .intro (heq.trans hrun) hr

/-- What is read of a plain frame. -/
def ReadAs (q : Packet) (f : Frame) : Prop := q.message = f.packet.message ∧ ∃ t, q.Known t

theorem ReadAs.reads {q : Packet} {f : Frame} (h : ReadAs q f) (active : Bool) : Reads active f q := by
  obtain ⟨hmsg, t, hq⟩ := h
  exact ⟨congrArg Message.id hmsg, congrArg Message.type hmsg,
    fun _ _ => ⟨congrArg Message.fields hmsg, hq.valid⟩⟩

/-- A plain frame that is there completely is read as it was written, while the input buffer is locked, unless the
reader decrypts what is not encrypted. -/
theorem readPlain_returns (hE : E.littleEndian = true) (hA : E.AllocSucceeds) {b : Buffer} {keys keys' : Encrypt}
    (hb : Ready E b keys') {f : Frame} (hf : f.Plain) (hun : b.unread = f.packet.frame E)
    (hsize : (f.packet.body E).length < 2 ^ 32) (hmode : keys.remote.active = false ∨ f.packet.data = [])
    (w : World) :
    Exec.Returns (protocolReadPacket E { b with mutex := .locked } (some keys)) w fun r _ => ∃ q, ReadAs q f ∧
      r = (0, q, { b with mutex := .locked, pos := b.pos + b.unread.length }, some keys) := by
  obtain ⟨t, hp⟩ := hf.known
  rcases hmode with hactive | hdata
  · have hready : Ready E b keys := ⟨hb.buf, hb.pos_le, hb.fits, hactive⟩
    have hdec : Decodes E b.unread b.unread.length (some (described E f.packet)) := by
      have h := decodes_frame hE ⟨t, hp⟩ hsize []
      rwa [List.append_nil, ← hun] at h
    refine (hready.locked_returns hA hdec w).mono ?_
    rintro _ w1 ⟨q, rfl, hq, hvalid⟩
    obtain ⟨hmsg, hknown⟩ := known_of_described hp (hq _ rfl) hvalid
    exact ⟨q, ⟨hmsg, t, hknown⟩, rfl⟩
  · have hbody : f.packet.body E = [] := by rw [Packet.body, hdata]; rfl
    have hfields : t.fields = [] := by rw [← hp.data, hdata]; rfl
    have hlen : b.unread.length = 8 := by rw [hun, f.packet.length_frame, hbody]; rfl
    have hframed := f.packet.framed hE []
    rw [List.append_nil, ← hun] at hframed
    have hc : Complete E b.unread := by
      rw [hun]
      exact Packet.complete_frame hE hsize
    obtain ⟨-, hsize', hid', htype', -⟩ := hc.ahead hb.buf.block_used
    have hahead : 8 ≤ b.ahead.length := by
      rw [Buffer.ahead_eq hb.buf.block_used hb.pos_le, List.length_append]
      omega
    have htype : frameType E b.ahead = t.id := htype'.trans (hframed.type.trans hp.type)
    refine (readBare_returns hA { b with mutex := .locked } (some keys) hahead
      (hsize'.trans (hframed.size.trans (by rw [hbody]; rfl))) (t := t) ?_ hfields w).mono ?_
    · rw [show frameType E ({ b with mutex := .locked } : Buffer).ahead = _ from htype, packetType?_id]
    · rintro _ w1 rfl
      refine ⟨_, ⟨?_, t, htype, ?_, fun _ h => absurd h List.not_mem_nil⟩, by rw [hlen]⟩
      · show Message.mk (frameId E b.ahead) (frameType E b.ahead) [] = ⟨f.packet.id, f.packet.type, _⟩
        rw [hid', hframed.id, htype, ← hp.type, hdata]
        rfl
      · rw [hfields]
        rfl

/-! ### Replies are sent -/

/-- The reply joins the frames on their way. -/
theorem writeReply_returns (hA : E.AllocSucceeds) (hS : E.sodium.Lawful) {raw : Packet} {r : Reaction}
    (hr : r.Sound E raw) {n : Nat} {keys : Encrypt} {out input : Buffer} {socket : Bytes} {fs : List Frame}
    (h : Channel E n (keys.sharedKey E) out socket input fs) (hn : n < 2 ^ 30) (w : World) :
    Exec.Returns (writeReply E r.reply out keys) w fun x _ =>
      Channel E (n + 100) (x.2.sharedKey E) x.1 socket input (fs ++ Conversation.post r keys.remote.active) ∧
        x.2.remote = keys.remote ∧ x.2.localPair = keys.localPair ∧ x.2.sharedKey E = keys.sharedKey E := by
  have h32 := E.le_word
  unfold writeReply Conversation.post
  rcases hreply : r.reply with _ | p
  · refine .pure ⟨?_, rfl, rfl, rfl⟩
    show Channel E (n + 100) _ out socket input (fs ++ [])
    rw [List.append_nil]
    exact h.mono (Nat.le_add_right n 100)
  obtain ⟨t, hp⟩ := hr.known p hreply
  have hshort := hr.short p hreply
  have hused := h.sender.used_le
  have hwf := h.sender.wf
  have hprep : ∀ k : Encrypt, k.localPair = keys.localPair → (k.prep E).localPair = keys.localPair := by
    intro k hk
    unfold Encrypt.prep
    split <;> exact hk
  have hlocal := writePacket_keys (I := fun k => k.localPair = keys.localPair) hprep rfl p out w
  have hsealed : sealedLength (p.body E).length ≤ 92 := by unfold sealedLength; split <;> omega
  have hwrite : Exec.Returns (protocolWritePacket E p out (some keys)) w fun x _ => ∃ bs keys' out',
      x = (0, x.2.1, out', some keys') ∧ Frame.OnWire E (keys.sharedKey E) ⟨p, keys.remote.active⟩ bs ∧
        Buffer.Extends E out bs out' ∧ bs.length ≤ 100 ∧ SameKeys E keys keys' := by
    rcases hactive : keys.remote.active with _ | _
    · have hlen := p.length_frame (E := E)
      refine (writePacket_returns hA hp hwf h.sender.mutable (activeKeys_none hactive) (by omega) w).mono ?_
      rintro _ w1 ⟨out', hext, rfl⟩
      exact ⟨p.frame E, keys, out', rfl, rfl, hext, by omega, .refl keys⟩
    · refine (writeSealed_returns hA hS hp hwf h.sender.mutable hactive
        (by rw [Packet.sealedFrameSize]; omega) w).mono ?_
      rintro _ w1 ⟨bs, keys', out', hbs, rfl, hsame, hext⟩
      exact ⟨bs, keys', out', rfl, hbs, hext, by rw [hbs.length hS, Packet.sealedFrameSize]; omega, hsame⟩
  refine (hwrite.and_ensures hlocal).bind ?_
  rintro ⟨code, p', out1, enc⟩ w1 ⟨⟨bs, keys', out', heq, hwire, hext, hlen, hsame⟩, keys'', henc, hpair⟩
  cases heq
  obtain rfl := Option.some.inj henc
  refine .pure ⟨?_, hsame.remote, hpair, hsame.sharedKey⟩
  show Channel E (n + 100) (keys'.sharedKey E) out1 socket input _
  rw [hsame.sharedKey]
  exact h.post (by omega) (by omega) hwire hext

/-! ### The receivers -/

/-- The bytes do not seem to begin with a frame that is not complete. -/
def Cut (E : Env) (bs : Bytes) : Prop := Passes E bs → Complete E bs

/-- The same for the test of the client. -/
def Client.Cut (E : Env) (bs : Bytes) : Prop := Client.Passes E bs → Complete E bs

/-- There is not more than one frame on the way to the receiver, and it will be read as it was written. -/
def Readable (active : Bool) (fs : List Frame) : Prop :=
  fs = [] ∨ ∃ f, fs = [f] ∧ f.Plain ∧ (active = false ∨ f.packet.data = [])

section Receivers

variable {n : Nat} {key : Key} {out : Buffer} {rest : Bytes} {fs : List Frame}

/-- The keys that the tests of the receivers do not look at. -/
private def someKeys : Encrypt := .init ⟨Vector.replicate _ 0, Vector.replicate _ 0⟩

/-- A frame that is there completely is the only one on its way, and can be read. -/
private theorem complete_frame (hE : E.littleEndian = true) (hn : n < 2 ^ 31) {b : Buffer} {active : Bool}
    (hb : Channel E n key out rest b fs) (hread : Readable active fs) (hc : Complete E b.unread) :
    ∃ f, fs = [f] ∧ f.Plain ∧ (active = false ∨ f.packet.data = []) ∧ b.unread = f.packet.frame E ∧
      (f.packet.body E).length < 2 ^ 32 ∧
      Channel E n key out rest { b with pos := b.pos + b.unread.length, mutex := .unlocked } [] := by
  rcases hread with rfl | ⟨f, rfl, hf, hmode⟩
  · unfold Complete at hc
    rw [hb.empty.1, List.length_nil] at hc
    omega
  · obtain ⟨hun, hsocket, hout⟩ := hb.whole hf hE (by omega) hc
    have hlen := congrArg List.length hun
    rw [f.packet.length_frame] at hlen
    have hused := hb.receiver.length
    have hle := hb.receiver.used_le
    exact ⟨f, rfl, hf, hmode, hun, by omega, hb.take hsocket hout⟩

namespace Server

variable (hE : E.littleEndian = true) (hA : E.AllocSucceeds) (hn : n < 2 ^ 30) {d : ClientData}
  (hmutex : d.mutex = .unlocked)

include hmutex

private theorem checkPacket_none (hd : Ready E d.bufIn someKeys) (h : ¬ Passes E d.bufIn.unread) (w : World) :
    Exec.Returns (checkPacket E d) w fun d' _ => d' = d := by
  obtain ⟨_, w1, hstop, mutex, hmx, rfl⟩ := checkTurn_stop (d := { d with mutex := .locked }) hd h w
  obtain ⟨w2, hun⟩ : ∃ w2, mutexUnlock mutex w1 = .ok (.unlocked, w2) := by
    cases mutex with
    | uninit => exact absurd rfl hmx
    | unlocked | locked => exact ⟨_, rfl⟩
  refine ⟨d, w2, ?_, rfl⟩
  unfold checkPacket
  rw [hmutex, mutexLock_unlocked, Exec.pure_bind]
  refine (Exec.bind_of_ok (Exec.loop_last hstop) _).trans ((Exec.bind_of_ok hun _).trans ?_)
  show Except.ok (({ d with bufIn := { d.bufIn with mutex := .unlocked }, mutex := .unlocked } : ClientData), w2) = _
  rw [hd.buf.unlocked, ← hmutex]

include hE hA

private theorem checkPacket_one (hd : Ready E d.bufIn someKeys) {f : Frame} (hf : f.Plain)
    (hmode : d.keys.remote.active = false ∨ f.packet.data = []) (hun : d.bufIn.unread = f.packet.frame E)
    (hsize : (f.packet.body E).length < 2 ^ 32) (w : World) :
    Exec.Returns (checkPacket E d) w fun d' _ => ∃ q, ReadAs q f ∧
      d' = { d.advance d.bufIn.unread.length with packets := d.packets ++ [q] } := by
  have hc : Complete E d.bufIn.unread := by
    rw [hun]
    exact Packet.complete_frame hE hsize
  obtain ⟨w1, node, hturn⟩ := checkTurn_pass hA (d := { d with mutex := .locked }) hd hc.passes w
  obtain ⟨_, w2, hrun, q, hq, rfl⟩ := readPlain_returns hE hA hd hf hun hsize hmode w1
  rw [Exec.bind_of_ok hrun] at hturn
  have hready : Ready E { d.bufIn with pos := d.bufIn.pos + d.bufIn.unread.length, mutex := .unlocked } someKeys :=
    hd.advance (Nat.le_refl _)
  have hempty : ({ d.bufIn with pos := d.bufIn.pos + d.bufIn.unread.length, mutex := .unlocked } : Buffer).unread =
      [] := by
    show d.bufIn.contents.drop (d.bufIn.pos + d.bufIn.unread.length) = []
    rw [← List.drop_drop]
    exact List.drop_length
  obtain ⟨_, w3, hstop, mutex, hmx, rfl⟩ := checkTurn_stop
    (d := { d with
      bufIn := { d.bufIn with pos := d.bufIn.pos + d.bufIn.unread.length, mutex := .unlocked }, mutex := .locked,
      packets := d.packets ++ [q] }) hready (by rw [hempty]; exact fun h => absurd h.1 (Nat.not_lt_zero 4)) w2
  obtain ⟨w4, hunlock⟩ : ∃ w4, mutexUnlock mutex w3 = .ok (.unlocked, w4) := by
    cases mutex with
    | uninit => exact absurd rfl hmx
    | unlocked | locked => exact ⟨_, rfl⟩
  have hloop : Exec.loop Fault.diverges (checkTurn E) (turnBound { d with mutex := .locked })
      { d with mutex := .locked } w = .ok (_, w3) :=
    (Exec.loop_turn hturn).trans (Exec.loop_last hstop)
  refine ⟨{ d.advance d.bufIn.unread.length with packets := d.packets ++ [q] }, w4, ?_, q, hq, rfl⟩
  unfold checkPacket
  rw [hmutex, mutexLock_unlocked, Exec.pure_bind]
  refine (Exec.bind_of_ok hloop _).trans ((Exec.bind_of_ok hunlock _).trans ?_)
  show Except.ok _ = Except.ok _
  simp only [ClientData.advance, hmutex]

include hn

/-- A read event of the server only moves bytes, or queues the packet of the frame that is on its way. -/
theorem read_channel {pieces : List Bytes} (h : Channel E n key out (pieces.flatten ++ rest) d.bufIn fs)
    (hread : Readable d.keys.remote.active fs) (hconnected : d.disconnected = false)
    (hcut : Cut E (d.bufIn.unread ++ pieces.flatten)) (errno : Int) (w : World) :
    Exec.Returns (read E d pieces (.error errno)) w fun r _ => ∃ b,
      (r = some { d with bufIn := b } ∧ Channel E n key out rest b fs ∧
        b.unread = d.bufIn.unread ++ pieces.flatten ∧ (errno = EAGAIN → ¬ Passes E b.unread)) ∨
      ∃ f q, fs = [f] ∧ ReadAs q f ∧ r = some { d with bufIn := b, packets := d.packets ++ [q] } ∧
        Channel E n key out rest b [] := by
  have h32 := E.le_word
  unfold read
  rw [if_neg (by rw [hconnected]; decide)]
  refine (h.receive hA (by omega) w).bind ?_
  intro b w1 ⟨hb, hun⟩
  dsimp only
  by_cases hagain : errno = EAGAIN
  swap
  · rw [if_neg hagain]
    exact .pure ⟨b, .inl ⟨rfl, hb, hun, fun he => absurd he hagain⟩⟩
  rw [if_pos hagain]
  rw [← hun] at hcut
  have hready : Ready E b someKeys := hb.receiver.ready (by omega) rfl
  by_cases hpass : Passes E b.unread
  · obtain ⟨f, rfl, hf, hmode, hframe, hsize, htaken⟩ := complete_frame hE (by omega) hb hread (hcut hpass)
    refine (checkPacket_one hE hA (d := { d with bufIn := b }) hmutex hready hf hmode hframe hsize w1).bind ?_
    rintro _ w2 ⟨q, hq, rfl⟩
    exact .pure ⟨_, .inr ⟨f, q, rfl, hq, rfl, htaken⟩⟩
  · refine (checkPacket_none (d := { d with bufIn := b }) hmutex hready hpass w1).bind ?_
    rintro _ w2 rfl
    exact .pure ⟨b, .inl ⟨rfl, hb, hun, fun _ => hpass⟩⟩

end Server

namespace Client

variable (hE : E.littleEndian = true) (hA : E.AllocSucceeds) (hn : n < 2 ^ 30) {c : ExcomClient}
  (handler : Packet → ExcomClient → M ExcomClient)

include hE hA in
private theorem checkPacket_one (hc : Ready E c.bufIn someKeys) {f : Frame} (hf : f.Plain)
    (hmode : c.keys.remote.active = false ∨ f.packet.data = []) (hun : c.bufIn.unread = f.packet.frame E)
    (hsize : (f.packet.body E).length < 2 ^ 32) (w : World) :
    ∃ q w', ReadAs q f ∧ checkPacket E handler c w =
      handler q { c.advance c.bufIn.unread.length with packets := q :: c.packets } w' := by
  have hcomplete : Complete E c.bufIn.unread := by
    rw [hun]
    exact Packet.complete_frame hE hsize
  obtain ⟨w1, node, heq⟩ := checkPacket_pass handler hc hA hcomplete.passes.client w
  obtain ⟨_, w2, hrun, q, hq, rfl⟩ := readPlain_returns hE hA hc hf hun hsize hmode w1
  refine ⟨q, w2, hq, ?_⟩
  rw [heq, Exec.bind_of_ok hrun]
  rfl

include hE hA hn in
/-- A read event of the client only moves bytes, or gives the packet of the frame that is on its way to the
handler. -/
theorem read_channel {pieces : List Bytes} (h : Channel E n key out (pieces.flatten ++ rest) c.bufIn fs)
    (hread : Readable c.keys.remote.active fs) (hconnected : c.disconnected = false)
    (hcut : Client.Cut E (c.bufIn.unread ++ pieces.flatten)) (stop : ReadEnd) (w : World) :
    Exec.Returns (read E handler c pieces stop) w (fun c' _ => ∃ b, c' = { c with bufIn := b } ∧
        Channel E n key out rest b fs ∧ b.unread = c.bufIn.unread ++ pieces.flatten ∧
        (stop = .error EAGAIN → ¬ Client.Passes E b.unread)) ∨
      ∃ f q b w', fs = [f] ∧ ReadAs q f ∧ Channel E n key out rest b [] ∧
        read E handler c pieces stop w = handler q { c with bufIn := b, packets := q :: c.packets } w' := by
  have h32 := E.le_word
  obtain ⟨b, w1, happend, hb, hun⟩ := h.receive hA (by omega) w
  have heof : read E handler c pieces .eof w = (pure { c with bufIn := b } : M ExcomClient) w1 := by
    unfold read
    rw [if_neg (by rw [hconnected]; decide), Exec.bind_of_ok happend]
  have herror (errno : Int) : read E handler c pieces (.error errno) w =
      (if errno = EAGAIN then checkPacket E handler { c with bufIn := b } else pure { c with bufIn := b }) w1 := by
    unfold read
    rw [if_neg (by rw [hconnected]; decide), Exec.bind_of_ok happend]
  cases stop with
  | eof => exact .inl (.intro heof ⟨b, rfl, hb, hun, fun he => by cases he⟩)
  | error errno =>
    by_cases hagain : errno = EAGAIN
    swap
    · refine .inl (.intro ((herror errno).trans (by rw [if_neg hagain]; rfl)) ⟨b, rfl, hb, hun, fun he => ?_⟩)
      exact absurd (ReadEnd.error.inj he) hagain
    have hcheck := (herror errno).trans (by rw [if_pos hagain])
    rw [← hun] at hcut
    have hready : Ready E b someKeys := hb.receiver.ready (by omega) rfl
    by_cases hpass : Client.Passes E b.unread
    · right
      obtain ⟨f, rfl, hf, hmode, hframe, hsize, htaken⟩ := complete_frame hE (by omega) hb hread (hcut hpass)
      obtain ⟨q, w2, hq, hone⟩ := checkPacket_one hE hA (c := { c with bufIn := b }) handler hready hf
        hmode hframe hsize w1
      exact ⟨f, q, _, w2, rfl, hq, htaken, hcheck.trans hone⟩
    · left
      obtain ⟨_, w2, hwait, rfl⟩ := checkPacket_wait handler (c := { c with bufIn := b }) hready hpass w1
      exact .intro (hcheck.trans hwait) ⟨b, rfl, hb, hun, fun _ => hpass⟩

end Client

end Receivers

end Excom
