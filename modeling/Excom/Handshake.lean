import Excom.Keys

/-!
# What the handlers do with a packet

The handlers of both sides, without their buffers: whether a packet is answered and with which packet, to
which state the connection moves, and whether encryption is switched on (`Reaction`).  The server answers
before it switches, the client afterwards.  `Server.handlePacket_eq` and `Client.defaultHandler_eq` relate
this to the handlers.
-/

namespace Excom

structure Reaction where
  /-- `memcpy` of `remote.pkey` into the packet -/
  copies : Bool
  /-- The body of a command is printed. -/
  inspects : Bool
  reply : Option Packet
  state : ProtocolState
  /-- `remote.active = true` -/
  activates : Bool

namespace Reaction

/-- Nothing happens. -/
def quiet (state : ProtocolState) : Reaction :=
  { copies := false, inspects := false, reply := none, state, activates := false }

/-- The macro `send` -/
def answer (raw : Packet) (t : PacketType) (data : List Value) (state : ProtocolState) : Reaction :=
  { quiet state with reply := some ⟨0, raw.id, t.id, data⟩ }

def error (raw : Packet) (reason : ErrorReason) (state : ProtocolState) : Reaction :=
  answer raw .error [.number reason.code] state

/-- The macro `require`, and the rest of the handler. -/
def require (raw : Packet) (state level : ProtocolState) (rest : Reaction) : Reaction :=
  if state ≠ level then error raw .notAvailableError state else rest

end Reaction

/-- The reply is written to the output buffer. -/
def writeReply (E : Env) (reply : Option Packet) (out : Buffer) (keys : Encrypt) : M (Buffer × Encrypt) :=
  match reply with
  | none => pure (out, keys)
  | some packet => do
    let (_, _, out, enc) ← protocolWritePacket E packet out (some keys)
    return (out, enc.getD keys)

/-- What is done with the body of the packet: it is overwritten with `remote.pkey`, or printed. -/
def touchBody (raw : Packet) (keys : Encrypt) (r : Reaction) : M Unit :=
  if r.copies then do
    let _ ← store (raw.stringAt 0).body 0 keys.remote.pkey.toList
  else if r.inspects then do
    let _ ← (raw.stringAt 0).inspect
  else pure ()

/-- A reply leaves it to the handler whether encryption is switched on. -/
theorem writeReply_active (E : Env) (reply : Option Packet) (out : Buffer) (keys : Encrypt) (w : World) :
    Exec.Ensures (writeReply E reply out keys) w fun r _ => r.2.remote.active = keys.remote.active := by
  have hprep (k : Encrypt) (hk : k.remote.active = keys.remote.active) :
      (k.prep E).remote.active = keys.remote.active := by
    unfold Encrypt.prep
    split <;> exact hk
  unfold writeReply
  split
  · exact .pure rfl
  · rename_i packet
    refine (writePacket_keys hprep rfl packet out w).bind ?_
    intro ⟨_, _, out', enc⟩ w1 ⟨keys', he, hactive⟩
    subst he
    exact .pure hactive

/-- The packet with the public key of a side. -/
def publicKeyField (own : Key) : List Value := [.string (.ofBytes own.toList)]

namespace Server

/-- The reaction of a connection in the given state, with the public key of the server. -/
def react (state : ProtocolState) (own : Key) (raw : Packet) : Reaction :=
  match packetType? raw.type with
  | some .ok | some .reject | some .error | some .pong => .quiet state
  | some .protocolVersion =>
    .require raw state .prehandshake
      (if Incompatible raw then .answer raw .reject [.number RejectReason.invalidProtocolError.code] state
      else .answer raw .ok [] .preencrypt)
  | some .ping => .answer raw .pong [] (if state = .encrypt then .body else state)
  | some .publicKey =>
    .require raw state .preencrypt
      (if (raw.stringAt 0).size.toNat ≠ cryptoBoxPublicKeyBytes then .error raw .publicKeyError state
      else { Reaction.answer raw .publicKey (publicKeyField own) .encrypt with
        copies := true, activates := true })
  | some .command => .require raw state .body { Reaction.quiet state with inspects := true }
  | some .commandResponse => .require raw state .body (.quiet state)
  | none => .quiet state

/-- The server answers, and moves on. -/
def perform (E : Env) (d : ClientData) (raw : Packet) (r : Reaction) : M ClientData := do
  touchBody raw d.keys r
  let (bufOut, keys) ← writeReply E r.reply d.bufOut d.keys
  return { d with bufOut, keys := if r.activates then keys.activate else keys, state := r.state }

/-- The handler leaves the connection in the state of its reaction, encrypted if that switches encryption on. -/
theorem perform_ensures (E : Env) (d : ClientData) (raw : Packet) (r : Reaction) (w : World) :
    Exec.Ensures (perform E d raw r) w fun d' _ =>
      d'.state = r.state ∧ d'.keys.remote.active = (r.activates || d.keys.remote.active) := by
  unfold perform
  refine .seq fun _ w1 => (writeReply_active E r.reply d.bufOut d.keys w1).bind ?_
  intro ⟨bufOut, keys⟩ w2 hactive
  refine .pure ⟨rfl, ?_⟩
  cases r.activates with
  | true => rfl
  | false => exact hactive

private theorem require_eq {E : Env} {d : ClientData} {raw : Packet} {level : ProtocolState}
    {rest : M ClientData} {r : Reaction} (h : rest = perform E d raw r) :
    require E d raw level rest = perform E d raw (.require raw d.state level r) := by
  unfold require Reaction.require
  split
  · rfl
  · exact h

/-- The handlers of the server do what the reaction says, for every packet and in every state. -/
theorem handlePacket_eq (E : Env) (d : ClientData) (raw : Packet) :
    handlePacket E d raw = perform E d raw (react d.state d.keys.localPair.pkey raw) := by
  unfold handlePacket react
  rcases htype : packetType? raw.type with _ | t
  · rfl
  cases t with
  | ok | reject | error | pong => rfl
  | protocolVersion =>
    refine require_eq ?_
    split <;> rfl
  | ping =>
    show handlePing E d raw = _
    unfold handlePing send
    rw [Exec.bind_assoc]
    refine congrArg _ (funext fun r => ?_)
    show (pure (if d.state = .encrypt then _ else _) : M ClientData) = pure _
    split <;> rfl
  | publicKey =>
    refine require_eq ?_
    split
    · rfl
    · unfold perform touchBody
      rw [if_pos rfl]
      unfold send
      simp only [Exec.bind_assoc]
      rfl
  | command =>
    refine require_eq ?_
    unfold perform touchBody
    rw [if_neg (by simp [Reaction.quiet]), if_pos rfl]
    simp only [Exec.bind_assoc]
    rfl
  | commandResponse => exact require_eq rfl

end Server

namespace Client

/-- The reaction of a client in the given state, with its public key. -/
def react (state : ProtocolState) (own : Key) (raw : Packet) : Reaction :=
  match packetType? raw.type with
  | some .reject | some .error | some .ping | some .command | some .commandResponse => .quiet state
  | some .ok =>
    if state = .prehandshake then .answer raw .publicKey (publicKeyField own) .preencrypt else .quiet state
  | some .protocolVersion => .error raw .invalidError state
  | some .pong =>
    if state = .encrypt then .answer raw .command [.string (.ofBytes helloWorld)] .body else .quiet state
  | some .publicKey =>
    .require raw state .preencrypt
      (if (raw.stringAt 0).size.toNat ≠ cryptoBoxPublicKeyBytes then .error raw .publicKeyError state
      else { Reaction.answer raw .ping [] .encrypt with copies := true, activates := true })
  | none => .quiet state

/-- The client moves on, and answers. -/
def perform (E : Env) (c : ExcomClient) (raw : Packet) (r : Reaction) : M ExcomClient := do
  touchBody raw c.keys r
  let (bufOut, keys) ← writeReply E r.reply c.bufOut (if r.activates then c.keys.activate else c.keys)
  return { c with bufOut, keys, state := r.state }

theorem perform_ensures (E : Env) (c : ExcomClient) (raw : Packet) (r : Reaction) (w : World) :
    Exec.Ensures (perform E c raw r) w fun c' _ =>
      c'.state = r.state ∧ c'.keys.remote.active = (r.activates || c.keys.remote.active) := by
  unfold perform
  refine .seq fun _ w1 => (writeReply_active E r.reply c.bufOut _ w1).bind ?_
  intro ⟨bufOut, keys⟩ w2 hactive
  refine .pure ⟨rfl, ?_⟩
  rw [hactive]
  cases r.activates <;> rfl

private theorem require_eq {E : Env} {c : ExcomClient} {raw : Packet} {level : ProtocolState}
    {rest : M ExcomClient} {r : Reaction} (h : rest = perform E c raw r) :
    require E c raw level rest = perform E c raw (.require raw c.state level r) := by
  unfold require Reaction.require
  split
  · rfl
  · exact h

/-- The handlers of the client do what the reaction says, for every packet and in every state. -/
theorem defaultHandler_eq (E : Env) (c : ExcomClient) (raw : Packet) :
    defaultHandler E raw c = perform E c raw (react c.state c.enc.pkey raw) := by
  unfold defaultHandler react
  rcases htype : packetType? raw.type with _ | t
  · rfl
  cases t with
  | reject | error | ping | command | commandResponse => rfl
  | protocolVersion => rfl
  | ok =>
    show handleOk E c raw = _
    unfold handleOk
    dsimp only
    split <;> rfl
  | pong =>
    show handlePong E c raw = _
    unfold handlePong
    dsimp only
    split <;> rfl
  | publicKey =>
    refine require_eq ?_
    split
    · rfl
    · unfold perform touchBody
      rw [if_pos rfl]
      simp only [Exec.bind_assoc]
      rfl

/-- The default handler leaves the input buffer and the list of packets alone. -/
theorem defaultHandler_keeps (E : Env) (raw : Packet) (c : ExcomClient) (w : World) :
    Exec.Ensures (defaultHandler E raw c) w fun c' _ => c'.bufIn = c.bufIn ∧ c'.packets = c.packets := by
  rw [defaultHandler_eq]
  unfold perform
  exact .seq fun _ w1 => .seq fun _ w2 => .pure ⟨rfl, rfl⟩

end Client

end Excom
