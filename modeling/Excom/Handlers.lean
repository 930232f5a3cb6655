import Excom.Client

/-!
# The default packet handlers

`handle_packets.ci` of the server and of the client, with the dispatch of the server's `worker` and of the
client's `default_handler`, and the packet with which a client opens the conversation.  What is printed is
left out.
-/

namespace Excom

/-- `excom_reject_reason_t` -/
inductive RejectReason where
  | standardError
  | invalidProtocolError
  deriving DecidableEq, Repr

/-- `excom_error_reason_t` -/
inductive ErrorReason where
  | standardError
  | improperPermissionsError
  | invalidError
  | notAvailableError
  | publicKeyError
  deriving DecidableEq, Repr

def RejectReason.code : RejectReason → UInt8
  | standardError => 0
  | invalidProtocolError => 1

def ErrorReason.code : ErrorReason → UInt8
  | standardError => 0
  | improperPermissionsError => 1
  | invalidError => 2
  | notAvailableError => 3
  | publicKeyError => 4

/-- `EXCOM_VERSION`, with the zero at its end -/
def excomVersion : Bytes := [0x30, 0x2e, 0x30, 0x2e, 0x31, 0]

def excomVersionMajor : Nat := 0
def excomVersionMinor : Nat := 0
def excomVersionPatch : Nat := 1

/-- `"hello world"` -/
def helloWorld : Bytes := [0x68, 0x65, 0x6c, 0x6c, 0x6f, 0x20, 0x77, 0x6f, 0x72, 0x6c, 0x64]

/-! ### Fields of a packet -/

/-- The `i`-th field of the union member, read as a string. -/
def Packet.stringAt (p : Packet) (i : Nat) : ExcomString :=
  match p.data[i]? with
  | some (.string s) => s
  | _ => .init

/-- The `i`-th field of the union member, read as a number. -/
def Packet.numberAt (p : Packet) (i : Nat) : UInt8 :=
  match p.data[i]? with
  | some (.number n) => n
  | _ => 0

/-- Packets that say the same have the same numbers, and strings with the same bytes. -/
theorem Packet.numberAt_eq {p q : Packet} (h : p.data.map Value.content = q.data.map Value.content) (i : Nat) :
    p.numberAt i = q.numberAt i := by
  have hi := congrArg (fun l => l[i]?) h
  simp only [List.getElem?_map] at hi
  unfold Packet.numberAt
  generalize p.data[i]? = v at hi ⊢
  generalize q.data[i]? = u at hi ⊢
  rcases v with _ | (_ | _) <;> rcases u with _ | (_ | _) <;> simp_all [Value.content]

/-- The bytes of a string depend only on the contents of the packet. -/
theorem Packet.stringAt_bytes {p q : Packet} (h : p.data.map Value.content = q.data.map Value.content)
    (i : Nat) : (p.stringAt i).bytes = (q.stringAt i).bytes := by
  have hi := congrArg (fun l => l[i]?) h
  simp only [List.getElem?_map] at hi
  unfold Packet.stringAt
  generalize p.data[i]? = v at hi ⊢
  generalize q.data[i]? = u at hi ⊢
  rcases v with _ | (_ | _) <;> rcases u with _ | (_ | _) <;> simp_all [Value.content]

theorem Packet.stringAt_valid {p : Packet} (h : ∀ s, Value.string s ∈ p.data → s.Valid) (i : Nat) :
    (p.stringAt i).Valid := by
  unfold Packet.stringAt
  split
  · rename_i s hs
    exact h s (List.mem_of_getElem? hs)
  · exact Nat.le_refl _

/-- A string over bytes that are not on the heap: no `malloc` made their block, and its number is never looked
at. -/
def ExcomString.ofBytes (bs : Bytes) : ExcomString := .fill (UInt32.ofNat bs.length) (some ⟨0, bs⟩)

theorem ExcomString.ofBytes_valid {bs : Bytes} (h : bs.length < 2 ^ 32) : (ofBytes bs).Valid := by
  have hlen : (UInt32.ofNat bs.length).toNat = bs.length := by
    rw [UInt32.toNat_ofNat', Nat.mod_eq_of_lt h]
  exact Nat.le_of_eq hlen

theorem ExcomString.bytes_ofBytes {bs : Bytes} (h : bs.length < 2 ^ 32) : (ofBytes bs).bytes = bs := by
  show bs.take (UInt32.ofNat bs.length).toNat = bs
  rw [UInt32.toNat_ofNat', Nat.mod_eq_of_lt h, List.take_length]

/-- `excom_string_inspect`: the bytes that it prints. -/
def ExcomString.inspect (s : ExcomString) : M Bytes := load s.body 0 s.size.toNat

variable (E : Env)

/-- The macro `send`: the packet goes to the output buffer under the id of the packet that is handled. -/
def sendPacket (raw : Packet) (t : PacketType) (data : List Value) (out : Buffer) (keys : Encrypt) :
    M (Buffer × Encrypt) := do
  let (_, _, out, enc) ← protocolWritePacket E ⟨0, raw.id, t.id, data⟩ out (some keys)
  return (out, enc.getD keys)

/-- `keys.remote.active = true` -/
def Encrypt.activate (keys : Encrypt) : Encrypt := { keys with remote := { keys.remote with active := true } }

/-! ### The server -/

namespace Server

def send (d : ClientData) (raw : Packet) (t : PacketType) (data : List Value) : M ClientData := do
  let (bufOut, keys) ← sendPacket E raw t data d.bufOut d.keys
  return { d with bufOut, keys }

def error (d : ClientData) (raw : Packet) (reason : ErrorReason) : M ClientData :=
  send E d raw .error [.number reason.code]

def reject (d : ClientData) (raw : Packet) (reason : RejectReason) : M ClientData :=
  send E d raw .reject [.number reason.code]

/-- The macro `require`, and the rest of the handler. -/
def require (d : ClientData) (raw : Packet) (level : ProtocolState) (rest : M ClientData) : M ClientData :=
  if d.state ≠ level then error E d raw .notAvailableError else rest

/-- `handle(public_key)` -/
def handlePublicKey (d : ClientData) (raw : Packet) : M ClientData :=
  require E d raw .preencrypt
    (if (raw.stringAt 0).size.toNat ≠ cryptoBoxPublicKeyBytes then error E d raw .publicKeyError
    else do
      -- `memcpy` copies into the packet: its first argument is the destination
      let _ ← store (raw.stringAt 0).body 0 d.keys.remote.pkey.toList
      let d ← send E d raw .publicKey [.string (.ofBytes d.keys.localPair.pkey.toList)]
      return { d with keys := d.keys.activate, state := .encrypt })

/-- The version of a client that the server does not talk to. -/
def Incompatible (raw : Packet) : Prop :=
  (raw.numberAt 1).toNat ≠ excomVersionMajor ∨
    3 < (((raw.numberAt 2).toNat : Int) - excomVersionMinor).natAbs ∨
    10 < (((raw.numberAt 3).toNat : Int) - excomVersionPatch).natAbs

instance (raw : Packet) : Decidable (Incompatible raw) := inferInstanceAs (Decidable (_ ∨ _ ∨ _))

/-- `handle(protocol_version)` -/
def handleProtocolVersion (d : ClientData) (raw : Packet) : M ClientData :=
  require E d raw .prehandshake
    (if Incompatible raw then reject E d raw .invalidProtocolError
    else send E { d with state := .preencrypt } raw .ok [])

/-- `handle(ping)` -/
def handlePing (d : ClientData) (raw : Packet) : M ClientData := do
  let d ← send E d raw .pong []
  return if d.state = .encrypt then { d with state := .body } else d

/-- `handle(command)` -/
def handleCommand (d : ClientData) (raw : Packet) : M ClientData :=
  require E d raw .body do
    let _ ← (raw.stringAt 0).inspect
    return d

/-- `handle(command_response)` -/
def handleCommandResponse (d : ClientData) (raw : Packet) : M ClientData :=
  require E d raw .body (pure d)

/-- The `switch` in `worker`.  The handlers of `ok`, `reject`, `error` and `pong` do nothing. -/
def handlePacket (d : ClientData) (raw : Packet) : M ClientData :=
  match packetType? raw.type with
  | some .ok | some .reject | some .error | some .pong => pure d
  | some .protocolVersion => handleProtocolVersion E d raw
  | some .ping => handlePing E d raw
  | some .publicKey => handlePublicKey E d raw
  | some .command => handleCommand E d raw
  | some .commandResponse => handleCommandResponse E d raw
  | none => pure d

/-- One turn of the inner loop of `worker`: the first packet is taken off the queue and handled. -/
def work (d : ClientData) : M ClientData :=
  match d.packets with
  | [] => pure d
  | packet :: packets => handlePacket E { d with packets } packet

/-- `excom_server_client_write`, as far as the output buffer is concerned. -/
def write (d : ClientData) (outcome : Except Int Nat) : M (ClientData × Bytes) :=
  if d.disconnected then pure (d, [])
  else do
    let (_, bufOut, bytes) ← d.bufOut.write E outcome
    return ({ d with bufOut }, bytes)

end Server

/-! ### The client -/

namespace Client

def send (c : ExcomClient) (raw : Packet) (t : PacketType) (data : List Value) : M ExcomClient := do
  let (bufOut, keys) ← sendPacket E raw t data c.bufOut c.keys
  return { c with bufOut, keys }

def error (c : ExcomClient) (raw : Packet) (reason : ErrorReason) : M ExcomClient :=
  send E c raw .error [.number reason.code]

/-- The macro `require`, and the rest of the handler. -/
def require (c : ExcomClient) (raw : Packet) (level : ProtocolState) (rest : M ExcomClient) : M ExcomClient :=
  if c.state ≠ level then error E c raw .notAvailableError else rest

/-- `handle(ok)` -/
def handleOk (c : ExcomClient) (raw : Packet) : M ExcomClient :=
  if c.state = .prehandshake then
    send E { c with state := .preencrypt } raw .publicKey [.string (.ofBytes c.enc.pkey.toList)]
  else pure c

/-- `handle(public_key)` -/
def handlePublicKey (c : ExcomClient) (raw : Packet) : M ExcomClient :=
  require E c raw .preencrypt
    (if (raw.stringAt 0).size.toNat ≠ cryptoBoxPublicKeyBytes then error E c raw .publicKeyError
    else do
      -- `memcpy` copies into the packet: its first argument is the destination
      let _ ← store (raw.stringAt 0).body 0 c.keys.remote.pkey.toList
      send E { c with keys := c.keys.activate, state := .encrypt } raw .ping [])

/-- `handle(protocol_version)` -/
def handleProtocolVersion (c : ExcomClient) (raw : Packet) : M ExcomClient := error E c raw .invalidError

/-- `handle(pong)` -/
def handlePong (c : ExcomClient) (raw : Packet) : M ExcomClient :=
  if c.state = .encrypt then
    send E { c with state := .body } raw .command [.string (.ofBytes helloWorld)]
  else pure c

/-- `default_handler`.  The handlers of `reject`, `error`, `ping`, `command` and `command_response` do
nothing. -/
def defaultHandler (raw : Packet) (c : ExcomClient) : M ExcomClient :=
  match packetType? raw.type with
  | some .reject | some .error | some .ping | some .command | some .commandResponse => pure c
  | some .ok => handleOk E c raw
  | some .protocolVersion => handleProtocolVersion E c raw
  | some .pong => handlePong E c raw
  | some .publicKey => handlePublicKey E c raw
  | none => pure c

/-- The packet with which a client begins. -/
def version : Packet :=
  ⟨0, 1, PacketType.protocolVersion.id,
    [.string (.ofBytes excomVersion), .number (UInt8.ofNat excomVersionMajor),
      .number (UInt8.ofNat excomVersionMinor), .number (UInt8.ofNat excomVersionPatch)]⟩

/-- `clwrite`, as far as the output buffer is concerned. -/
def write (c : ExcomClient) (outcome : Except Int Nat) : M (ExcomClient × Bytes) := do
  let (_, bufOut, bytes) ← c.bufOut.write E outcome
  return ({ c with bufOut }, bytes)

/-- The end of `excom_client_connect`: the version is written, and sent as far as the socket takes it. -/
def greet (c : ExcomClient) (outcome : Except Int Nat) : M (ExcomClient × Bytes) := do
  let (_, _, bufOut, enc) ← protocolWritePacket E version c.bufOut (some c.keys)
  write E { c with bufOut, keys := enc.getD c.keys } outcome

end Client

end Excom
