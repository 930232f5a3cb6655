import Excom.Pack
import Excom.Packet
import Excom.Encryption

/-!
# Reading and writing packets

`excom/protocol.c`.  The two expansions of the packet table, one that decodes and one that encodes a body,
become `readFields` and `writeFields` over the fields that the table lists for the packet's type.  A frame is
the header (the size of the body, the packet id and the type) followed by the body.
-/

namespace Excom

variable (E : Env)

/-- `if(enc && enc->remote.active)`: the keys to use, if the connection is encrypted by now. -/
def activeKeys (enc : Option Encrypt) : Option Encrypt := enc.filter fun e => e.remote.active

theorem activeKeys_none {keys : Encrypt} (h : keys.remote.active = false) : activeKeys (some keys) = none := by
  unfold activeKeys
  simp [Option.filter, h]

theorem activeKeys_some {keys : Encrypt} (h : keys.remote.active = true) :
    activeKeys (some keys) = some keys := by
  unfold activeKeys
  simp [Option.filter, h]

theorem activeKeys_eq {keys keys' : Encrypt} (h : activeKeys (some keys) = some keys') : keys = keys' := by
  unfold activeKeys at h
  exact Option.some.inj (Option.filter_eq_some_iff.1 h).1

/-! ### `excom_protocol_read_packet` -/

/-- `string(name)`: the cursor `cur` is a `uint32_t`, and the result of `excom_string_dupfill` is not looked
at. -/
def readString (buf : Buffer) (cur : UInt32) : M (Value × UInt32) := do
  let src ← load buf.buf (buf.pos + cur.toNat) 4
  let strSize := unpackUint32 E src
  let cur := cur + 4
  let (_, s) ← ExcomString.dupfill E .init strSize buf.buf (buf.pos + cur.toNat)
  return (.string s, cur + strSize)

/-- `number(uint8_t, name)` -/
def readNumber (buf : Buffer) (cur : UInt32) : M (Value × UInt32) := do
  let src ← load buf.buf (buf.pos + cur.toNat) 1
  return (.number (unpackUint8 src), cur + 1)

def readField (buf : Buffer) (cur : UInt32) : Field → M (Value × UInt32)
  | .string => readString E buf cur
  | .number => readNumber buf cur

/-- The body of a `case` of the decoding `switch`. -/
def readFields (buf : Buffer) (cur : UInt32) : List Field → M (List Value × UInt32)
  | [] => pure ([], cur)
  | f :: fs => do
    let (v, cur) ← readField E buf cur f
    let (vs, cur) ← readFields buf cur fs
    return (v :: vs, cur)

/-- The cases of the decoding `switch`.  A type that has no case parses nothing. -/
def readData (buf : Buffer) (type : UInt16) : M (List Value × UInt32) :=
  match packetType? type with
  | some t => readFields E buf 0 t.fields
  | none => pure ([], 0)

/-- The body of the frame goes into the temporary buffer, decrypted if the connection is encrypted.  The
results of the decryption and of the copy are not looked at. -/
def fetchBody (input : Buffer) (enc : Option Encrypt) (buf : Buffer) (size : UInt32) :
    M (Buffer × Option Encrypt × Buffer) :=
  match activeKeys enc with
  | some keys => do
    let (_, keys, input, buf) ← pdecryptBuffer2 E keys input buf size.toNat
    return (input, some keys, buf)
  | none => do
    let (_, buf) ← buf.bappendRemaining2 E input size.toNat
    return (input, enc, buf)

/-- The decoding `switch` and what follows it. -/
def parseBody (size : UInt32) (id type : UInt16) (input : Buffer) (enc : Option Encrypt) (buf : Buffer) :
    M (Int × Packet × Buffer × Option Encrypt) :=
  if type = packetInvalid then pure (1, ⟨size, id, type, []⟩, input, enc)
  else do
    let (data, cur) ← readData E buf type
    let _ ← buf.destroy
    return (0, ⟨size, id, type, data⟩, { input with pos := input.pos + cur.toNat }, enc)

/-- `excom_protocol_read_packet`: its return code, the packet, and what it did to `in` and `enc`. -/
def protocolReadPacket (input : Buffer) (enc : Option Encrypt) :
    M (Int × Packet × Buffer × Option Encrypt) := do
  let src ← load input.buf input.pos 4
  let size := unpackUint32 E src
  let src ← load input.buf (input.pos + 4) 2
  let id := unpackUint16 E src
  let src ← load input.buf (input.pos + 6) 2
  let type := unpackUint16 E src
  let input := { input with pos := input.pos + 8 }
  let (_, buf) ← Buffer.init E 32
  let (input, enc, buf) ← fetchBody E input enc buf size
  parseBody E size id type input enc buf

/-! ### `excom_protocol_write_packet` -/

/-- The array `buf[4]`; each use stores the bytes it reads. -/
def scratch : Bytes := [0, 0, 0, 0]

/-- `string(name)` and `number(uint8_t, name)`: the buffer, and the `uint32_t` that counts the bytes. -/
def writeField (buf : Buffer) (size : UInt32) : Value → M (Buffer × UInt32)
  | .string s => do
    let (_, buf) ← buf.cappend E (packUint32 E scratch s.size).2 4
    let (_, buf) ← buf.sappend E s.body s.size
    return (buf, size + (4 + s.size))
  | .number n => do
    let (k, raw) := packUint8 scratch n
    let (_, buf) ← buf.cappend E raw k
    return (buf, size + UInt32.ofNat k)

/-- The body of a `case` of the encoding `switch`. -/
def writeFields (buf : Buffer) (size : UInt32) : List Value → M (Buffer × UInt32)
  | [] => pure (buf, size)
  | v :: vs => do
    let (buf, size) ← writeField E buf size v
    writeFields buf size vs

/-- The cases of the encoding `switch`. -/
def writeData (buf : Buffer) (packet : Packet) : M (Buffer × UInt32) :=
  match packetType? packet.type with
  | some _ => writeFields E buf 0 packet.data
  | none => pure (buf, 0)

/-- The size of the body: that of its encryption, if the connection is encrypted. -/
def sealedSize (buf buf2 : Buffer) (size : UInt32) (enc : Option Encrypt) :
    M (UInt32 × Buffer × Option Encrypt) :=
  match activeKeys enc with
  | some keys => do
    let (_, keys, buf2) ← pencryptBuffer E keys buf buf2
    return (UInt32.ofNat buf2.used, buf2, some keys)
  | none => pure (size, buf2, enc)

/-- The header goes out. -/
def writeHeader (packet : Packet) (out : Buffer) : M Buffer := do
  let (_, out) ← out.cappend E (packUint32 E scratch packet.size).2 4
  let (_, out) ← out.cappend E (packUint16 E scratch packet.id).2 2
  let (_, out) ← out.cappend E (packUint16 E scratch packet.type).2 2
  return out

/-- The body goes out, encrypted (again) if the connection is encrypted. -/
def writeBody (buf out : Buffer) (enc : Option Encrypt) : M (Buffer × Option Encrypt) :=
  match activeKeys enc with
  | some keys => do
    let (_, keys, out) ← pencryptBuffer E keys buf out
    return (out, some keys)
  | none => do
    let (_, out) ← out.bappend E buf
    return (out, enc)

/-- `excom_protocol_write_packet`: its return code, and what it did to the packet, to `o` and to `enc`. -/
def protocolWritePacket (packet : Packet) (o : Buffer) (enc : Option Encrypt) :
    M (Int × Packet × Buffer × Option Encrypt) := do
  let (_, buf) ← Buffer.init E 32
  let (_, buf2) ← Buffer.init E 32
  if packet.type = packetInvalid then
    let _ ← buf.destroy
    return (1, packet, o, enc)
  else
    let (buf, size) ← writeData E buf packet
    let (size, buf2, enc) ← sealedSize E buf buf2 size enc
    let packet := { packet with size }
    let out ← writeHeader E packet o
    let (out, enc) ← writeBody E buf out enc
    let _ ← buf.destroy
    let _ ← buf2.destroy
    return (0, packet, out, enc)

/-! ### `excom_protocol_write` -/

/-- `excom_protocol_write`, where `write` fails or takes bytes as for `Buffer.write`: also what it did to the packet
and to `enc`, and the bytes that the socket took. -/
def protocolWrite (packet : Packet) (enc : Option Encrypt) (outcome : Except Int Nat) :
    M (Int × Packet × Option Encrypt × Bytes) := do
  let (err, buffer) ← Buffer.init E 32
  if err ≠ 0 then return (err, packet, enc, [])
  else
    let (err, packet, buffer, enc) ← protocolWritePacket E packet buffer enc
    if err ≠ 0 then return (err, packet, enc, [])
    else
      let (err, buffer, sent) ← buffer.write E outcome
      if err ≠ 0 then return (err, packet, enc, sent)
      else
        let _ ← buffer.destroy
        return (err, packet, enc, sent)

end Excom
