import Excom.Memory

/-!
# Strings and packets

`excom_string_t`, the packet table of `packets.def` and `excom_packet_t`.  The table gives for each known packet
type its id and the fields of its body; the union member of a packet is the list of the values of these fields.
What a packet says, apart from where its strings lie in memory, is its `Packet.message`.
-/

namespace Excom

/-! ### Strings -/

structure ExcomString where
  size : UInt32
  body : Option Block
  freeable : Bool
  deriving DecidableEq, Repr

/-- `excom_string_init` -/
def ExcomString.init : ExcomString := ⟨0, none, false⟩

/-- `excom_string_fill` on a string that was just initialized. -/
def ExcomString.fill (size : UInt32) (body : Option Block) : ExcomString := { ExcomString.init with size, body }

/-- `excom_string_dupfill` of the bytes at `off` of the block `p`. -/
def ExcomString.dupfill (E : Env) (string : ExcomString) (size : UInt32) (p : Option Block) (off : Nat) :
    M (Int × ExcomString) :=
  if size = 0 then pure (0, ⟨0, none, false⟩)
  else do
    -- the sum is a `uint32_t`
    let buf ← malloc E (size + 1).toNat
    match buf with
    | none => return (1, string)
    | some _ => do
      let bytes ← load p off size.toNat
      let buf ← store buf 0 bytes
      let buf ← store buf size.toNat [0]
      return (0, ⟨size, buf, true⟩)

/-- The bytes of a string. -/
def ExcomString.bytes (s : ExcomString) : Bytes := (blockBytes s.body).take s.size.toNat

/-- The string has as many bytes as it says. -/
def ExcomString.Valid (s : ExcomString) : Prop := s.size.toNat ≤ (blockBytes s.body).length

/-- A valid string has as many bytes as it says. -/
theorem ExcomString.Valid.length_bytes {s : ExcomString} (h : s.Valid) : s.bytes.length = s.size.toNat := by
  rw [bytes, List.length_take]; exact Nat.min_eq_left h

/-! ### The packet table -/

/-- A field of a packet body: `string(name)` or `number(uint8_t, name)`. -/
inductive Field where
  | string
  | number
  deriving DecidableEq, Repr

/-- The packet types of `packets.def`. -/
inductive PacketType where
  | ok
  | reject
  | error
  | protocolVersion
  | ping
  | pong
  | publicKey
  | command
  | commandResponse
  deriving DecidableEq, Repr

namespace PacketType

def all : List PacketType :=
  [ok, reject, error, protocolVersion, ping, pong, publicKey, command, commandResponse]

/-- The id of the type. -/
def id : PacketType → UInt16
  | ok => 0x01
  | reject => 0x02
  | error => 0x03
  | protocolVersion => 0x04
  | ping => 0x05
  | pong => 0x06
  | publicKey => 0x07
  | command => 0x10
  | commandResponse => 0x11

/-- The fields of the body, in order. -/
def fields : PacketType → List Field
  | ok => []
  | reject => [.number]
  | error => [.number]
  | protocolVersion => [.string, .number, .number, .number]
  | ping => []
  | pong => []
  | publicKey => [.string]
  | command => [.string]
  | commandResponse => [.string]

end PacketType

/-- `EXCOM_PROTOCOL_PACKET_INVALID` -/
def packetInvalid : UInt16 := 0

/-- The case of a `switch` over the packet types that `type` selects. -/
def packetType? (type : UInt16) : Option PacketType := PacketType.all.find? fun t => t.id == type

/-- The `switch` finds every type by its id. -/
theorem packetType?_id (t : PacketType) : packetType? t.id = some t := by
  cases t <;> decide

theorem packetType?_invalid : packetType? packetInvalid = none := by decide

theorem ne_packetInvalid {type : UInt16} {t : PacketType} (h : packetType? type = some t) :
    type ≠ packetInvalid := by
  rintro rfl
  rw [packetType?_invalid] at h
  cases h

/-- The ids are small: the first of their two bytes on the wire is zero, the second is not. -/
theorem PacketType.id_bounds (t : PacketType) : 0 < t.id.toNat ∧ t.id.toNat < 256 := by
  cases t <;> decide

/-- A body is a few numbers, at most one string before them. -/
theorem PacketType.fields_shape (t : PacketType) :
    ∃ k, k ≤ 3 ∧ (t.fields = List.replicate k .number ∨ t.fields = .string :: List.replicate k .number) := by
  cases t
  case ok | ping | pong => exact ⟨0, by decide, Or.inl rfl⟩
  case reject | error => exact ⟨1, by decide, Or.inl rfl⟩
  case protocolVersion => exact ⟨3, by decide, Or.inr rfl⟩
  case publicKey | command | commandResponse => exact ⟨0, by decide, Or.inr rfl⟩

/-! ### Packets -/

/-- The value of a field. -/
inductive Value where
  | string (s : ExcomString)
  | number (n : UInt8)
  deriving DecidableEq, Repr

/-- The value of a field without its place in memory. -/
inductive Content where
  | string (bytes : Bytes)
  | number (n : UInt8)
  deriving DecidableEq, Repr

def Value.field : Value → Field
  | string _ => .string
  | number _ => .number

def Value.content : Value → Content
  | string s => .string s.bytes
  | number n => .number n

def Content.field : Content → Field
  | string _ => .string
  | number _ => .number

@[simp] theorem Value.field_content (v : Value) : v.content.field = v.field := by cases v <;> rfl

/-- `excom_packet_t`: `data` holds the values of the union member that `type` selects. -/
structure Packet where
  size : UInt32
  id : UInt16
  type : UInt16
  data : List Value
  deriving DecidableEq, Repr

/-- What a packet says. -/
structure Message where
  id : UInt16
  type : UInt16
  fields : List Content
  deriving DecidableEq, Repr

def Packet.message (p : Packet) : Message := ⟨p.id, p.type, p.data.map Value.content⟩

/-- A packet of a known type, with a value for each field of its body. -/
structure Packet.Known (p : Packet) (t : PacketType) : Prop where
  type : p.type = t.id
  data : p.data.map Value.field = t.fields
  valid : ∀ s, Value.string s ∈ p.data → s.Valid

theorem Packet.Known.type_ne {p : Packet} {t : PacketType} (h : p.Known t) : p.type ≠ packetInvalid :=
  ne_packetInvalid (t := t) (by rw [h.type, packetType?_id])

end Excom
