import Excom.Pack
import Excom.Packet

/-!
# The format of frames

The format that packets have on the wire, as a relation between bytes and contents (`Body`) and as a function
from contents to bytes (`encodeBody`, `Packet.frame`).  On a little-endian host the bytes of the function are
in the relation.  The header of a frame is read off by `frameSize`, `frameId` and `frameType`.
-/

namespace Excom

variable (E : Env)

/-! ### Bodies -/

/-- The bytes are the values of the given fields, one after the other: a string is its length in four bytes and
then that many bytes, a number is one byte. -/
inductive Body : List Field → Bytes → List Content → Prop where
  | nil : Body [] [] []
  | string {fs : List Field} {len s bs : Bytes} {cs : List Content} (hlen : len.length = 4)
      (hsize : (unpackUint32 E len).toNat = s.length) (rest : Body fs bs cs) :
      Body (.string :: fs) (len ++ s ++ bs) (.string s :: cs)
  | number {fs : List Field} {n : UInt8} {bs : Bytes} {cs : List Content} (rest : Body fs bs cs) :
      Body (.number :: fs) (n :: bs) (.number n :: cs)

/-- The bytes of a value. -/
def Content.encode : Content → Bytes
  | .string s => wire32 E (UInt32.ofNat s.length) ++ s
  | .number n => [n]

def encodeBody (cs : List Content) : Bytes := cs.flatMap (Content.encode E)

/-- The body of a packet. -/
def Packet.body (p : Packet) : Bytes := encodeBody E (p.data.map Value.content)

/-- The bytes of a packet: the size of the body, the id, the type and the body. -/
def Packet.frame (p : Packet) : Bytes :=
  wire32 E (UInt32.ofNat (p.body E).length) ++ wire16 E p.id ++ wire16 E p.type ++ p.body E

/-! ### Headers -/

def frameSize (bs : Bytes) : UInt32 := unpackUint32 E (bs.take 4)

def frameId (bs : Bytes) : UInt16 := unpackUint16 E ((bs.drop 4).take 2)

def frameType (bs : Bytes) : UInt16 := unpackUint16 E ((bs.drop 6).take 2)

def frameBody (bs : Bytes) : Bytes := (bs.drop 8).take (frameSize E bs).toNat

/-- The bytes begin with a complete frame. -/
def Complete (bs : Bytes) : Prop := 8 + (frameSize E bs).toNat ≤ bs.length

instance (bs : Bytes) : Decidable (Complete E bs) := inferInstanceAs (Decidable (_ ≤ _))

variable {E}

@[simp] theorem encodeBody_nil : encodeBody E [] = [] := rfl

@[simp] theorem encodeBody_cons (c : Content) (cs : List Content) :
    encodeBody E (c :: cs) = c.encode E ++ encodeBody E cs := rfl

/-- A frame is a header of eight bytes and the body. -/
theorem Packet.length_frame (p : Packet) : (p.frame E).length = 8 + (p.body E).length := by
  simp only [Packet.frame, List.length_append, length_wire32, length_wire16]

/-- What is encoded on a little-endian host has the format. -/
theorem body_encodeBody (hE : E.littleEndian = true) {cs : List Content}
    (hs : ∀ s, Content.string s ∈ cs → s.length < 2 ^ 32) :
    Body E (cs.map Content.field) (encodeBody E cs) cs := by
  induction cs with
  | nil => exact .nil
  | cons c cs ih =>
    have ih := ih fun s h => hs s (List.mem_cons_of_mem _ h)
    cases c with
    | string s =>
      refine .string (length_wire32 _) ?_ ih
      rw [unpackUint32_wire32 hE, UInt32.toNat_ofNat', Nat.mod_eq_of_lt (hs s (List.mem_cons_self ..))]
    | number n => exact .number ih

theorem Packet.Known.field_content {p : Packet} {t : PacketType} (h : p.Known t) :
    (p.data.map Value.content).map Content.field = t.fields := by
  simp only [List.map_map, ← h.data, Function.comp_def, Value.field_content]

/-- The body of a packet of a known type is the fields of that type. -/
theorem Packet.Known.body_body {p : Packet} {t : PacketType} (h : p.Known t) (hE : E.littleEndian = true) :
    Body E t.fields (p.body E) (p.data.map Value.content) := by
  have hb : ∀ s, Content.string s ∈ p.data.map Value.content → s.length < 2 ^ 32 := by
    intro s hs
    obtain ⟨v, hv, he⟩ := List.mem_map.1 hs
    cases v with
    | number n => cases he
    | string e =>
      cases he
      rw [(h.valid e hv).length_bytes]
      exact e.size.toNat_lt
  have := body_encodeBody hE hb
  rwa [h.field_content] at this

/-- A body has a value for each field of the type. -/
theorem Body.fields {fs : List Field} {bs : Bytes} {cs : List Content} (h : Body E fs bs cs) :
    cs.map Content.field = fs := by
  induction h with
  | nil => rfl
  | string _ _ _ ih => exact congrArg (Field.string :: ·) ih
  | number _ ih => exact congrArg (Field.number :: ·) ih

/-- Any bytes are numbers. -/
theorem body_replicate {k : Nat} {bs : Bytes} (h : bs.length = k) :
    ∃ cs, Body E (List.replicate k .number) bs cs := by
  induction bs generalizing k with
  | nil => subst h; exact ⟨[], .nil⟩
  | cons n bs ih =>
    subst h
    obtain ⟨cs, hcs⟩ := ih rfl
    exact ⟨.number n :: cs, .number hcs⟩

/-! ### Reading a header -/

private theorem take_drop_append {xs ys : Bytes} {i n : Nat} (h : i + n ≤ xs.length) :
    ((xs ++ ys).drop i).take n = (xs.drop i).take n := by
  rw [List.drop_append_of_le_length (by omega), List.take_append_of_le_length (by rw [List.length_drop]; omega)]

/-- The header depends on the first eight bytes only. -/
theorem frameSize_append {xs : Bytes} (h : 4 ≤ xs.length) (ys : Bytes) :
    frameSize E (xs ++ ys) = frameSize E xs := by
  unfold frameSize; rw [List.take_append_of_le_length h]

/-- Bytes behind the header do not change the type. -/
theorem frameType_append {xs : Bytes} (h : 8 ≤ xs.length) (ys : Bytes) :
    frameType E (xs ++ ys) = frameType E xs := by
  unfold frameType; rw [take_drop_append (by omega)]

theorem frameId_append {xs : Bytes} (h : 8 ≤ xs.length) (ys : Bytes) : frameId E (xs ++ ys) = frameId E xs := by
  unfold frameId; rw [take_drop_append (by omega)]

/-- Bytes behind a frame do not change its body. -/
theorem frameBody_append {xs : Bytes} (h : Complete E xs) (ys : Bytes) :
    frameBody E (xs ++ ys) = frameBody E xs := by
  unfold Complete at h
  unfold frameBody
  rw [frameSize_append (by omega), take_drop_append h]

/-- A frame that is complete stays so when further bytes come. -/
theorem Complete.append {xs : Bytes} (h : Complete E xs) (ys : Bytes) : Complete E (xs ++ ys) := by
  unfold Complete at h ⊢
  rw [frameSize_append (by omega), List.length_append]
  omega

theorem Complete.length_frameBody {xs : Bytes} (h : Complete E xs) :
    (frameBody E xs).length = (frameSize E xs).toNat := by
  unfold Complete at h
  rw [frameBody, List.length_take, List.length_drop]
  omega

section Header

variable (size : UInt32) (id type : UInt16) (body : Bytes)

theorem frameSize_header (hE : E.littleEndian = true) :
    frameSize E (wire32 E size ++ wire16 E id ++ wire16 E type ++ body) = size := by
  simp only [frameSize, List.append_assoc]
  rw [List.take_left' (length_wire32 _), unpackUint32_wire32 hE]

theorem frameId_header (hE : E.littleEndian = true) :
    frameId E (wire32 E size ++ wire16 E id ++ wire16 E type ++ body) = id := by
  simp only [frameId, List.append_assoc]
  rw [List.drop_left' (length_wire32 _), List.take_left' (length_wire16 _), unpackUint16_wire16 hE]

/-- The type of an encoded header, on any host. -/
theorem frameType_header :
    frameType E (wire32 E size ++ wire16 E id ++ wire16 E type ++ body) = unpackUint16 E (wire16 E type) := by
  simp only [frameType]
  rw [List.append_assoc _ (wire16 E type), List.drop_left' (by simp), List.take_left' (length_wire16 _)]

end Header

/-- On a little-endian host the frame of a packet is read back. -/
structure Packet.Framed (E : Env) (p : Packet) (bs : Bytes) : Prop where
  size : frameSize E bs = UInt32.ofNat (p.body E).length
  id : frameId E bs = p.id
  type : frameType E bs = p.type

/-- The frame of a packet is read with its size, its id, its type and its body. -/
theorem Packet.framed (hE : E.littleEndian = true) (p : Packet) (rest : Bytes) :
    p.Framed E (p.frame E ++ rest) := by
  have h := p.length_frame (E := E)
  refine ⟨?_, ?_, ?_⟩
  · rw [frameSize_append (by omega), Packet.frame, frameSize_header _ _ _ _ hE]
  · rw [frameId_append (by omega), Packet.frame, frameId_header _ _ _ _ hE]
  · rw [frameType_append (by omega), Packet.frame, frameType_header, unpackUint16_wire16 hE]

theorem Packet.frameBody_frame (hE : E.littleEndian = true) {p : Packet} (hp : (p.body E).length < 2 ^ 32)
    (rest : Bytes) : frameBody E (p.frame E ++ rest) = p.body E := by
  have h := p.length_frame (E := E)
  unfold frameBody
  rw [(p.framed hE rest).size, UInt32.toNat_ofNat', Nat.mod_eq_of_lt hp, Packet.frame, List.append_assoc,
    List.drop_left' (by simp), List.take_left' rfl]

end Excom
