import Excom.BufferLemmas
import Excom.Protocol

/-!
# Where the packers write

The packers of `excom/protocol/pack.c` once more, with each store checked against the size of the array, and
`excom_protocol_write_packet` with the scratch array that it hands to them.  The loops store the bytes of the value,
and the store behind the loop goes to the byte after those that are reported (`packIn_eq`).  So the packers of two
and four bytes leave the rest of the array alone exactly where that byte is there, and zero (`packs_reported_iff`).
The scratch array has four bytes: `protocolWritePacket` is what the code does where there is one more
(`writePacketIn_room`).
-/

namespace Excom

variable (E : Env)

/-! ### The packers -/

/-- `dest[i] = b` -/
def storeByte (dest : Bytes) (i : Nat) (b : UInt8) : M Bytes :=
  if i < dest.length then pure (dest.set i b) else Exec.fault .bounds

/-- The turns of `for(part = 0; part < bound; part += 8) *ptr++ = net >> part;` from `part` on, with `ptr` at `i`:
where `ptr` is after them, and the array. -/
def packLoop (net bound part i : Nat) (dest : Bytes) : M (Nat × Bytes) :=
  if part < bound then do
    let dest ← storeByte dest i (UInt8.ofNat (net >>> part))
    packLoop net bound (part + 8) (i + 1) dest
  else pure (i, dest)
termination_by bound - part

/-- The loop, `*ptr++ = 0`, and the count that is reported -/
def packIn (net bound count : Nat) (dest : Bytes) : M (Nat × Bytes) := do
  let (i, dest) ← packLoop net bound 0 0 dest
  let dest ← storeByte dest i 0
  return (count, dest)

/-- `excom_protocol_pack_uint32_t` -/
def packUint32In (n : UInt32) (dest : Bytes) : M (Nat × Bytes) :=
  let net := if E.littleEndian then htonl E n else n
  packIn net.toNat 25 4 dest

/-- `excom_protocol_pack_uint16_t` -/
def packUint16In (n : UInt16) (dest : Bytes) : M (Nat × Bytes) :=
  let net := if E.littleEndian then htons E n else n
  packIn net.toNat 11 2 dest

/-- `excom_protocol_pack_uint8_t` -/
def packUint8In (n : UInt8) (dest : Bytes) : M (Nat × Bytes) := do
  let dest ← storeByte dest 0 n
  return (1, dest)

/-- The packer stays inside the array, and changes only the first bytes of it, as many as it reports. -/
def WritesReported (pack : Bytes → M (Nat × Bytes)) (dest : Bytes) : Prop :=
  ∀ w, Exec.Returns (pack dest) w fun r _ => r.2.length = dest.length ∧ r.2.drop r.1 = dest.drop r.1

/-! ### `excom_protocol_write_packet` -/

/-- `string(name)` and `number(uint8_t, name)`, with the array `buf` -/
def writeFieldIn (scratch : Bytes) (buf : Buffer) (size : UInt32) : Value → M (Bytes × Buffer × UInt32)
  | .string s => do
    let (_, scratch) ← packUint32In E s.size scratch
    let (_, buf) ← buf.cappend E scratch 4
    let (_, buf) ← buf.sappend E s.body s.size
    return (scratch, buf, size + (4 + s.size))
  | .number n => do
    let (k, scratch) ← packUint8In n scratch
    let (_, buf) ← buf.cappend E scratch k
    return (scratch, buf, size + UInt32.ofNat k)

def writeFieldsIn (scratch : Bytes) (buf : Buffer) (size : UInt32) : List Value → M (Bytes × Buffer × UInt32)
  | [] => pure (scratch, buf, size)
  | v :: vs => do
    let (scratch, buf, size) ← writeFieldIn E scratch buf size v
    writeFieldsIn scratch buf size vs

def writeDataIn (scratch : Bytes) (buf : Buffer) (packet : Packet) : M (Bytes × Buffer × UInt32) :=
  match packetType? packet.type with
  | some _ => writeFieldsIn E scratch buf 0 packet.data
  | none => pure (scratch, buf, 0)

def writeHeaderIn (scratch : Bytes) (packet : Packet) (out : Buffer) : M Buffer := do
  let (_, scratch) ← packUint32In E packet.size scratch
  let (_, out) ← out.cappend E scratch 4
  let (_, scratch) ← packUint16In E packet.id scratch
  let (_, out) ← out.cappend E scratch 2
  let (_, scratch) ← packUint16In E packet.type scratch
  let (_, out) ← out.cappend E scratch 2
  return out

/-- `excom_protocol_write_packet`, with `scratch` for what is in the array `buf` when it is called. -/
def protocolWritePacketIn (scratch : Bytes) (packet : Packet) (o : Buffer) (enc : Option Encrypt) :
    M (Int × Packet × Buffer × Option Encrypt) := do
  let (_, buf) ← Buffer.init E 32
  let (_, buf2) ← Buffer.init E 32
  if packet.type = packetInvalid then
    let _ ← buf.destroy
    return (1, packet, o, enc)
  else
    let (scratch, buf, size) ← writeDataIn E scratch buf packet
    let (size, buf2, enc) ← sealedSize E buf buf2 size enc
    let packet := { packet with size }
    let out ← writeHeaderIn E scratch packet o
    let (out, enc) ← writeBody E buf out enc
    let _ ← buf.destroy
    let _ ← buf2.destroy
    return (0, packet, out, enc)

variable {E}

/-! ### Stores one after the other -/

private theorem length_storeBytes (dest : Bytes) (i : Nat) (bs : Bytes) :
    (storeBytes dest i bs).length = dest.length := by
  induction bs generalizing dest i with
  | nil => rfl
  | cons b bs ih => rw [storeBytes, ih, List.length_set]

private theorem storeBytes_append (dest : Bytes) (i : Nat) (bs cs : Bytes) :
    storeBytes dest i (bs ++ cs) = storeBytes (storeBytes dest i bs) (i + bs.length) cs := by
  induction bs generalizing dest i with
  | nil => rfl
  | cons b bs ih =>
    simp only [List.cons_append, storeBytes, ih, List.length_cons]
    congr 1
    omega

/-- What lies behind the stores stays as it is. -/
theorem drop_storeBytes {dest : Bytes} {i k : Nat} {bs : Bytes} (h : i + bs.length ≤ k) :
    (storeBytes dest i bs).drop k = dest.drop k := by
  induction bs generalizing dest i with
  | nil => rfl
  | cons b bs ih =>
    simp only [List.length_cons] at h
    rw [storeBytes, ih (by omega), List.drop_set_of_lt (by omega)]

private theorem storeByte_eq {dest : Bytes} {i : Nat} (h : i < dest.length) (b : UInt8) :
    storeByte dest i b = pure (dest.set i b) := if_pos h

private theorem storeByte_fault {dest : Bytes} {i : Nat} (h : dest.length ≤ i) (b : UInt8) :
    storeByte dest i b = Exec.fault .bounds := if_neg (Nat.not_lt.2 h)

/-- The bytes that the loop stores -/
def partBytes (net bound part : Nat) : Bytes :=
  (List.range' part ((bound - part + 7) / 8) 8).map fun part => UInt8.ofNat (net >>> part)

private theorem partBytes_of_lt {net bound part : Nat} (h : part < bound) :
    partBytes net bound part = UInt8.ofNat (net >>> part) :: partBytes net bound (part + 8) := by
  have hturns : (bound - part + 7) / 8 = (bound - (part + 8) + 7) / 8 + 1 := by omega
  rw [partBytes, hturns, List.range'_succ]
  rfl

private theorem partBytes_of_le {net bound part : Nat} (h : bound ≤ part) : partBytes net bound part = [] := by
  have hturns : (bound - part + 7) / 8 = 0 := by omega
  rw [partBytes, hturns]
  rfl

/-- The loop stores its bytes in a row, and stops at the first one for which there is no place. -/
theorem packLoop_eq (net bound part i : Nat) (dest : Bytes) (hi : i ≤ dest.length) :
    packLoop net bound part i dest =
      if i + (partBytes net bound part).length ≤ dest.length then
        pure (i + (partBytes net bound part).length, storeBytes dest i (partBytes net bound part))
      else Exec.fault .bounds := by
  fun_induction packLoop net bound part i dest with
  | case1 part i dest hlt ih =>
    rw [partBytes_of_lt hlt, List.length_cons]
    by_cases hroom : i < dest.length
    · rw [storeByte_eq hroom, Exec.pure_bind, ih _ (by rw [List.length_set]; omega), List.length_set]
      have hadd : i + 1 + (partBytes net bound (part + 8)).length =
          i + ((partBytes net bound (part + 8)).length + 1) := by omega
      rw [hadd]
      rfl
    · rw [storeByte_fault (Nat.not_lt.1 hroom), Exec.fault_bind, if_neg (by omega)]
  | case2 part i dest hge =>
    rw [partBytes_of_le (Nat.not_lt.1 hge), List.length_nil, Nat.add_zero, if_pos hi]
    rfl

/-- One byte more than the loop stores is written, in an array that has a place for it. -/
theorem packIn_eq (net bound count : Nat) (dest : Bytes) :
    packIn net bound count dest =
      if (partBytes net bound 0).length < dest.length then
        pure (count, storeBytes dest 0 (partBytes net bound 0 ++ [0]))
      else Exec.fault .bounds := by
  unfold packIn
  rw [packLoop_eq _ _ _ _ _ (Nat.zero_le _), Nat.zero_add]
  rcases Nat.lt_trichotomy (partBytes net bound 0).length dest.length with hlt | heq | hgt
  · rw [if_pos (Nat.le_of_lt hlt), if_pos hlt, Exec.pure_bind, storeBytes_append, Nat.zero_add]
    dsimp only
    rw [storeByte_eq (by rwa [length_storeBytes])]
    rfl
  · rw [if_pos (Nat.le_of_eq heq), if_neg (by omega), Exec.pure_bind]
    dsimp only
    rw [storeByte_fault (by rw [length_storeBytes]; omega), Exec.fault_bind]
  · rw [if_neg (by omega), if_neg (by omega), Exec.fault_bind]

/-- A store leaves the array from there on as it is if the byte was there already. -/
theorem drop_set_eq_iff {dest : Bytes} {k : Nat} {b : UInt8} (h : k < dest.length) :
    (dest.set k b).drop k = dest.drop k ↔ dest[k]? = some b := by
  have hset : (dest.set k b).drop k = b :: dest.drop (k + 1) := by
    rw [List.drop_eq_getElem_cons (by rwa [List.length_set]), List.getElem_set_self,
      List.drop_set_of_lt (Nat.lt_succ_self k)]
  rw [hset, List.drop_eq_getElem_cons h, List.getElem?_eq_getElem h]
  constructor
  · intro heq
    rw [(List.cons.inj heq).1]
  · intro heq
    rw [Option.some.inj heq]

private theorem writesReported_pure {pack : Bytes → M (Nat × Bytes)} {dest dest' : Bytes} {k : Nat}
    (h : pack dest = pure (k, dest')) :
    WritesReported pack dest ↔ dest'.length = dest.length ∧ dest'.drop k = dest.drop k := by
  unfold WritesReported
  rw [h]
  constructor
  · intro hall
    obtain ⟨r, w', hrun, hr⟩ := hall World.start
    cases hrun
    exact hr
  · intro hr w
    exact .pure hr

private theorem not_writesReported_fault {pack : Bytes → M (Nat × Bytes)} {dest : Bytes} {e : Fault}
    (h : pack dest = Exec.fault e) : ¬ WritesReported pack dest := by
  intro hall
  obtain ⟨r, w', hrun, -⟩ := hall World.start
  rw [h] at hrun
  cases hrun

/-- A packer that reports the bytes of its loop changes nothing else where the next byte is zero. -/
theorem packIn_reported_iff {net bound count : Nat} {dest : Bytes} (hcount : (partBytes net bound 0).length = count) :
    WritesReported (packIn net bound count) dest ↔ dest[count]? = some 0 := by
  by_cases hlt : count < dest.length
  · have heq := packIn_eq net bound count dest
    rw [hcount, if_pos hlt] at heq
    have hdrop : (storeBytes dest 0 (partBytes net bound 0)).drop count = dest.drop count :=
      drop_storeBytes (by omega)
    have hlen := length_storeBytes dest 0 (partBytes net bound 0)
    have hnext : (storeBytes dest 0 (partBytes net bound 0))[count]? = dest[count]? := by
      have h0 := congrArg (fun l : Bytes => l[0]?) hdrop
      simpa [List.getElem?_drop] using h0
    rw [writesReported_pure heq, length_storeBytes, storeBytes_append, Nat.zero_add, hcount, ← hdrop, ← hnext]
    exact (and_iff_right rfl).trans (drop_set_eq_iff (by rwa [hlen]))
  · have heq := packIn_eq net bound count dest
    rw [hcount, if_neg hlt] at heq
    rw [List.getElem?_eq_none (Nat.not_lt.1 hlt)]
    exact iff_of_false (not_writesReported_fault heq) (by simp)

private theorem packUint8_reported_iff {n : UInt8} {dest : Bytes} :
    WritesReported (packUint8In n) dest ↔ 0 < dest.length := by
  by_cases hlt : 0 < dest.length
  · have heq : packUint8In n dest = pure (1, dest.set 0 n) := by
      unfold packUint8In
      rw [storeByte_eq hlt]
      rfl
    rw [writesReported_pure heq]
    exact iff_of_true ⟨List.length_set, List.drop_set_of_lt Nat.one_pos⟩ hlt
  · have heq : packUint8In n dest = Exec.fault .bounds := by
      unfold packUint8In
      rw [storeByte_fault (Nat.not_lt.1 hlt)]
      rfl
    exact iff_of_false (not_writesReported_fault heq) hlt

/-! ### The scratch array -/

private theorem packUint32In_eq (n : UInt32) (dest : Bytes) :
    packUint32In E n dest = if 4 < dest.length then pure (packUint32 E dest n) else Exec.fault .bounds :=
  packIn_eq _ 25 4 dest

private theorem packUint16In_eq (n : UInt16) (dest : Bytes) :
    packUint16In E n dest = if 2 < dest.length then pure (packUint16 E dest n) else Exec.fault .bounds :=
  packIn_eq _ 11 2 dest

private theorem packUint8In_eq (n : UInt8) (dest : Bytes) :
    packUint8In n dest = if 0 < dest.length then pure (packUint8 dest n) else Exec.fault .bounds := by
  unfold packUint8In storeByte
  split <;> rfl

private theorem packUint32In_length (n : UInt32) (dest : Bytes) (w : World) :
    Exec.Ensures (packUint32In E n dest) w fun r _ => r.2.length = dest.length := by
  rw [packUint32In_eq]
  split
  · exact .pure (length_storeBytes dest 0 _)
  · exact .fault

private theorem packUint8In_length (n : UInt8) (dest : Bytes) (w : World) :
    Exec.Ensures (packUint8In n dest) w fun r _ => r.2.length = dest.length := by
  rw [packUint8In_eq]
  split
  · exact .pure List.length_set
  · exact .fault

private theorem writeFieldIn_length (scratch : Bytes) (buf : Buffer) (size : UInt32) (v : Value) (w : World) :
    Exec.Ensures (writeFieldIn E scratch buf size v) w fun r _ => r.1.length = scratch.length := by
  cases v with
  | string s =>
    refine (packUint32In_length s.size scratch w).bind ?_
    intro (k, scratch1) w1 hlen
    exact .seq fun _ _ => .seq fun _ _ => .pure hlen
  | number n =>
    refine (packUint8In_length n scratch w).bind ?_
    intro (k, scratch1) w1 hlen
    exact .seq fun _ _ => .pure hlen

private theorem writeFieldsIn_length (scratch : Bytes) (buf : Buffer) (size : UInt32) (vs : List Value) (w : World) :
    Exec.Ensures (writeFieldsIn E scratch buf size vs) w fun r _ => r.1.length = scratch.length := by
  induction vs generalizing scratch buf size w with
  | nil => exact .pure rfl
  | cons v vs ih =>
    refine (writeFieldIn_length scratch buf size v w).bind ?_
    intro ⟨scratch1, buf1, size1⟩ w1 hlen
    refine (ih scratch1 buf1 size1 w1).mono ?_
    intro r w2 h
    exact h.trans hlen

private theorem writeDataIn_length (scratch : Bytes) (buf : Buffer) (packet : Packet) (w : World) :
    Exec.Ensures (writeDataIn E scratch buf packet) w fun r _ => r.1.length = scratch.length := by
  unfold writeDataIn
  split
  · exact writeFieldsIn_length scratch buf 0 packet.data w
  · exact .pure rfl

private theorem writeHeaderIn_fault {scratch : Bytes} (h : scratch.length ≤ 4) (packet : Packet) (out : Buffer) :
    writeHeaderIn E scratch packet out = Exec.fault .bounds := by
  unfold writeHeaderIn
  rw [packUint32In_eq, if_neg (by omega), Exec.fault_bind]

/-- With four bytes only the packet that is not written is left. -/
theorem writePacketIn_ensures {scratch : Bytes} (h : scratch.length ≤ 4) (packet : Packet) (o : Buffer)
    (enc : Option Encrypt) (w : World) :
    Exec.Ensures (protocolWritePacketIn E scratch packet o enc) w fun _ _ => packet.type = packetInvalid := by
  unfold protocolWritePacketIn
  refine .seq fun (_, buf) w1 => .seq fun (_, buf2) w2 => ?_
  dsimp only
  split
  · rename_i hinvalid
    exact .seq fun _ _ => .pure hinvalid
  · refine (writeDataIn_length scratch buf packet w2).bind ?_
    intro ⟨scratch1, buf1, size⟩ w3 hlen
    refine .seq fun (size, buf2, enc) w4 => ?_
    dsimp only at hlen ⊢
    rw [writeHeaderIn_fault (by omega), Exec.fault_bind]
    exact .fault

private theorem writePacketIn_returns (scratch : Bytes) {packet : Packet} (h : packet.type = packetInvalid)
    (o : Buffer) (enc : Option Encrypt) (w : World) :
    Exec.Returns (protocolWritePacketIn E scratch packet o enc) w fun _ _ => True := by
  have hinit (w : World) : Exec.Returns (Buffer.init E 32) w fun _ _ => True := by
    unfold Buffer.init
    obtain ⟨p, w', hrun, -⟩ := malloc_eq E 32 w
    refine Exec.Returns.bind (Q := fun _ _ => True) ⟨p, w', hrun, trivial⟩ ?_
    intro p w1 _
    cases p with
    | none => exact ⟨_, _, rfl, trivial⟩
    | some b => exact .pure trivial
  unfold protocolWritePacketIn
  refine (hinit w).bind ?_
  intro (_, buf) w1 _
  refine (hinit w1).bind ?_
  intro (_, buf2) w2 _
  dsimp only
  rw [if_pos h]
  exact (Buffer.destroy_returns (fun _ => True) buf w2).bind fun _ _ _ => .pure trivial

/-! ### One byte more -/

private theorem Buffer.cappend_congr {b : Buffer} {str str' : Bytes} {size : Nat} (h : size ≤ str.length)
    (h' : size ≤ str'.length) (heq : str.take size = str'.take size) :
    b.cappend E str size = b.cappend E str' size := by
  unfold Buffer.cappend readBytes
  rw [if_pos h, if_pos h', heq]

/-- What the array holds does not matter to the bytes that are taken from it. -/
theorem cappend_packUint32 {dest : Bytes} (h : 5 ≤ dest.length) (n : UInt32) (b : Buffer) :
    b.cappend E (packUint32 E dest n).2 4 = b.cappend E (packUint32 E scratch n).2 4 := by
  obtain ⟨rest, hrest⟩ := packUint32_dest (E := E) dest (by omega) n
  have hlen : (packUint32 E dest n).2.length = dest.length := length_storeBytes dest 0 _
  refine Buffer.cappend_congr (by omega) (Nat.le_refl 4) ?_
  rw [hrest, List.take_left' (length_wire32 n)]
  rfl

private theorem cappend_packUint16 {dest : Bytes} (h : 5 ≤ dest.length) (n : UInt16) (b : Buffer) :
    b.cappend E (packUint16 E dest n).2 2 = b.cappend E (packUint16 E scratch n).2 2 := by
  obtain ⟨rest, hrest⟩ := packUint16_dest (E := E) dest (by omega) n
  have hlen : (packUint16 E dest n).2.length = dest.length := length_storeBytes dest 0 _
  refine Buffer.cappend_congr (by omega) (by simp [packUint16, length_storeBytes, scratch]) ?_
  rw [hrest, List.take_left' (length_wire16 n)]
  rfl

private theorem cappend_packUint8 {dest : Bytes} (h : 5 ≤ dest.length) (n : UInt8) (b : Buffer) :
    b.cappend E (packUint8 dest n).2 1 = b.cappend E (packUint8 scratch n).2 1 := by
  rcases dest with _ | ⟨d, dest⟩
  · exact absurd h (by simp)
  · exact Buffer.cappend_congr (by simp [packUint8]) (by simp [packUint8, scratch]) rfl

private theorem packUint32In_room {dest : Bytes} (h : 5 ≤ dest.length) (n : UInt32) :
    packUint32In E n dest = pure (packUint32 E dest n) := by
  rw [packUint32In_eq, if_pos (by omega)]

private theorem packUint16In_room {dest : Bytes} (h : 5 ≤ dest.length) (n : UInt16) :
    packUint16In E n dest = pure (packUint16 E dest n) := by
  rw [packUint16In_eq, if_pos (by omega)]

private theorem packUint8In_room {dest : Bytes} (h : 5 ≤ dest.length) (n : UInt8) :
    packUint8In n dest = pure (packUint8 dest n) := by
  rw [packUint8In_eq, if_pos (by omega)]

private theorem writeFieldIn_room {dest : Bytes} (h : 5 ≤ dest.length) (v : Value) :
    ∃ dest', 5 ≤ dest'.length ∧ ∀ buf size,
      writeFieldIn E dest buf size v = (writeField E buf size v >>= fun r => pure (dest', r)) := by
  cases v with
  | string s =>
    refine ⟨(packUint32 E dest s.size).2, ?_, ?_⟩
    · show 5 ≤ (storeBytes _ _ _).length
      rwa [length_storeBytes]
    · intro buf size
      simp only [writeFieldIn, writeField, packUint32In_room h, Exec.pure_bind, Exec.bind_assoc]
      rw [cappend_packUint32 h]
  | number n =>
    refine ⟨(packUint8 dest n).2, ?_, ?_⟩
    · show 5 ≤ (List.set _ _ _).length
      rwa [List.length_set]
    · intro buf size
      have hone (l : Bytes) : (packUint8 l n).1 = 1 := rfl
      simp only [writeFieldIn, writeField, packUint8In_room h, hone, Exec.pure_bind, Exec.bind_assoc]
      rw [cappend_packUint8 h]

private theorem writeFieldsIn_room {dest : Bytes} (h : 5 ≤ dest.length) (vs : List Value) :
    ∃ dest', 5 ≤ dest'.length ∧ ∀ buf size,
      writeFieldsIn E dest buf size vs = (writeFields E buf size vs >>= fun r => pure (dest', r)) := by
  induction vs generalizing dest with
  | nil => exact ⟨dest, h, fun _ _ => rfl⟩
  | cons v vs ih =>
    obtain ⟨dest1, h1, hfield⟩ := writeFieldIn_room (E := E) h v
    obtain ⟨dest2, h2, hfields⟩ := ih h1
    refine ⟨dest2, h2, ?_⟩
    intro buf size
    simp only [writeFieldsIn, writeFields, hfield, hfields, Exec.pure_bind, Exec.bind_assoc]

private theorem writeDataIn_room {dest : Bytes} (h : 5 ≤ dest.length) (packet : Packet) :
    ∃ dest', 5 ≤ dest'.length ∧ ∀ buf,
      writeDataIn E dest buf packet = (writeData E buf packet >>= fun r => pure (dest', r)) := by
  unfold writeDataIn writeData
  rcases packetType? packet.type with _ | t
  · exact ⟨dest, h, fun _ => rfl⟩
  · obtain ⟨dest', h', heq⟩ := writeFieldsIn_room (E := E) h packet.data
    exact ⟨dest', h', fun buf => heq buf 0⟩

private theorem writeHeaderIn_room {dest : Bytes} (h : 5 ≤ dest.length) (packet : Packet) (out : Buffer) :
    writeHeaderIn E dest packet out = writeHeader E packet out := by
  have h1 : 5 ≤ (packUint32 E dest packet.size).2.length := by
    show 5 ≤ (storeBytes _ _ _).length
    rwa [length_storeBytes]
  have h2 : 5 ≤ (packUint16 E (packUint32 E dest packet.size).2 packet.id).2.length := by
    show 5 ≤ (storeBytes _ _ _).length
    rwa [length_storeBytes]
  simp only [writeHeaderIn, writeHeader, packUint32In_room h, packUint16In_room h1, packUint16In_room h2,
    Exec.pure_bind, cappend_packUint32 h, cappend_packUint16 h1, cappend_packUint16 h2]

/-- `protocolWritePacket` is the code with one byte more in its scratch array. -/
theorem writePacketIn_room {dest : Bytes} (h : 5 ≤ dest.length) (packet : Packet) (o : Buffer)
    (enc : Option Encrypt) :
    protocolWritePacketIn E dest packet o enc = protocolWritePacket E packet o enc := by
  obtain ⟨dest1, h1, hdata⟩ := writeDataIn_room (E := E) h packet
  simp only [protocolWritePacketIn, protocolWritePacket, hdata, Exec.bind_assoc, Exec.pure_bind,
    writeHeaderIn_room h1]

/-! ### All packers -/

/-- The packers of four and of two bytes change only what they report where the next byte of the array is there and
zero already, the packer of one byte wherever there is a place for it.  `excom_protocol_write_packet` gets to its end
with every store inside its array only if it has nothing to write. -/
theorem packs_reported_iff (E : Env) :
    (∀ n dest, WritesReported (packUint32In E n) dest ↔ dest[4]? = some 0) ∧
      (∀ n dest, WritesReported (packUint16In E n) dest ↔ dest[2]? = some 0) ∧
        (∀ n dest, WritesReported (packUint8In n) dest ↔ 0 < dest.length) ∧
          ∀ (buf : Vector UInt8 4) packet o enc w,
            Exec.Returns (protocolWritePacketIn E buf.toList packet o enc) w (fun _ _ => True) ↔
              packet.type = packetInvalid := by
  refine ⟨fun n dest => packIn_reported_iff rfl, fun n dest => packIn_reported_iff rfl,
    fun n dest => packUint8_reported_iff, ?_⟩
  intro buf packet o enc w
  constructor
  · intro ⟨r, w', hrun, _⟩
    exact writePacketIn_ensures (Nat.le_of_eq buf.length_toList) packet o enc w r w' hrun
  · intro h
    exact writePacketIn_returns buf.toList h o enc w

/-- The fifth byte of an array of five is lost, and of an array of four there is none. -/
theorem not_packs_reported : ¬ WritesReported (packUint32In (Env.amd64 0) 1) [1, 1, 1, 1, 1] ∧
    ¬ WritesReported (packUint32In (Env.amd64 0) 1) [0, 0, 0, 0] := by
  have hiff (dest : Bytes) : WritesReported (packUint32In (Env.amd64 0) 1) dest ↔ dest[4]? = some 0 :=
    packIn_reported_iff rfl
  rw [hiff, hiff]
  decide

end Excom
