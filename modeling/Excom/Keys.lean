import Excom.Handlers
import Excom.WritePacket

/-!
# What reading and writing packets does to the keys

The decoder and the encoder change the keys of a connection by nothing but `excom_encrypt_prep`: whatever that
function keeps, they keep (`readPacket_keys`, `writePacket_keys`).
-/

namespace Excom

variable {E : Env}

section Keys

variable {I : Encrypt → Prop} (hprep : ∀ keys, I keys → I (keys.prep E))

include hprep

theorem pencryptBuffer_keys {keys : Encrypt} (h : I keys) (buf out : Buffer) (w : World) :
    Exec.Ensures (pencryptBuffer E keys buf out) w fun r _ => I r.2.1 := by
  unfold pencryptBuffer pencryptBuffer2
  split
  · exact .pure h
  split
  · exact .pure h
  refine .seq fun mutex w1 => ?_
  dsimp only
  refine .seq fun nonce w2 => .seq fun message w3 => .seq fun crypt w4 => ?_
  split
  · exact .seq fun _ w5 => .seq fun _ w6 => .seq fun _ w7 => .pure h
  refine .seq fun message w5 => .seq fun bytes w6 => .seq fun message w7 => .seq fun mutex w8 => ?_
  split
  · exact .seq fun _ w9 => .seq fun _ w10 => .pure (hprep keys h)
  · refine .seq fun crypt w9 => .seq fun _ w10 => .seq fun r w11 => .seq fun r' w12 => .seq fun _ w13 => ?_
    exact .pure (hprep keys h)

private theorem pdecryptBuffer2_keys {keys : Encrypt} (h : I keys) (buf out : Buffer) (use : Nat) (w : World) :
    Exec.Ensures (pdecryptBuffer2 E keys buf out use) w fun r _ => I r.2.1 := by
  unfold pdecryptBuffer2
  split
  · exact .pure h
  split
  · exact .pure h
  refine .seq fun mutex w1 => .seq fun nonce w2 => ?_
  dsimp only
  refine .seq fun crypt w3 => .seq fun message w4 => ?_
  split
  · exact .seq fun _ w5 => .seq fun _ w6 => .seq fun _ w7 => .pure h
  refine .seq fun bytes w5 => .seq fun crypt w6 => .seq fun mutex w7 => ?_
  split
  · exact .seq fun _ w8 => .seq fun _ w9 => .pure (hprep keys h)
  · refine .seq fun message w8 => .seq fun _ w9 => .seq fun r w10 => .seq fun _ w11 => ?_
    exact .pure (hprep keys h)

private theorem fetchBody_keys {keys : Encrypt} (h : I keys) (input buf : Buffer) (size : UInt32) (w : World) :
    Exec.Ensures (fetchBody E input (some keys) buf size) w fun r _ =>
      ∃ keys', r.2.1 = some keys' ∧ I keys' := by
  unfold fetchBody
  split
  · rename_i keys' hactive
    obtain rfl := activeKeys_eq hactive
    refine (pdecryptBuffer2_keys hprep h input buf size.toNat w).bind ?_
    rintro ⟨_, keys', input', buf'⟩ w1 h'
    exact .pure ⟨keys', rfl, h'⟩
  · exact .seq fun _ w1 => .pure ⟨keys, rfl, h⟩

/-- The decoder changes the keys by nothing but `excom_encrypt_prep`. -/
theorem readPacket_keys {keys : Encrypt} (h : I keys) (input : Buffer) (w : World) :
    Exec.Ensures (protocolReadPacket E input (some keys)) w fun r _ =>
      ∃ keys', r.2.2.2 = some keys' ∧ I keys' := by
  unfold protocolReadPacket
  refine .seq fun src w1 => .seq fun _ w2 => .seq fun _ w3 => .seq fun ⟨_, buf⟩ w4 => ?_
  refine (fetchBody_keys hprep h _ buf (unpackUint32 E src) w4).bind ?_
  rintro ⟨input', enc, buf'⟩ w5 ⟨keys', rfl, h'⟩
  show Exec.Ensures (parseBody E _ _ _ input' (some keys') buf') w5 _
  unfold parseBody
  split
  · exact .pure ⟨keys', rfl, h'⟩
  · exact .seq fun ⟨data, cur⟩ w6 => .seq fun _ w7 => .pure ⟨keys', rfl, h'⟩

private theorem sealedSize_keys {keys : Encrypt} (h : I keys) (buf buf2 : Buffer) (size : UInt32) (w : World) :
    Exec.Ensures (sealedSize E buf buf2 size (some keys)) w fun r _ =>
      ∃ keys', r.2.2 = some keys' ∧ I keys' := by
  unfold sealedSize
  split
  · rename_i keys' hactive
    obtain rfl := activeKeys_eq hactive
    refine (pencryptBuffer_keys hprep h buf buf2 w).bind ?_
    rintro ⟨_, keys', buf'⟩ w1 h'
    exact .pure ⟨keys', rfl, h'⟩
  · exact .pure ⟨keys, rfl, h⟩

private theorem writeBody_keys {keys : Encrypt} (h : I keys) (buf out : Buffer) (w : World) :
    Exec.Ensures (writeBody E buf out (some keys)) w fun r _ => ∃ keys', r.2 = some keys' ∧ I keys' := by
  unfold writeBody
  split
  · rename_i keys' hactive
    obtain rfl := activeKeys_eq hactive
    refine (pencryptBuffer_keys hprep h buf out w).bind ?_
    rintro ⟨_, keys', out'⟩ w1 h'
    exact .pure ⟨keys', rfl, h'⟩
  · exact .seq fun _ w1 => .pure ⟨keys, rfl, h⟩

/-- So does the encoder. -/
theorem writePacket_keys {keys : Encrypt} (h : I keys) (p : Packet) (o : Buffer) (w : World) :
    Exec.Ensures (protocolWritePacket E p o (some keys)) w fun r _ =>
      ∃ keys', r.2.2.2 = some keys' ∧ I keys' := by
  unfold protocolWritePacket
  refine .seq fun ⟨_, buf⟩ w1 => .seq fun ⟨_, buf2⟩ w2 => ?_
  dsimp only
  split
  · exact .seq fun _ w3 => .pure ⟨keys, rfl, h⟩
  refine .seq fun ⟨body, size⟩ w3 => ?_
  refine (sealedSize_keys hprep h body buf2 size w3).bind ?_
  rintro ⟨size', buf2', enc⟩ w4 ⟨keys', rfl, h'⟩
  dsimp only
  refine .seq fun out w5 => ?_
  refine (writeBody_keys hprep h' body out w5).bind ?_
  rintro ⟨out', enc⟩ w6 ⟨keys'', rfl, h''⟩
  exact .seq fun _ w7 => .seq fun _ w8 => .pure ⟨keys'', rfl, h''⟩

/-- A packet that is sent keeps what the preparation of the keys keeps. -/
theorem sendPacket_keys {keys : Encrypt} (h : I keys) (raw : Packet) (t : PacketType) (data : List Value)
    (out : Buffer) (w : World) : Exec.Ensures (sendPacket E raw t data out keys) w fun r _ => I r.2 := by
  unfold sendPacket
  refine (writePacket_keys hprep h _ out w).bind ?_
  rintro ⟨_, _, out', enc⟩ w1 ⟨keys', rfl, h'⟩
  exact .pure h'

end Keys

end Excom
