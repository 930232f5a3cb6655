import Excom.SealedStream

/-!
# The size that a header announces

The size of a body is counted in a `uint32_t`, and the result of an append is not looked at.  So the header that
`excom_protocol_write_packet` emits announces the bytes that follow it exactly when there are fewer than 2^32 of
them and the buffer can be changed (`announces_iff`).
-/

namespace Excom

variable (E : Env)

/-- The number of bytes that follow the header of a packet. -/
def Packet.bodySize (p : Packet) (enc : Option Encrypt) : Nat :=
  if (activeKeys enc).isSome then sealedLength (p.body E).length else (p.body E).length

/-- The call returns a code, or it appends a header and as many bytes of a body as the header says, and the size
of the packet is set to their number. -/
def Announces (p : Packet) (o : Buffer) (r : Int × Packet × Buffer × Option Encrypt) : Prop :=
  r.1 ≠ 0 ∨ ∃ body : Bytes, r.2.1.size.toNat = body.length ∧
    r.2.2.1.contents = o.contents ++ (wire32 E r.2.1.size ++ wire16 E p.id ++ wire16 E p.type ++ body)

variable {E}

/-! ### A buffer that must not change -/

section Unmutable

variable {o : Buffer} (hm : o.unmutable = true)

include hm

private theorem cappend_unmutable (str : Bytes) (size : Nat) : o.cappend E str size = pure (EACCES, o) := if_pos hm

private theorem writeHeader_unmutable (p : Packet) : writeHeader E p o = pure o := by
  unfold writeHeader
  simp only [cappend_unmutable hm, Exec.pure_bind]

private theorem pencryptBuffer_unmutable (keys : Encrypt) (buf : Buffer) (w : World) :
    Exec.Ensures (pencryptBuffer E keys buf o) w fun r _ => r.2.2 = o := by
  unfold pencryptBuffer pencryptBuffer2
  rw [if_pos hm]
  split
  · exact .pure rfl
  · exact .pure rfl

private theorem writeBody_unmutable (buf : Buffer) (enc : Option Encrypt) (w : World) :
    Exec.Ensures (writeBody E buf o enc) w fun r _ => r.1 = o := by
  unfold writeBody
  split
  · refine (pencryptBuffer_unmutable hm _ buf w).bind ?_
    intro ⟨_, keys, out⟩ w1 hout
    exact .pure hout
  · unfold Buffer.bappend Buffer.bappend2
    rw [if_pos hm]
    exact .pure rfl

/-- An unmutable buffer is left as it is, and nothing tells so. -/
theorem writePacket_unmutable {p : Packet} (hne : p.type ≠ packetInvalid) (enc : Option Encrypt) (w : World) :
    Exec.Ensures (protocolWritePacket E p o enc) w fun r _ => r.1 = 0 ∧ r.2.2.1 = o := by
  unfold protocolWritePacket
  refine .seq fun ⟨_, buf⟩ w1 => .seq fun ⟨_, buf2⟩ w2 => ?_
  dsimp only
  rw [if_neg hne]
  refine .seq fun ⟨buf, size⟩ w3 => .seq fun ⟨size, buf2, enc⟩ w4 => ?_
  dsimp only
  rw [writeHeader_unmutable hm, Exec.pure_bind]
  refine (writeBody_unmutable hm buf enc w4).bind ?_
  intro ⟨out, enc⟩ w5 hout
  exact .seq fun _ w6 => .seq fun _ w7 => .pure ⟨rfl, hout⟩

end Unmutable

/-! ### A buffer that can change -/

section Announce

variable (hA : E.AllocSucceeds) (hS : E.sodium.Lawful) {p : Packet} {t : PacketType} (hp : p.Known t) {o : Buffer}
  (ho : o.WF E) (enc : Option Encrypt) (hfit : 2 * (o.used + (8 + p.bodySize E enc)) ≤ E.word)

include hA hS hp ho hfit

/-- The header carries the number of the bytes behind it modulo 2^32. -/
private theorem writePacket_appends (hm : o.unmutable = false) (w : World) :
    Exec.Returns (protocolWritePacket E p o enc) w fun r _ => ∃ body : Bytes,
      body.length = p.bodySize E enc ∧ r.1 = 0 ∧ r.2.1.size = UInt32.ofNat (p.bodySize E enc) ∧
      r.2.2.1.contents = o.contents ++ (wire32 E r.2.1.size ++ wire16 E p.id ++ wire16 E p.type ++ body) := by
  unfold Packet.bodySize at *
  rcases hkeys : activeKeys enc with _ | keys
  · rw [hkeys] at hfit
    refine (writePacket_returns hA hp ho hm hkeys (by rw [p.length_frame]; exact hfit) w).mono ?_
    intro r w1 ⟨o', hext, hr⟩
    subst hr
    exact ⟨p.body E, rfl, rfl, rfl, hext.contents⟩
  · obtain ⟨rfl, hactive⟩ := Option.filter_eq_some_iff.1 hkeys
    rw [hkeys] at hfit
    refine (writeSealed_returns hA hS hp ho hm hactive hfit w).mono ?_
    intro r w1 ⟨f, keys', o', ⟨s, hs, hf⟩, hr, _, hext⟩
    subst hr hf
    have hlen : s.length = sealedLength (p.body E).length := hs.length hS
    refine ⟨s, hlen, rfl, rfl, ?_⟩
    rw [hlen] at hext
    exact hext.contents

/-- A header announces the bytes that follow it exactly when there are fewer than 2^32 of them, and is emitted at
all when the buffer can be changed. -/
theorem announces_iff (w : World) :
    Exec.Returns (protocolWritePacket E p o enc) w (fun r _ => Announces E p o r) ↔
      o.unmutable = false ∧ p.bodySize E enc < 2 ^ 32 := by
  constructor
  · intro ⟨r, w', hrun, hr⟩
    have hm : o.unmutable = false := by
      by_contra hm
      -- the code says that the frame is there, and it is not
      obtain ⟨hcode, hsame⟩ := writePacket_unmutable (Bool.eq_true_of_not_eq_false hm) hp.type_ne enc w r w' hrun
      rcases hr with hne | ⟨body, -, hcont⟩
      · exact hne hcode
      · have hl := congrArg List.length hcont
        rw [hsame] at hl
        simp only [List.length_append, length_wire32, length_wire16] at hl
        omega
    refine ⟨hm, ?_⟩
    obtain ⟨body, hlen, hcode, -, hcont⟩ := (writePacket_appends hA hS hp ho enc hfit hm w).ensures r w' hrun
    rcases hr with hne | ⟨body', hsize, hcont'⟩
    · exact absurd hcode hne
    · have hl := congrArg List.length (hcont.symm.trans hcont')
      simp only [List.length_append, length_wire32, length_wire16] at hl
      have hlt := r.2.1.size.toNat_lt
      omega
  · intro ⟨hm, hsize⟩
    refine (writePacket_appends hA hS hp ho enc hfit hm w).mono ?_
    intro r w' ⟨body, hlen, _, hr, hcont⟩
    refine Or.inr ⟨body, ?_, hcont⟩
    rw [hr, hlen, UInt32.toNat_ofNat', Nat.mod_eq_of_lt hsize]

end Announce

/-- A `COMMAND` packet with a string of `n` zeros. -/
private def zeros (n : Nat) : Packet := ⟨0, 1, 0x10, [.string ⟨UInt32.ofNat n, some ⟨0, List.replicate n 0⟩, false⟩]⟩

private theorem zeros_known {n : Nat} (hn : n < 2 ^ 32) : (zeros n).Known .command := by
  refine ⟨rfl, rfl, ?_⟩
  intro s hs
  have hs : s = ⟨UInt32.ofNat n, some ⟨0, List.replicate n 0⟩, false⟩ := by simpa [zeros] using hs
  subst hs
  have hsize : (UInt32.ofNat n).toNat = n := by rw [UInt32.toNat_ofNat', Nat.mod_eq_of_lt hn]
  show (UInt32.ofNat n).toNat ≤ (List.replicate n (0 : UInt8)).length
  rw [hsize, List.length_replicate]

private theorem zeros_body {n : Nat} (hn : n < 2 ^ 32) : ((zeros n).body E).length = 4 + n := by
  have hsize : (UInt32.ofNat n).toNat = n := by rw [UInt32.toNat_ofNat', Nat.mod_eq_of_lt hn]
  simp [zeros, Packet.body, encodeBody, Value.content, Content.encode, ExcomString.bytes, hsize]

/-- A `COMMAND` of two bytes on an encrypted connection announces 62 bytes. -/
theorem announces_sealed :
    Exec.Returns (protocolWritePacket (Env.amd64 0) (zeros 2) (Buffer.ofBytes [])
      (some ⟨⟨true, Vector.replicate _ 0⟩, ⟨Vector.replicate _ 0, Vector.replicate _ 0⟩,
        ⟨true, Vector.replicate _ 0⟩⟩)) World.start
      (fun r _ => Announces (Env.amd64 0) (zeros 2) (Buffer.ofBytes []) r) := by
  have hsize : (zeros 2).bodySize (Env.amd64 0) (some ⟨⟨true, Vector.replicate _ 0⟩,
      ⟨Vector.replicate _ 0, Vector.replicate _ 0⟩, ⟨true, Vector.replicate _ 0⟩⟩) = 62 := by
    unfold Packet.bodySize
    rw [activeKeys_some rfl, zeros_body (by decide)]
    rfl
  refine (announces_iff (Env.amd64_allocSucceeds 0) (fun m _ _ => ⟨_, rfl, rfl, rfl⟩) (zeros_known (by decide))
    (Buffer.ofBytes_wf (by decide)) _ ?_ World.start).2 ⟨rfl, ?_⟩
  · rw [hsize]
    decide
  · rw [hsize]
    decide

private theorem not_announces_zeros {n : Nat} (hn : n < 2 ^ 32) (hwrap : 2 ^ 32 ≤ 4 + n) :
    ¬ Exec.Returns (protocolWritePacket (Env.amd64 0) (zeros n) (Buffer.ofBytes []) none) World.start
      (fun r _ => Announces (Env.amd64 0) (zeros n) (Buffer.ofBytes []) r) := by
  intro ⟨r, w', hrun, hr⟩
  have hsize : (zeros n).bodySize (Env.amd64 0) none = 4 + n := zeros_body hn
  have hword : (Env.amd64 0).word = 2 ^ 64 := rfl
  obtain ⟨body, hlen, hcode, -, hcont⟩ := (writePacket_appends (Env.amd64_allocSucceeds 0)
    (fun m _ _ => ⟨_, rfl, rfl, rfl⟩) (zeros_known hn) (Buffer.ofBytes_wf (by decide)) none
    (by rw [hsize, hword]; show 2 * (0 + (8 + (4 + n))) ≤ _; omega) rfl World.start).ensures r w' hrun
  rcases hr with hne | ⟨body', hsize', hcont'⟩
  · exact hne hcode
  · have hl := congrArg List.length (hcont.symm.trans hcont')
    simp only [List.length_append, length_wire32, length_wire16] at hl
    have hlt := r.2.1.size.toNat_lt
    omega

/-- The longest string there is: with the four bytes of its length the body has 2^32 + 3 bytes, and the header
announces three. -/
theorem not_announces_longest :
    ¬ Exec.Returns (protocolWritePacket (Env.amd64 0) (zeros (2 ^ 32 - 1)) (Buffer.ofBytes []) none) World.start
      (fun r _ => Announces (Env.amd64 0) (zeros (2 ^ 32 - 1)) (Buffer.ofBytes []) r) :=
  not_announces_zeros (by decide) (by decide)

end Excom
