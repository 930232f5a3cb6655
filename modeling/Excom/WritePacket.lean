import Excom.BufferLemmas
import Excom.Frame
import Excom.Protocol

/-!
# What the encoder does

On a connection without encryption `excom_protocol_write_packet` appends the frame of the packet to the buffer
it is given (`writePacket_returns`), as long as the buffer can grow.
-/

namespace Excom

variable {E : Env}

section Write

variable (hA : E.AllocSucceeds) {b : Buffer} (hb : b.WF E) (hm : b.unmutable = false)

include hA hb hm

/-- One append to a buffer that stays below half the range of `size_t`. -/
theorem cappend_extends (str : Bytes) (size : Nat) (hlen : size ≤ str.length)
    (hfit : 2 * (b.used + size) ≤ E.word)
    (w : World) : Exec.Returns (b.cappend E str size) w fun r _ => Buffer.Extends E b (str.take size) r.2 :=
  (Buffer.cappend_returns (P := fun _ => True) hA hb (Or.inr fun _ => trivial) hm hlen
    (Buffer.canGrow_of_le hfit) w).mono fun _ _ h => h.2.2.2.extends

private theorem writeField_returns {v : Value} (hv : ∀ s, v = .string s → s.Valid)
    (hfit : 2 * (b.used + (v.content.encode E).length) ≤ E.word) (size : UInt32) (w : World) :
    Exec.Returns (writeField E b size v) w fun r _ => Buffer.Extends E b (v.content.encode E) r.1 ∧
      r.2 = size + UInt32.ofNat (v.content.encode E).length := by
  cases v with
  | number n =>
    unfold writeField
    refine (cappend_extends hA hb hm (packUint8 scratch n).2 1 (by simp [packUint8, scratch])
      hfit w).bind ?_
    rintro ⟨_, b1⟩ w1 h1
    exact .pure ⟨h1, rfl⟩
  | string s =>
    have hs := hv s rfl
    have hlen : s.bytes.length = s.size.toNat := hs.length_bytes
    have henc : (Value.string s).content.encode E = wire32 E s.size ++ s.bytes := by
      simp only [Value.content, Content.encode, hlen, UInt32.ofNat_toNat]
    rw [henc] at hfit ⊢
    rw [List.length_append, length_wire32, hlen] at hfit
    unfold writeField
    refine (cappend_extends hA hb hm (wire32 E s.size) 4 (Nat.le_refl _) (by omega) w).bind ?_
    rintro ⟨_, b1⟩ w1 h1
    have hu : b1.used = b.used + 4 := h1.used hb
    refine (Buffer.sappend_returns (P := fun _ => True) hA h1.wf (Or.inr fun _ => trivial)
      (h1.unmutable.trans hm) hs (Buffer.canGrow_of_le (by rw [hu]; omega)) (fun _ _ => trivial) w1).bind ?_
    rintro ⟨_, b2⟩ w2 ⟨-, -, h2⟩
    refine .pure ⟨h1.trans h2.extends, ?_⟩
    rw [List.length_append, length_wire32, hlen, UInt32.ofNat_add, UInt32.ofNat_toNat]
    rfl

end Write

/-- The encoder of a body appends its values one after the other, and counts their bytes. -/
theorem writeFields_returns (hA : E.AllocSucceeds) {vs : List Value} (hvs : ∀ s, Value.string s ∈ vs → s.Valid)
    {b : Buffer} (hb : b.WF E) (hm : b.unmutable = false)
    (hfit : 2 * (b.used + (encodeBody E (vs.map Value.content)).length) ≤ E.word) (size : UInt32) (w : World) :
    Exec.Returns (writeFields E b size vs) w fun r _ => Buffer.Extends E b
      (encodeBody E (vs.map Value.content)) r.1 ∧
      r.2 = size + UInt32.ofNat (encodeBody E (vs.map Value.content)).length := by
  induction vs generalizing b size w with
  | nil => exact .pure ⟨.refl hb, (UInt32.add_zero size).symm⟩
  | cons v vs ih =>
    rw [List.map_cons, encodeBody_cons, List.length_append] at *
    unfold writeFields
    refine (writeField_returns hA hb hm (v := v) (fun s h => hvs s (h ▸ List.mem_cons_self ..))
      (by omega) size w).bind ?_
    rintro ⟨b1, size1⟩ w1 ⟨h1, rfl⟩
    have hu : b1.used = _ := h1.used hb
    refine (ih (fun s h => hvs s (List.mem_cons_of_mem _ h)) h1.wf (h1.unmutable.trans hm) (by rw [hu]; omega) _
      w1).mono ?_
    rintro ⟨b2, size2⟩ w2 ⟨h2, rfl⟩
    exact ⟨h1.trans h2, by rw [UInt32.ofNat_add, UInt32.add_assoc]⟩

/-- The encoder of a header. -/
theorem writeHeader_returns (hA : E.AllocSucceeds) {b : Buffer} (hb : b.WF E) (hm : b.unmutable = false)
    (packet : Packet) (hfit : 2 * (b.used + 8) ≤ E.word) (w : World) :
    Exec.Returns (writeHeader E packet b) w fun b' _ =>
      Buffer.Extends E b (wire32 E packet.size ++ wire16 E packet.id ++ wire16 E packet.type) b' := by
  unfold writeHeader
  refine (cappend_extends hA hb hm (wire32 E packet.size) 4 (Nat.le_refl _) (by omega) w).bind ?_
  rintro ⟨_, b1⟩ w1 h1
  have hu1 : b1.used = b.used + 4 := h1.used hb
  refine (cappend_extends hA h1.wf (h1.unmutable.trans hm) (packUint16 E scratch packet.id).2 2
    (by rw [(packUint16_scratch scratch rfl _).2.2]; decide) (by show 2 * (b1.used + 2) ≤ _; omega) w1).bind ?_
  rintro ⟨_, b2⟩ w2 h2
  have h12 := h1.trans h2
  have hu2 : b2.used = b.used + 6 := h12.used hb
  refine (cappend_extends hA h12.wf (h12.unmutable.trans hm) (packUint16 E scratch packet.type).2 2
    (by rw [(packUint16_scratch scratch rfl _).2.2]; decide) (by show 2 * (b2.used + 2) ≤ _; omega) w2).bind ?_
  rintro ⟨_, b3⟩ w3 h3
  exact .pure (h12.trans h3)

/-- The body that is put together in the temporary buffer. -/
theorem writeData_returns (hA : E.AllocSucceeds) {p : Packet} {t : PacketType} (hp : p.Known t) {b : Buffer}
    (hb : Buffer.Empty E 32 b) (hfit : 2 * (p.body E).length ≤ E.word) (w : World) :
    Exec.Returns (writeData E b p) w fun r _ => r.1.WF E ∧ r.1.contents = p.body E ∧ r.1.pos = 0 ∧
      r.1.unmutable = false ∧ r.2 = UInt32.ofNat (p.body E).length := by
  unfold writeData
  rw [hp.type, packetType?_id]
  refine (writeFields_returns hA hp.valid hb.wf hb.unmutable (by rw [hb.used, Nat.zero_add]; exact hfit) 0
    w).mono ?_
  rintro ⟨b1, size⟩ w1 ⟨h, rfl⟩
  refine ⟨h.wf, ?_, ?_, h.unmutable.trans hb.unmutable, UInt32.zero_add _⟩
  · rw [h.contents, hb.contents, List.nil_append]; rfl
  · rw [h.pos (by rw [hb.pos]; decide), hb.pos]

/-- The encoder appends the frame of the packet. -/
theorem writePacket_returns (hA : E.AllocSucceeds) {p : Packet} {t : PacketType} (hp : p.Known t) {o : Buffer}
    (ho : o.WF E) (hm : o.unmutable = false) {enc : Option Encrypt} (henc : activeKeys enc = none)
    (hfit : 2 * (o.used + (p.frame E).length) ≤ E.word) (w : World) :
    Exec.Returns (protocolWritePacket E p o enc) w fun r _ => ∃ o', Buffer.Extends E o (p.frame E) o' ∧
      r = (0, { p with size := UInt32.ofNat (p.body E).length }, o', enc) := by
  have h32 := E.le_word
  rw [Packet.length_frame] at hfit
  have hne := hp.type_ne
  unfold protocolWritePacket
  refine (Buffer.init_returns hA 32 (by omega) (fun _ => True) w).bind ?_
  rintro ⟨_, buf⟩ w1 ⟨-, -, hbuf, -⟩
  refine (Buffer.init_returns hA 32 (by omega) (fun _ => True) w1).bind ?_
  rintro ⟨_, buf2⟩ w2 -
  simp only [hne, if_false]
  refine (writeData_returns hA hp hbuf (by omega) w2).bind ?_
  rintro ⟨body, size⟩ w3 ⟨hwf, hcont, hpos, hmut, rfl⟩
  simp only [sealedSize, writeBody, henc, Exec.pure_bind, Exec.bind_assoc]
  refine (writeHeader_returns hA ho hm { p with size := UInt32.ofNat (p.body E).length } (by omega) w3).bind ?_
  rintro o1 w4 h1
  have hu1 : o1.used = o.used + 8 := h1.used ho
  have hused : body.used = (p.body E).length := by rw [← hcont, hwf.length_contents]
  refine (Buffer.bappend2_returns (P := fun _ => True) hA h1.wf (Or.inr fun _ => trivial)
    (h1.unmutable.trans hm)
    body hwf.block_used (Buffer.canGrow_of_le (by rw [hu1, hused]; omega)) (fun _ _ => trivial) w4).bind ?_
  rintro ⟨_, o2⟩ w5 ⟨-, -, -, h2⟩
  refine (Buffer.destroy_returns (fun _ => True) body w5).bind ?_
  rintro - w6 -
  refine (Buffer.destroy_returns (fun _ => True) buf2 w6).bind ?_
  rintro - w7 -
  refine .pure ⟨o2, ?_, rfl⟩
  have h2' := h2.extends
  change Buffer.Extends E o1 body.contents o2 at h2'
  rw [hcont] at h2'
  exact h1.trans h2'

/-- A packet without a body is written in the same way whatever the keys are: there is nothing to encrypt. -/
theorem writeBare_returns (hA : E.AllocSucceeds) {p : Packet} {t : PacketType} (hp : p.Known t)
    (hbody : p.body E = []) {o : Buffer} (ho : o.WF E) (hm : o.unmutable = false) (keys : Encrypt)
    (hfit : 2 * (o.used + 8) ≤ E.word) (w : World) :
    Exec.Returns (protocolWritePacket E p o (some keys)) w fun r _ => ∃ o', Buffer.Extends E o (p.frame E) o' ∧
      r = (0, { p with size := 0 }, o', some keys) := by
  have h32 := E.le_word
  have hlen : (p.body E).length = 0 := by rw [hbody]; rfl
  rcases hactive : activeKeys (some keys) with _ | keys'
  · refine (writePacket_returns hA hp ho hm hactive (by rw [Packet.length_frame, hlen]; exact hfit) w).mono ?_
    rintro _ w1 ⟨o', hext, rfl⟩
    exact ⟨o', hext, by rw [hlen]; rfl⟩
  obtain rfl := activeKeys_eq hactive
  have hne := hp.type_ne
  unfold protocolWritePacket
  refine (Buffer.init_returns hA 32 (by omega) (fun _ => True) w).bind ?_
  rintro ⟨_, buf⟩ w1 ⟨-, -, hbuf, -⟩
  refine (Buffer.init_returns hA 32 (by omega) (fun _ => True) w1).bind ?_
  rintro ⟨_, buf2⟩ w2 ⟨-, -, hbuf2, -⟩
  simp only [hne, if_false]
  refine (writeData_returns hA hp hbuf (by rw [hlen]; exact Nat.zero_le _) w2).bind ?_
  rintro ⟨body, size⟩ w3 ⟨hwf, hcont, hpos, hmut, -⟩
  have hused : body.used = 0 := by rw [← hwf.length_contents, hcont, hlen]
  have hrem : body.remaining E = 0 := by rw [Buffer.remaining_eq hwf (by omega), hused, Nat.zero_sub]
  have henc : ∀ out, pencryptBuffer E keys body out = pure (0, keys, out) := by
    intro out
    unfold pencryptBuffer pencryptBuffer2
    rw [hrem, if_pos rfl]
  have hsize : UInt32.ofNat buf2.used = 0 := congrArg UInt32.ofNat hbuf2.used
  simp only [sealedSize, writeBody, hactive, henc, Exec.pure_bind, hsize]
  refine (writeHeader_returns hA ho hm { p with size := 0 } hfit w3).bind ?_
  rintro o1 w4 h1
  refine (Buffer.destroy_returns (fun _ => True) body w4).bind ?_
  rintro - w5 -
  refine (Buffer.destroy_returns (fun _ => True) buf2 w5).bind ?_
  rintro - w6 -
  refine .pure ⟨o1, ?_, rfl⟩
  have hframe : p.frame E = wire32 E 0 ++ wire16 E p.id ++ wire16 E p.type := by
    rw [Packet.frame, hbody, List.append_nil]
    rfl
  rw [hframe]
  exact h1

end Excom
