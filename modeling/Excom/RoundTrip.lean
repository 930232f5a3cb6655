import Excom.Framing
import Excom.WritePacket

/-!
# Streams of packets in one buffer

A list of packets is written into a buffer, one frame behind the other (`writeAll`), and read back from the
place where the first frame starts (`readAll`).  Without encryption this gives the packets again and leaves
the cursor where the frames end (`stream_round_trip`).
-/

namespace Excom

variable (E : Env)

/-- `excom_protocol_write_packet` for each packet of a list: the codes, and the packets with their sizes
filled in. -/
def writeAll : List Packet → Buffer → Option Encrypt → M (List (Int × Packet) × Buffer × Option Encrypt)
  | [], o, enc => pure ([], o, enc)
  | p :: ps, o, enc => do
    let (code, p, o, enc) ← protocolWritePacket E p o enc
    let (written, o, enc) ← writeAll ps o enc
    return ((code, p) :: written, o, enc)

/-- `excom_protocol_read_packet`, `n` times. -/
def readAll : Nat → Buffer → Option Encrypt → M (List (Int × Packet) × Buffer × Option Encrypt)
  | 0, input, enc => pure ([], input, enc)
  | n + 1, input, enc => do
    let (code, p, input, enc) ← protocolReadPacket E input enc
    let (received, input, enc) ← readAll n input enc
    return ((code, p) :: received, input, enc)

/-- The frames of a list of packets. -/
def frames (ps : List Packet) : Bytes := ps.flatMap (Packet.frame E)

/-- The packet with its size filled in. -/
def Packet.sized (p : Packet) : Packet := { p with size := UInt32.ofNat (p.body E).length }

/-- What a server queues for a packet. -/
def described (p : Packet) : UInt32 × Message := ((p.sized E).size, p.message)

variable {E}

@[simp] theorem frames_nil : frames E [] = [] := rfl

@[simp] theorem frames_cons (p : Packet) (ps : List Packet) : frames E (p :: ps) = p.frame E ++ frames E ps :=
    rfl

/-- A frame has its header. -/
theorem length_frames_ge (ps : List Packet) : ps.length * 8 ≤ (frames E ps).length := by
  induction ps with
  | nil => exact Nat.zero_le _
  | cons p ps ih =>
    rw [frames_cons, List.length_append, List.length_cons, p.length_frame]
    omega

/-- The frames go behind the contents, one after the other. -/
theorem writeAll_returns (hA : E.AllocSucceeds) {ps : List Packet} (hknown : ∀ p ∈ ps, ∃ t, p.Known t)
    {o : Buffer} (ho : o.WF E) (hm : o.unmutable = false) {enc : Option Encrypt} (henc : activeKeys enc = none)
    (hfit : 2 * (o.used + (frames E ps).length) ≤ E.word) (w : World) :
    Exec.Returns (writeAll E ps o enc) w fun r _ => ∃ o', Buffer.Extends E o (frames E ps) o' ∧
      r = (ps.map fun p => (0, p.sized E), o', enc) := by
  induction ps generalizing o w with
  | nil => exact .pure ⟨o, .refl ho, rfl⟩
  | cons p ps ih =>
    rw [frames_cons, List.length_append] at *
    obtain ⟨t, hp⟩ := hknown p (List.mem_cons_self ..)
    unfold writeAll
    refine (writePacket_returns hA hp ho hm henc (by omega) w).bind ?_
    rintro _ w1 ⟨o1, h1, rfl⟩
    have hu := h1.used ho
    refine (ih (fun q hq => hknown q (List.mem_cons_of_mem _ hq)) h1.wf (h1.unmutable.trans hm)
      (by omega) w1).bind ?_
    rintro _ w2 ⟨o2, h2, rfl⟩
    exact .pure ⟨o2, h1.trans h2, rfl⟩

/-! ### Reading -/

theorem Buffer.unread_advance (b : Buffer) (n : Nat) :
    ({ b with pos := b.pos + n } : Buffer).unread = b.unread.drop n := by
  simp only [Buffer.unread, List.drop_drop]; rfl

/-- The frame of a known packet is complete, and has its header and body. -/
theorem Packet.Known.read_frame {p : Packet} {t : PacketType} (hp : p.Known t) (hE : E.littleEndian = true)
    (hsize : (p.body E).length < 2 ^ 32) (rest : Bytes) :
    Complete E (p.frame E ++ rest) ∧ (frameSize E (p.frame E ++ rest)).toNat = (p.body E).length ∧
      packetType? (frameType E (p.frame E ++ rest)) = some t := by
  have hf := p.framed hE rest
  have hs : (frameSize E (p.frame E ++ rest)).toNat = (p.body E).length := by
    rw [hf.size, UInt32.toNat_ofNat', Nat.mod_eq_of_lt hsize]
  refine ⟨?_, hs, by rw [hf.type, hp.type, packetType?_id]⟩
  rw [Complete, hs, List.length_append, p.length_frame]
  omega

/-- The frame of the first packet is decoded. -/
theorem decodes_frame (hE : E.littleEndian = true) {p : Packet} (hp : ∃ t, p.Known t)
    (hsize : (p.body E).length < 2 ^ 32) (rest : Bytes) :
    Decodes E (p.frame E ++ rest) (p.frame E).length (some (described E p)) := by
  obtain ⟨t, hp⟩ := hp
  have hf := p.framed hE rest
  obtain ⟨hc, hs, ht⟩ := hp.read_frame hE hsize rest
  have hb := Packet.frameBody_frame hE hsize rest
  have h := Decodes.known hc ht (hb.trans (List.append_nil (p.body E)).symm) (hp.body_body hE)
  rwa [← p.length_frame, hf.size, hf.id, hf.type] at h

/-- The decoder reads the frame of a packet at its cursor. -/
theorem readFrame_returns (hE : E.littleEndian = true) (hA : E.AllocSucceeds) {p : Packet} {t : PacketType}
    (hp : p.Known t) (hsize : (p.body E).length < 2 ^ 32) (hfit : 2 * (p.body E).length ≤ E.word)
    {input : Buffer}
    (hb : input.WF E) {rest : Bytes} (hrest : input.unread = p.frame E ++ rest) {enc : Option Encrypt}
    (henc : activeKeys enc = none) (w : World) :
    Exec.Returns (protocolReadPacket E input enc) w fun r _ => ∃ q,
      r = (0, q, { input with pos := input.pos + (p.frame E).length }, enc) ∧ q.size = (p.sized E).size ∧
        q.message = p.message ∧ q.Known t := by
  obtain ⟨hc, hs, ht⟩ := hp.read_frame hE hsize rest
  obtain ⟨hahead, hsize', hid', htype', hbody'⟩ := Complete.ahead (E := E) hb.block_used
    (by rw [hrest]; exact hc)
  have hf := p.framed hE rest
  rw [hrest] at hsize' hid' htype' hbody'
  refine (readPacket_returns input enc hA henc hahead (by rw [hsize', hs]; exact hfit) (by rw [htype', ht])
    ((hbody'.trans (Packet.frameBody_frame hE hsize rest)).trans (List.append_nil _).symm)
    (hp.body_body hE) w).mono ?_
  rintro _ w' ⟨-, data, rfl, hdata, hvalid⟩
  refine ⟨⟨frameSize E input.ahead, frameId E input.ahead, frameType E input.ahead, data⟩, ?_, ?_, ?_, ?_⟩
  · rw [p.length_frame]
  · show frameSize E input.ahead = _
    rw [hsize', hf.size]; rfl
  · simp only [Packet.message, hid', hf.id, hdata, htype', hf.type]
  · refine ⟨by rw [← hp.type, ← hf.type, ← htype'], ?_, hvalid⟩
    rw [← hp.field_content, ← hdata]
    simp [Function.comp_def]

/-- What the decoder reports of a packet: its code, its size and what it says. -/
def report (r : Int × Packet) : Int × UInt32 × Message := (r.1, r.2.size, r.2.message)

/-- The decoder reads the frames at its cursor, and stops behind them. -/
theorem readAll_returns (hE : E.littleEndian = true) (hA : E.AllocSucceeds) {ps : List Packet}
    (hknown : ∀ p ∈ ps, ∃ t, p.Known t) (hsize : ∀ p ∈ ps, (p.body E).length < 2 ^ 32) (input : Buffer)
    (hb : input.WF E) (hfit : 2 * input.used ≤ E.word) {rest : Bytes}
    (hrest : input.unread = frames E ps ++ rest) {enc : Option Encrypt} (henc : activeKeys enc = none)
    (w : World) :
    Exec.Returns (readAll E ps.length input enc) w fun r _ =>
      r.1.map report = ps.map (fun p => (0, (p.sized E).size, p.message)) ∧
        r.2 = ({ input with pos := input.pos + (frames E ps).length }, enc) := by
  induction ps generalizing input w with
  | nil => exact .pure ⟨rfl, rfl⟩
  | cons p ps ih =>
    rw [frames_cons, List.append_assoc] at hrest
    obtain ⟨t, hp⟩ := hknown p (List.mem_cons_self ..)
    have hlen := hb.length_unread
    rw [hrest, List.length_append, p.length_frame] at hlen
    show Exec.Returns (readAll E (ps.length + 1) input enc) w _
    unfold readAll
    refine (readFrame_returns hE hA hp (hsize p (List.mem_cons_self ..)) (by omega) hb hrest henc w).bind ?_
    rintro _ w1 ⟨q, rfl, hq, hmsg, -⟩
    refine (ih (fun q h => hknown q (List.mem_cons_of_mem _ h)) (fun q h => hsize q (List.mem_cons_of_mem _ h))
      { input with pos := input.pos + (p.frame E).length } ⟨hb.mutex, hb.block, hb.used_le, hb.max_lt⟩ hfit
      (by rw [Buffer.unread_advance, hrest, List.drop_left]) w1).bind ?_
    rintro ⟨received, r⟩ w2 ⟨hrec, hr⟩
    obtain rfl := hr
    refine .pure ⟨?_, ?_⟩
    · rw [List.map_cons, List.map_cons, hrec, report, hq, hmsg]
    · rw [frames_cons, List.length_append, Nat.add_assoc]

/-- Write the packets, then further bytes, and read from where the first frame starts. -/
def writeThenRead (E : Env) (ps : List Packet) (suffix : Bytes) (o : Buffer) (enc : Option Encrypt) :
    M (List (Int × Packet) × List (Int × Packet) × Buffer) := do
  let (written, o', enc) ← writeAll E ps o enc
  let (_, o') ← o'.cappend E suffix suffix.length
  let (received, input, _) ← readAll E ps.length { o' with pos := o.used } enc
  return (written, received, input)

/-- On a little-endian host a stream of packets of known types is read back as it was written. -/
theorem stream_round_trip (hE : E.littleEndian = true) (hA : E.AllocSucceeds) {ps : List Packet}
    (hknown : ∀ p ∈ ps, ∃ t, p.Known t) (hsize : ∀ p ∈ ps, (p.body E).length < 2 ^ 32 - 8) (suffix : Bytes)
    {o : Buffer} (ho : o.WF E) (hm : o.unmutable = false)
    (hfit : 2 * (o.used + (frames E ps).length + suffix.length) < E.word) {enc : Option Encrypt}
    (henc : activeKeys enc = none) (w : World) :
    Exec.Returns (writeThenRead E ps suffix o enc) w fun r _ =>
      (∀ x ∈ r.1, x.1 = 0) ∧ r.2.1.map report = r.1.map report ∧
      r.1.map (fun x => x.2.message) = ps.map Packet.message ∧
      r.2.2.contents = o.contents ++ frames E ps ++ suffix ∧
      r.2.2.pos = (o.contents ++ frames E ps).length := by
  unfold writeThenRead
  refine (writeAll_returns hA hknown ho hm henc (by omega) w).bind ?_
  rintro _ w1 ⟨o1, h1, rfl⟩
  have hu1 := h1.used ho
  refine (cappend_extends hA h1.wf (h1.unmutable.trans hm) suffix _ (Nat.le_refl suffix.length)
    (by rw [hu1]; omega) w1).bind ?_
  rintro ⟨_, o2⟩ w2 h2
  have h := h1.trans h2
  rw [List.take_length] at h
  have hu2 : o2.used = _ := h.used ho
  rw [List.length_append] at hu2
  have hcont := h.contents
  rw [← List.append_assoc] at hcont
  have hunread : ({ o2 with pos := o.used } : Buffer).unread = frames E ps ++ suffix := by
    show o2.contents.drop o.used = _
    rw [hcont, List.append_assoc, List.drop_left' ho.length_contents]
  refine (readAll_returns hE hA hknown (fun p hp => by have := hsize p hp; omega) { o2 with pos := o.used }
    ⟨h.wf.mutex, h.wf.block, h.wf.used_le, h.wf.max_lt⟩ (by show 2 * o2.used ≤ _; omega) hunread henc w2).bind
      ?_
  rintro ⟨received, input, enc'⟩ w3 ⟨hrec, hr⟩
  cases hr
  refine .pure ⟨by simp, ?_, by simp [Packet.sized, Packet.message], ?_, ?_⟩
  · rw [hrec]
    simp [Packet.sized, Packet.message, report]
  · exact hcont
  · rw [List.length_append, ho.length_contents]

/-- A rejection and a public key of two bytes behind one byte, with one more byte behind them. -/
theorem stream_round_trip_two :
    Exec.Returns (writeThenRead (Env.amd64 0)
      [⟨0, 1, 2, [.number 5]⟩, ⟨0, 7, 7, [.string ⟨2, some ⟨1, [0, 9]⟩, false⟩]⟩] [42]
        (Buffer.ofBytes [7]) none)
      { World.start with allocs := 2 } fun r _ => (∀ x ∈ r.1, x.1 = 0) ∧ r.2.1.map report = r.1.map report ∧
        r.1.map (fun x => x.2.message) = [⟨1, 2, [.number 5]⟩, ⟨7, 7, [.string [0, 9]]⟩] ∧
        r.2.2.contents = [7] ++ frames (Env.amd64 0)
          [⟨0, 1, 2, [.number 5]⟩, ⟨0, 7, 7, [.string ⟨2, some ⟨1, [0, 9]⟩, false⟩]⟩] ++ [42] ∧
        r.2.2.pos = 24 :=
  stream_round_trip rfl (Env.amd64_allocSucceeds 0)
    (by
      intro p hp
      rcases List.mem_cons.1 hp with rfl | hp
      · exact ⟨.reject, rfl, rfl, by simp⟩
      · obtain rfl := List.mem_singleton.1 hp
        exact ⟨.publicKey, rfl, rfl, by simp [ExcomString.Valid]⟩)
    (by
      intro p hp
      rcases List.mem_cons.1 hp with rfl | hp
      · decide
      · obtain rfl := List.mem_singleton.1 hp
        decide) [42] (Buffer.ofBytes_wf (by decide)) rfl (by decide) rfl _

end Excom
