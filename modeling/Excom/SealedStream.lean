import Excom.FrameContents
import Excom.RoundTrip
import Mathlib.Algebra.Order.BigOperators.Group.List
import Mathlib.Algebra.Order.Group.Nat

/-!
# Encrypted streams

Two parties that share a key and have switched encryption on: one writes a list of packets into a buffer, the
other reads them (`transfer`).  The decoder does not account for the zero bytes in front of an encrypted
message, so its cursor stays 32 bytes short after each body that is not empty (`readSealed_returns`).  The
transfer therefore works, whatever libsodium and its nonces are, exactly for the packets that have no body
(`always_transfers_iff`).
-/

namespace Excom

variable (E : Env)

/-- The bytes of a packet on an encrypted connection. -/
def SealedFrame (key : Key) (p : Packet) (f : Bytes) : Prop :=
  ∃ s, SealedBody E key (p.body E) s ∧ f = wire32 E (UInt32.ofNat s.length) ++ wire16 E p.id ++
    wire16 E p.type ++ s

/-- The number of these bytes. -/
def Packet.sealedFrameSize (p : Packet) : Nat := 8 + sealedLength (p.body E).length

/-- Write the packets into a new buffer, and read as many from it. -/
def transfer (start : Nat) (ps : List Packet) (sender receiver : Encrypt) :
    M (List (Int × Packet) × Buffer) := do
  let (_, o) ← Buffer.init E start
  let (_, o, _) ← writeAll E ps o (some sender)
  let (received, input, _) ← readAll E ps.length o (some receiver)
  return (received, input)

/-- Between parties that share a key, each read returns `0`, the packets arrive in order, and nothing remains.
-/
def Transfers (ps : List Packet) : Prop :=
  ∀ start w (sender receiver : Encrypt), start < E.word → sender.remote.active = true →
    receiver.remote.active = true → sender.sharedKey E = receiver.sharedKey E →
    Exec.Returns (transfer E start ps sender receiver) w fun r _ => (∀ x ∈ r.1, x.1 = 0) ∧
      r.1.map (fun x => x.2.message) = ps.map Packet.message ∧ r.2.remaining E = 0

/-- The packets are transferred, whatever libsodium as documented, the nonces and the fresh blocks are. -/
def AlwaysTransfers (ps : List Packet) : Prop :=
  ∀ (sodium : Sodium) (nonces : Nat → Nonce) (junk : Nat → Nat → UInt8), sodium.Lawful →
    Transfers { E with sodium, randombytes := nonces, malloc := fun k => some (junk k) } ps

variable {E}

/-- The length of a sealed frame is what the encoder announces. -/
theorem SealedFrame.length (hS : E.sodium.Lawful) {key : Key} {p : Packet} {f : Bytes}
    (h : SealedFrame E key p f) : f.length = p.sealedFrameSize E := by
  obtain ⟨s, hs, rfl⟩ := h
  simp only [List.length_append, length_wire32, length_wire16, hs.length hS, Packet.sealedFrameSize]

/-! ### Writing -/

section Write

variable (hA : E.AllocSucceeds) (hS : E.sodium.Lawful)

include hA hS

/-- The encoder of an encrypted connection appends the sealed frame of the packet. -/
theorem writeSealed_returns {p : Packet} {t : PacketType} (hp : p.Known t) {o : Buffer} (ho : o.WF E)
    (hm : o.unmutable = false) {keys : Encrypt} (hactive : keys.remote.active = true)
    (hfit : 2 * (o.used + p.sealedFrameSize E) ≤ E.word) (w : World) :
    Exec.Returns (protocolWritePacket E p o (some keys)) w fun r _ => ∃ f keys' o',
      SealedFrame E (keys.sharedKey E) p f ∧
        r = (0, { p with size := UInt32.ofNat (sealedLength (p.body E).length) }, o', some keys') ∧
        SameKeys E keys keys' ∧ Buffer.Extends E o f o' := by
  have h32 := E.le_word
  rw [Packet.sealedFrameSize] at hfit
  have hle : (p.body E).length ≤ sealedLength (p.body E).length := by unfold sealedLength; split <;> omega
  have hne := hp.type_ne
  unfold protocolWritePacket
  refine (Buffer.init_returns hA 32 (by omega) (fun _ => True) w).bind ?_
  rintro ⟨_, buf⟩ w1 ⟨-, -, hbuf, -⟩
  refine (Buffer.init_returns hA 32 (by omega) (fun _ => True) w1).bind ?_
  rintro ⟨_, buf2⟩ w2 ⟨-, -, hbuf2, -⟩
  simp only [hne, if_false]
  refine (writeData_returns hA hp hbuf (by omega) w2).bind ?_
  rintro ⟨body, size⟩ w3 ⟨hwf, hcont, hpos, hmut, -⟩
  have hused : body.used = (p.body E).length := by rw [← hcont, hwf.length_contents]
  unfold sealedSize writeBody
  rw [activeKeys_some hactive]
  simp only [Exec.bind_assoc, Exec.pure_bind]
  refine (pencryptBuffer_returns hA hS keys hwf hpos hbuf2.wf hbuf2.unmutable
    (by rw [hbuf2.used, hused]; omega) w3).bind ?_
  rintro _ w4 ⟨s, keys', buf2', hs, rfl, hkeys, hext⟩
  have hsize : buf2'.used = s.length := by rw [hext.used hbuf2.wf, hbuf2.used, Nat.zero_add]
  have hsl : s.length = sealedLength (p.body E).length := by rw [hs.length hS, hcont]
  simp only [hsize, hkeys.activeKeys hactive]
  refine (writeHeader_returns hA ho hm { p with size := UInt32.ofNat s.length } (by omega) w4).bind ?_
  intro o1 w5 h1
  have hu1 : o1.used = o.used + 8 := h1.used ho
  rw [Exec.bind_assoc]
  refine (pencryptBuffer_returns hA hS keys' hwf hpos h1.wf (h1.unmutable.trans hm)
    (by rw [hu1, hused]; omega) w5).bind ?_
  rintro _ w6 ⟨s', keys'', o2, hs', rfl, hkeys', h2⟩
  refine (Buffer.destroy_returns (fun _ => True) body w6).bind ?_
  intro _ w7 _
  refine (Buffer.destroy_returns (fun _ => True) buf2' w7).bind ?_
  intro _ w8 _
  have hsl' : s.length = s'.length := by rw [hsl, hs'.length hS, hcont]
  rw [hcont, hkeys.sharedKey] at hs'
  refine .pure ⟨_, keys'', o2, ⟨s', hs', rfl⟩, by rw [hsl], hkeys.trans hkeys', ?_⟩
  rw [← hsl']
  exact h1.trans h2

/-- The sealed frames go into the buffer one after the other. -/
theorem writeAllSealed_returns {ps : List Packet} (hknown : ∀ p ∈ ps, ∃ t, p.Known t) {o : Buffer} (ho : o.WF E)
    (hm : o.unmutable = false) (keys : Encrypt) (hactive : keys.remote.active = true)
    (hfit : 2 * (o.used + (ps.map (Packet.sealedFrameSize E)).sum) ≤ E.word) (w : World) :
    Exec.Returns (writeAll E ps o (some keys)) w fun r _ => ∃ fs,
      List.Forall₂ (SealedFrame E (keys.sharedKey E)) ps fs ∧ Buffer.Extends E o fs.flatten r.2.1 := by
  induction ps generalizing o keys w with
  | nil => exact .pure ⟨[], .nil, .refl ho⟩
  | cons p ps ih =>
    rw [List.map_cons, List.sum_cons] at hfit
    obtain ⟨t, hp⟩ := hknown p (List.mem_cons_self ..)
    unfold writeAll
    refine (writeSealed_returns hA hS hp ho hm hactive (by omega) w).bind ?_
    rintro _ w1 ⟨f, keys', o1, hf, rfl, hkeys, h1⟩
    have hu1 := h1.used ho
    rw [hf.length hS] at hu1
    refine (ih (fun q hq => hknown q (List.mem_cons_of_mem _ hq)) h1.wf (h1.unmutable.trans hm)
      keys' (by rw [hkeys.remote]; exact hactive) (by omega) w1).bind ?_
    rintro ⟨written, o2, enc⟩ w2 ⟨fs, hfs, h2⟩
    rw [hkeys.sharedKey] at hfs
    exact .pure ⟨f :: fs, .cons hf hfs, h1.trans h2⟩

end Write

/-! ### Reading -/

/-- The decoder of an encrypted connection gives the packet again.  Its cursor moves over the header, the
nonce and the bytes parsed, so the zero bytes of a body that is not empty are left over. -/
theorem readSealed_returns (hE : E.littleEndian = true) (hA : E.AllocSucceeds) (hS : E.sodium.Lawful)
    {p : Packet} {t : PacketType} (hp : p.Known t) (hsize : sealedLength (p.body E).length < 2 ^ 32)
    (hfit : 2 * sealedLength (p.body E).length ≤ E.word) {input : Buffer} (hb : input.WF E) {keys : Encrypt}
    {f rest : Bytes} (hf : SealedFrame E (keys.sharedKey E) p f) (hrest : input.unread = f ++ rest)
    (hactive : keys.remote.active = true) (w : World) :
    Exec.Returns (protocolReadPacket E input (some keys)) w fun r _ => ∃ q keys' n,
      r = (0, q, { input with pos := input.pos + n }, some keys') ∧ q.message = p.message ∧
        SameKeys E keys keys' ∧ n + (if p.body E = [] then 0 else 32) = f.length := by
  obtain ⟨s, hs, rfl⟩ := hf
  have hsl := hs.length hS
  have hfn : (UInt32.ofNat s.length).toNat = s.length := by
    rw [UInt32.toNat_ofNat', Nat.mod_eq_of_lt (by rw [hsl]; exact hsize)]
  rw [List.append_assoc] at hrest
  have hfs : frameSize E input.unread = UInt32.ofNat s.length := by rw [hrest, frameSize_header _ _ _ _ hE]
  have hfi : frameId E input.unread = p.id := by rw [hrest, frameId_header _ _ _ _ hE]
  have hft : frameType E input.unread = p.type := by rw [hrest, frameType_header, unpackUint16_wire16 hE]
  have hfb : frameBody E input.unread = s := by
    rw [frameBody, hfs, hfn, hrest, List.drop_left' (by simp), List.take_left]
  have hc : Complete E input.unread := by
    unfold Complete
    rw [hfs, hfn, hrest]
    simp only [List.length_append, length_wire32, length_wire16]
    omega
  have ht : packetType? (frameType E input.unread) = some t := by rw [hft, hp.type, packetType?_id]
  have hsays : Says E keys (p.body E ++ []) (frameBody E input.unread) := by
    rw [List.append_nil, hfb]
    exact hs.says hS hactive
  have hdenotes := Denotes.known hc ht hsays (hp.body_body hE)
  refine (readPacket_denotes hA hb.block_used (by rw [hfs, hfn, hsl]; exact hfit) hdenotes w).mono ?_
  rintro _ w' ⟨q, keys', rfl, hq, -, hkeys⟩
  refine ⟨q, keys', _, rfl, ?_, hkeys, ?_⟩
  · rw [hfi, hft] at hq
    exact congrArg Prod.snd hq
  · simp only [List.length_append, length_wire32, length_wire16, hsl, hfb]
    unfold SealedBody at hs
    unfold overhead sealedLength
    by_cases h0 : p.body E = []
    · rw [if_pos h0] at hs
      simp [h0, hs]
    · rw [if_neg h0] at hs
      have hne : s ≠ [] := by
        intro hnil
        have hl := hs.length hS
        rw [hnil, List.length_nil] at hl
        omega
      rw [if_neg h0, if_pos ⟨hactive, hne⟩, if_neg (by simpa using h0), show cryptoBoxNonceBytes = 24 from rfl]
      omega

private theorem wf_advance {b : Buffer} (hb : b.WF E) (n : Nat) : ({ b with pos := b.pos + n } : Buffer).WF E :=
  ⟨hb.mutex, hb.block, hb.used_le, hb.max_lt⟩

section Read

variable (hE : E.littleEndian = true) (hA : E.AllocSucceeds) (hS : E.sodium.Lawful) {ps : List Packet}
  (hknown : ∀ p ∈ ps, ∃ t, p.Known t) {key : Key} {fs : List Bytes}
    (hfs : List.Forall₂ (SealedFrame E key) ps fs)

include hE hA hS hknown hfs

private theorem readAllSealed_returns (hempty : ∀ p ∈ ps, p.body E = []) (keys : Encrypt)
    (hkey : keys.sharedKey E = key) (hactive : keys.remote.active = true) (input : Buffer) (hb : input.WF E)
    (hrest : input.unread = fs.flatten) (w : World) :
    Exec.Returns (readAll E ps.length input (some keys)) w fun r _ => (∀ x ∈ r.1, x.1 = 0) ∧
      r.1.map (fun x => x.2.message) = ps.map Packet.message ∧
        r.2.1 = { input with pos := input.pos + fs.flatten.length } := by
  induction hfs generalizing input keys w with
  | nil => exact .pure ⟨by simp, rfl, rfl⟩
  | @cons p f ps fs hf hfs ih =>
    have h32 := E.le_word
    obtain ⟨t, hp⟩ := hknown p (List.mem_cons_self ..)
    have h0 := hempty p (List.mem_cons_self ..)
    rw [List.flatten_cons] at hrest
    rw [← hkey] at hf
    show Exec.Returns (readAll E (ps.length + 1) input (some keys)) w _
    unfold readAll
    refine (readSealed_returns hE hA hS hp (by rw [h0]; decide) (by rw [h0]; exact Nat.zero_le _)
      hb hf hrest hactive w).bind ?_
    rintro _ w1 ⟨q, keys', n, rfl, hmsg, hkeys, hn⟩
    rw [if_pos h0, Nat.add_zero] at hn
    subst hn
    refine (ih (fun q hq => hknown q (List.mem_cons_of_mem _ hq))
      (fun q hq => hempty q (List.mem_cons_of_mem _ hq))
      keys' (hkeys.sharedKey.trans hkey) (by rw [hkeys.remote]; exact hactive)
      { input with pos := input.pos + f.length } (wf_advance hb _)
      (by rw [Buffer.unread_advance, hrest, List.drop_left]) w1).bind ?_
    rintro ⟨received, input', enc'⟩ w2 ⟨hcodes, hmsgs, rfl⟩
    refine .pure ⟨?_, ?_, ?_⟩
    · intro x hx
      rcases List.mem_cons.1 hx with rfl | hx
      · rfl
      · exact hcodes x hx
    · simp only [List.map_cons, hmsg, hmsgs]
    · rw [List.flatten_cons, List.length_append, ← Nat.add_assoc]

end Read

/-! ### A cipher that shows what is left over -/

/-- A cipher that puts the zero bytes at the end. -/
def rotating : Sodium where
  cryptoBoxBeforenm := fun pkey _ => pkey
  cryptoBoxAfternm := fun m _ _ => some (m.drop cryptoBoxZeroBytes ++ m.take cryptoBoxZeroBytes)
  cryptoBoxOpenAfternm := fun c _ _ =>
    some (c.drop (c.length - cryptoBoxZeroBytes) ++ c.take (c.length - cryptoBoxZeroBytes))

/-- The host with this cipher. -/
private def Env.rotated (E : Env) : Env :=
  { E with
    sodium := rotating
    randombytes := fun _ => Vector.replicate _ 0
    malloc := fun _ => some fun _ => 0 }

private theorem rotate_zeroBytes (m : Bytes) :
    (zeroBytes ++ m).drop cryptoBoxZeroBytes ++ (zeroBytes ++ m).take cryptoBoxZeroBytes = m ++ zeroBytes := by
  rw [List.drop_left' (i := cryptoBoxZeroBytes) rfl, List.take_left' (i := cryptoBoxZeroBytes) rfl]

/-- This cipher is as documented. -/
theorem rotating_lawful : rotating.Lawful := by
  intro m n k
  refine ⟨m ++ zeroBytes, congrArg some (rotate_zeroBytes m), ?_, ?_⟩
  · rw [List.length_append, List.length_append, Nat.add_comm]
  · have hl : (m ++ zeroBytes).length - cryptoBoxZeroBytes = m.length := by
      rw [List.length_append, length_zeroBytes]
      exact Nat.add_sub_cancel ..
    show some ((m ++ zeroBytes).drop _ ++ (m ++ zeroBytes).take _) = _
    rw [hl, List.drop_left, List.take_left]

section Left

variable (hA : E.AllocSucceeds) (hR : E.sodium = rotating)

include hR

/-- With it, what is left over after a body are zeros. -/
private theorem sealedFrame_drop {key : Key} {p : Packet} {f : Bytes} (hf : SealedFrame E key p f) {n : Nat}
    (h0 : p.body E ≠ []) (hn : n + 32 = f.length) : f.drop n = zeroBytes := by
  obtain ⟨s, hs, rfl⟩ := hf
  rw [SealedBody, if_neg h0] at hs
  obtain ⟨nonce, c, hc, rfl⟩ := hs
  rw [hR] at hc
  have hc : c = p.body E ++ zeroBytes := by
    rw [← rotate_zeroBytes]
    exact (Option.some.inj hc).symm
  rw [hc] at hn ⊢
  rw [← List.append_assoc, ← List.append_assoc] at hn ⊢
  refine List.drop_left' ?_
  rw [List.length_append, length_zeroBytes] at hn
  exact (Nat.add_right_cancel hn).symm

include hA

/-- A run of the decoder that reads everything with `0` each time has seen no bodies. -/
private theorem bodies_empty (hE : E.littleEndian = true) {ps : List Packet} (hknown : ∀ p ∈ ps, ∃ t, p.Known t)
    (hsize : ∀ p ∈ ps, sealedLength (p.body E).length < 2 ^ 32)
    (hroom : ∀ p ∈ ps, 2 * p.sealedFrameSize E ≤ E.word)
    {key : Key} {fs : List Bytes} (hfs : List.Forall₂ (SealedFrame E key) ps fs) {keys : Encrypt}
    (hkey : keys.sharedKey E = key) (hactive : keys.remote.active = true) (input : Buffer) (hb : input.WF E)
    (hpos : input.pos ≤ input.used) (hrest : input.unread = fs.flatten) (w : World) :
    Exec.Ensures (readAll E ps.length input (some keys)) w fun r _ =>
      (∀ x ∈ r.1, x.1 = 0) → r.2.1.remaining E = 0 → ∀ p ∈ ps, p.body E = [] := by
  induction hfs generalizing input keys w with
  | nil => exact fun _ _ _ _ _ p hp => absurd hp (List.not_mem_nil)
  | @cons p f ps fs hf hfs ih =>
    have h32 := E.le_word
    obtain ⟨t, hp⟩ := hknown p (List.mem_cons_self ..)
    have hps := hsize p (List.mem_cons_self ..)
    have hpr := hroom p (List.mem_cons_self ..)
    rw [Packet.sealedFrameSize] at hpr
    rw [List.flatten_cons] at hrest
    rw [← hkey] at hf
    have hul := hb.length_unread
    rw [hrest, List.length_append] at hul
    obtain ⟨_, w1, hrun, q, keys', n, rfl, -, hkeys, hn⟩ := readSealed_returns hE hA
      (by rw [hR]; exact rotating_lawful) hp (by omega) (by omega) hb hf hrest hactive w
    have hrest' : ({ input with pos := input.pos + n } : Buffer).unread = f.drop n ++ fs.flatten := by
      rw [Buffer.unread_advance, hrest, List.drop_append_of_le_length (by omega)]
    show Exec.Ensures (readAll E (ps.length + 1) input (some keys)) w _
    intro r w' hall hcodes hrem
    unfold readAll at hall
    rw [Exec.bind_of_ok hrun] at hall
    obtain ⟨⟨received, input', enc'⟩, w2, hread, hall⟩ := Exec.bind_eq_ok.1 hall
    cases hall
    -- after a body the cursor stops 32 bytes short of the next frame
    by_cases h0 : p.body E = []
    · rw [if_pos h0, Nat.add_zero] at hn
      rw [List.drop_eq_nil_of_le (by omega), List.nil_append] at hrest'
      have hrec := ih (fun q hq => hknown q (List.mem_cons_of_mem _ hq))
        (fun q hq => hsize q (List.mem_cons_of_mem _ hq))
        (fun q hq => hroom q (List.mem_cons_of_mem _ hq)) (hkeys.sharedKey.trans hkey)
        (by rw [hkeys.remote]; exact hactive) { input with pos := input.pos + n } (wf_advance hb n)
        (by show input.pos + n ≤ input.used; omega) hrest' w1 _ w' hread
        (fun x hx => hcodes x (List.mem_cons_of_mem _ hx)) hrem
      intro q hq
      rcases List.mem_cons.1 hq with rfl | hq
      · exact h0
      · exact hrec q hq
    · exfalso
      rw [if_neg h0] at hn
      rw [sealedFrame_drop hR hf h0 hn] at hrest'
      cases ps with
      | nil =>
        -- the zeros remain
        cases hread
        have hzero := Buffer.remaining_eq (wf_advance hb n) (by show input.pos + n ≤ input.used; omega)
        rw [hzero] at hrem
        change input.used - (input.pos + n) = 0 at hrem
        omega
      | cons p' ps =>
        -- the zeros are taken for the header of a packet of type `INVALID`
        obtain ⟨⟨code, q', input2, enc2⟩, w3, hread', hread⟩ := Exec.bind_eq_ok.1 hread
        obtain ⟨⟨received', input3, enc3⟩, w4, -, hread⟩ := Exec.bind_eq_ok.1 hread
        cases hread
        have hcode := readPacket_code _ _ _ _ _ hread'
        have htype : frameType E ({ input with pos := input.pos + n } : Buffer).ahead = packetInvalid := by
          rw [Buffer.ahead_eq (wf_advance hb n).block_used (by show input.pos + n ≤ input.used; omega), hrest',
            List.append_assoc, frameType_append (by decide)]
          exact UInt16.toNat_inj.1 (unpackUint16_bytes 0 0)
        rw [if_pos htype] at hcode
        have hzero := hcodes (code, q') (by simp)
        change code = 1 at hcode
        change code = 0 at hzero
        omega

end Left

/-- On a big-endian host the first packet comes with another type. -/
private theorem littleEndian_of_read {ps : List Packet} (hknown : ∀ p ∈ ps, ∃ t, p.Known t) {key : Key}
    {fs : List Bytes} (hfs : List.Forall₂ (SealedFrame E key) ps fs) (keys : Option Encrypt) (input : Buffer)
    (hb : input.WF E) (hpos : input.pos ≤ input.used) (hrest : input.unread = fs.flatten) (w : World) :
    Exec.Ensures (readAll E ps.length input keys) w fun r _ =>
      r.1.map (fun x => x.2.message) = ps.map Packet.message → E.littleEndian = true ∨ ps = [] := by
  cases hfs with
  | nil => exact fun _ _ _ _ => Or.inr rfl
  | @cons p f ps fs hf hfs =>
    obtain ⟨t, hp⟩ := hknown p (List.mem_cons_self ..)
    intro r w' hall hmsgs
    left
    by_contra hE
    have hE : E.littleEndian = false := by simpa using hE
    obtain ⟨⟨code, q, input', enc'⟩, w1, hread, hall⟩ := Exec.bind_eq_ok.1 hall
    obtain ⟨⟨received, input'', enc''⟩, w2, -, hall⟩ := Exec.bind_eq_ok.1 hall
    cases hall
    have htype : q.type = p.type := by
      have h := List.head_eq_of_cons_eq hmsgs
      exact congrArg Message.type h
    have hft : q.type = unpackUint16 E (wire16 E p.type) := by
      obtain ⟨s, -, rfl⟩ := hf
      rw [readPacket_type _ _ _ _ _ hread, Buffer.ahead_eq hb.block_used hpos, hrest, List.flatten_cons,
        List.append_assoc, List.append_assoc, frameType_header]
    have hswap := unpackUint16_wire16_big hE p.type
    rw [← hft, htype, hp.type] at hswap
    have := t.id_bounds
    omega

/-- What a run of the whole transfer says about the packets. -/
private theorem of_transfers (hA : E.AllocSucceeds) (hR : E.sodium = rotating) (ps : List Packet)
    (hknown : ∀ p ∈ ps, ∃ t, p.Known t) (hsize : ∀ p ∈ ps, sealedLength (p.body E).length < 2 ^ 32)
    (hroom : 2 * (ps.map (Packet.sealedFrameSize E)).sum ≤ E.word) (h : Transfers E ps) :
    (E.littleEndian = true ∨ ps = []) ∧ ∀ p ∈ ps, p.body E = [] := by
  have h32 := E.le_word
  have hS : E.sodium.Lawful := by rw [hR]; exact rotating_lawful
  let keys : Encrypt := ⟨⟨true, Vector.replicate _ 0⟩, ⟨Vector.replicate _ 0, Vector.replicate _ 0⟩,
    ⟨true, Vector.replicate _ 0⟩⟩
  obtain ⟨r, w', hrun, hcodes, hmsgs, hrem⟩ := h 16 World.start keys keys (by omega) rfl rfl rfl
  obtain ⟨⟨e, o⟩, w1, h1, -, -, ho, -⟩ := Buffer.init_returns hA 16 (by omega) (fun _ => True) World.start
  obtain ⟨⟨written, o', enc⟩, w2, h2, fs, hfs, hext⟩ := writeAllSealed_returns hA hS hknown ho.wf ho.unmutable
    keys rfl (by rw [ho.used, Nat.zero_add]; exact hroom) w1
  have hrun := (Exec.bind_of_ok h1 _).symm.trans hrun
  have hrun := (Exec.bind_of_ok h2 _).symm.trans hrun
  obtain ⟨⟨received, input, enc'⟩, w3, hread, hrun⟩ := Exec.bind_eq_ok.1 hrun
  cases hrun
  have hpos : o'.pos = 0 := by rw [hext.pos (by rw [ho.pos]; decide), ho.pos]
  have hunread : o'.unread = fs.flatten := by
    rw [Buffer.unread, hpos, List.drop_zero, hext.contents, ho.contents, List.nil_append]
  have hE := littleEndian_of_read hknown hfs (some keys) o' hext.wf (by rw [hpos]; exact Nat.zero_le _)
    hunread w2 _ _ hread hmsgs
  refine ⟨hE, ?_⟩
  rcases hE with hE | rfl
  · refine bodies_empty hA hR hE hknown hsize ?_ hfs rfl rfl o' hext.wf (by rw [hpos]; exact Nat.zero_le _)
      hunread w2 _ _ hread hcodes hrem
    intro p hp
    have := List.le_sum_of_mem (List.mem_map_of_mem (f := Packet.sealedFrameSize E) hp)
    omega
  · simp

private theorem transfers_of_empty (hA : E.AllocSucceeds) (hS : E.sodium.Lawful) {ps : List Packet}
    (hknown : ∀ p ∈ ps, ∃ t, p.Known t) (hroom : 2 * (ps.map (Packet.sealedFrameSize E)).sum ≤ E.word)
    (hE : E.littleEndian = true ∨ ps = []) (hempty : ∀ p ∈ ps, p.body E = []) : Transfers E ps := by
  intro start w sender receiver hstart hsend hrecv hkey
  unfold transfer
  refine (Buffer.init_returns hA start hstart (fun _ => True) w).bind ?_
  rintro ⟨e, o⟩ w1 ⟨-, -, ho, -⟩
  refine (writeAllSealed_returns hA hS hknown ho.wf ho.unmutable sender hsend
    (by rw [ho.used, Nat.zero_add]; exact hroom) w1).bind ?_
  rintro ⟨written, o', enc⟩ w2 ⟨fs, hfs, hext⟩
  have hpos : o'.pos = 0 := by rw [hext.pos (by rw [ho.pos]; decide), ho.pos]
  have hcont : o'.contents = fs.flatten := by rw [hext.contents, ho.contents, List.nil_append]
  have hused : o'.used = fs.flatten.length := by rw [← hcont, hext.wf.length_contents]
  have hread : Exec.Returns (readAll E ps.length o' (some receiver)) w2 fun r _ => (∀ x ∈ r.1, x.1 = 0) ∧
      r.1.map (fun x => x.2.message) = ps.map Packet.message ∧
        r.2.1 = { o' with pos := o'.pos + fs.flatten.length } := by
    rcases hE with hE | rfl
    · exact readAllSealed_returns hE hA hS hknown hfs hempty receiver hkey.symm hrecv o' hext.wf
        (by rw [Buffer.unread, hpos, List.drop_zero, hcont]) w2
    · cases hfs
      exact .pure ⟨by simp, rfl, rfl⟩
  refine hread.bind ?_
  rintro ⟨received, input, enc'⟩ w3 ⟨hcodes, hmsgs, rfl⟩
  refine .pure ⟨hcodes, hmsgs, ?_⟩
  have hle : ({ o' with pos := o'.pos + fs.flatten.length } : Buffer).pos ≤ o'.used := by
    show o'.pos + fs.flatten.length ≤ o'.used
    omega
  rw [Buffer.remaining_eq (wf_advance hext.wf _) hle]
  show o'.used - (o'.pos + fs.flatten.length) = 0
  omega

/-- Packets of known types, whose encrypted frames fit into their size field and into the buffer, are
transferred whatever libsodium does if and only if they have no bodies; on a big-endian host nothing is. -/
theorem always_transfers_iff {ps : List Packet} (hknown : ∀ p ∈ ps, ∃ t, p.Known t)
    (hsize : ∀ p ∈ ps, sealedLength (p.body E).length < 2 ^ 32)
    (hroom : 2 * (ps.map (Packet.sealedFrameSize E)).sum ≤ E.word) :
    AlwaysTransfers E ps ↔ (E.littleEndian = true ∨ ps = []) ∧ ∀ p ∈ ps, p.body E = [] := by
  constructor
  · intro h
    exact of_transfers (E := E.rotated) (fun _ => rfl) rfl ps hknown hsize hroom
      (h rotating (fun _ => Vector.replicate _ 0) (fun _ _ => 0) rotating_lawful)
  · intro h sodium nonces junk hS
    exact transfers_of_empty (E := { E with sodium, randombytes := nonces, malloc := fun k => some (junk k) })
      (fun _ => rfl) hS hknown hroom h.1 h.2

/-- Two packets without a body. -/
theorem always_transfers_ok_ping : AlwaysTransfers (Env.amd64 0) [⟨0, 1, 1, []⟩, ⟨0, 2, 5, []⟩] := by
  refine (always_transfers_iff ?_ ?_ (by decide)).2 ⟨Or.inl rfl, ?_⟩
  · intro p hp
    rcases List.mem_cons.1 hp with rfl | hp
    · exact ⟨.ok, rfl, rfl, by simp⟩
    · obtain rfl := List.mem_singleton.1 hp
      exact ⟨.ping, rfl, rfl, by simp⟩
  · intro p hp
    rcases List.mem_cons.1 hp with rfl | hp
    · decide
    · obtain rfl := List.mem_singleton.1 hp
      decide
  · intro p hp
    rcases List.mem_cons.1 hp with rfl | hp
    · rfl
    · obtain rfl := List.mem_singleton.1 hp
      rfl

/-- After a `REJECT` packet with its one byte, 32 bytes remain. -/
theorem not_always_transfers_reject : ¬ AlwaysTransfers (Env.amd64 0) [⟨0, 1, 2, [.number 5]⟩] := by
  intro h
  have hrun := of_transfers (E := (Env.amd64 0).rotated) (fun _ => rfl) rfl
    [⟨0, 1, 2, [.number 5]⟩] ?_ ?_ (by decide)
    (h rotating (fun _ => Vector.replicate _ 0) (fun _ _ => 0) rotating_lawful)
  · have := hrun.2 _ (List.mem_singleton.2 rfl)
    cases this
  · intro p hp
    obtain rfl := List.mem_singleton.1 hp
    exact ⟨.reject, rfl, rfl, by simp⟩
  · intro p hp
    obtain rfl := List.mem_singleton.1 hp
    decide

end Excom
