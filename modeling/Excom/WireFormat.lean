import Excom.Handlers
import Excom.Lib.PrefixCode
import Excom.RoundTrip

/-!
# The format as a code

The format of the frames as a code for messages.  The bodies that have the format are the ones that the encoder
makes (`body_iff`), so every well-formed frame is the frame of a packet (`WellFormed.exists_packet`), and a host
that reads well-formed frames and writes the packets again passes on the bytes that it got (`relay_intact`).  A
frame can be told from its bytes, whatever follows (`frames_code`), so what the encoder has written for one list of
packets is a prefix of what it has written for another one only if the packets say so (`written_prefix_iff`).
-/

namespace Excom

variable {E : Env}

/-! ### Bodies -/

/-- Values can be read off the bytes in one way only, whatever follows. -/
theorem Body.unique {fs : List Field} {bs bs' xs xs' : Bytes} {cs cs' : List Content} (h : Body E fs bs cs)
    (h' : Body E fs bs' cs') (hbs : bs ++ xs = bs' ++ xs') : bs = bs' ∧ cs = cs' := by
  induction h generalizing bs' cs' with
  | nil =>
    cases h'
    exact ⟨rfl, rfl⟩
  | @string fs len s bs cs hlen hsize _ ih =>
    cases h' with
    | @string _ len' s' bs' cs' hlen' hsize' h' =>
      simp only [List.append_assoc] at hbs
      obtain ⟨rfl, hbody⟩ := List.append_inj hbs (hlen.trans hlen'.symm)
      obtain ⟨rfl, hrest⟩ := List.append_inj hbody (hsize.symm.trans hsize')
      obtain ⟨rfl, rfl⟩ := ih h' hrest
      exact ⟨rfl, rfl⟩
  | @number fs n bs cs _ ih =>
    cases h' with
    | @number _ n' bs' cs' h' =>
      simp only [List.cons_append, List.cons.injEq] at hbs
      obtain ⟨rfl, hrest⟩ := hbs
      obtain ⟨rfl, rfl⟩ := ih h' hrest
      exact ⟨rfl, rfl⟩

private theorem Body.strings_lt {fs : List Field} {bs : Bytes} {cs : List Content} (h : Body E fs bs cs) {s : Bytes}
    (hs : Content.string s ∈ cs) : s.length < 2 ^ 32 := by
  induction h with
  | nil => simp at hs
  | string _ hsize _ ih =>
    rcases List.mem_cons.1 hs with he | hs
    · obtain rfl := Content.string.inj he
      rw [← hsize]
      exact UInt32.toNat_lt _
    · exact ih hs
  | number _ ih => exact ih (by simpa using hs)

private theorem Body.eq_encodeBody (hE : E.littleEndian = true) {fs : List Field} {bs : Bytes} {cs : List Content}
    (h : Body E fs bs cs) : bs = encodeBody E cs := by
  induction h with
  | nil => rfl
  | @string fs len s bs cs hlen hsize _ ih =>
    have hwire : wire32 E (UInt32.ofNat s.length) = len := by
      rw [← hsize, UInt32.ofNat_toNat]
      exact wire32_unpackUint32 hE hlen
    rw [encodeBody_cons, Content.encode, hwire, ← ih]
  | @number fs n bs cs _ ih =>
    rw [encodeBody_cons, ← ih]
    rfl

/-- The decoder takes apart exactly the bodies that the encoder makes. -/
theorem body_iff (hE : E.littleEndian = true) {fs : List Field} {bs : Bytes} {cs : List Content} :
    Body E fs bs cs ↔
      cs.map Content.field = fs ∧ (∀ s, Content.string s ∈ cs → s.length < 2 ^ 32) ∧ bs = encodeBody E cs := by
  constructor
  · intro h
    exact ⟨h.fields, fun s => h.strings_lt, h.eq_encodeBody hE⟩
  · rintro ⟨rfl, hs, rfl⟩
    exact body_encodeBody hE hs

/-! ### Frames -/

private theorem packetType?_eq {type : UInt16} {t : PacketType} (h : packetType? type = some t) : type = t.id := by
  have h := List.find?_some h
  exact (beq_iff_eq.1 h).symm

/-- The bytes are one frame and nothing behind it. -/
def Whole (E : Env) (f : Bytes) : Prop := f.length = 8 + (frameSize E f).toNat

/-- A frame that is all there is complete. -/
theorem Whole.complete {f : Bytes} (h : Whole E f) : Complete E f := Nat.le_of_eq h.symm

theorem Whole.frameBody {f : Bytes} (h : Whole E f) : frameBody E f = f.drop 8 := by
  unfold Whole at h
  rw [Excom.frameBody, List.take_of_length_le (by rw [List.length_drop]; omega)]

/-- A frame is its header and its body. -/
theorem Whole.eq_header (hE : E.littleEndian = true) {f : Bytes} (h : Whole E f) :
    f = wire32 E (frameSize E f) ++ wire16 E (frameId E f) ++ wire16 E (frameType E f) ++ Excom.frameBody E f := by
  rw [h.frameBody]
  unfold Whole at h
  unfold frameSize frameId frameType
  rw [wire32_unpackUint32 hE (by rw [List.length_take]; omega),
    wire16_unpackUint16 hE (by rw [List.length_take, List.length_drop]; omega),
    wire16_unpackUint16 hE (by rw [List.length_take, List.length_drop]; omega), List.append_assoc, List.append_assoc,
    show f.drop 8 = (f.drop 6).drop 2 by rw [List.drop_drop], List.take_append_drop,
    show f.drop 6 = (f.drop 4).drop 2 by rw [List.drop_drop], List.take_append_drop, List.take_append_drop]

/-- A value of a packet that says the same. -/
def Content.value : Content → Value
  | .string s => .string (.ofBytes s)
  | .number n => .number n

private theorem Content.content_value {c : Content} (h : ∀ s, c = .string s → s.length < 2 ^ 32) :
    c.value.content = c := by
  cases c with
  | string s => exact congrArg Content.string (ExcomString.bytes_ofBytes (h s rfl))
  | number n => rfl

/-- A well-formed frame is the frame of a packet. -/
theorem WellFormed.exists_packet (hE : E.littleEndian = true) {f : Bytes} (h : WellFormed E f) (hf : Whole E f) :
    ∃ p, (∃ t, Packet.Known p t) ∧ (p.body E).length < 2 ^ 32 ∧ p.frame E = f := by
  obtain ⟨t, cs, ht, hbody⟩ := h
  have hs : ∀ s, Content.string s ∈ cs → s.length < 2 ^ 32 := fun s => hbody.strings_lt
  have hcs : (cs.map Content.value).map Value.content = cs := by
    rw [List.map_map]
    refine (List.map_congr_left fun c hc => ?_).trans (List.map_id _)
    exact Content.content_value fun s he => hs s (he ▸ hc)
  let p : Packet := ⟨frameSize E f, frameId E f, frameType E f, cs.map Content.value⟩
  have hbody' : p.body E = frameBody E f := by
    show encodeBody E ((cs.map Content.value).map Value.content) = _
    rw [hcs, hbody.eq_encodeBody hE]
  refine ⟨p, ⟨t, ?_, ?_, ?_⟩, ?_, ?_⟩
  · exact packetType?_eq ht
  · rw [← hbody.fields, List.map_map]
    refine List.map_congr_left fun c _ => ?_
    cases c <;> rfl
  · intro s hv
    obtain ⟨c, hc, he⟩ := List.mem_map.1 hv
    cases c with
    | string s' =>
      obtain rfl := Value.string.inj he
      exact ExcomString.ofBytes_valid (hs s' hc)
    | number n => cases he
  · rw [hbody', hf.complete.length_frameBody]
    exact UInt32.toNat_lt _
  · rw [Packet.frame, hbody', hf.complete.length_frameBody, UInt32.ofNat_toNat]
    exact (hf.eq_header hE).symm

/-! ### Passing frames on -/

variable (E) in
/-- `n` packets are read from one buffer and written to another one. -/
def relay : Nat → Buffer → Option Encrypt → Buffer → Option Encrypt → M (Buffer × Buffer)
  | 0, input, _, out, _ => pure (input, out)
  | n + 1, input, enc, out, enc' => do
    let (_, p, input, enc) ← protocolReadPacket E input enc
    let (_, _, out, enc') ← protocolWritePacket E p out enc'
    relay n input enc out enc'

/-- What a packet is on the wire depends only on what it says. -/
theorem Packet.frame_eq {p q : Packet} (h : p.message = q.message) : p.frame E = q.frame E := by
  obtain ⟨hid, htype, hdata⟩ := Message.mk.inj h
  simp only [Packet.frame, Packet.body, hid, htype, hdata]

/-- Well-formed frames without encryption are passed on byte for byte. -/
theorem relay_intact (hE : E.littleEndian = true) (hA : E.AllocSucceeds) {fs : List Bytes}
    (hfs : ∀ f ∈ fs, Whole E f ∧ WellFormed E f) {input out : Buffer} (hin : input.WF E)
    (hused : 2 * input.used ≤ E.word) {rest : Bytes} (hrest : input.unread = fs.flatten ++ rest)
    (hout : out.WF E) (hm : out.unmutable = false) (hfit : 2 * (out.used + fs.flatten.length) ≤ E.word)
    {enc enc' : Option Encrypt} (henc : activeKeys enc = none) (henc' : activeKeys enc' = none) (w : World) :
    Exec.Returns (relay E fs.length input enc out enc') w fun r _ =>
      r.1.unread = rest ∧ r.2.contents = out.contents ++ fs.flatten := by
  induction fs generalizing input out w with
  | nil => exact .pure ⟨hrest, (List.append_nil _).symm⟩
  | cons f fs ih =>
    rw [List.flatten_cons, List.append_assoc] at hrest
    rw [List.flatten_cons, List.length_append] at hfit
    obtain ⟨hwhole, hformed⟩ := hfs f (List.mem_cons_self ..)
    obtain ⟨p, ⟨t, hp⟩, hsize, rfl⟩ := hformed.exists_packet hE hwhole
    have hlen := hin.length_unread
    rw [hrest, List.length_append, p.length_frame] at hlen
    show Exec.Returns (relay E (fs.length + 1) input enc out enc') w _
    unfold relay
    refine (readFrame_returns hE hA hp hsize (by omega) hin hrest henc w).bind ?_
    rintro _ w1 ⟨q, rfl, -, hmsg, hq⟩
    have hframe : q.frame E = p.frame E := Packet.frame_eq hmsg
    refine (writePacket_returns hA hq hout hm henc' (by rw [hframe]; omega) w1).bind ?_
    rintro _ w2 ⟨out', hext, rfl⟩
    rw [hframe] at hext
    have hu := hext.used hout
    have hadvanced : Buffer.WF E { input with pos := input.pos + (p.frame E).length } :=
      ⟨hin.mutex, hin.block, hin.used_le, hin.max_lt⟩
    refine (ih (fun g hg => hfs g (List.mem_cons_of_mem _ hg)) hadvanced hused
      (by rw [Buffer.unread_advance, hrest, List.drop_left]) hext.wf (hext.unmutable.trans hm) (by omega) w2).mono ?_
    rintro r w3 ⟨hr, hc⟩
    exact ⟨hr, by rw [hc, hext.contents, List.append_assoc, List.flatten_cons]⟩

/-- A public key of one byte and a ping are passed on. -/
theorem relay_intact_two :
    Exec.Returns (relay (Env.amd64 0) 2
      (Buffer.ofBytes [0, 0, 0, 5, 0, 1, 0, 7, 0, 0, 0, 1, 42, 0, 0, 0, 0, 0, 3, 0, 5, 9]) none
      (Buffer.ofBytes [7]) none) { World.start with allocs := 2 } fun r _ =>
        r.1.unread = [9] ∧
          r.2.contents = [7] ++ [0, 0, 0, 5, 0, 1, 0, 7, 0, 0, 0, 1, 42, 0, 0, 0, 0, 0, 3, 0, 5] := by
  have hbody : Body (Env.amd64 0) [.string] ([0, 0, 0, 1] ++ [42] ++ []) [.string [42]] :=
    .string rfl (by decide) .nil
  have hfs : ∀ f ∈ ([[0, 0, 0, 5, 0, 1, 0, 7, 0, 0, 0, 1, 42], [0, 0, 0, 0, 0, 3, 0, 5]] : List Bytes),
      Whole (Env.amd64 0) f ∧ WellFormed (Env.amd64 0) f := by
    intro f hf
    rcases List.mem_cons.1 hf with rfl | hf
    · exact ⟨rfl, .publicKey, [.string [42]], by decide, hbody⟩
    · obtain rfl := List.mem_singleton.1 hf
      exact ⟨rfl, .ping, [], by decide, .nil⟩
  exact relay_intact rfl (Env.amd64_allocSucceeds 0) hfs (Buffer.ofBytes_wf (by decide)) (by decide) rfl
    (Buffer.ofBytes_wf (by decide)) rfl (by decide) rfl rfl _

/-! ### Frames as a code -/

/-- The decoder has no choice in what it takes off the bytes. -/
theorem Decodes.unique {bs : Bytes} {n n' : Nat} {r r' : Option (UInt32 × Message)} (h : Decodes E bs n r)
    (h' : Decodes E bs n' r') : n = n' ∧ r = r' := by
  cases h with
  | invalid _ ht =>
    cases h' with
    | invalid => exact ⟨rfl, rfl⟩
    | unknown _ hne => exact absurd ht hne
    | known _ ht' => exact absurd ht (ne_packetInvalid ht')
  | unknown _ hne ht =>
    cases h' with
    | invalid _ ht' => exact absurd ht' hne
    | unknown => exact ⟨rfl, rfl⟩
    | known _ ht' => rw [ht] at ht'; cases ht'
  | known _ ht hb hcs =>
    cases h' with
    | invalid _ ht' => exact absurd ht' (ne_packetInvalid ht)
    | unknown _ _ ht' => rw [ht] at ht'; cases ht'
    | known _ ht' hb' hcs' =>
      obtain rfl := Option.some.inj (ht.symm.trans ht')
      obtain ⟨rfl, rfl⟩ := hcs.unique hcs' (hb.symm.trans hb')
      exact ⟨rfl, rfl⟩

/-- A packet of a known type whose body has a size that fits the header. -/
def Packet.Sendable (E : Env) (p : Packet) : Prop := (∃ t, p.Known t) ∧ (p.body E).length < 2 ^ 32

/-- The frames are a code for what the packets say. -/
theorem frames_code (hE : E.littleEndian = true) :
    PrefixCode (Packet.Sendable E) Packet.message (Packet.frame E) := by
  refine ⟨fun p _ he => ?_, fun p q => Packet.frame_eq, fun p q hp hq xs ys h => ?_⟩
  · have hlen := p.length_frame (E := E)
    rw [he] at hlen
    simp at hlen
    omega
  · have hp := decodes_frame hE hp.1 hp.2 xs
    rw [h] at hp
    exact congrArg Prod.snd (Option.some.inj (hp.unique (decodes_frame hE hq.1 hq.2 ys)).2)

variable (E) in
/-- Two lists of packets are written, and the contents of the buffers compared. -/
def writeBoth (ps qs : List Packet) (o o' : Buffer) (enc enc' : Option Encrypt) : M (Bytes × Bytes) := do
  let (_, o, _) ← writeAll E ps o enc
  let (_, o', _) ← writeAll E qs o' enc'
  return (o.contents, o'.contents)

/-- What is written for one list of packets is a prefix of what is written for another one if and only if the first
list says a prefix of what the second one says. -/
theorem written_prefix_iff (hE : E.littleEndian = true) (hA : E.AllocSucceeds) {ps qs : List Packet}
    (hps : ∀ p ∈ ps, p.Sendable E) (hqs : ∀ q ∈ qs, q.Sendable E) {o o' : Buffer} (ho : o.WF E) (ho' : o'.WF E)
    (hm : o.unmutable = false) (hm' : o'.unmutable = false) (hcont : o.contents = o'.contents)
    (hfit : 2 * (o.used + (frames E ps).length) ≤ E.word) (hfit' : 2 * (o'.used + (frames E qs).length) ≤ E.word)
    {enc enc' : Option Encrypt} (henc : activeKeys enc = none) (henc' : activeKeys enc' = none) (w : World) :
    Exec.Returns (writeBoth E ps qs o o' enc enc') w fun r _ =>
      r.1 <+: r.2 ↔ ps.map Packet.message <+: qs.map Packet.message := by
  unfold writeBoth
  refine (writeAll_returns hA (fun p hp => (hps p hp).1) ho hm henc hfit w).bind ?_
  rintro _ w1 ⟨o1, h1, rfl⟩
  refine (writeAll_returns hA (fun q hq => (hqs q hq).1) ho' hm' henc' hfit' w1).bind ?_
  rintro _ w2 ⟨o2, h2, rfl⟩
  refine .pure ?_
  rw [← (frames_code hE).prefix_iff hps hqs, h1.contents, h2.contents, hcont, List.prefix_append_right_inj]
  rfl

/-- What is written for a ping is a prefix of what is written for a ping and a pong under the same id. -/
theorem written_prefix_iff_ping :
    Exec.Returns (writeBoth (Env.amd64 0) [⟨0, 3, 5, []⟩] [⟨8, 3, 5, []⟩, ⟨0, 3, 6, []⟩] (Buffer.ofBytes [7])
      (Buffer.ofBytes [7]) none none) { World.start with allocs := 2 } fun r _ =>
        r.1 <+: r.2 ↔
          [(⟨0, 3, 5, []⟩ : Packet)].map Packet.message <+:
            [(⟨8, 3, 5, []⟩ : Packet), ⟨0, 3, 6, []⟩].map Packet.message := by
  refine written_prefix_iff rfl (Env.amd64_allocSucceeds 0) ?_ ?_ (Buffer.ofBytes_wf (by decide))
    (Buffer.ofBytes_wf (by decide)) rfl rfl rfl (by decide) (by decide) rfl rfl _
  · intro p hp
    obtain rfl := List.mem_singleton.1 hp
    exact ⟨⟨.ping, rfl, rfl, by simp⟩, by decide⟩
  · intro q hq
    rcases List.mem_cons.1 hq with rfl | hq
    · exact ⟨⟨.ping, rfl, rfl, by simp⟩, by decide⟩
    · obtain rfl := List.mem_singleton.1 hq
      exact ⟨⟨.pong, rfl, rfl, by simp⟩, by decide⟩

end Excom
