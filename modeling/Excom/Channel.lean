import Excom.ModeAgreement
import Excom.SealedStream
import Excom.Session

/-!
# Frames on their way

One direction of a session as the bytes in three places, the output buffer of the sender, the socket, and the input
buffer of the receiver, which together are the bytes of the frames that have not been read (`Channel`).  The events
move the bytes from place to place (`Channel.flush`, `Channel.receive`), the sender adds a frame
(`Channel.post`), and the receiver takes one off once it is there completely (`Channel.take`).
-/

namespace Excom

variable {E : Env}

/-! ### The bytes of frames -/

/-- The bytes of a frame, sealed under the key or not. -/
def Frame.OnWire (E : Env) (key : Key) (f : Frame) (bs : Bytes) : Prop :=
  if f.sealed then SealedFrame E key f.packet bs else bs = f.packet.frame E

/-- The bytes of a list of frames. -/
def CarriesFrames (E : Env) (key : Key) (fs : List Frame) (bs : Bytes) : Prop :=
  ∃ bss, List.Forall₂ (Frame.OnWire E key) fs bss ∧ bs = bss.flatten

/-- A frame of a known type that is read in the same way whatever the keys are. -/
structure Frame.Plain (f : Frame) : Prop where
  known : ∃ t, f.packet.Known t
  clear : f.sealed = false ∨ f.packet.data = []

variable {key : Key} {f : Frame} {bs : Bytes}

private theorem sealedFrame_bare {p : Packet} (hp : p.body E = []) : SealedFrame E key p bs ↔ bs = p.frame E := by
  unfold SealedFrame SealedBody Packet.frame
  rw [hp]
  simp

/-- Nothing of a plain frame is encrypted. -/
theorem Frame.Plain.onWire (h : f.Plain) : f.OnWire E key bs ↔ bs = f.packet.frame E := by
  unfold OnWire
  rcases hs : f.sealed with _ | _
  · rfl
  · rcases h.clear with hc | hc
    · rw [hs] at hc
      cases hc
    · exact sealedFrame_bare (by rw [Packet.body, hc]; rfl)

/-- A frame is complete. -/
theorem Packet.complete_frame (hE : E.littleEndian = true) {p : Packet} (hp : (p.body E).length < 2 ^ 32) :
    Complete E (p.frame E) := by
  have hsize := (p.framed hE []).size
  rw [List.append_nil] at hsize
  rw [Complete, hsize, UInt32.toNat_ofNat', Nat.mod_eq_of_lt hp, p.length_frame]

theorem Frame.OnWire.length (hS : E.sodium.Lawful) (h : f.OnWire E key bs) :
    bs.length ≤ 8 + (56 + (f.packet.body E).length) := by
  unfold OnWire at h
  split at h
  · rw [h.length hS, Packet.sealedFrameSize, sealedLength]
    split <;> omega
  · rw [h, Packet.length_frame]
    omega

private theorem carriesFrames_nil : CarriesFrames E key [] bs ↔ bs = [] := by
  constructor
  · rintro ⟨bss, hbss, rfl⟩
    cases hbss
    rfl
  · rintro rfl
    exact ⟨[], .nil, rfl⟩

theorem carriesFrames_singleton : CarriesFrames E key [f] bs ↔ f.OnWire E key bs := by
  constructor
  · rintro ⟨bss, hbss, rfl⟩
    cases hbss with
    | cons h hrest =>
      cases hrest
      simpa using h
  · intro h
    exact ⟨[bs], .cons h .nil, by simp⟩

/-- A frame is sent behind the others. -/
theorem CarriesFrames.append {fs : List Frame} {bs' : Bytes} (h : CarriesFrames E key fs bs)
    (h' : f.OnWire E key bs') : CarriesFrames E key (fs ++ [f]) (bs ++ bs') := by
  obtain ⟨bss, hbss, rfl⟩ := h
  refine ⟨bss ++ [bs'], List.rel_append hbss (.cons h' .nil), ?_⟩
  simp

/-! ### One direction -/

/-- The bytes in the output buffer, in the socket and in the input buffer that have not been read are those of the
frames `fs`.  Not more than `n` bytes have come this way. -/
structure Channel (E : Env) (n : Nat) (key : Key) (out : Buffer) (socket : Bytes) (input : Buffer)
    (fs : List Frame) : Prop where
  sender : out.Pending E n out.unread
  receiver : input.Pending E n input.unread
  room : input.used + socket.length + out.unread.length ≤ n
  carries : CarriesFrames E key fs (input.unread ++ socket ++ out.unread)

namespace Channel

variable {n : Nat} {out input : Buffer} {socket : Bytes} {fs : List Frame}

theorem mono {n' : Nat} (h : Channel E n key out socket input fs) (hn : n ≤ n') :
    Channel E n' key out socket input fs := by
  obtain ⟨⟨howf, homut, hopos, houtused, _⟩, ⟨hiwf, himut, hipos, hiused, _⟩, hroom, hcarries⟩ := h
  exact ⟨⟨howf, homut, hopos, by omega, rfl⟩, ⟨hiwf, himut, hipos, by omega, rfl⟩, by omega, hcarries⟩

/-- Between new buffers nothing is on its way. -/
theorem new {start start' : Nat} (hout : Buffer.Empty E start out) (hin : Buffer.Empty E start' input) :
    Channel E 0 key out [] input [] := by
  have ho := hout.pending
  have hi := hin.pending
  have hused := hi.used_le
  refine ⟨⟨ho.wf, ho.mutable, ho.pos_le, ho.used_le, rfl⟩, ⟨hi.wf, hi.mutable, hi.pos_le, hi.used_le, rfl⟩, ?_,
    carriesFrames_nil.2 ?_⟩
  · rw [ho.unread]
    exact hused
  · rw [ho.unread, hi.unread]
    rfl

/-- The socket takes some of the bytes. -/
theorem flush (h : Channel E n key out socket input fs) (outcome : Except Int Nat) (w : World) :
    Exec.Returns (out.write E outcome) w fun r _ => Channel E n key r.2.1 (socket ++ r.2.2) input fs ∧
      out.unread = r.2.2 ++ r.2.1.unread ∧ ∀ k, outcome = .ok k → out.unread.length ≤ k → r.2.1.unread = [] := by
  refine (write_returns h.sender outcome w).mono ?_
  rintro ⟨code, out', sent⟩ w' ⟨rest, hsplit, hpending, hall⟩
  dsimp only at hsplit hpending hall ⊢
  obtain rfl := hpending.unread
  have hroom := h.room
  rw [hsplit, List.length_append] at hroom
  refine ⟨⟨hpending, h.receiver, ?_, ?_⟩, hsplit, hall⟩
  · rw [List.length_append]
    omega
  · have hcarries := h.carries
    rw [hsplit] at hcarries
    simpa only [List.append_assoc] using hcarries

/-- Bytes arrive at the receiver. -/
theorem receive (hA : E.AllocSucceeds) (hn : n < 2 ^ 31) {pieces : List Bytes} {rest : Bytes}
    (h : Channel E n key out (pieces.flatten ++ rest) input fs) (w : World) :
    Exec.Returns (appendPieces E input pieces) w fun b _ => Channel E n key out rest b fs ∧
      b.unread = input.unread ++ pieces.flatten := by
  have h32 := E.le_word
  have hused := h.receiver.used_le
  have hroom := h.room
  rw [List.length_append] at hroom
  refine (appendPieces_returns hA h.receiver.wf h.receiver.mutable (by omega) w).mono ?_
  intro b w1 hr
  have hext : Buffer.Extends E input pieces.flatten b := by
    refine ⟨hr.wf, hr.contents, fun hpos => ?_, hr.unmutable, hr.slack⟩
    rw [hr.pos, Buffer.cursorAfter, Nat.mod_eq_of_lt hpos, ite_self]
  have hb := h.receiver.append hext (by omega)
  have hbused := hext.used h.receiver.wf
  have hunread := hb.unread
  refine ⟨⟨h.sender, ⟨hb.wf, hb.mutable, hb.pos_le, by omega, rfl⟩, by omega, ?_⟩, hunread⟩
  have hcarries := h.carries
  rw [hunread]
  simpa only [List.append_assoc] using hcarries

/-- The sender adds a frame. -/
theorem post (h : Channel E n key out socket input fs) {n' : Nat} (hn : n + bs.length ≤ n') (hn' : n' < 2 ^ 32)
    {out' : Buffer} (hf : f.OnWire E key bs) (hext : Buffer.Extends E out bs out') :
    Channel E n' key out' socket input (fs ++ [f]) := by
  have hout := h.sender.append hext (by omega)
  have hunread := hout.unread
  have hiused := h.receiver.used_le
  have housed := hout.used_le
  have hroom := h.room
  refine ⟨⟨hout.wf, hout.mutable, hout.pos_le, by omega, rfl⟩,
    ⟨h.receiver.wf, h.receiver.mutable, h.receiver.pos_le, by omega, rfl⟩, ?_, ?_⟩
  · rw [hunread, List.length_append]
    omega
  · have hcarries := h.carries.append hf
    rw [hunread]
    simpa only [List.append_assoc] using hcarries

/-- Nothing is on its way. -/
theorem empty (h : Channel E n key out socket input []) :
    input.unread = [] ∧ socket = [] ∧ out.unread = [] := by
  have hnil := carriesFrames_nil.1 h.carries
  simp only [List.append_eq_nil_iff] at hnil
  exact ⟨hnil.1.1, hnil.1.2, hnil.2⟩

/-- The only frame on its way is a plain one, and nothing of it is left behind once it is complete. -/
theorem whole (h : Channel E n key out socket input [f]) (hf : f.Plain) (hE : E.littleEndian = true) (hn : n < 2 ^ 32)
    (hc : Complete E input.unread) :
    input.unread = f.packet.frame E ∧ socket = [] ∧ out.unread = [] := by
  have hframe := hf.onWire.1 (carriesFrames_singleton.1 h.carries)
  have hlen := congrArg List.length hframe
  rw [List.length_append, List.length_append, Packet.length_frame] at hlen
  have hused := h.receiver.length
  have hroom := h.room
  have hsize := (f.packet.framed hE []).size
  rw [List.append_nil, ← hframe, List.append_assoc] at hsize
  unfold Complete at hc
  rw [frameSize_append (by omega)] at hsize
  rw [hsize, UInt32.toNat_ofNat', Nat.mod_eq_of_lt (by omega)] at hc
  have hsocket : socket = [] := List.eq_nil_of_length_eq_zero (by omega)
  have hout : out.unread = [] := List.eq_nil_of_length_eq_zero (by omega)
  rw [hsocket, hout, List.append_nil, List.append_nil] at hframe
  exact ⟨hframe, hsocket, hout⟩

/-- The receiver takes the frame off. -/
theorem take (h : Channel E n key out socket input [f]) (hsocket : socket = []) (hout : out.unread = []) :
    Channel E n key out socket { input with pos := input.pos + input.unread.length, mutex := .unlocked } [] := by
  have hadv := h.receiver.advance_all
  have hunread := hadv.unread
  have hroom := h.room
  refine ⟨h.sender, ⟨hadv.wf, hadv.mutable, hadv.pos_le, hadv.used_le, rfl⟩, hroom, ?_⟩
  rw [hunread, hsocket, hout]
  exact carriesFrames_nil.2 rfl

end Channel

end Excom
