import Excom.Acceptance

/-!
# Taking frames off a stream of bytes

What a reader of frames does, in terms of bytes alone.  `Decodes` says what the decoder takes off the front of
the bytes: a frame that is complete and whose body begins with the fields of its type.  `Scan` says what is
left of the bytes after the loop of the server's `check_packet`, and which packets it finds.  The decoder does
what `Decodes` says (`readPacket_decodes`).
-/

namespace Excom

variable (E : Env)

/-- The decoder takes `n` bytes off the front of `bs`: nothing but the header of a frame of type `INVALID`,
which it refuses, and otherwise the header and the fields of the type, which make a packet. -/
inductive Decodes (bs : Bytes) : Nat → Option (UInt32 × Message) → Prop where
  | invalid (hc : Complete E bs) (ht : frameType E bs = packetInvalid) : Decodes bs 8 none
  | unknown (hc : Complete E bs) (hne : frameType E bs ≠ packetInvalid)
      (ht : packetType? (frameType E bs) = none) :
      Decodes bs 8 (some (frameSize E bs, ⟨frameId E bs, frameType E bs, []⟩))
  | known (hc : Complete E bs) {t : PacketType} (ht : packetType? (frameType E bs) = some t) {b rest : Bytes}
      (hbody : frameBody E bs = b ++ rest) {cs : List Content} (hcs : Body E t.fields b cs) :
      Decodes bs (8 + b.length) (some (frameSize E bs, ⟨frameId E bs, frameType E bs, cs⟩))

/-- The frame at the front seems to be there completely: the test of the server's `check_packet`. -/
def Passes (bs : Bytes) : Prop := 4 < bs.length ∧ (4 + frameSize E bs).toNat ≤ bs.length

instance (bs : Bytes) : Decidable (Passes E bs) := inferInstanceAs (Decidable (_ ∧ _))

/-- From `bs` on, the loop of the server's `check_packet` finds the packets `ms` and leaves the bytes `rest`. -/
inductive Scan : Bytes → List (UInt32 × Message) → Bytes → Prop where
  | stop {bs : Bytes} (h : ¬ Passes E bs) : Scan bs [] bs
  | refuse {bs : Bytes} {n : Nat} (h : Decodes E bs n none) : Scan bs [] (bs.drop n)
  | accept {bs rest : Bytes} {n : Nat} {m : UInt32 × Message} {ms : List (UInt32 × Message)}
      (h : Decodes E bs n (some m)) (hrest : Scan (bs.drop n) ms rest) : Scan bs (m :: ms) rest

variable {E}

theorem Decodes.complete {bs : Bytes} {n : Nat} {r : Option (UInt32 × Message)} (h : Decodes E bs n r) :
    Complete E bs := by
  cases h <;> assumption

/-- The decoder moves over the header, and not beyond the end of the frame. -/
theorem Decodes.bounds {bs : Bytes} {n : Nat} {r : Option (UInt32 × Message)} (h : Decodes E bs n r) :
    8 ≤ n ∧ n ≤ 8 + (frameSize E bs).toNat := by
  cases h with
  | invalid | unknown => omega
  | known hc ht hbody hcs =>
    have hl := hc.length_frameBody
    rw [hbody, List.length_append] at hl
    omega

theorem Decodes.le_length {bs : Bytes} {n : Nat} {r : Option (UInt32 × Message)} (h : Decodes E bs n r) :
    n ≤ bs.length := by
  have h1 := h.bounds
  have h2 := h.complete
  unfold Complete at h2
  omega

/-- The four bytes that the test adds to the size may wrap around, but never to more. -/
theorem toNat_four_add (size : UInt32) : (4 + size).toNat ≤ 4 + size.toNat := by
  rw [UInt32.toNat_add, show (4 : UInt32).toNat = 4 from rfl]
  exact Nat.mod_le _ _

/-- A complete frame passes the test. -/
theorem Complete.passes {bs : Bytes} (h : Complete E bs) : Passes E bs := by
  unfold Complete at h
  have := toNat_four_add (frameSize E bs)
  exact ⟨by omega, by omega⟩

/-- What the bytes are left from by a scan is their end. -/
theorem Scan.suffix {bs rest : Bytes} {ms : List (UInt32 × Message)} (h : Scan E bs ms rest) :
    ∃ n, n ≤ bs.length ∧ rest = bs.drop n := by
  induction h with
  | stop => exact ⟨0, Nat.zero_le _, rfl⟩
  | refuse h => exact ⟨_, h.le_length, rfl⟩
  | @accept bs rest n m ms h _ ih =>
    obtain ⟨k, hk, rfl⟩ := ih
    have := h.le_length
    rw [List.length_drop] at hk
    exact ⟨n + k, by omega, by rw [List.drop_drop]⟩

/-- The decoder takes off the input buffer what `Decodes` says. -/
theorem readPacket_decodes (hA : E.AllocSucceeds) (input : Buffer)
    (hblock : (blockBytes input.buf).length = input.max) (hused : input.used ≤ input.max)
    (hfit : 2 * input.used ≤ E.word) {enc : Option Encrypt} (henc : activeKeys enc = none) {n : Nat}
    {r : Option (UInt32 × Message)} (h : Decodes E input.unread n r) (w : World) :
    Exec.Returns (protocolReadPacket E input enc) w fun res _ => ∃ p,
      res = (if r = none then 1 else 0, p, { input with pos := input.pos + n }, enc) ∧
        (∀ m, r = some m → (p.size, p.message) = m) ∧ ∀ s, Value.string s ∈ p.data → s.Valid := by
  have hu : input.used ≤ (blockBytes input.buf).length := by rw [hblock]; exact hused
  have hc := h.complete
  have hlen := Buffer.length_unread hu
  obtain ⟨hca, hsize, hid, htype, hbody'⟩ := hc.ahead hu
  have h2 : 2 * (frameSize E input.ahead).toNat ≤ E.word := by
    rw [hsize]; unfold Complete at hc; omega
  cases h with
  | invalid _ ht =>
    refine (readPacket_invalid input enc hA henc hca h2 (htype.trans ht) w).mono ?_
    rintro _ w' ⟨-, rfl⟩
    refine ⟨_, rfl, ?_, by simp⟩
    intro m hm
    cases hm
  | unknown _ hne ht =>
    refine (readPacket_unknown input enc hA henc hca h2 (by rwa [htype]) (by rwa [htype]) w).mono ?_
    rintro _ w' ⟨-, data, rfl, hdata, hvalid⟩
    refine ⟨_, rfl, ?_, hvalid⟩
    rintro _ ⟨⟩
    simp only [Packet.message, hdata, hsize, hid, htype]
  | known _ ht hbody hcs =>
    refine (readPacket_returns input enc hA henc hca h2 (by rwa [htype]) (hbody'.trans hbody) hcs w).mono ?_
    rintro _ w' ⟨-, data, rfl, hdata, hvalid⟩
    refine ⟨_, rfl, ?_, hvalid⟩
    rintro _ ⟨⟩
    simp only [Packet.message, hdata, hsize, hid, htype]

end Excom
