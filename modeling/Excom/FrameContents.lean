import Excom.Framing
import Excom.Seal

/-!
# What a frame denotes

The packet that a frame denotes for a party with given keys (`Denotes`): the body is decrypted where encryption
is switched on, and what it says begins with the fields of the type.  The decoder gives this packet
(`readPacket_denotes`), but its cursor moves only over the header, the nonce and what was parsed.  Bytes are split
into their complete frames and a rest in which none is complete (`Splits`).
-/

namespace Excom

variable (E : Env)

/-- For a party with these keys the body of a frame says `plain`. -/
def Says (keys : Encrypt) (plain body : Bytes) : Prop :=
  if keys.remote.active = true ∧ body ≠ [] then Opened E (keys.sharedKey E) plain body else plain = body

/-- What the cursor moves over before a body is parsed: the header, and a nonce where there is one. -/
def overhead (keys : Encrypt) (body : Bytes) : Nat :=
  if keys.remote.active = true ∧ body ≠ [] then 8 + cryptoBoxNonceBytes else 8

/-- The frame at the front of `bs` denotes the packet `m`, and the decoder takes `n` bytes off it. -/
inductive Denotes (keys : Encrypt) (bs : Bytes) : Nat → UInt32 × Message → Prop where
  | unknown (hc : Complete E bs) (hne : frameType E bs ≠ packetInvalid)
      (ht : packetType? (frameType E bs) = none) {plain : Bytes} (hs : Says E keys plain (frameBody E bs)) :
      Denotes keys bs (overhead keys (frameBody E bs)) (frameSize E bs, ⟨frameId E bs, frameType E bs, []⟩)
  | known (hc : Complete E bs) {t : PacketType} (ht : packetType? (frameType E bs) = some t) {b rest : Bytes}
      (hs : Says E keys (b ++ rest) (frameBody E bs)) {cs : List Content} (hcs : Body E t.fields b cs) :
      Denotes keys bs (overhead keys (frameBody E bs) + b.length)
        (frameSize E bs, ⟨frameId E bs, frameType E bs, cs⟩)

/-- The bytes are the frames `fs`, one after the other, and then `tail`, at whose beginning no frame is
complete. -/
structure Splits (bs : Bytes) (fs : List Bytes) (tail : Bytes) : Prop where
  bytes : bs = fs.flatten ++ tail
  frames : ∀ f ∈ fs, f.length = 8 + (frameSize E f).toNat
  incomplete : ¬ Complete E tail

variable {E}

/-! ### Splitting bytes into frames -/

/-- All bytes can be split into frames. -/
theorem exists_splits (bs : Bytes) : ∃ fs tail, Splits E bs fs tail := by
  induction hn : bs.length using Nat.strong_induction_on generalizing bs with
  | _ n ih =>
    by_cases hc : Complete E bs
    · have hle : 8 + (frameSize E bs).toNat ≤ bs.length := hc
      have hlen : (bs.take (8 + (frameSize E bs).toNat)).length = 8 + (frameSize E bs).toNat := by
        rw [List.length_take, Nat.min_eq_left hle]
      have hsize : frameSize E (bs.take (8 + (frameSize E bs).toNat)) = frameSize E bs := by
        unfold frameSize
        rw [List.take_take, Nat.min_eq_left (by omega)]
      obtain ⟨fs, tail, hsplit⟩ := ih (bs.drop (8 + (frameSize E bs).toNat)).length
        (by rw [List.length_drop]; omega) _ rfl
      refine ⟨bs.take (8 + (frameSize E bs).toNat) :: fs, tail, ?_, ?_, hsplit.incomplete⟩
      · rw [List.flatten_cons, List.append_assoc, ← hsplit.bytes, List.take_append_drop]
      · intro f hf
        rcases List.mem_cons.1 hf with rfl | hf
        · rw [hlen, hsize]
        · exact hsplit.frames f hf
    · exact ⟨[], bs, rfl, by simp, hc⟩

/-! ### What is denoted -/

private theorem le_overhead (keys : Encrypt) (body : Bytes) : 8 ≤ overhead keys body := by
  unfold overhead
  split <;> omega

/-- What a body says fits into it, behind what is read before it. -/
theorem Says.length_le {keys : Encrypt} {plain body : Bytes} (h : Says E keys plain body) :
    overhead keys body + plain.length ≤ 8 + body.length := by
  unfold Says overhead at *
  split at h
  · rename_i hcase
    rw [if_pos hcase, h.length, show cryptoBoxNonceBytes = 24 from rfl]
    omega
  · rename_i hcase
    rw [if_neg hcase, h]

/-- A body that a party with the same key has encrypted. -/
theorem SealedBody.says (hS : E.sodium.Lawful) {keys : Encrypt} {plain body : Bytes}
    (h : SealedBody E (keys.sharedKey E) plain body) (hactive : keys.remote.active = true) :
    Says E keys plain body := by
  unfold SealedBody at h
  unfold Says
  by_cases h0 : plain = []
  · rw [if_pos h0] at h
    rw [if_neg (fun hne => hne.2 h), h0, h]
  · rw [if_neg h0] at h
    have hl := h.length hS
    have hne : body ≠ [] := by
      intro hnil
      rw [hnil, List.length_nil] at hl
      omega
    rw [if_pos ⟨hactive, hne⟩]
    exact h.opened hS

/-- What a body says depends only on the keys that are used. -/
theorem Says.congr {keys keys' : Encrypt} {plain body : Bytes} (h : Says E keys plain body)
    (hk : SameKeys E keys keys') : Says E keys' plain body := by
  unfold Says at *
  rwa [hk.remote, hk.sharedKey]

theorem SameKeys.overhead {keys keys' : Encrypt} (h : SameKeys E keys keys') (body : Bytes) :
    overhead keys' body = overhead keys body := by
  unfold Excom.overhead
  rw [h.remote]

section Denotes

variable {keys : Encrypt} {bs : Bytes} {n : Nat} {m : UInt32 × Message} (h : Denotes E keys bs n m)

include h

theorem Denotes.complete : Complete E bs := by
  cases h <;> assumption

/-- The packet has the type that is written in the frame. -/
theorem Denotes.type_eq : m.2.type = frameType E bs := by
  cases h <;> rfl

/-- The decoder moves over the header, and not beyond the end of the frame. -/
theorem Denotes.bounds : 8 ≤ n ∧ n ≤ 8 + (frameSize E bs).toNat := by
  have h8 := le_overhead keys (frameBody E bs)
  cases h with
  | unknown hc hne ht hs =>
    have hle := hs.length_le
    rw [hc.length_frameBody] at hle
    omega
  | known hc ht hs hcs =>
    have hle := hs.length_le
    rw [hc.length_frameBody, List.length_append] at hle
    omega

theorem Denotes.le_length : n ≤ bs.length := by
  have hc := h.complete
  unfold Complete at hc
  exact Nat.le_trans h.bounds.2 hc

/-- The keys may have been prepared in the meantime. -/
theorem Denotes.congr {keys' : Encrypt} (hk : SameKeys E keys keys') : Denotes E keys' bs n m := by
  cases h with
  | unknown hc hne ht hs =>
    rw [← hk.overhead]
    exact .unknown hc hne ht (hs.congr hk)
  | known hc ht hs hcs =>
    rw [← hk.overhead]
    exact .known hc ht (hs.congr hk) hcs

/-- What follows the frame does not matter. -/
theorem Denotes.append (rest : Bytes) : Denotes E keys (bs ++ rest) n m := by
  have hc := h.complete
  have h8 : 8 ≤ bs.length := by unfold Complete at hc; omega
  have hsize : frameSize E (bs ++ rest) = frameSize E bs := frameSize_append (by omega) rest
  have hid : frameId E (bs ++ rest) = frameId E bs := frameId_append h8 rest
  have htype : frameType E (bs ++ rest) = frameType E bs := frameType_append h8 rest
  have hbody : frameBody E (bs ++ rest) = frameBody E bs := frameBody_append hc rest
  cases h with
  | unknown hc hne ht hs =>
    rw [← hsize, ← hid, ← htype, ← hbody]
    exact .unknown (hc.append rest) (by rwa [htype]) (by rwa [htype]) (by rwa [hbody])
  | known hc ht hs hcs =>
    rw [← hsize, ← hid, ← htype, ← hbody]
    exact .known (hc.append rest) (by rwa [htype]) (by rwa [hbody]) hcs

end Denotes

/-! ### What the decoder does -/

/-- The temporary buffer gets what the body says, and the cursor moves to where the parser counts from. -/
private theorem readBody_eq (hA : E.AllocSucceeds) (input : Buffer) {keys : Encrypt} {plain : Bytes}
    (hc : Complete E input.ahead) (hsize : 2 * (frameSize E input.ahead).toNat ≤ E.word)
    (hs : Says E keys plain (frameBody E input.ahead)) (w : World) :
    ∃ w' blk buf keys', Fetched w plain blk buf ∧ SameKeys E keys keys' ∧
      protocolReadPacket E input (some keys) w = parseBody E (frameSize E input.ahead) (frameId E input.ahead)
        (frameType E input.ahead) { input with pos := input.pos + overhead keys (frameBody E input.ahead) }
        (some keys') buf w' := by
  by_cases hactive : keys.remote.active = true
  swap
  · -- the body is copied
    unfold Says at hs
    rw [if_neg (fun h => hactive h.1)] at hs
    obtain ⟨w1, blk, buf, -, hbuf, heq⟩ := readPacket_eq input (some keys) w hA
      (activeKeys_none (by simpa using hactive)) hc hsize (P := fun _ => True) (fun _ _ => trivial)
    unfold overhead
    rw [if_neg (fun h => hactive h.1), hs]
    exact ⟨w1, blk, buf, keys, hbuf, .refl keys, heq⟩
  have hbl := hc.length_frameBody
  have h8 : 8 ≤ input.ahead.length := by unfold Complete at hc; omega
  obtain ⟨w1, b, hr1, hempty, ⟨blk0, hblk0, hid0⟩, heq⟩ := readHeader_eq input (some keys) w hA h8
    (P := fun _ => True) (fun _ _ => trivial)
  -- the decryption of the body
  obtain ⟨keys', out, w2, hdec, hkeys, hfresh, happ⟩ : ∃ keys' out w2,
      pdecryptBuffer2 E keys { input with pos := input.pos + 8 } b (frameSize E input.ahead).toNat w1 =
        .ok ((0, keys', { input with pos := input.pos + overhead keys (frameBody E input.ahead) }, out), w2) ∧
        SameKeys E keys keys' ∧ Buffer.FreshBlock w1 b out ∧ Buffer.Appended E b plain out := by
    unfold Says overhead at *
    by_cases h0 : frameBody E input.ahead = []
    · rw [if_neg (fun h => h.2 h0), h0] at hs
      rw [h0, List.length_nil] at hbl
      rw [if_neg (fun h => h.2 h0), hs, ← hbl]
      exact ⟨keys, b, w1, rfl, .refl keys, .refl w1 b, .nil hempty.wf⟩
    · rw [if_pos ⟨hactive, h0⟩] at hs
      have hahead : ({ input with pos := input.pos + 8 } : Buffer).ahead =
          frameBody E input.ahead ++ input.ahead.drop (8 + (frameSize E input.ahead).toNat) := by
        show (blockBytes input.buf).drop (input.pos + 8) = _
        rw [← List.drop_drop, ← List.drop_drop]
        exact (List.take_append_drop _ _).symm
      have hlen := hs.length
      obtain ⟨_, w2, hdec, -, out, rfl, hfresh, happ⟩ := pdecryptBuffer2_returns hA keys hs hahead hempty.wf
        hempty.unmutable (by rw [hempty.used]; omega) w1
      rw [hbl] at hdec
      rw [if_pos ⟨hactive, h0⟩, ← Nat.add_assoc]
      exact ⟨_, out, w2, hdec, .prep keys, hfresh, happ⟩
  obtain ⟨blk, hbuf⟩ := happ.fetched hempty hblk0 hid0 hr1.allocs hfresh
  have hfetch : fetchBody E { input with pos := input.pos + 8 } (some keys) b (frameSize E input.ahead) w1 =
      .ok (({ input with pos := input.pos + overhead keys (frameBody E input.ahead) }, some keys', out), w2) := by
    unfold fetchBody
    rw [activeKeys_some hactive]
    exact Exec.bind_of_ok hdec _
  exact ⟨w2, blk, out, keys', hbuf, hkeys, heq.trans (Exec.bind_of_ok hfetch _)⟩

/-- The decoder gives the packet that a complete frame denotes. -/
theorem readPacket_denotes (hA : E.AllocSucceeds) {input : Buffer} (hu : input.used ≤ (blockBytes input.buf).length)
    (hsize : 2 * (frameSize E input.unread).toNat ≤ E.word) {keys : Encrypt} {n : Nat} {m : UInt32 × Message}
    (h : Denotes E keys input.unread n m) (w : World) :
    Exec.Returns (protocolReadPacket E input (some keys)) w fun r _ => ∃ p keys',
      r = (0, p, { input with pos := input.pos + n }, some keys') ∧ (p.size, p.message) = m ∧
        (∀ s, Value.string s ∈ p.data → s.Valid) ∧ SameKeys E keys keys' := by
  obtain ⟨hca, hfs, hfi, hft, hfb⟩ := h.complete.ahead hu
  rw [← hfs] at hsize
  have hlt := (frameSize E input.unread).toNat_lt
  cases h with
  | unknown hc hne ht hs =>
    rw [← hfb] at hs ⊢
    obtain ⟨w1, blk, buf, keys', -, hkeys, heq⟩ := readBody_eq hA input hca hsize hs w
    rw [hfs, hfi, hft] at heq
    obtain ⟨_, w2, hrun, -, data, rfl, hdata, hvalid⟩ := parseBody_unknown _ (some keys')
      (frameSize E input.unread) (frameId E input.unread) buf hne ht (fun _ => True) w1
    refine .intro (heq.trans hrun) ⟨_, keys', rfl, ?_, hvalid, hkeys⟩
    simp only [Packet.message, hdata]
  | known hc ht hs hcs =>
    have hle := hs.length_le
    have h8 := le_overhead keys (frameBody E input.unread)
    rw [hc.length_frameBody] at hle
    rw [← hfb] at hs ⊢
    obtain ⟨w1, blk, buf, keys', hbuf, hkeys, heq⟩ := readBody_eq hA input hca hsize hs w
    rw [hfs, hfi, hft] at heq
    obtain ⟨_, w2, hrun, -, data, rfl, hdata, hvalid⟩ := parseBody_returns _ (some keys')
      (frameSize E input.unread) (frameId E input.unread) buf hA ht hbuf rfl (by omega) hcs w1
    refine .intro (heq.trans hrun) ⟨_, keys', by rw [← Nat.add_assoc], ?_, hvalid, hkeys⟩
    simp only [Packet.message, hdata]

end Excom
