import Excom.ReadPacket

/-!
# Which frames the decoder accepts

For a frame that lies in the input buffer completely, the exact conditions under which the decoder of a
connection without encryption does its work: it tells the well-formed frames from the others and reads only
their bytes if and only if the frame is well formed or of type `INVALID` (`classifies_iff`), and it leaves the
cursor behind the frame if and only if the body is exactly the fields of its type (`advances_iff`).  Both need
a temporary buffer that can hold the body, which is what a `size_t` of 32 bits can fail to provide.
-/

namespace Excom

variable {E : Env}

/-! ### A decoder that ends at the end of the body -/

private theorem readNumbers_ensures (buf : Buffer) (k : Nat) (cur : UInt32) (w : World) :
    Exec.Ensures (readFields E buf cur (List.replicate k .number)) w fun r _ =>
      r.2.toNat = (cur.toNat + k) % 2 ^ 32 := by
  induction k generalizing cur w with
  | zero => exact .pure (Nat.mod_eq_of_lt cur.toNat_lt).symm
  | succ k ih =>
    unfold List.replicate readFields readField readNumber
    simp only [Exec.bind_assoc, Exec.pure_bind]
    refine (load_ensures _ _ _ w).bind ?_
    rintro _ w1 -
    refine (ih (cur + 1) w1).bind ?_
    rintro ⟨vs, cur'⟩ w2 h
    refine .pure (h.trans ?_)
    rw [UInt32.toNat_add, Nat.mod_add_mod, show (1 : UInt32).toNat = 1 from rfl,
      Nat.add_assoc, Nat.add_comm 1 k]

private theorem dupfill_ensures (hA : E.AllocSucceeds) (string : ExcomString) (size : UInt32) (p : Option Block)
    (off : Nat) (w : World) :
    Exec.Ensures (ExcomString.dupfill E string size p off) w fun _ _ =>
      0 < size.toNat → off + size.toNat ≤ (blockBytes p).length := by
  unfold ExcomString.dupfill
  by_cases h0 : size = 0
  · subst h0; rw [if_pos rfl]; exact .pure fun h => absurd h (Nat.lt_irrefl 0)
  rw [if_neg h0]
  refine (malloc_returns hA _ w).ensures.bind ?_
  rintro _ _ ⟨junk, -, rfl, rfl⟩
  refine (load_ensures _ _ _ _).bind ?_
  rintro bytes w1 ⟨-, h⟩ r w2 -
  exact h

/-- When the decoder stops at the end of the body, the body is the fields of the type. -/
private theorem readFields_body (hA : E.AllocSucceeds) {w0 : World} {body : Bytes} {blk : Block} {buf : Buffer}
    (hbuf : Fetched w0 body blk buf) (hlt : body.length < 2 ^ 32) (t : PacketType) (w : World) :
    Exec.Ensures (readFields E buf 0 t.fields) w fun r _ =>
      r.2.toNat = body.length → ∃ cs, Body E t.fields body cs := by
  obtain ⟨k, hk, hf | hf⟩ := t.fields_shape <;> rw [hf]
  · refine (readNumbers_ensures buf k 0 w).mono fun r _ h he => body_replicate ?_
    rw [he, show (0 : UInt32).toNat = 0 from rfl, Nat.zero_add, Nat.mod_eq_of_lt (by omega)] at h
    exact h
  · unfold readFields readField readString
    simp only [Exec.bind_assoc, Exec.pure_bind, hbuf.pos, hbuf.buf, Nat.zero_add]
    refine (load_ensures _ _ _ w).bind ?_
    rintro src w1 ⟨rfl, h4⟩
    refine (dupfill_ensures hA _ _ _ _ w1).bind ?_
    rintro ⟨chk, str⟩ w2 hs
    refine (readNumbers_ensures buf k _ w2).bind ?_
    rintro ⟨vs, cur⟩ w3 hcur
    refine .pure fun he => ?_
    have h4 : 4 ≤ blk.bytes.length := h4 (by decide)
    rw [show (0 : UInt32).toNat = 0 from rfl, List.drop_zero, blockBytes_some] at hs hcur
    have hn := (unpackUint32 E (blk.bytes.take 4)).toNat_lt
    rw [UInt32.toNat_add, show (0 + 4 : UInt32).toNat = 4 from rfl, Nat.mod_add_mod] at hcur
    rw [show (0 + 4 : UInt32).toNat = 4 from rfl] at hs
    change cur.toNat = body.length at he
    rw [he] at hcur
    generalize hsize : (unpackUint32 E (blk.bytes.take 4)).toNat = n at *
    obtain ⟨junk, hjunk⟩ := hbuf.bytes
    have hL : 4 + n ≤ blk.bytes.length := by omega
    -- the cursor cannot have wrapped around: the body would be longer than what it points to then
    have hnowrap : 4 + n + k < 2 ^ 32 := by
      rcases hbuf.length with h | ⟨j, hj, hjlt⟩
      · omega
      · have hj32 : j ≤ 32 := by
          by_contra hc
          have : 2 ^ 33 ≤ 2 ^ j := Nat.pow_le_pow_right (by decide) (by omega)
          omega
        rcases Nat.lt_or_eq_of_le hj32 with hlt32 | rfl
        · have : 2 ^ j ≤ 2 ^ 31 := Nat.pow_le_pow_right (by decide) (by omega)
          omega
        · omega
    rw [Nat.mod_eq_of_lt hnowrap] at hcur
    have hpre : blk.bytes.take 4 = body.take 4 := by
      rw [hjunk, List.take_append_of_le_length (by omega)]
    rw [hpre] at hsize
    have hrest : (body.drop (4 + n)).length = k := by rw [List.length_drop]; omega
    obtain ⟨cs, hcs⟩ := body_replicate (E := E) hrest
    have hbody :
        Body E (.string :: List.replicate k .number) (body.take 4 ++ (body.drop 4).take n ++ body.drop (4 + n))
        (.string ((body.drop 4).take n) :: cs) :=
      .string (by rw [List.length_take]; omega)
        (by rw [hsize, List.length_take, List.length_drop]; omega) hcs
    rw [← List.drop_drop, List.append_assoc, List.take_append_drop, List.take_append_drop] at hbody
    exact ⟨_, hbody⟩

/-! ### The bytes received -/

/-- The decoder looks at the whole block, but a complete frame is what has been received. -/
theorem Complete.ahead {input : Buffer} (hu : input.used ≤ (blockBytes input.buf).length)
    (hc : Complete E input.unread) :
    Complete E input.ahead ∧ frameSize E input.ahead = frameSize E input.unread ∧
      frameId E input.ahead = frameId E input.unread ∧ frameType E input.ahead = frameType E input.unread ∧
      frameBody E input.ahead = frameBody E input.unread := by
  have h8 : 8 ≤ input.unread.length := by unfold Complete at hc; omega
  have hlen := Buffer.length_unread hu
  rw [Buffer.ahead_eq hu (by omega)]
  exact ⟨hc.append _, frameSize_append (by omega) _, frameId_append h8 _, frameType_append h8 _,
    frameBody_append hc _⟩

/-- The frame is of a known type, and its body is exactly the fields of that type. -/
def WellFormed (E : Env) (bs : Bytes) : Prop :=
  ∃ t cs, packetType? (frameType E bs) = some t ∧ Body E t.fields (frameBody E bs) cs

/-! ### What is accepted -/

/-- The decoder returns `0` for the well-formed frames and for no others, and reads nothing but the frame. -/
def Classifies (E : Env) (input : Buffer) (enc : Option Encrypt) (w : World) : Prop :=
  Exec.Returns (protocolReadPacket E input enc) w fun r w' =>
    (r.1 = 0 ↔ WellFormed E input.unread) ∧ World.Reads (InFrame w input (frameSize E input.unread).toNat) w w'

/-- The decoder classifies the well-formed frames and those of type `INVALID`.  Any other frame it accepts as
well, or it reads outside the frame. -/
theorem classifies_iff (hA : E.AllocSucceeds) {input : Buffer} (hb : input.WF E) {enc : Option Encrypt}
    (henc : activeKeys enc = none) (hc : Complete E input.unread) (w : World) :
    Classifies E input enc w ↔ 2 * (frameSize E input.unread).toNat ≤ E.word ∧
      (frameType E input.unread = packetInvalid ∨ WellFormed E input.unread) := by
  obtain ⟨hlen, hsize, -, htype, hbody⟩ := hc.ahead hb.block_used
  unfold Classifies WellFormed
  rw [← hsize, ← htype, ← hbody]
  constructor
  · rintro ⟨r, w', hrun, hcode, -⟩
    refine ⟨?_, ?_⟩
    · by_contra h
      rw [readPacket_diverges hA henc (by unfold Complete at hlen; omega) (Nat.not_le.1 h) w] at hrun
      cases hrun
    · by_cases h0 : frameType E input.ahead = packetInvalid
      · exact Or.inl h0
      · have h := readPacket_code input enc w r w' hrun
        rw [if_neg h0] at h
        exact Or.inr (hcode.1 h)
  · rintro ⟨h2, ht | ⟨t, cs, ht, hcs⟩⟩
    · refine (readPacket_invalid input enc hA henc hlen h2 ht w).mono ?_
      rintro _ w' ⟨hr, rfl⟩
      refine ⟨⟨fun h => absurd (show (1 : Int) = 0 from h) (by decide), ?_⟩, hr⟩
      rintro ⟨t, cs, ht', -⟩
      rw [ht, packetType?_invalid] at ht'
      cases ht'
    · refine (readPacket_returns input enc hA henc hlen h2 ht (List.append_nil _).symm hcs w).mono ?_
      rintro _ w' ⟨hr, data, rfl, -⟩
      exact ⟨⟨fun _ => ⟨t, cs, ht, hcs⟩, fun _ => rfl⟩, hr⟩

/-- A frame of the unknown type `9` without a body is accepted. -/
theorem unknown_type_accepted :
    Complete (Env.amd64 0) (Buffer.ofBytes [0, 0, 0, 0, 0, 1, 0, 9]).unread ∧
      ¬ Classifies (Env.amd64 0) (Buffer.ofBytes [0, 0, 0, 0, 0, 1, 0, 9]) none
        { World.start with allocs := 1 } := by
  refine ⟨by decide, ?_⟩
  rintro ⟨r, w', hrun, hcode, -⟩
  have h0 : r.1 = 0 := (readPacket_code _ none _ r w' hrun).trans (by decide)
  obtain ⟨t, cs, ht, -⟩ := hcode.1 h0
  have hunknown : packetType? (frameType (Env.amd64 0) (Buffer.ofBytes [0, 0, 0, 0, 0, 1, 0, 9]).unread) = none := by
    decide
  rw [hunknown] at ht
  cases ht

/-- The protocol `abc` in version `1.2.3` -/
private theorem protocolVersion_body : Body (Env.amd64 0) PacketType.protocolVersion.fields
    [0, 0, 0, 3, 97, 98, 99, 1, 2, 3] [.string [97, 98, 99], .number 1, .number 2, .number 3] :=
  @Body.string (Env.amd64 0) _ [0, 0, 0, 3] [97, 98, 99] [1, 2, 3] _ rfl (by decide)
    (.number (.number (.number .nil)))

/-- A frame of type `PROTOCOL_VERSION` is classified. -/
theorem protocolVersion_classified :
    Classifies (Env.amd64 0) (Buffer.ofBytes [0, 0, 0, 10, 0, 1, 0, 4, 0, 0, 0, 3, 97, 98, 99, 1, 2, 3]) none
      { World.start with allocs := 1 } :=
  (classifies_iff (Env.amd64_allocSucceeds 0) (Buffer.ofBytes_wf (by decide)) rfl (by decide) _).2
    ⟨by decide, Or.inr ⟨.protocolVersion, _, by decide, protocolVersion_body⟩⟩

/-! ### Where the cursor ends -/

/-- The decoder returns, with its cursor behind the frame. -/
def Advances (E : Env) (input : Buffer) (enc : Option Encrypt) (w : World) : Prop :=
  Exec.Returns (protocolReadPacket E input enc) w fun r _ =>
    r.2.2.1.pos = input.pos + (8 + (frameSize E input.unread).toNat)

/-- The body is exactly the fields of the type; there are none if the type is not known. -/
def ExactBody (E : Env) (bs : Bytes) : Prop :=
  match packetType? (frameType E bs) with
  | some t => ∃ cs, Body E t.fields (frameBody E bs) cs
  | none => frameSize E bs = 0

private theorem ensures_of_eq_parse {input : Buffer} {enc : Option Encrypt} {w w1 : World} {blk : Block}
    {buf : Buffer} (hA : E.AllocSucceeds) (hc : Complete E input.ahead) {t : PacketType}
    (ht : packetType? (frameType E input.ahead) = some t) (hbuf : Fetched w (frameBody E input.ahead) blk buf)
    (size : UInt32) (id : UInt16) :
    Exec.Ensures (parseBody E size id (frameType E input.ahead) { input with pos := input.pos + 8 } enc buf) w1
      fun r _ => r.2.2.1.pos = input.pos + (8 + (frameSize E input.ahead).toNat) →
        ∃ cs, Body E t.fields (frameBody E input.ahead) cs := by
  have hbl := hc.length_frameBody
  unfold parseBody readData
  rw [if_neg (ne_packetInvalid ht), ht]
  refine (readFields_body hA hbuf (by rw [hbl]; exact (frameSize E input.ahead).toNat_lt) t w1).bind ?_
  rintro ⟨data, cur⟩ w2 h
  refine .seq ?_
  rintro b w3
  refine .pure fun hpos => h ?_
  change input.pos + 8 + cur.toNat = _ at hpos
  show cur.toNat = _
  omega

/-- The cursor ends behind the frame exactly when the body is the fields of the type. -/
theorem advances_iff (hA : E.AllocSucceeds) {input : Buffer} (hb : input.WF E) {enc : Option Encrypt}
    (henc : activeKeys enc = none) (hc : Complete E input.unread) (w : World) :
    Advances E input enc w ↔ 2 * (frameSize E input.unread).toNat ≤ E.word ∧ ExactBody E input.unread := by
  obtain ⟨hlen, hsize, -, htype, hbody⟩ := hc.ahead hb.block_used
  unfold Advances ExactBody
  rw [← hsize, ← htype, ← hbody]
  by_cases h2 : 2 * (frameSize E input.ahead).toNat ≤ E.word
  swap
  · refine ⟨?_, fun h => absurd h.1 h2⟩
    rintro ⟨r, w', hrun, -⟩
    rw [readPacket_diverges hA henc (by unfold Complete at hlen; omega) (Nat.not_le.1 h2) w] at hrun
    cases hrun
  have hzero : frameSize E input.ahead = 0 ↔ (frameSize E input.ahead).toNat = 0 := by
    rw [← UInt32.toNat_inj]; rfl
  by_cases h0 : frameType E input.ahead = packetInvalid
  · obtain ⟨r, w', hrun, -, rfl⟩ := readPacket_invalid input enc hA henc hlen h2 h0 w
    rw [h0, packetType?_invalid]
    constructor
    · rintro ⟨r', w'', hrun', hpos⟩
      rw [hrun] at hrun'
      cases hrun'
      change input.pos + 8 = _ at hpos
      exact ⟨h2, hzero.2 (by omega)⟩
    · rintro ⟨-, h⟩
      exact ⟨_, w', hrun, by rw [hzero.1 h]⟩
  rcases ht : packetType? (frameType E input.ahead) with _ | t
  · obtain ⟨r, w', hrun, -, data, rfl, -⟩ := readPacket_unknown input enc hA henc hlen h2 h0 ht w
    constructor
    · rintro ⟨r', w'', hrun', hpos⟩
      rw [hrun] at hrun'
      cases hrun'
      change input.pos + 8 = _ at hpos
      exact ⟨h2, hzero.2 (by omega)⟩
    · rintro ⟨-, h⟩
      exact ⟨_, w', hrun, by rw [hzero.1 h]⟩
  · constructor
    · rintro ⟨r, w', hrun, hpos⟩
      obtain ⟨w1, blk, buf, -, hbuf, heq⟩ := readPacket_eq input enc w hA henc hlen h2 (P := fun _ => True)
        (fun _ _ => trivial)
      rw [heq] at hrun
      exact ⟨h2, ensures_of_eq_parse hA hlen ht hbuf _ _ r w' hrun hpos⟩
    · rintro ⟨-, cs, hcs⟩
      refine (readPacket_returns input enc hA henc hlen h2 ht (List.append_nil _).symm hcs w).mono ?_
      rintro _ w' ⟨-, data, rfl, -⟩
      show input.pos + (8 + (frameBody E input.ahead).length) = _
      rw [hlen.length_frameBody]

/-- After a frame of type `INVALID` with a body of one byte the cursor is at that byte. -/
theorem invalid_body_not_skipped :
    Complete (Env.amd64 0) (Buffer.ofBytes [0, 0, 0, 1, 0, 1, 0, 0, 42]).unread ∧
      ¬ Advances (Env.amd64 0) (Buffer.ofBytes [0, 0, 0, 1, 0, 1, 0, 0, 42]) none
        { World.start with allocs := 1 } := by
  refine ⟨by decide, ?_⟩
  rintro ⟨r, w', hrun, hpos⟩
  obtain ⟨_, _, hrun', -, rfl⟩ := readPacket_invalid (Buffer.ofBytes [0, 0, 0, 1, 0, 1, 0, 0, 42]) none
    (Env.amd64_allocSucceeds 0) rfl (by decide) (by decide) (by decide) { World.start with allocs := 1 }
  rw [hrun] at hrun'
  cases hrun'
  revert hpos
  decide

/-- The cursor moves over a frame of type `REJECT` with its one number. -/
theorem reject_advances :
    Advances (Env.amd64 0) (Buffer.ofBytes [0, 0, 0, 1, 0, 1, 0, 2, 42]) none
      { World.start with allocs := 1 } :=
  (advances_iff (Env.amd64_allocSucceeds 0) (Buffer.ofBytes_wf (by decide)) rfl (by decide) _).2
    ⟨by decide, [.number 42], .number .nil⟩

end Excom
