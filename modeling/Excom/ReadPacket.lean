import Excom.BufferLemmas
import Excom.Frame
import Excom.Protocol
import Excom.StringDup

/-!
# What the decoder does

The decoder of a connection without encryption, on a frame whose bytes are all in the block of the input buffer:
the body is copied into a fresh buffer (`Fetched`), and from there the fields of the type are read.  A body that
begins with the fields of its type is decoded into their values, and the cursor ends behind them
(`parseBody_returns`); conversely, what a decoder that ends inside the body has read are these fields
(`readFields_ensures`).
-/

namespace Excom

variable {E : Env}

/-! ### Strings -/

/-- A copy of bytes that are in the block. -/
theorem ExcomString.dupfill_returns (hA : E.AllocSucceeds) {string : ExcomString} {size : UInt32}
    {p : Option Block}
    {off : Nat} (hlen : off + size.toNat ≤ (blockBytes p).length) (hsize : size.toNat + 1 < 2 ^ 32)
    {P : Load → Prop} (hP : 0 < size.toNat → ∀ b, p = some b → P ⟨b.id, off, size.toNat⟩) (w : World) :
    Exec.Returns (ExcomString.dupfill E string size p off) w fun r w' => World.Reads P w w' ∧
      r.2.Valid ∧ r.2.bytes = ((blockBytes p).drop off).take size.toNat := by
  unfold ExcomString.dupfill
  by_cases h0 : size = 0
  · subst h0
    rw [if_pos rfl]
    exact .pure ⟨.refl w, Nat.le_refl _, by simp [ExcomString.bytes]⟩
  rw [if_neg h0]
  refine (malloc_returns hA _ w).bind ?_
  rintro _ _ ⟨junk, -, rfl, rfl⟩
  have hblock : (blockBytes (some ⟨w.allocs, (List.range (size + 1).toNat).map junk⟩)).length = size.toNat + 1 := by
    rw [blockBytes_some, List.length_map, List.length_range, toNat_succ, if_pos hsize]
  refine (copy_returns hlen hblock (fun buf => ((0 : Int), (⟨size, buf, true⟩ : ExcomString))) hP _).mono ?_
  rintro _ w' ⟨hreads, -, buf, rfl, hbytes, -⟩
  have hn := length_copied hlen
  have hr0 : World.Reads P w { w with allocs := w.allocs + 1 } := .of_eq (Nat.le_succ _) rfl
  refine ⟨hr0.trans hreads, ?_, ?_⟩
  · show size.toNat ≤ (blockBytes buf).length
    rw [hbytes, List.length_append, hn]
    exact Nat.le_succ _
  · show (blockBytes buf).take size.toNat = _
    rw [hbytes, List.take_left' hn]

/-! ### Fields -/

private theorem drop_pre {pre bs : Bytes} {n : Nat} (h : pre.length = n) : (pre ++ bs).drop n = bs :=
  List.drop_left' h

/-- The decoder reads the fields that lie at the cursor, and nothing else. -/
theorem readFields_returns (hA : E.AllocSucceeds) {buf : Buffer} {blk : Block} (hbuf : buf.buf = some blk)
    (hpos : buf.pos = 0) {fs : List Field} {bs : Bytes} {cs : List Content} (hbody : Body E fs bs cs) {n : Nat}
    (hn : n < 2 ^ 32) {P : Load → Prop} (hP : ∀ off len, off + len ≤ n → P ⟨blk.id, off, len⟩)
    (pre post : Bytes)
    (hbytes : blk.bytes = pre ++ bs ++ post) (hlen : pre.length + bs.length ≤ n) (cur : UInt32)
    (hcur : cur.toNat = pre.length) (w : World) :
    Exec.Returns (readFields E buf cur fs) w fun r w' => World.Reads P w w' ∧ r.1.map Value.content = cs ∧
      (∀ s, Value.string s ∈ r.1 → s.Valid) ∧ r.2.toNat = pre.length + bs.length := by
  induction hbody generalizing pre cur w with
  | nil => exact .pure ⟨.refl w, rfl, by simp, by simpa using hcur⟩
  | @number fs x bs cs rest ih =>
    simp only [List.length_cons] at hlen
    have hbl : blk.bytes.length = pre.length + (bs.length + 1) + post.length := by
      rw [hbytes]; simp; omega
    unfold readFields readField readNumber
    simp only [Exec.bind_assoc, Exec.pure_bind, hpos, hbuf, Nat.zero_add]
    refine (load_returns (P := P) (some blk) cur.toNat 1 (by rw [blockBytes_some]; omega) ?_ w).bind ?_
    · rintro - b ⟨⟩; exact hP _ _ (by omega)
    rintro _ w1 ⟨rfl, hr1⟩
    have hx : ((blockBytes (some blk)).drop cur.toNat).take 1 = [x] := by
      rw [blockBytes_some, hbytes, List.append_assoc, drop_pre hcur.symm]; rfl
    rw [hx]
    refine (ih (pre ++ [x]) (by rw [hbytes]; simp) (by simp; omega) (cur + 1) ?_ w1).bind ?_
    · rw [UInt32.toNat_add, hcur, List.length_append]
      exact Nat.mod_eq_of_lt (by simp; omega)
    · rintro ⟨vs, cur'⟩ w2 ⟨hr2, hvs, hvalid, hcur'⟩
      refine .pure ⟨hr1.trans hr2, by rw [List.map_cons, hvs]; rfl, ?_, by simp at hcur' ⊢; omega⟩
      intro s hs
      exact hvalid s (by simpa using hs)
  | @string fs len s bs cs hlen4 hsize rest ih =>
    simp only [List.length_append, hlen4] at hlen
    have hbl : blk.bytes.length = pre.length + (4 + s.length + bs.length) + post.length := by
      rw [hbytes]; simp [hlen4, Nat.add_assoc]
    unfold readFields readField readString
    simp only [Exec.bind_assoc, Exec.pure_bind, hpos, hbuf, Nat.zero_add]
    refine (load_returns (P := P) (some blk) cur.toNat 4 (by rw [blockBytes_some]; omega) ?_ w).bind ?_
    · rintro - b ⟨⟩; exact hP _ _ (by omega)
    rintro _ w1 ⟨rfl, hr1⟩
    -- the size of the string, and then its bytes
    have hraw : ((blockBytes (some blk)).drop cur.toNat).take 4 = len := by
      rw [blockBytes_some, hbytes]
      simp only [List.append_assoc]
      rw [drop_pre hcur.symm, List.take_left' hlen4]
    rw [hraw]
    have hcur4 : (cur + 4).toNat = pre.length + 4 := by
      rw [UInt32.toNat_add, hcur]; exact Nat.mod_eq_of_lt (by simp; omega)
    rw [hcur4]
    refine (ExcomString.dupfill_returns (P := P) hA (by rw [blockBytes_some, hsize]; omega)
      (by omega) ?_ w1).bind ?_
    · rintro - b ⟨⟩; exact hP _ _ (by omega)
    rintro ⟨chk, str⟩ w2 ⟨hr2, hv, hstr⟩
    have hs : str.bytes = s := by
      rw [hstr, hsize, blockBytes_some, hbytes, show pre ++ (len ++ s ++ bs) ++ post = (pre ++ len) ++
        (s ++ (bs ++ post)) by simp, drop_pre (by simp [hlen4]), List.take_left' rfl]
    refine (ih (pre ++ len ++ s) (by rw [hbytes]; simp) (by simp [hlen4]; omega)
      (cur + 4 + unpackUint32 E len) ?_ w2).bind ?_
    · rw [UInt32.toNat_add, hcur4, hsize]
      simp only [List.length_append, hlen4]
      exact Nat.mod_eq_of_lt (by omega)
    · rintro ⟨vs, cur'⟩ w3 ⟨hr3, hvs, hvalid, hcur'⟩
      refine .pure ⟨hr1.trans (hr2.trans hr3), by simp [Value.content, hvs, hs], ?_, ?_⟩
      · intro t ht
        rcases List.mem_cons.1 ht with h | h
        · cases h; exact hv
        · exact hvalid t h
      · simp [hlen4] at hcur' ⊢; omega

/-! ### The header and the copy of the body -/

/-- The temporary buffer holds the body, at the start of a block `blk` made after `w`. -/
structure Fetched (w : World) (body : Bytes) (blk : Block) (b : Buffer) : Prop where
  buf : b.buf = some blk
  pos : b.pos = 0
  fresh : w.allocs ≤ blk.id
  bytes : ∃ junk, blk.bytes = body ++ junk
  length : blk.bytes.length = 32 ∨ ∃ j, blk.bytes.length = 2 ^ j ∧ 2 ^ j < 2 * body.length

/-- A temporary buffer to which a body was appended. -/
theorem Buffer.Appended.fetched {b buf : Buffer} {body : Bytes} (happ : Buffer.Appended E b body buf)
    (hb : Buffer.Empty E 32 b) {blk0 : Block} (hblk0 : b.buf = some blk0) {w w1 : World}
    (hid0 : w.allocs ≤ blk0.id)
    (hw : w.allocs ≤ w1.allocs) (hfresh : Buffer.FreshBlock w1 b buf) : ∃ blk, Fetched w body blk buf := by
  have hused : buf.used = body.length := by rw [happ.used, hb.used, Nat.zero_add]
  have hl := happ.wf.block
  have hmax := happ.max
  rw [hb.used, hb.max, Nat.zero_add] at hmax
  have h32 : 32 ≤ buf.max := by
    split at hmax
    · exact Nat.le_of_eq hmax.symm
    · have := (Buffer.growLoop_le hb.wf.word_pos hmax).1
      rw [hb.used] at this
      omega
  obtain ⟨blk, hblk⟩ : ∃ blk, buf.buf = some blk := by
    rcases h : buf.buf with _ | blk
    · rw [h, blockBytes_none, List.length_nil] at hl; omega
    · exact ⟨blk, rfl⟩
  rw [hblk, blockBytes_some] at hl
  refine ⟨blk, hblk, ?_, ?_, ?_, ?_⟩
  · rw [happ.pos, hb.pos]; simp
  · rcases hfresh blk hblk with h | h
    · rw [hblk0] at h
      have he : blk0.id = blk.id := by simpa using h
      omega
    · exact Nat.le_trans hw h
  · have hcont : blk.bytes.take body.length = body := by
      have h := happ.contents
      rw [hb.contents, List.nil_append, Buffer.contents, hused, hblk, blockBytes_some] at h
      exact h
    have hsplit := List.take_append_drop body.length blk.bytes
    rw [hcont] at hsplit
    exact ⟨_, hsplit.symm⟩
  · split at hmax
    · exact Or.inl (hl.trans hmax)
    · unfold Buffer.GrowsTo at hmax
      rw [hb.max, hb.used, if_neg (by decide), Nat.zero_add] at hmax
      obtain ⟨j, -, -, hj, hlt'⟩ := Buffer.growLoop_pow (i := 5) (by omega) (by omega) hmax
      exact Or.inr ⟨j, hl.trans hj, by omega⟩

/-- The loads of a decoder that looks at nothing but the header and the `size` bytes of the body, and at a
copy of the body. -/
def InFrame (w : World) (input : Buffer) (size : Nat) (l : Load) : Prop :=
  w.allocs ≤ l.block ∧ l.off + l.len ≤ size ∨
    input.buf.map Block.id = some l.block ∧ input.pos ≤ l.off ∧ l.off + l.len ≤ input.pos + 8 + size

/-- What is read inside a frame is inside a longer one. -/
theorem InFrame.mono {w : World} {input : Buffer} {m n : Nat} {l : Load} (h : InFrame w input m l)
    (hmn : m ≤ n) : InFrame w input n l := by
  rcases h with ⟨h1, h2⟩ | ⟨h1, h2, h3⟩
  · exact Or.inl ⟨h1, Nat.le_trans h2 hmn⟩
  · exact Or.inr ⟨h1, h2, by omega⟩

/-- A buffer of 32 bytes takes a body of up to half the range of `size_t`, and no other. -/
private theorem canGrow_temp {b : Buffer} (hb : Buffer.Empty E 32 b) {n : Nat} (hn : n < 2 ^ 32) :
    b.CanGrow E n ↔ 2 * n ≤ E.word := by
  constructor
  · rintro ⟨-, h⟩
    by_cases h32 : n ≤ 32
    · have := E.le_word; omega
    · obtain ⟨m, hm⟩ := h (by rw [hb.max, hb.used]; omega)
      unfold Buffer.GrowsTo at hm
      rw [hb.max, hb.used, if_neg (by decide), Nat.zero_add] at hm
      obtain ⟨j, -, hj, rfl, -⟩ := Buffer.growLoop_pow (i := 5) (by omega) (by omega) hm
      have hle := (Buffer.growLoop_le (Nat.pow_pos (by decide)) hm).1
      calc 2 * n ≤ 2 * 2 ^ j := by omega
        _ = 2 ^ (j + 1) := by rw [Nat.pow_succ, Nat.mul_comm]
        _ ≤ E.word := Nat.pow_le_pow_right (by decide) hj
  · intro h
    exact Buffer.canGrow_of_le (by rw [hb.used, Nat.zero_add]; exact h)

section Header

variable (input : Buffer) (enc : Option Encrypt) (w : World)

private theorem load_header (off len : Nat) (h : off + len ≤ input.ahead.length) {P : Load → Prop}
    (hP : ∀ b, input.buf = some b → P ⟨b.id, input.pos + off, len⟩) :
    Exec.Returns (load input.buf (input.pos + off) len) w fun bs w' =>
      bs = (input.ahead.drop off).take len ∧ World.Reads P w w' := by
  rw [Buffer.ahead, List.length_drop] at h
  by_cases h0 : len = 0
  · subst h0
    exact .pure ⟨by simp, .refl w⟩
  · simpa only [Buffer.ahead, List.drop_drop] using
      load_returns (P := P) input.buf (input.pos + off) len (by omega) (fun _ => hP) w

/-- A frame whose header lies in the block: what remains is to fetch the body and to parse it. -/
theorem readHeader_eq (hA : E.AllocSucceeds) (hlen : 8 ≤ input.ahead.length) {P : Load → Prop}
    (hP : ∀ l, InFrame w input 0 l → P l) :
    ∃ w' buf, World.Reads P w w' ∧ Buffer.Empty E 32 buf ∧ (∃ blk, buf.buf = some blk ∧ w.allocs ≤ blk.id) ∧
      protocolReadPacket E input enc w = (do
        let (input', enc', buf') ← fetchBody E { input with pos := input.pos + 8 } enc buf
          (frameSize E input.ahead)
        parseBody E (frameSize E input.ahead) (frameId E input.ahead) (frameType E input.ahead) input'
          enc' buf') w'
      := by
  have hin : ∀ off len, off + len ≤ 8 → ∀ b, input.buf = some b → P ⟨b.id, input.pos + off, len⟩ :=
    fun off len h b hb => hP _ (Or.inr ⟨by rw [hb]; rfl, Nat.le_add_right _ _,
      show input.pos + off + len ≤ _ by omega⟩)
  obtain ⟨_, w1, h1, rfl, hr1⟩ := load_header input w 0 4 (by omega) (hin 0 4 (by omega))
  obtain ⟨_, w2, h2, rfl, hr2⟩ := load_header input w1 4 2 (by omega) (hin 4 2 (by omega))
  obtain ⟨_, w3, h3, rfl, hr3⟩ := load_header input w2 6 2 (by omega) (hin 6 2 (by omega))
  obtain ⟨⟨err, buf⟩, w4, h4, -, hr4, hempty, blk, hblk, hid⟩ :=
    Buffer.init_returns hA 32 (by have := E.le_word; omega) P w3
  have hr := hr1.trans (hr2.trans hr3)
  refine ⟨w4, buf, hr.trans hr4, hempty, ⟨blk, hblk, Nat.le_trans hr.allocs hid⟩, ?_⟩
  unfold protocolReadPacket
  rw [Nat.add_zero, List.drop_zero] at h1
  rw [Exec.bind_of_ok h1, Exec.bind_of_ok h2, Exec.bind_of_ok h3, Exec.bind_of_ok h4]
  rfl

/-- A frame whose bytes are all in the block: what remains is to parse the body. -/
theorem readPacket_eq (hA : E.AllocSucceeds) (henc : activeKeys enc = none)
    (hlen : Complete E input.ahead)
    (hsize : 2 * (frameSize E input.ahead).toNat ≤ E.word) {P : Load → Prop}
    (hP : ∀ l, InFrame w input (frameSize E input.ahead).toNat l → P l) :
    ∃ w' blk buf, World.Reads P w w' ∧ Fetched w (frameBody E input.ahead) blk buf ∧
      protocolReadPacket E input enc w = parseBody E (frameSize E input.ahead) (frameId E input.ahead)
        (frameType E input.ahead) { input with pos := input.pos + 8 } enc buf w' := by
  unfold Complete at hlen
  obtain ⟨w1, b, hr1, hempty, ⟨blk0, hblk0, hid0⟩, heq⟩ := readHeader_eq input enc w hA (by omega) (P := P)
    (fun l hl => hP l (hl.mono (Nat.zero_le _)))
  have hlt := (frameSize E input.ahead).toNat_lt
  generalize hn : frameSize E input.ahead = n at *
  have hfit : input.pos + 8 + n.toNat ≤ (blockBytes input.buf).length := by
    rw [Buffer.ahead, List.length_drop] at hlen; omega
  have hgrow := (canGrow_temp hempty hlt).2 hsize
  obtain ⟨⟨err, buf⟩, w2, h2, -, hr2, hfresh, happ⟩ :=
    Buffer.bappendRemaining2_returns (P := P) hA hempty.wf
      (Or.inl hempty.used) hempty.unmutable { input with pos := input.pos + 8 } hfit hgrow
      (fun _ b hb => hP _ (Or.inr ⟨by rw [hb]; rfl, by show input.pos ≤ input.pos + 8; omega,
        by show input.pos + 8 + n.toNat ≤ _; omega⟩)) w1
  have hbody : ((blockBytes input.buf).drop (input.pos + 8)).take n.toNat = frameBody E input.ahead := by
    rw [frameBody, hn, Buffer.ahead, List.drop_drop]
  have hbl : (frameBody E input.ahead).length = n.toNat := by
    rw [← hbody, List.length_take, List.length_drop]; omega
  change Buffer.Appended E b (((blockBytes input.buf).drop (input.pos + 8)).take n.toNat) buf at happ
  rw [hbody] at happ
  obtain ⟨blk, hbuf⟩ := happ.fetched hempty hblk0 hid0 hr1.allocs hfresh
  refine ⟨w2, blk, buf, hr1.trans hr2, hbuf, ?_⟩
  have hfetch : fetchBody E { input with pos := input.pos + 8 } enc b n w1 =
      .ok (({ input with pos := input.pos + 8 }, enc, buf), w2) := by
    unfold fetchBody
    rw [henc]
    exact Exec.bind_of_ok h2 _
  rw [heq, Exec.bind_of_ok hfetch]

end Header

/-! ### The whole decoder -/

/-- The result of a decoder that found the values `cs` and moved its cursor by `n`. -/
def Decoded (header : UInt32 × UInt16 × UInt16) (input : Buffer) (enc : Option Encrypt) (n : Nat)
    (cs : List Content) (r : Int × Packet × Buffer × Option Encrypt) : Prop :=
  ∃ data, r = (0, ⟨header.1, header.2.1, header.2.2, data⟩, { input with pos := input.pos + n }, enc) ∧
    data.map Value.content = cs ∧ ∀ s, Value.string s ∈ data → s.Valid

section Parse

variable (input : Buffer) (enc : Option Encrypt) (size : UInt32) (id : UInt16) {type : UInt16} (buf : Buffer)

private theorem destroy_then {P : Load → Prop} {w0 w : World} (hr : World.Reads P w0 w) (b : Buffer) {α : Type}
    {x : α} {Q : α → Prop} (hx : Q x) :
    Exec.Returns (do let _ ← b.destroy; return x) w fun r w' => World.Reads P w0 w' ∧ Q r :=
  (Buffer.destroy_returns P b w).bind fun _ _ h => .pure ⟨hr.trans h, hx⟩

/-- A body that begins with the fields of its type. -/
theorem parseBody_returns (hA : E.AllocSucceeds) {t : PacketType} (ht : packetType? type = some t) {w0 : World}
    {body bs rest : Bytes} {blk : Block} (hbuf : Fetched w0 body blk buf) (hbody : body = bs ++ rest)
    (hlt : body.length < 2 ^ 32) {cs : List Content} (hcs : Body E t.fields bs cs) (w : World) :
    Exec.Returns (parseBody E size id type input enc buf) w fun r w' =>
      World.Reads (fun l => w0.allocs ≤ l.block ∧ l.off + l.len ≤ body.length) w w' ∧
        Decoded (size, id, type) input enc bs.length cs r := by
  unfold parseBody readData
  rw [if_neg (ne_packetInvalid ht), ht]
  obtain ⟨junk, hjunk⟩ := hbuf.bytes
  refine (readFields_returns (P := fun l => w0.allocs ≤ l.block ∧ l.off + l.len ≤ body.length) hA
    hbuf.buf hbuf.pos hcs hlt (fun off len h => ⟨hbuf.fresh, h⟩) [] (rest ++ junk)
    (by rw [hjunk, hbody, List.nil_append, List.append_assoc])
    (by rw [hbody, List.length_append, List.length_nil]; omega) 0 rfl w).bind ?_
  rintro ⟨data, cur⟩ w1 ⟨hr, hdata, hvalid, hcur⟩
  refine destroy_then hr buf ⟨data, ?_, hdata, hvalid⟩
  rw [List.length_nil, Nat.zero_add] at hcur
  simp only [hcur]

/-- A type that has no case. -/
theorem parseBody_unknown (hne : type ≠ packetInvalid) (ht : packetType? type = none) (P : Load → Prop)
    (w : World) :
    Exec.Returns (parseBody E size id type input enc buf) w fun r w' =>
      World.Reads P w w' ∧ Decoded (size, id, type) input enc 0 [] r := by
  unfold parseBody readData
  rw [if_neg hne, ht]
  exact destroy_then (.refl w) buf ⟨[], rfl, rfl, by simp⟩

end Parse

section Whole

variable (input : Buffer) (enc : Option Encrypt) (hA : E.AllocSucceeds) (henc : activeKeys enc = none)
  (hlen : Complete E input.ahead)
  (hsize : 2 * (frameSize E input.ahead).toNat ≤ E.word)

include hA henc hlen hsize

/-- A frame whose body begins with the fields of its type is decoded, and the cursor moves over what was
decoded. -/
theorem readPacket_returns {t : PacketType} (ht : packetType? (frameType E input.ahead) = some t)
    {bs rest : Bytes}
    (hbody : frameBody E input.ahead = bs ++ rest) {cs : List Content} (hcs : Body E t.fields bs cs)
    (w : World) :
    Exec.Returns (protocolReadPacket E input enc) w fun r w' =>
      World.Reads (InFrame w input (frameSize E input.ahead).toNat) w w' ∧
        Decoded (frameSize E input.ahead, frameId E input.ahead, frameType E input.ahead) input enc
          (8 + bs.length) cs r := by
  obtain ⟨w1, blk, buf, hr1, hbuf, heq⟩ := readPacket_eq input enc w hA henc hlen hsize (fun _ h => h)
  have hbl := hlen.length_frameBody
  obtain ⟨r, w2, hrun, hr2, data, rfl, hdata, hvalid⟩ := parseBody_returns { input with pos := input.pos + 8 }
    enc (frameSize E input.ahead) (frameId E input.ahead) buf hA ht hbuf hbody
    (by rw [hbl]; exact (frameSize E input.ahead).toNat_lt) hcs w1
  refine ⟨_, w2, heq.trans hrun, hr1.trans ⟨hr2.allocs, ?_⟩, data, by rw [Nat.add_assoc], hdata, hvalid⟩
  obtain ⟨new, hnew, hl⟩ := hr2.loads
  exact ⟨new, hnew, fun l h => Or.inl ⟨(hl l h).1, by rw [← hbl]; exact (hl l h).2⟩⟩

/-- A frame of type `INVALID` is refused, and the cursor moves over its header. -/
theorem readPacket_invalid (ht : frameType E input.ahead = packetInvalid) (w : World) :
    Exec.Returns (protocolReadPacket E input enc) w fun r w' =>
      World.Reads (InFrame w input (frameSize E input.ahead).toNat) w w' ∧
        r = (1, ⟨frameSize E input.ahead, frameId E input.ahead, packetInvalid, []⟩,
          { input with pos := input.pos + 8 }, enc) := by
  obtain ⟨w1, blk, buf, hr1, hbuf, heq⟩ := readPacket_eq input enc w hA henc hlen hsize (fun _ h => h)
  rw [ht] at heq
  exact ⟨_, w1, heq, hr1, rfl⟩

/-- A frame of a type without a case is accepted, and the cursor moves over its header. -/
theorem readPacket_unknown (hne : frameType E input.ahead ≠ packetInvalid)
    (ht : packetType? (frameType E input.ahead) = none) (w : World) :
    Exec.Returns (protocolReadPacket E input enc) w fun r w' =>
      World.Reads (InFrame w input (frameSize E input.ahead).toNat) w w' ∧
        Decoded (frameSize E input.ahead, frameId E input.ahead, frameType E input.ahead) input enc 8 [] r := by
  obtain ⟨w1, blk, buf, hr1, hbuf, heq⟩ := readPacket_eq input enc w hA henc hlen hsize (fun _ h => h)
  obtain ⟨r, w2, hrun, hr2, data, rfl, hdata, hvalid⟩ := parseBody_unknown { input with pos := input.pos + 8 }
    enc (frameSize E input.ahead) (frameId E input.ahead) buf hne ht
    (InFrame w input (frameSize E input.ahead).toNat) w1
  exact ⟨_, w2, heq.trans hrun, hr1.trans hr2, data, rfl, hdata, hvalid⟩

end Whole

/-- A body that is larger than the temporary buffer can get is never copied. -/
theorem readPacket_diverges (hA : E.AllocSucceeds) {input : Buffer} {enc : Option Encrypt}
    (henc : activeKeys enc = none) (hlen : 8 ≤ input.ahead.length)
    (hsize : E.word < 2 * (frameSize E input.ahead).toNat) (w : World) :
    protocolReadPacket E input enc w = .error .diverges := by
  obtain ⟨w1, b, -, hempty, -, heq⟩ := readHeader_eq input enc w hA hlen (P := fun _ => True)
    (fun _ _ => trivial)
  have hlt := (frameSize E input.ahead).toNat_lt
  have h32 := E.le_word
  have hgrow := fun h => Nat.not_le.2 hsize ((canGrow_temp hempty hlt).1 h)
  generalize frameSize E input.ahead = n at *
  have hloop : Buffer.growLoop E.word n.toNat (E.wordBits + 1) 32 = none := by
    rcases h : Buffer.growLoop E.word n.toNat (E.wordBits + 1) 32 with _ | m
    · rfl
    · refine absurd ⟨by rw [hempty.used]; omega, fun _ => ⟨m, ?_⟩⟩ hgrow
      unfold Buffer.GrowsTo
      rw [hempty.used, hempty.max, if_neg (by decide), Nat.zero_add]
      exact h
  have hmod : (b.used + n.toNat) % E.word = n.toNat := by
    rw [hempty.used, Nat.zero_add, Nat.mod_eq_of_lt (by omega)]
  have hfault : b.bappendRemaining2 E { input with pos := input.pos + 8 } n.toNat = Exec.fault .diverges := by
    unfold Buffer.bappendRemaining2
    rw [if_neg (by rw [hempty.unmutable]; decide), if_neg (by omega)]
    refine Buffer.append_diverges hempty.wf.mutex ?_ ?_
    · rw [hmod, hempty.max]
      omega
    · rw [hmod, hempty.max, if_neg (by decide), hloop]
  rw [heq]
  unfold fetchBody
  rw [henc]
  simp only [hfault]
  rfl

/-- A decoder that returns has found a header in the block. -/
theorem readPacket_header (input : Buffer) (enc : Option Encrypt) (w : World) :
    Exec.Ensures (protocolReadPacket E input enc) w fun _ _ => 8 ≤ input.ahead.length := by
  unfold protocolReadPacket
  refine .seq fun _ w1 => .seq fun _ w2 => ?_
  refine (load_ensures _ _ _ w2).bind ?_
  rintro _ w3 ⟨-, hlen⟩ r w4 -
  have := hlen (by decide)
  rw [Buffer.ahead, List.length_drop]
  omega

private theorem readPacket_ensures (input : Buffer) (enc : Option Encrypt) (w : World) :
    Exec.Ensures (protocolReadPacket E input enc) w fun r _ =>
      r.1 = (if frameType E input.ahead = packetInvalid then 1 else 0) ∧
      r.2.1.type = frameType E input.ahead := by
  unfold protocolReadPacket
  refine .seq fun _ w1 => .seq fun _ w2 => ?_
  refine (load_ensures _ _ _ w2).bind ?_
  rintro _ w3 ⟨rfl, -⟩
  refine .seq fun ⟨_, b⟩ w4 => .seq fun ⟨input', enc', buf⟩ w5 => ?_
  rw [← List.drop_drop]
  show Exec.Ensures (parseBody E _ _ (frameType E input.ahead) input' enc' buf) w5 _
  unfold parseBody
  split
  · exact .pure ⟨rfl, rfl⟩
  · refine .seq ?_
    rintro ⟨data, cur⟩ w6
    refine .seq ?_
    rintro b' w7
    exact .pure ⟨rfl, rfl⟩

/-- Without encryption the cursor moves over the header, and from there by as many bytes as a `uint32_t` counts;
where the frame is refused it stays behind the header. -/
theorem readPacket_cursor (input : Buffer) {enc : Option Encrypt} (henc : activeKeys enc = none) (w : World) :
    Exec.Ensures (protocolReadPacket E input enc) w fun r _ => ∃ k, k < 2 ^ 32 ∧ (r.1 ≠ 0 → k = 0) ∧
      r.2.2 = ({ input with pos := input.pos + 8 + k }, enc) := by
  unfold protocolReadPacket
  refine .seq fun _ w1 => .seq fun _ w2 => .seq fun _ w3 => .seq fun ⟨_, b⟩ w4 => ?_
  have hfetch : ∀ size, Exec.Ensures (fetchBody E { input with pos := input.pos + 8 } enc b size) w4 fun r _ =>
      r.1 = { input with pos := input.pos + 8 } ∧ r.2.1 = enc := by
    intro size
    unfold fetchBody
    rw [henc]
    exact .seq fun ⟨_, buf⟩ w5 => .pure ⟨rfl, rfl⟩
  refine (hfetch _).bind ?_
  intro ⟨input', enc', buf⟩ w5 ⟨hin, henc'⟩
  have hin : input' = { input with pos := input.pos + 8 } := hin
  have henc' : enc' = enc := henc'
  subst hin henc'
  unfold parseBody
  dsimp only
  split
  · exact .pure ⟨0, by decide, fun _ => rfl, rfl⟩
  · refine .seq fun ⟨data, cur⟩ w6 => .seq fun _ w7 => .pure ⟨cur.toNat, cur.toNat_lt, ?_, rfl⟩
    exact fun h => absurd rfl h

/-- The return code depends on nothing but the type. -/
theorem readPacket_code (input : Buffer) (enc : Option Encrypt) (w : World) :
    Exec.Ensures (protocolReadPacket E input enc) w fun r _ =>
      r.1 = if frameType E input.ahead = packetInvalid then 1 else 0 :=
  (readPacket_ensures input enc w).mono fun _ _ h => h.1

/-- The packet has the type of the frame. -/
theorem readPacket_type (input : Buffer) (enc : Option Encrypt) (w : World) :
    Exec.Ensures (protocolReadPacket E input enc) w fun r _ => r.2.1.type = frameType E input.ahead :=
  (readPacket_ensures input enc w).mono fun _ _ h => h.2

end Excom
