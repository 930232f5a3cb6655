import Excom.Announce
import Excom.Keys
import Excom.Room

/-!
# Writing all of a packet

`excom_protocol_write_packet` looks at the result of none of its appends and encryptions, and returns `0` for
every packet whose type is not `INVALID`.  So it writes all of a packet or nothing exactly when there is nothing
to be told: the buffer can be changed, there is memory for everything that is put together on the way, the
encryptions succeed, and the size of the body can be announced (`allOrNothing_iff`).
-/

namespace Excom

variable (E : Env)

/-! ### What is to be written -/

/-- The values that the `case` of the packet's type encodes; a type without a case encodes nothing. -/
def Packet.values (p : Packet) : List Value := if (packetType? p.type).isSome then p.data else []

/-- The bytes of the body before they are encrypted. -/
def Packet.plain (p : Packet) : Bytes := encodeBody E (p.values.map Value.content)

/-- The pieces that are appended for a value. -/
def Value.pieces : Value → List Bytes
  | .string s => [wire32 E s.size, s.bytes]
  | .number n => [[n]]

/-- The pieces of a header. -/
def headerPieces (size : UInt32) (id type : UInt16) : List Bytes := [wire32 E size, wire16 E id, wire16 E type]

/-- The key of a connection that is encrypted by now. -/
def sealKey (enc : Option Encrypt) : Option Key := (activeKeys enc).map (Encrypt.sharedKey E)

/-- What goes over the wire for the bytes `m`. -/
def Sends (key : Option Key) (m s : Bytes) : Prop :=
  match key with
  | none => s = m
  | some key => SealedBody E key m s

/-- The number of bytes that go over the wire for `n` bytes. -/
def sentLength (key : Option Key) (n : Nat) : Nat := if key.isSome then sealedLength n else n

/-- The bytes are a complete frame of the packet: its header, which announces `size` bytes, and so many bytes of its
body. -/
def IsFrame (p : Packet) (enc : Option Encrypt) (size : UInt32) (f : Bytes) : Prop :=
  ∃ s : Bytes, Sends E (sealKey E enc) (p.plain E) s ∧ size.toNat = s.length ∧
    f = wire32 E size ++ wire16 E p.id ++ wire16 E p.type ++ s

/-- All of the packet has been appended. -/
def WritesAll (p : Packet) (o : Buffer) (enc : Option Encrypt) (r : Int × Packet × Buffer × Option Encrypt) : Prop :=
  r.1 = 0 ∧ ∃ f : Bytes, IsFrame E p enc r.2.1.size f ∧ r.2.2.1.contents = o.contents ++ f

/-- All of the packet has been appended, or nothing, and the code tells which. -/
def AllOrNothing (p : Packet) (o : Buffer) (enc : Option Encrypt) (r : Int × Packet × Buffer × Option Encrypt) :
    Prop :=
  WritesAll E p o enc r ∨ r.1 ≠ 0 ∧ r.2.2.1.contents = o.contents

/-- Every ciphertext is as long as what was encrypted. -/
def Sodium.KeepsLength (s : Sodium) : Prop :=
  ∀ (m : Bytes) (n : Nonce) (k : Key) (c : Bytes), s.cryptoBoxAfternm m n k = some c → c.length = m.length

/-! ### What there has to be -/

/-- `m` is encrypted and added: two blocks are needed on the way, and the encryption has to succeed. -/
def Stock.seal (key : Key) (m : Bytes) (s : Stock) : Option Stock :=
  if m = [] then some s
  else if (E.malloc s.allocs).isSome ∧ (E.malloc (s.allocs + 1)).isSome then
    (E.sodium.cryptoBoxAfternm (zeroBytes ++ m) (E.randombytes s.randoms) key).bind fun c =>
      Stock.appendAll E { s with allocs := s.allocs + 2, randoms := s.randoms + 1 }
        [(E.randombytes s.randoms).toList, c]
  else none

/-- A body is added. -/
def Stock.send (key : Option Key) (m : Bytes) (s : Stock) : Option Stock :=
  match key with
  | none => s.append E m
  | some key => s.seal E key m

/-- The buffer is as it was, but blocks have been asked for and random numbers drawn. -/
def Stock.after (s s' : Stock) : Stock := { s with allocs := s'.allocs, randoms := s'.randoms }

/-- The body is put together in a buffer of its own, and encrypted in another one to get its size. -/
def Stock.prepare (key : Option Key) (p : Packet) (s : Stock) : Option Stock :=
  if p.values = [] then some { s with allocs := s.allocs + 2 }
  else if (E.malloc s.allocs).isSome then
    (Stock.appendAll E ⟨[], 32, s.allocs + 2, s.randoms⟩ (p.values.flatMap (Value.pieces E))).bind fun s1 =>
      match key with
      | none => some (s.after s1)
      | some key =>
        if (E.malloc (s.allocs + 1)).isSome then
          (Stock.seal E key s1.contents ⟨[], 32, s1.allocs, s1.randoms⟩).map s.after
        else none
  else none

/-- The frame is added after its body has been put together. -/
def Stock.write (key : Option Key) (p : Packet) (s : Stock) : Option Stock :=
  (s.prepare E key p).bind fun s =>
    (s.appendAll E (headerPieces E (UInt32.ofNat (sentLength key (p.plain E).length)) p.id p.type)).bind fun s =>
      s.send E key (p.plain E)

/-- There is memory for all that is put together, and the encryptions succeed. -/
def FindsRoom (p : Packet) (enc : Option Encrypt) (s : Stock) : Prop := (s.write E (sealKey E enc) p).isSome

instance (p : Packet) (enc : Option Encrypt) (s : Stock) : Decidable (FindsRoom E p enc s) :=
  inferInstanceAs (Decidable (_ = true))

variable {E}

private theorem sealedLength_strictMono : StrictMono sealedLength := by
  intro n n' h
  unfold sealedLength
  rw [if_neg (by omega : n' ≠ 0)]
  split <;> omega

private theorem sealedLength_pos {n : Nat} (h : 0 < n) : sealedLength n = 24 + (32 + n) := if_neg (by omega)

private theorem sentLength_strictMono (key : Option Key) : StrictMono (sentLength key) := by
  cases key with
  | none => exact strictMono_id
  | some key => exact sealedLength_strictMono

private theorem sealKey_none {enc : Option Encrypt} (h : activeKeys enc = none) : sealKey E enc = none := by
  unfold sealKey
  rw [h]
  rfl

private theorem sealKey_some {enc : Option Encrypt} {keys : Encrypt} (h : activeKeys enc = some keys) :
    sealKey E enc = some (keys.sharedKey E) := by
  unfold sealKey
  rw [h]
  rfl

/-- The length of what is sent for a body depends only on the length of the body. -/
theorem Sends.length (hS : E.sodium.KeepsLength) {key : Option Key} {m s : Bytes} (h : Sends E key m s) :
    s.length = sentLength key m.length := by
  cases key with
  | none =>
    have h : s = m := h
    rw [h]
    rfl
  | some key =>
    have h : SealedBody E key m s := h
    show s.length = sealedLength m.length
    unfold SealedBody at h
    unfold sealedLength
    by_cases hm : m = []
    · rw [if_pos hm] at h
      simp [h, hm]
    · rw [if_neg hm] at h
      obtain ⟨n, c, hc, rfl⟩ := h
      have hl := hS _ n key c hc
      rw [List.length_append, length_zeroBytes] at hl
      have hn : n.toList.length = 24 := Vector.length_toList
      rw [if_neg (by simpa using hm), List.length_append, hn, hl]

private theorem flatten_pieces {v : Value} (hv : ∀ s, v = .string s → s.Valid) :
    (v.pieces E).flatten = v.content.encode E := by
  cases v with
  | number n => rfl
  | string s =>
    have hlen : s.bytes.length = s.size.toNat := (hv s rfl).length_bytes
    simp [Value.pieces, Value.content, Content.encode, hlen]

private theorem flatten_allPieces {vs : List Value} (hvs : ∀ s, Value.string s ∈ vs → s.Valid) :
    (vs.flatMap (Value.pieces E)).flatten = encodeBody E (vs.map Value.content) := by
  induction vs with
  | nil => rfl
  | cons v vs ih =>
    rw [List.flatMap_cons, List.flatten_append, flatten_pieces fun s h => hvs s (h ▸ List.mem_cons_self ..),
      ih fun s h => hvs s (List.mem_cons_of_mem _ h)]
    rfl

private theorem Stock.seal_stock {m : Bytes} (hm : m ≠ []) (key : Key) (b : Buffer) (w : World) :
    (b.stock w).seal E key m = if (E.malloc w.allocs).isSome ∧ (E.malloc (w.allocs + 1)).isSome then
      (E.sodium.cryptoBoxAfternm (zeroBytes ++ m) (E.randombytes w.randoms) key).bind fun c =>
        Stock.appendAll E ⟨b.contents, b.max, w.allocs + 2, w.randoms + 1⟩ [(E.randombytes w.randoms).toList, c]
    else none := if_neg hm

private theorem Stock.seal_contents {key : Key} {m : Bytes} {s s' : Stock} (h : s.seal E key m = some s') :
    ∃ bs, SealedBody E key m bs ∧ s'.contents = s.contents ++ bs := by
  unfold Stock.seal at h
  unfold SealedBody
  by_cases hm : m = []
  · rw [if_pos hm] at h
    cases h
    exact ⟨[], by rw [if_pos hm], (List.append_nil _).symm⟩
  · rw [if_neg hm] at h
    split at h
    · obtain ⟨c, hc, h⟩ := Option.bind_eq_some_iff.1 h
      refine ⟨(E.randombytes s.randoms).toList ++ c, ?_, ?_⟩
      · rw [if_neg hm]
        exact ⟨E.randombytes s.randoms, c, hc, rfl⟩
      · simpa using Stock.appendAll_contents h
    · cases h

private theorem Stock.send_contents {key : Option Key} {m : Bytes} {s s' : Stock} (h : s.send E key m = some s') :
    ∃ bs, Sends E key m bs ∧ s'.contents = s.contents ++ bs := by
  cases key with
  | none => exact ⟨m, rfl, Stock.append_contents h⟩
  | some key => exact Stock.seal_contents h

/-! ### The parts of a frame -/

section Parts

variable {b : Buffer} (hb : b.WF E) (hm : b.unmutable = false)

include hb hm

/-- A value is appended in its pieces. -/
theorem writeField_tries {v : Value} (hv : ∀ s, v = .string s → s.Valid) (size : UInt32) (w : World) :
    b.Tries E w (writeField E b size v) Prod.fst (v.content.encode E).length
      ((b.stock w).appendAll E (v.pieces E)) := by
  cases v with
  | number n =>
    rw [Value.pieces, Stock.appendAll_singleton]
    have h : b.Tries E w (b.cappend E (packUint8 scratch n).2 1) Prod.snd 1 ((b.stock w).append E [n]) :=
      Buffer.cappend_tries hb hm rfl (Nat.le_add_left 1 3) w
    exact h.done fun _ _ => .pure ⟨rfl, rfl, rfl⟩
  | string s =>
    have hs := hv s rfl
    have hlen : s.bytes.length = s.size.toNat := hs.length_bytes
    have henc : ((Value.string s).content.encode E).length = 4 + s.size.toNat := by
      simp only [Value.content, Content.encode, List.length_append, length_wire32, hlen]
    rw [henc, Value.pieces, Stock.appendAll_cons]
    have h : b.Tries E w (b.cappend E (wire32 E s.size) 4) Prod.snd 4 ((b.stock w).append E (wire32 E s.size)) :=
      Buffer.cappend_tries hb hm rfl (Nat.le_refl 4) w
    refine h.seq ?_
    intro r w1 hkept
    rw [Stock.appendAll_singleton]
    exact (Buffer.sappend_tries hkept.wf (hkept.unmutable.trans hm) hs w1).done fun _ _ => .pure ⟨rfl, rfl, rfl⟩

/-- The header is appended in its pieces. -/
theorem writeHeader_tries (p : Packet) (w : World) :
    b.Tries E w (writeHeader E p b) id 8 ((b.stock w).appendAll E (headerPieces E p.size p.id p.type)) := by
  have h16 : ∀ n : UInt16, 2 ≤ (packUint16 E scratch n).2.length := fun n => by
    rw [(packUint16_scratch scratch rfl n).2.2]
    decide
  have h1 : b.Tries E w (b.cappend E (packUint32 E scratch p.size).2 4) Prod.snd 4
      ((b.stock w).append E (wire32 E p.size)) := Buffer.cappend_tries hb hm rfl (Nat.le_refl 4) w
  rw [headerPieces, Stock.appendAll_cons]
  show b.Tries E w _ _ (4 + (2 + 2)) _
  refine h1.seq ?_
  intro r w1 hkept1
  have hm1 := hkept1.unmutable.trans hm
  rw [Stock.appendAll_cons]
  refine (Buffer.cappend_tries hkept1.wf hm1 rfl (h16 p.id) w1).seq ?_
  intro r w2 hkept2
  have hm2 := hkept2.unmutable.trans hm1
  rw [Stock.appendAll_singleton]
  exact (Buffer.cappend_tries hkept2.wf hm2 rfl (h16 p.type) w2).done fun _ _ => .pure ⟨rfl, rfl, rfl⟩

end Parts

private theorem appendSealed_tries {b : Buffer} (hb : b.WF E) (hm : b.unmutable = false) (nonce : Nonce)
    {crypt : Option Block} {c : Bytes} (hcrypt : blockBytes crypt = c) (keys : Encrypt) (w : World) :
    b.Tries E w (do
      let (_, b) ← b.cappend E nonce.toList cryptoBoxNonceBytes
      let (_, b) ← b.cappend E (blockBytes crypt) c.length
      free crypt
      return ((0 : Int), keys, b)) (fun r => r.2.2) (24 + c.length)
      ((b.stock w).appendAll E [nonce.toList, c]) := by
  have hnl : nonce.toList.length = cryptoBoxNonceBytes := Vector.length_toList
  rw [Stock.appendAll_cons]
  have h1 : b.Tries E w (b.cappend E nonce.toList cryptoBoxNonceBytes) Prod.snd 24
      ((b.stock w).append E nonce.toList) :=
    Buffer.cappend_tries hb hm (List.take_of_length_le (Nat.le_of_eq hnl)) (Nat.le_of_eq hnl.symm) w
  refine h1.seq ?_
  intro r w1 hkept
  rw [Stock.appendAll_singleton, hcrypt]
  refine (Buffer.cappend_tries hkept.wf (hkept.unmutable.trans hm) List.take_length (Nat.le_refl _) w1).done ?_
  intro r' w2
  exact .intro (Exec.bind_of_ok (free_eq crypt w2) _) ⟨rfl, rfl, rfl⟩

/-- The body is appended value by value. -/
theorem writeFields_tries {vs : List Value} (hvs : ∀ s, Value.string s ∈ vs → s.Valid) {b : Buffer} (hb : b.WF E)
    (hm : b.unmutable = false) (size : UInt32) (w : World) :
    b.Tries E w (writeFields E b size vs) Prod.fst (encodeBody E (vs.map Value.content)).length
      ((b.stock w).appendAll E (vs.flatMap (Value.pieces E))) := by
  induction vs generalizing b size w with
  | nil => exact Exec.Tries.pure (.refl hb) rfl rfl
  | cons v vs ih =>
    rw [List.map_cons, encodeBody_cons, List.length_append, List.flatMap_cons, Stock.appendAll_append]
    unfold writeFields
    refine (writeField_tries hb hm (fun s h => hvs s (h ▸ List.mem_cons_self ..)) size w).seq ?_
    intro r w1 hkept
    exact ih (fun s h => hvs s (List.mem_cons_of_mem _ h)) hkept.wf (hkept.unmutable.trans hm) r.2 w1

/-- The bytes are counted whether or not they could be appended. -/
theorem writeFields_counts {vs : List Value} (hvs : ∀ s, Value.string s ∈ vs → s.Valid) (b : Buffer) (size : UInt32)
    (w : World) : Exec.Ensures (writeFields E b size vs) w fun r _ =>
      r.2 = size + UInt32.ofNat (encodeBody E (vs.map Value.content)).length := by
  induction vs generalizing b size w with
  | nil => exact .pure (UInt32.add_zero size).symm
  | cons v vs ih =>
    have hfield : Exec.Ensures (writeField E b size v) w fun r _ =>
        r.2 = size + UInt32.ofNat (v.content.encode E).length := by
      cases v with
      | number n => exact .seq fun _ _ => .pure rfl
      | string s =>
        have hlen : s.bytes.length = s.size.toNat := (hvs s (List.mem_cons_self ..)).length_bytes
        refine .seq fun _ _ => .seq fun _ _ => .pure ?_
        simp only [Value.content, Content.encode, List.length_append, length_wire32, hlen, UInt32.ofNat_add,
          UInt32.ofNat_toNat]
        rfl
    rw [List.map_cons, encodeBody_cons, List.length_append]
    unfold writeFields
    refine hfield.bind ?_
    intro r w1 hsize
    refine (ih (fun s h => hvs s (List.mem_cons_of_mem _ h)) r.1 r.2 w1).mono ?_
    intro r' w2 hr'
    rw [hr', hsize, UInt32.ofNat_add, UInt32.add_assoc]

/-- A value that is put into a buffer without a block -/
theorem writeFields_uninit {v : Value} {vs : List Value} {b : Buffer} (hm : b.unmutable = false)
    (hmutex : b.mutex = .uninit) (size : UInt32) (w : World) :
    writeFields E b size (v :: vs) w = .error .mutex := by
  have h : ∀ str k, b.cappend E str k w = .error .mutex := by
    intro str k
    unfold Buffer.cappend Buffer.append
    rw [if_neg (by rw [hm]; decide), hmutex]
    rfl
  unfold writeFields
  apply Exec.bind_of_error
  cases v with
  | number n => exact Exec.bind_of_error (h _ _) _
  | string s => exact Exec.bind_of_error (h _ _) _

/-! ### Bodies -/

/-- Nothing is encrypted to nothing. -/
theorem pencryptBuffer_empty {buf : Buffer} (h : buf.remaining E = 0) (keys : Encrypt) (out : Buffer) :
    pencryptBuffer E keys buf out = pure (0, keys, out) := if_pos h

/-- Nothing else can be encrypted into a buffer without a block. -/
private theorem pencryptBuffer_uninit {out : Buffer} (hm : out.unmutable = false) (hmutex : out.mutex = .uninit)
    (keys : Encrypt) (buf : Buffer) (w : World) :
    Exec.Ensures (pencryptBuffer E keys buf out) w fun r _ => r = (0, keys, out) := by
  unfold pencryptBuffer pencryptBuffer2
  split
  · exact .pure rfl
  · rw [if_neg (by rw [hm]; decide), hmutex]
    exact .fault

section Send

variable (hS : E.sodium.KeepsLength) {buf out : Buffer} (hpos : buf.pos = 0)
  (hused : buf.used ≤ (blockBytes buf.buf).length) (ho : out.WF E) (hm : out.unmutable = false)

include hS hpos hused ho hm

/-- What was put together in `buf` is encrypted and appended. -/
theorem pencryptBuffer_tries (hfit : buf.used + 32 < E.word) (keys : Encrypt) (w : World) :
    out.Tries E w (pencryptBuffer E keys buf out) (fun r => r.2.2) (sealedLength buf.used)
      ((out.stock w).seal E (keys.sharedKey E) buf.contents) := by
  have hrem : buf.remaining E = buf.used := by
    rw [Buffer.remaining_of_lt (by omega) (by omega), hpos, Nat.sub_zero]
  have hlen : buf.contents.length = buf.used := by
    rw [Buffer.contents, List.length_take, Nat.min_eq_left hused]
  unfold pencryptBuffer pencryptBuffer2
  rw [hrem]
  by_cases h0 : buf.used = 0
  · have hnil : buf.contents = [] := List.eq_nil_of_length_eq_zero (hlen.trans h0)
    rw [if_pos h0, h0, hnil]
    exact Exec.Tries.pure (.refl ho) rfl rfl
  have hne : buf.contents ≠ [] := fun h => h0 (by rw [← hlen, h]; rfl)
  have hsealed : sealedLength buf.used = 24 + (32 + buf.used) := if_neg h0
  have hmod : (buf.used + cryptoBoxZeroBytes) % E.word = buf.used + 32 := Nat.mod_eq_of_lt hfit
  have hstuck : ∀ (code : Int) (keys' : Encrypt) (w' : World), out.Tries E w'
      (pure (code, keys', { out with mutex := .unlocked })) (fun r : Int × Encrypt × Buffer => r.2.2)
      (sealedLength buf.used) none := by
    intro code keys' w'
    rw [ho.unlocked, hsealed]
    exact Exec.Tries.below (.pure ⟨.refl ho, by dsimp only; omega⟩)
  rw [if_neg h0, if_neg (by rw [hm]; decide), ho.mutex, mutexLock_unlocked, Exec.pure_bind]
  simp only [hmod]
  rw [Stock.seal_stock hne]
  have hrandom : randombytesBuf E w = .ok (E.randombytes w.randoms, { w with randoms := w.randoms + 1 }) := rfl
  refine Exec.Tries.step hrandom ?_
  obtain ⟨message, w1, hrun1, hallocs1, -, hrandoms1, hid1, hlen1⟩ :=
    malloc_eq E (buf.used + 32) { w with randoms := w.randoms + 1 }
  obtain ⟨crypt, w2, hrun2, hallocs2, -, hrandoms2, hid2, hlen2⟩ := malloc_eq E (buf.used + 32) w1
  refine Exec.Tries.step hrun1 (Exec.Tries.step hrun2 ?_)
  rw [hallocs1] at hallocs2 hid2
  have hgiven1 : message.isSome = (E.malloc w.allocs).isSome := by simpa using congrArg Option.isSome hid1
  have hgiven2 : crypt.isSome = (E.malloc (w.allocs + 1)).isSome := by simpa using congrArg Option.isSome hid2
  have hblocks : (crypt.isNone || message.isNone) = true ↔ ¬ (message.isSome ∧ crypt.isSome) := by
    cases message <;> cases crypt <;> simp
  rw [← hgiven1, ← hgiven2]
  by_cases hgiven : message.isSome ∧ crypt.isSome
  · rw [if_pos hgiven, if_neg (fun h => hblocks.1 h hgiven)]
    -- the message is the plaintext behind its zero bytes
    obtain ⟨p1, p2, hst1, hst2, hmsg⟩ := store_message message buf.contents (by rw [hlen1 hgiven.1, hlen])
    obtain ⟨loads, hload⟩ := load_eq (show buf.pos + buf.used ≤ (blockBytes buf.buf).length by omega) w2
    have hread : ((blockBytes buf.buf).drop buf.pos).take buf.used = buf.contents := by
      rw [hpos]
      rfl
    rw [hread] at hload
    show out.Tries E w2 (store message 0 zeroBytes >>= _) _ _ _
    rw [hst1, Exec.pure_bind]
    refine Exec.Tries.step hload ?_
    rw [hst2, Exec.pure_bind, mutexUnlock_locked, Exec.pure_bind, hmsg,
      List.take_of_length_le (by rw [List.length_append, hlen, length_zeroBytes, Nat.add_comm])]
    dsimp only
    rw [show (keys.prep E).nm.kkey = keys.sharedKey E from rfl]
    rcases hbox : E.sodium.cryptoBoxAfternm (zeroBytes ++ buf.contents) (E.randombytes w.randoms)
      (keys.sharedKey E) with _ | c
    · exact Exec.Tries.step (free_eq p2 _) (Exec.Tries.step (free_eq crypt _) (hstuck _ _ _))
    · have hcl : c.length = buf.used + 32 := by
        rw [hS _ _ _ _ hbox, List.length_append, hlen, length_zeroBytes, Nat.add_comm]
      obtain ⟨p3, hst3, hcrypt⟩ := store_whole crypt c (by rw [hlen2 hgiven.2, hcl])
      have hstock : (out.stock { w2 with loads, frees := (p2.map Block.id).toList ++ w2.frees }) =
          ⟨out.contents, out.max, w.allocs + 2, w.randoms + 1⟩ :=
        Stock.ext rfl rfl hallocs2 (hrandoms2.trans hrandoms1)
      have happend := appendSealed_tries ho hm (E.randombytes w.randoms) hcrypt (keys.prep E)
        { w2 with loads, frees := (p2.map Block.id).toList ++ w2.frees }
      rw [hstock, hcl] at happend
      show out.Tries E _ (store crypt 0 c >>= _) _ _ _
      rw [hst3, Exec.pure_bind, ho.unlocked, hsealed, Nat.add_comm 32]
      exact Exec.Tries.step (free_eq p2 _) happend
  · rw [if_neg hgiven, if_pos (hblocks.2 hgiven)]
    refine Exec.Tries.step (free_eq message _) (Exec.Tries.step (free_eq crypt _) ?_)
    rw [mutexUnlock_locked, Exec.pure_bind]
    exact hstuck _ _ _

/-- The body goes out as it is, or encrypted. -/
theorem writeBody_tries (enc : Option Encrypt) (hfit : (sealKey E enc).isSome → buf.used + 32 < E.word) (w : World) :
    out.Tries E w (writeBody E buf out enc) Prod.fst (sentLength (sealKey E enc) buf.used)
      ((out.stock w).send E (sealKey E enc) buf.contents) := by
  unfold writeBody sealKey at *
  rcases hkeys : activeKeys enc with _ | keys
  · exact (Buffer.bappend2_tries ho hm hused w).done fun _ _ => .pure ⟨rfl, rfl, rfl⟩
  · rw [hkeys] at hfit
    exact (pencryptBuffer_tries hS hpos hused ho hm (hfit rfl) keys w).done fun _ _ => .pure ⟨rfl, rfl, rfl⟩

/-- The header goes out, and then the body. -/
theorem writeFrame_tries (p : Packet) (enc : Option Encrypt)
    (hfit : (sealKey E enc).isSome → buf.used + 32 < E.word) (w : World) :
    out.Tries E w (writeHeader E p out >>= fun out => writeBody E buf out enc) Prod.fst
      (8 + sentLength (sealKey E enc) buf.used)
      (((out.stock w).appendAll E (headerPieces E p.size p.id p.type)).bind fun s =>
        s.send E (sealKey E enc) buf.contents) := by
  refine (writeHeader_tries ho hm p w).seq ?_
  intro out' w1 hkept
  exact writeBody_tries hS hpos hused hkept.wf (hkept.unmutable.trans hm) enc hfit w1

end Send

/-! ### The temporary buffers -/

/-- The first part of `excom_protocol_write_packet`: the size that will be announced, the temporary buffers and
what becomes of `enc`. -/
def prepare (E : Env) (packet : Packet) (enc : Option Encrypt) : M (UInt32 × Buffer × Buffer × Option Encrypt) := do
  let (_, buf) ← Buffer.init E 32
  let (_, buf2) ← Buffer.init E 32
  let (buf, size) ← writeData E buf packet
  let (size, buf2, enc) ← sealedSize E buf buf2 size enc
  return (size, buf, buf2, enc)

private theorem protocolWritePacket_eq {p : Packet} (hne : p.type ≠ packetInvalid) (o : Buffer)
    (enc : Option Encrypt) : protocolWritePacket E p o enc = (do
      let (size, buf, buf2, enc) ← prepare E p enc
      let (out, enc) ← writeHeader E { p with size } o >>= fun out => writeBody E buf out enc
      let _ ← buf.destroy
      let _ ← buf2.destroy
      return (0, { p with size }, out, enc)) := by
  unfold protocolWritePacket prepare
  simp only [hne, if_false, Exec.bind_assoc, Exec.pure_bind]

/-- Over all types, the macros of the packet table write the values one after the other. -/
theorem writeData_eq (b : Buffer) (p : Packet) : writeData E b p = writeFields E b 0 p.values := by
  unfold writeData Packet.values
  rcases packetType? p.type with _ | t
  · rfl
  · rfl

/-- How far the body has been put together: what is announced is the number of these bytes. -/
def prepared (key : Option Key) (r : UInt32 × Buffer × Buffer × Option Encrypt) : Nat :=
  if key.isSome then r.2.2.1.used else r.2.1.used

/-- What the first part leaves behind, whatever became of its appends. -/
structure Prepared (E : Env) (p : Packet) (enc : Option Encrypt) (r : UInt32 × Buffer × Buffer × Option Encrypt) :
    Prop where
  key : sealKey E r.2.2.2 = sealKey E enc
  pos : r.2.1.pos = 0
  block : r.2.1.used ≤ (blockBytes r.2.1.buf).length
  used_le : r.2.1.used ≤ (p.plain E).length
  plain : r.2.1.used = (p.plain E).length → r.2.1.contents = p.plain E
  size : r.1 = UInt32.ofNat (if (sealKey E enc).isSome then r.2.2.1.used else (p.plain E).length)
  sent_le : prepared (sealKey E enc) r ≤ sentLength (sealKey E enc) r.2.1.used

private theorem plain_eq_nil {p : Packet} (h : p.values = []) : p.plain E = [] := by
  unfold Packet.plain
  rw [h]
  rfl

private theorem length_plain_pos {p : Packet} (h : p.values ≠ []) : 0 < (p.plain E).length := by
  obtain ⟨v, vs, hvs⟩ := List.exists_cons_of_ne_nil h
  unfold Packet.plain
  rw [hvs, List.map_cons, encodeBody_cons, List.length_append]
  cases v with
  | number n => exact Nat.lt_of_lt_of_le Nat.one_pos (Nat.le_add_right ..)
  | string s =>
    simp only [Value.content, Content.encode, List.length_append, length_wire32]
    omega

private theorem prepare_bare {p : Packet} (hv : p.values = []) (o : Buffer) (enc : Option Encrypt) (w : World) :
    Exec.Tries (prepare E p enc) w (fun r _ => Prepared E p enc r) (fun r _ => prepared (sealKey E enc) r)
      (sentLength (sealKey E enc) (p.plain E).length) (fun _ w' => o.stock w')
      ((o.stock w).prepare E (sealKey E enc) p) := by
  have h32 := E.le_word
  have hplain : p.plain E = [] := plain_eq_nil hv
  obtain ⟨⟨_, buf⟩, w1, hrun1, hbuf, -⟩ := Buffer.init_begun (E := E) (show 32 < E.word by omega) w
  obtain ⟨⟨_, buf2⟩, w2, hrun2, hbuf2, -⟩ := Buffer.init_begun (E := E) (show 32 < E.word by omega) w1
  have hrem : buf.remaining E = 0 := by
    rw [Buffer.remaining_of_lt (by rw [hbuf.pos]; omega) (by rw [hbuf.used]; omega), hbuf.used, hbuf.pos]
  have hsealed : sealedSize E buf buf2 0 enc = pure (0, buf2, enc) := by
    unfold sealedSize
    rcases hkeys : activeKeys enc with _ | keys
    · rfl
    · obtain ⟨rfl, -⟩ := Option.filter_eq_some_iff.1 hkeys
      have hzero : UInt32.ofNat buf2.used = 0 := congrArg UInt32.ofNat hbuf2.used
      dsimp only
      rw [pencryptBuffer_empty hrem, Exec.pure_bind, hzero]
  unfold prepare
  refine Exec.Tries.step hrun1 (Exec.Tries.step hrun2 ?_)
  dsimp only
  rw [writeData_eq, hv]
  show Exec.Tries (sealedSize E buf buf2 0 enc >>= _) _ _ _ _ _ _
  rw [hsealed, Exec.pure_bind]
  have hstock : (o.stock w).prepare E (sealKey E enc) p = some (o.stock w2) := by
    have hw : o.stock w2 = { o.stock w with allocs := w.allocs + 2 } := by
      refine Stock.ext rfl rfl ?_ ?_
      · exact hbuf2.allocs.trans (congrArg (· + 1) hbuf.allocs)
      · exact hbuf2.randoms.trans hbuf.randoms
    unfold Stock.prepare
    rw [if_pos hv, hw]
    rfl
  rw [hstock]
  refine Exec.Tries.pure ⟨rfl, hbuf.pos, hbuf.used_le, ?_, ?_, ?_, ?_⟩ ?_ rfl
  · rw [hbuf.used]
    exact Nat.zero_le _
  · intro _
    rw [hbuf.contents, hplain]
  · rw [hplain, hbuf2.used]
    cases sealKey E enc <;> rfl
  · unfold prepared
    rw [hbuf.used, hbuf2.used, ite_self]
    exact Nat.zero_le _
  · unfold prepared sentLength
    rw [hplain, hbuf.used, hbuf2.used]
    rfl

/-- The body that has been put together so far -/
private structure Gathered (E : Env) (p : Packet) (r : Buffer × UInt32) : Prop where
  pos : r.1.pos = 0
  block : r.1.used ≤ (blockBytes r.1.buf).length
  used_le : r.1.used ≤ (p.plain E).length
  plain : r.1.used = (p.plain E).length → r.1.contents = p.plain E
  size : r.2 = UInt32.ofNat (p.plain E).length

private theorem gather_tries {p : Packet} (hp : ∀ s, Value.string s ∈ p.values → s.Valid) {buf : Buffer}
    {w w' : World} (hbuf : Buffer.Begun E 32 w buf w') (hwf : buf.WF E) (w'' : World) :
    Exec.Tries (writeFields E buf 0 p.values) w'' (fun r _ => Gathered E p r) (fun r _ => r.1.used)
      (p.plain E).length (fun r w' => r.1.stock w')
      (Stock.appendAll E ⟨[], 32, w''.allocs, w''.randoms⟩ (p.values.flatMap (Value.pieces E))) := by
  have htries := writeFields_tries hp hwf hbuf.unmutable 0 w''
  have hstock : buf.stock w'' = ⟨[], 32, w''.allocs, w''.randoms⟩ := Stock.ext hbuf.contents hbuf.max rfl rfl
  rw [hstock] at htries
  have htop : buf.used + (encodeBody E (p.values.map Value.content)).length = (p.plain E).length := by
    rw [hbuf.used, Nat.zero_add]
    rfl
  unfold Buffer.Tries at htries
  rw [htop] at htries
  refine ⟨?_, htries.whole, htries.made⟩
  intro r w1 hrun
  obtain ⟨hkept, hle⟩ := htries.keeps r w1 hrun
  refine ⟨⟨?_, hkept.wf.block_used, hle, ?_, ?_⟩, hle⟩
  · rw [hkept.pos (by rw [hbuf.pos]; decide), hbuf.pos]
  · intro hused
    have hcont := Stock.appendAll_contents (htries.whole r w1 hrun hused)
    rw [flatten_allPieces hp] at hcont
    exact hcont
  · rw [writeFields_counts hp buf 0 w'' r w1 hrun, UInt32.zero_add]
    rfl

section Prepare

variable (hS : E.sodium.KeepsLength) {p : Packet} (hp : ∀ s, Value.string s ∈ p.values → s.Valid)

include hS hp

omit hp in
private theorem sealedSize_tries (o : Buffer) {keys : Encrypt} (hkeys : activeKeys (some keys) = some keys)
    {buf2 : Buffer} {w1 w2 : World} (hbuf2 : Buffer.Begun E 32 w1 buf2 w2) (hwf : buf2.WF E)
    {r : Buffer × UInt32} (hr : Gathered E p r) (hfit : r.1.used + 32 < E.word) (w : World) :
    Exec.Tries (sealedSize E r.1 buf2 r.2 (some keys) >>= fun x => pure (x.1, r.1, x.2.1, x.2.2)) w
      (fun r _ => Prepared E p (some keys) r) (fun r _ => prepared (sealKey E (some keys)) r) (sealedLength r.1.used)
      (fun _ w' => o.stock w')
      ((Stock.seal E (keys.sharedKey E) r.1.contents ⟨[], 32, w.allocs, w.randoms⟩).map (o.stock w).after) := by
  have hkey : sealKey E (some keys) = some (keys.sharedKey E) := sealKey_some hkeys
  have htries := pencryptBuffer_tries hS hr.pos hr.block hwf hbuf2.unmutable hfit keys w
  have hstock : buf2.stock w = ⟨[], 32, w.allocs, w.randoms⟩ := Stock.ext hbuf2.contents hbuf2.max rfl rfl
  unfold Buffer.Tries at htries
  rw [hstock, hbuf2.used, Nat.zero_add] at htries
  have hprep : ∀ keys', SameKeys E keys keys' → SameKeys E keys (keys'.prep E) := fun keys' h => h.trans (.prep keys')
  unfold sealedSize
  rw [hkeys, hkey]
  dsimp only
  rw [Exec.bind_assoc]
  refine Exec.Tries.followed ((htries.and htries.keeps).and
    (pencryptBuffer_keys hprep (.refl keys) r.1 buf2 w)) ?_
  intro x w'
  refine .pure ⟨?_, rfl, rfl⟩
  intro ⟨⟨_, _, hle⟩, hsame⟩
  obtain ⟨-, hactive⟩ := Option.filter_eq_some_iff.1 hkeys
  refine ⟨?_, hr.pos, hr.block, hr.used_le, hr.plain, ?_, by rw [hkey]; exact hle⟩
  · rw [hkey]
    exact (sealKey_some (hsame.activeKeys hactive)).trans (congrArg some hsame.sharedKey)
  · rw [hkey]
    rfl

omit hS hp in
/-- Nothing can be put into the other buffer if it has no block. -/
private theorem sealedSize_denied {keys : Encrypt} (hkeys : activeKeys (some keys) = some keys) {buf2 : Buffer}
    (hused : buf2.used = 0) (hm : buf2.unmutable = false) (hmutex : buf2.mutex = .uninit) {r : Buffer × UInt32}
    (hr : Gathered E p r) (w : World) :
    Exec.Ensures (sealedSize E r.1 buf2 r.2 (some keys) >>= fun x => pure (x.1, r.1, x.2.1, x.2.2)) w fun r _ =>
      Prepared E p (some keys) r ∧ prepared (some (keys.sharedKey E)) r = 0 := by
  have hkey : sealKey E (some keys) = some (keys.sharedKey E) := sealKey_some hkeys
  unfold sealedSize
  rw [hkeys]
  dsimp only
  rw [Exec.bind_assoc]
  refine (pencryptBuffer_uninit hm hmutex keys r.1 w).bind ?_
  intro x w1 hx
  rw [hx]
  have hlevel : prepared (some (keys.sharedKey E)) (UInt32.ofNat buf2.used, r.1, buf2, some keys) = 0 := hused
  refine .pure ⟨⟨rfl, hr.pos, hr.block, hr.used_le, hr.plain, ?_, ?_⟩, hlevel⟩
  · rw [hkey]
    rfl
  · rw [hkey, hlevel]
    exact Nat.zero_le _

omit hS hp in
private theorem sealedSize_plain (o : Buffer) {enc : Option Encrypt} (hkeys : activeKeys enc = none) (buf2 : Buffer)
    {r : Buffer × UInt32} (hr : Gathered E p r) (w : World) :
    Exec.Tries (sealedSize E r.1 buf2 r.2 enc >>= fun x => pure (x.1, r.1, x.2.1, x.2.2)) w
      (fun r _ => Prepared E p enc r) (fun r _ => prepared none r) r.1.used (fun _ w' => o.stock w')
      (some (o.stock w)) := by
  have hkey : sealKey E enc = none := sealKey_none hkeys
  unfold sealedSize
  rw [hkeys]
  refine Exec.Tries.pure ⟨rfl, hr.pos, hr.block, hr.used_le, hr.plain, ?_, ?_⟩ rfl rfl
  · rw [hkey]
    exact hr.size
  · rw [hkey]
    exact Nat.le_refl _

/-- The first part of `excom_protocol_write_packet` tries to put the body together, and to encrypt it. -/
theorem prepare_tries (o : Buffer) (enc : Option Encrypt)
    (hfit : sentLength (sealKey E enc) (p.plain E).length < 2 ^ 32) (w : World) :
    Exec.Tries (prepare E p enc) w (fun r _ => Prepared E p enc r) (fun r _ => prepared (sealKey E enc) r)
      (sentLength (sealKey E enc) (p.plain E).length) (fun _ w' => o.stock w')
      ((o.stock w).prepare E (sealKey E enc) p) := by
  have h32 := E.le_word
  by_cases hv : p.values = []
  · exact prepare_bare hv o enc w
  obtain ⟨⟨_, buf⟩, w1, hrun1, hbuf, -⟩ := Buffer.init_begun (E := E) (show 32 < E.word by omega) w
  obtain ⟨⟨_, buf2⟩, w2, hrun2, hbuf2, -⟩ := Buffer.init_begun (E := E) (show 32 < E.word by omega) w1
  have hallocs : w2.allocs = w.allocs + 2 := by rw [hbuf2.allocs, hbuf.allocs]
  have hrandoms : w2.randoms = w.randoms := hbuf2.randoms.trans hbuf.randoms
  unfold prepare
  refine Exec.Tries.step hrun1 (Exec.Tries.step hrun2 ?_)
  dsimp only
  rw [writeData_eq]
  unfold Stock.prepare
  rw [if_neg hv]
  by_cases hgiven : (E.malloc w.allocs).isSome
  swap
  · -- nothing can be put into the first buffer
    have hnone : E.malloc w.allocs = none := by simpa using hgiven
    obtain ⟨v, vs, hvs⟩ := List.exists_cons_of_ne_nil hv
    rw [if_neg (show ¬ (E.malloc (o.stock w).allocs).isSome from hgiven), hvs]
    refine Exec.Tries.below ?_
    intro r w' hrun
    rw [Exec.bind_of_error (writeFields_uninit hbuf.unmutable (hbuf.denied hnone).2 0 w2)] at hrun
    cases hrun
  have hx := gather_tries hp hbuf (hbuf.given hgiven).1 w2
  rw [hallocs, hrandoms] at hx
  rw [if_pos (show (E.malloc (o.stock w).allocs).isSome from hgiven)]
  rcases hkeys : activeKeys enc with _ | keys
  · rw [sealKey_none hkeys]
    refine Exec.Tries.bind strictMono_id hx ?_
    intro r w3 hr
    exact sealedSize_plain o hkeys buf2 hr w3
  obtain ⟨rfl, -⟩ := Option.filter_eq_some_iff.1 hkeys
  have htop : sentLength (some (keys.sharedKey E)) (p.plain E).length = 24 + (32 + (p.plain E).length) :=
    sealedLength_pos (length_plain_pos hv)
  rw [sealKey_some hkeys] at hfit ⊢
  by_cases hgiven2 : (E.malloc (w.allocs + 1)).isSome
  swap
  · -- the body is put together, but it cannot be encrypted into the second buffer
    have hnone : E.malloc w1.allocs = none := by
      rw [hbuf.allocs]
      simpa using hgiven2
    have hstays : Exec.Ensures (writeFields E buf 0 p.values >>= fun r =>
        sealedSize E r.1 buf2 r.2 (some keys) >>= fun x => pure (x.1, r.1, x.2.1, x.2.2)) w2
        fun r _ => Prepared E p (some keys) r ∧ prepared (some (keys.sharedKey E)) r = 0 := by
      refine hx.keeps.bind ?_
      intro r w3 ⟨hr, _⟩
      exact sealedSize_denied hkeys hbuf2.used hbuf2.unmutable (hbuf2.denied hnone).2 hr w3
    have hplan : (E.malloc ((o.stock w).allocs + 1)).isSome = false := Bool.eq_false_of_not_eq_true hgiven2
    simp only [hplan, Bool.false_eq_true, if_false, Option.bind_fun_none]
    refine Exec.Tries.below (hstays.mono ?_)
    intro r w3 ⟨hr, hlevel⟩
    refine ⟨hr, ?_⟩
    rw [hlevel, htop]
    omega
  · have hwf2 := (hbuf2.given (by rw [hbuf.allocs]; exact hgiven2)).1
    refine Exec.Tries.bind sealedLength_strictMono hx ?_
    intro r w3 hr
    have hn := hr.used_le
    have hlt : r.1.used + 32 < E.word := by
      rw [htop] at hfit
      omega
    dsimp only
    rw [if_pos (show (E.malloc ((o.stock w).allocs + 1)).isSome from hgiven2)]
    have h := sealedSize_tries hS o hkeys hbuf2 hwf2 hr hlt w3
    rw [sealKey_some hkeys] at h
    exact h

end Prepare

/-! ### All or nothing -/

private theorem finish_returns (buf buf2 : Buffer) {α : Type} (r : α) (w : World) :
    Exec.Returns (do
      let _ ← buf.destroy
      let _ ← buf2.destroy
      return r) w fun r' _ => r' = r := by
  refine (Buffer.destroy_returns (fun _ => True) buf w).bind ?_
  intro _ w1 _
  refine (Buffer.destroy_returns (fun _ => True) buf2 w1).bind ?_
  intro _ w2 _
  exact .pure rfl

/-- A packet of type `INVALID` is refused. -/
theorem writePacket_invalid {p : Packet} (hp : p.type = packetInvalid) (o : Buffer) (enc : Option Encrypt)
    (w : World) : Exec.Returns (protocolWritePacket E p o enc) w fun r _ => r = (1, p, o, enc) := by
  have h32 := E.le_word
  unfold protocolWritePacket
  refine (Buffer.init_begun (E := E) (show 32 < E.word by omega) w).bind ?_
  intro ⟨_, buf⟩ w1 _
  refine (Buffer.init_begun (E := E) (show 32 < E.word by omega) w1).bind ?_
  intro ⟨_, buf2⟩ w2 _
  dsimp only
  rw [if_pos hp]
  refine (Buffer.destroy_returns (fun _ => True) buf w2).bind ?_
  intro _ w3 _
  exact .pure rfl

private theorem sendFrame_tries (hS : E.sodium.KeepsLength) {p : Packet} {o : Buffer} (ho : o.WF E)
    (hm : o.unmutable = false) {enc : Option Encrypt} {r : UInt32 × Buffer × Buffer × Option Encrypt}
    (hr : Prepared E p enc r) (hfit : sentLength (sealKey E enc) (p.plain E).length < 2 ^ 32) (w : World) :
    o.Tries E w (writeHeader E { p with size := r.1 } o >>= fun out => writeBody E r.2.1 out r.2.2.2) Prod.fst
      (8 + sentLength (sealKey E enc) r.2.1.used)
      (((o.stock w).appendAll E (headerPieces E r.1 p.id p.type)).bind fun s =>
        s.send E (sealKey E enc) r.2.1.contents) := by
  have h32 := E.le_word
  have hn := hr.used_le
  have hword : (sealKey E r.2.2.2).isSome → r.2.1.used + 32 < E.word := by
    intro hkey
    rw [hr.key] at hkey
    unfold sentLength at hfit
    rw [if_pos hkey] at hfit
    unfold sealedLength at hfit
    split at hfit <;> omega
  have h := writeFrame_tries hS hr.pos hr.block ho hm { p with size := r.1 } r.2.2.2 hword w
  rw [hr.key] at h
  exact h

section AllOrNothing

variable (hS : E.sodium.KeepsLength) {p : Packet} (hp : ∀ s, Value.string s ∈ p.values → s.Valid) {o : Buffer}
  (ho : o.WF E)

include hS hp ho

/-- No more is appended than the frame; and if as much is appended, room was found for it. -/
theorem writePacket_ensures (hne : p.type ≠ packetInvalid) (hm : o.unmutable = false) {enc : Option Encrypt}
    (hfit : sentLength (sealKey E enc) (p.plain E).length < 2 ^ 32) (w : World) :
    Exec.Ensures (protocolWritePacket E p o enc) w fun r _ => r.1 = 0 ∧ Buffer.Kept E o r.2.2.1 ∧
      r.2.2.1.used ≤ o.used + (8 + sentLength (sealKey E enc) (p.plain E).length) ∧
      (r.2.2.1.used = o.used + (8 + sentLength (sealKey E enc) (p.plain E).length) →
        r.2.1.size.toNat = sentLength (sealKey E enc) (p.plain E).length → FindsRoom E p enc (o.stock w)) := by
  have h32 := E.le_word
  have hmono := sentLength_strictMono (sealKey E enc)
  rw [protocolWritePacket_eq hne]
  intro r w' hrun
  obtain ⟨⟨size, buf, buf2, enc'⟩, w1, hprepare, hrun⟩ := Exec.bind_eq_ok.1 hrun
  obtain ⟨⟨out, enc''⟩, w2, hframe, hrun⟩ := Exec.bind_eq_ok.1 hrun
  have hresult := (finish_returns buf buf2 ((0 : Int), { p with size }, out, enc'') w2).ensures r w' hrun
  subst hresult
  have hfirst := prepare_tries hS hp o enc hfit w
  obtain ⟨hr, hle⟩ := hfirst.keeps _ w1 hprepare
  have hsecond := sendFrame_tries hS ho hm hr hfit w1
  obtain ⟨hkept, hout⟩ := hsecond.keeps _ w2 hframe
  dsimp only at hout hkept
  have hsent := hmono.monotone hr.used_le
  dsimp only at hsent
  refine ⟨rfl, hkept, ?_, ?_⟩
  · show out.used ≤ _
    omega
  dsimp only
  intro hused hsize
  -- all of the body is there, since all of it has been sent
  have hbuf : buf.used = (p.plain E).length := Nat.le_antisymm hr.used_le (hmono.le_iff_le.1 (by omega))
  have hmark : prepared (sealKey E enc) (size, buf, buf2, enc') = sentLength (sealKey E enc) (p.plain E).length := by
    have hcount := congrArg UInt32.toNat hr.size
    rw [UInt32.toNat_ofNat'] at hcount
    unfold prepared at *
    by_cases hkey : (sealKey E enc).isSome
    · rw [if_pos hkey] at *
      dsimp only at *
      have hmod := Nat.mod_le buf2.used (2 ^ 32)
      omega
    · rw [if_neg hkey]
      unfold sentLength
      rw [if_neg hkey]
      exact hbuf
  have hsz : size = UInt32.ofNat (sentLength (sealKey E enc) (p.plain E).length) := by
    apply UInt32.toNat_inj.1
    rw [UInt32.toNat_ofNat', Nat.mod_eq_of_lt hfit]
    exact hsize
  have hstock := hfirst.whole _ w1 hprepare hmark
  have hwritten := hsecond.whole _ w2 hframe (by rw [hused, hbuf])
  dsimp only at hwritten
  rw [hr.plain hbuf, hsz] at hwritten
  unfold FindsRoom Stock.write
  rw [hstock, Option.bind_some, hwritten]
  rfl

omit hp ho in
theorem IsFrame.length {enc : Option Encrypt} {size : UInt32} {f : Bytes} (h : IsFrame E p enc size f) :
    size.toNat = sentLength (sealKey E enc) (p.plain E).length ∧
      f.length = 8 + sentLength (sealKey E enc) (p.plain E).length := by
  obtain ⟨s, hs, hsize, rfl⟩ := h
  have hlen := hs.length hS
  refine ⟨hsize.trans hlen, ?_⟩
  simp only [List.length_append, length_wire32, length_wire16, hlen]

/-- Where all of the packet has been appended, room was found for it. -/
private theorem findsRoom_of_writesAll (hne : p.type ≠ packetInvalid) (hm : o.unmutable = false)
    (enc : Option Encrypt) (w : World) :
    Exec.Ensures (protocolWritePacket E p o enc) w fun r _ => WritesAll E p o enc r →
      sentLength (sealKey E enc) (p.plain E).length < 2 ^ 32 ∧ FindsRoom E p enc (o.stock w) := by
  intro r w' hrun ⟨_, f, hf, hcont⟩
  obtain ⟨hsize, hlen⟩ := hf.length hS
  have hfit : sentLength (sealKey E enc) (p.plain E).length < 2 ^ 32 := by
    rw [← hsize]
    exact UInt32.toNat_lt _
  obtain ⟨-, hkept, -, hroom⟩ := writePacket_ensures hS hp ho hne hm hfit w r w' hrun
  have hl := congrArg List.length hcont
  rw [hkept.wf.length_contents, List.length_append, ho.length_contents, hlen] at hl
  exact ⟨hfit, hroom hl hsize⟩

/-- Where room is found, all of the packet is appended. -/
theorem writesAll_of_findsRoom (hne : p.type ≠ packetInvalid) (hm : o.unmutable = false)
    {enc : Option Encrypt} (hfit : sentLength (sealKey E enc) (p.plain E).length < 2 ^ 32) {w : World}
    (hroom : FindsRoom E p enc (o.stock w)) :
    Exec.Returns (protocolWritePacket E p o enc) w fun r _ => WritesAll E p o enc r := by
  obtain ⟨s3, hs3⟩ := Option.isSome_iff_exists.1 hroom
  obtain ⟨s1, hs1, hs3⟩ := Option.bind_eq_some_iff.1 hs3
  obtain ⟨s2, hs2, hs3⟩ := Option.bind_eq_some_iff.1 hs3
  rw [protocolWritePacket_eq hne]
  have hfirst := prepare_tries hS hp o enc hfit w
  obtain ⟨⟨size, buf, buf2, enc'⟩, w1, hprepare, hr, hmark, hreached⟩ := hfirst.returns hs1
  have hsecond := sendFrame_tries hS ho hm hr hfit w1
  have hbuf : buf.used = (p.plain E).length := by
    refine Nat.le_antisymm hr.used_le ((sentLength_strictMono (sealKey E enc)).le_iff_le.1 ?_)
    rw [← hmark]
    exact hr.sent_le
  have hsz : size = UInt32.ofNat (sentLength (sealKey E enc) (p.plain E).length) := by
    refine hr.size.trans (congrArg UInt32.ofNat ?_)
    rw [← hmark]
    unfold prepared
    split
    · rfl
    · exact hbuf.symm
  dsimp only at hsecond hreached
  rw [hreached, hr.plain hbuf, hsz, hs2, Option.bind_some] at hsecond
  obtain ⟨⟨out, enc''⟩, w2, hframe, hkept, htop, hout⟩ := hsecond.returns hs3
  rw [← hsz] at hframe
  obtain ⟨r, w', hfinish, hr'⟩ := finish_returns buf buf2 ((0 : Int), { p with size }, out, enc'') w2
  refine .intro (Exec.bind_of_ok hprepare _ |>.trans (Exec.bind_of_ok hframe _ |>.trans hfinish)) ?_
  subst hr'
  obtain ⟨s, hs, hcont⟩ := Stock.send_contents hs3
  have hsize : size.toNat = s.length := by
    rw [hs.length hS, hsz, UInt32.toNat_ofNat', Nat.mod_eq_of_lt hfit]
  refine ⟨rfl, _, ⟨s, hs, hsize, rfl⟩, ?_⟩
  · have hout := congrArg Stock.contents hout
    rw [hcont, Stock.appendAll_contents hs2, ← hreached, ← hsz] at hout
    refine hout.trans ?_
    simp [headerPieces, Buffer.stock]

omit hS hp ho in
/-- No error is told of. -/
theorem writePacket_code (hne : p.type ≠ packetInvalid) (enc : Option Encrypt) (w : World) :
    Exec.Ensures (protocolWritePacket E p o enc) w fun r _ => r.1 = 0 := by
  intro r w' hrun
  rw [protocolWritePacket_eq hne] at hrun
  obtain ⟨⟨size, buf, buf2, enc'⟩, w1, -, hrun⟩ := Exec.bind_eq_ok.1 hrun
  obtain ⟨⟨out, enc''⟩, w2, -, hrun⟩ := Exec.bind_eq_ok.1 hrun
  rw [(finish_returns buf buf2 ((0 : Int), { p with size }, out, enc'') w2).ensures r w' hrun]

omit hS hp ho in
private theorem writesAll_of_allOrNothing (hne : p.type ≠ packetInvalid) (enc : Option Encrypt) (w : World) :
    Exec.Ensures (protocolWritePacket E p o enc) w fun r _ => AllOrNothing E p o enc r →
      WritesAll E p o enc r ∧ o.unmutable = false := by
  intro r w' hrun h
  rcases h with h | h
  · refine ⟨h, ?_⟩
    by_contra hm
    obtain ⟨_, _, ⟨s, -, -, rfl⟩, hcont⟩ := h
    have hsame := (writePacket_unmutable (Bool.eq_true_of_not_eq_false hm) hne enc w r w' hrun).2
    have hl := congrArg List.length hcont
    rw [hsame] at hl
    simp only [List.length_append, length_wire32, length_wire16] at hl
    omega
  · exact absurd (writePacket_code hne enc w r w' hrun) h.1

/-- The packet of any other type is written completely exactly when the buffer can be changed, room is found, and
the size of the body can be announced. -/
theorem allOrNothing_iff (enc : Option Encrypt) (w : World) :
    Exec.Returns (protocolWritePacket E p o enc) w (fun r _ => AllOrNothing E p o enc r) ↔
      p.type = packetInvalid ∨ o.unmutable = false ∧ sentLength (sealKey E enc) (p.plain E).length < 2 ^ 32 ∧
        FindsRoom E p enc (o.stock w) := by
  constructor
  · intro ⟨r, w', hrun, h⟩
    by_cases hne : p.type = packetInvalid
    · exact .inl hne
    · obtain ⟨hall, hm⟩ := writesAll_of_allOrNothing hne enc w r w' hrun h
      obtain ⟨hfit, hroom⟩ := findsRoom_of_writesAll hS hp ho hne hm enc w r w' hrun hall
      exact .inr ⟨hm, hfit, hroom⟩
  · intro h
    by_cases hne : p.type = packetInvalid
    · refine (writePacket_invalid hne o enc w).mono ?_
      intro r w' hr
      rw [hr]
      exact .inr ⟨Int.one_ne_zero, rfl⟩
    · obtain ⟨hm, hfit, hroom⟩ := h.resolve_left hne
      refine (writesAll_of_findsRoom hS hp ho hne hm hfit hroom).mono ?_
      intro r w' hall
      exact .inl hall

end AllOrNothing

/-- A `REJECT` on an encrypted connection, appended to a full buffer of one byte. -/
theorem allOrNothing_sealed :
    Exec.Returns (protocolWritePacket (Env.amd64 0) ⟨0, 1, 2, [.number 5]⟩ (Buffer.ofBytes [7])
      (some ⟨⟨true, Vector.replicate _ 0⟩, ⟨Vector.replicate _ 0, Vector.replicate _ 0⟩,
        ⟨true, Vector.replicate _ 0⟩⟩)) World.start
      (fun r _ => AllOrNothing (Env.amd64 0) ⟨0, 1, 2, [.number 5]⟩ (Buffer.ofBytes [7])
        (some ⟨⟨true, Vector.replicate _ 0⟩, ⟨Vector.replicate _ 0, Vector.replicate _ 0⟩,
          ⟨true, Vector.replicate _ 0⟩⟩) r) := by
  refine (allOrNothing_iff ?_ ?_ (Buffer.ofBytes_wf (by decide)) _ World.start).2 (.inr ⟨rfl, ?_, ?_⟩)
  · intro m n k c h
    cases h
    rfl
  · intro s hs
    have hs : Value.string s ∈ [Value.number 5] := hs
    simp at hs
  · decide
  · decide

/-- A host that has no more than two blocks left -/
private def Env.two : Env := { Env.amd64 0 with malloc := fun k => if k < 2 then some fun _ => 0 else none }

/-- A buffer with room for four bytes -/
private def Buffer.four : Buffer := { Buffer.ofBytes [] with _init := 4, max := 4, buf := some ⟨0, [0, 0, 0, 0]⟩ }

/-- A `PING` to a buffer with room for four bytes, when there is no memory for more: the size is appended, but not
the id and the type.  To a buffer that must not change nothing is appended.  The code is `0` in both cases. -/
theorem not_allOrNothing_ping :
    ¬ Exec.Returns (protocolWritePacket Env.two ⟨0, 1, 5, []⟩ Buffer.four none) World.start
      (fun r _ => AllOrNothing Env.two ⟨0, 1, 5, []⟩ Buffer.four none r) ∧
    ¬ Exec.Returns (protocolWritePacket (Env.amd64 0) ⟨0, 1, 5, []⟩ { Buffer.ofBytes [] with unmutable := true } none)
      World.start (fun r _ =>
        AllOrNothing (Env.amd64 0) ⟨0, 1, 5, []⟩ { Buffer.ofBytes [] with unmutable := true } none r) := by
  constructor
  · intro ⟨r, w', hrun, h⟩
    have hS : Env.two.sodium.KeepsLength := by
      intro m n k c hc
      cases hc
      rfl
    have hwf : Buffer.four.WF Env.two := ⟨rfl, rfl, by decide, by decide⟩
    have hvalid : ∀ s, Value.string s ∈ (⟨0, 1, 5, []⟩ : Packet).values → s.Valid := by
      intro s hs
      have hs : Value.string s ∈ [] := hs
      simp at hs
    obtain ⟨hall, -⟩ := writesAll_of_allOrNothing (by decide) none World.start r w' hrun h
    have hroom := (findsRoom_of_writesAll hS hvalid hwf (by decide) rfl none World.start r w' hrun hall).2
    revert hroom
    decide
  · intro ⟨r, w', hrun, h⟩
    obtain ⟨-, hm⟩ := writesAll_of_allOrNothing (by decide) none World.start r w' hrun h
    cases hm

end Excom
