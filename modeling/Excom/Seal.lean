import Excom.WritePacket

/-!
# What encryption and decryption do

With libsodium as documented (`Sodium.Lawful`), the encryption of the bytes at the cursor appends a nonce and a
ciphertext (`Sealed`), and the decryption of these under the same shared key appends the bytes again.  The
decryption moves the cursor of the buffer it reads over the nonce only.
-/

namespace Excom

/-- The bytes in front of a message in the form in which libsodium takes it. -/
def zeroBytes : Bytes := List.replicate cryptoBoxZeroBytes 0

@[simp] theorem length_zeroBytes : zeroBytes.length = 32 := rfl

/-- Every message is encrypted to as many bytes, and decrypted again under the same nonce and key. -/
def Sodium.Lawful (s : Sodium) : Prop :=
  ∀ (m : Bytes) (n : Nonce) (k : Key), ∃ c, s.cryptoBoxAfternm (zeroBytes ++ m) n k = some c ∧
    c.length = (zeroBytes ++ m).length ∧ s.cryptoBoxOpenAfternm c n k = some (zeroBytes ++ m)

variable (E : Env)

/-- The key of `crypto_box_afternm`: the cached one, or the one that `excom_encrypt_prep` will cache. -/
def Encrypt.sharedKey (enc : Encrypt) : Key := (enc.prep E).nm.kkey

/-- The bytes are a nonce, followed by the encryption of `m`. -/
def Sealed (key : Key) (m bs : Bytes) : Prop :=
  ∃ (n : Nonce) (c : Bytes), E.sodium.cryptoBoxAfternm (zeroBytes ++ m) n key = some c ∧ bs = n.toList ++ c

/-- The bytes are a nonce, followed by what is decrypted to `m` behind the zero bytes. -/
def Opened (key : Key) (m bs : Bytes) : Prop :=
  ∃ (n : Nonce) (c z : Bytes), E.sodium.cryptoBoxOpenAfternm c n key = some (z ++ m) ∧
    z.length = cryptoBoxZeroBytes ∧ c.length = cryptoBoxZeroBytes + m.length ∧ bs = n.toList ++ c

/-- The body of a frame: nothing is encrypted to nothing. -/
def SealedBody (key : Key) (m bs : Bytes) : Prop := if m = [] then bs = [] else Sealed E key m bs

/-- The length of a body of `n` bytes when it is encrypted. -/
def sealedLength (n : Nat) : Nat := if n = 0 then 0 else 24 + (32 + n)

/-- The keys encrypt and decrypt alike. -/
structure SameKeys (keys keys' : Encrypt) : Prop where
  remote : keys'.remote = keys.remote
  sharedKey : keys'.sharedKey E = keys.sharedKey E

variable {E}

@[simp] theorem Encrypt.prep_remote (enc : Encrypt) : (enc.prep E).remote = enc.remote := by
  unfold Encrypt.prep; split <;> rfl

@[simp] theorem Encrypt.sharedKey_prep (enc : Encrypt) : (enc.prep E).sharedKey E = enc.sharedKey E := by
  unfold Encrypt.sharedKey Encrypt.prep
  cases h : enc.nm.active <;> simp [h]

theorem SameKeys.refl (keys : Encrypt) : SameKeys E keys keys := ⟨rfl, rfl⟩

theorem SameKeys.prep (keys : Encrypt) : SameKeys E keys (keys.prep E) := ⟨by simp, by simp⟩

theorem SameKeys.trans {keys keys' keys'' : Encrypt} (h : SameKeys E keys keys')
    (h' : SameKeys E keys' keys'') : SameKeys E keys keys'' :=
  ⟨h'.remote.trans h.remote, h'.sharedKey.trans h.sharedKey⟩

theorem SameKeys.activeKeys {keys keys' : Encrypt} (h : SameKeys E keys keys')
    (hactive : keys.remote.active = true) : activeKeys (some keys') = some keys' :=
  activeKeys_some (by rw [h.remote, hactive])

/-- Sealed bytes are longer by the nonce and by what `crypto_box` adds. -/
theorem Sealed.length (hS : E.sodium.Lawful) {key : Key} {m bs : Bytes} (h : Sealed E key m bs) :
    bs.length = 24 + (32 + m.length) := by
  obtain ⟨n, c, hc, rfl⟩ := h
  obtain ⟨c', hc', hlen, -⟩ := hS m n key
  rw [hc] at hc'
  cases hc'
  rw [List.length_append, hlen, List.length_append, Vector.length_toList]
  rfl

theorem SealedBody.length (hS : E.sodium.Lawful) {key : Key} {m bs : Bytes} (h : SealedBody E key m bs) :
    bs.length = sealedLength m.length := by
  unfold SealedBody at h
  unfold sealedLength
  by_cases hm : m = []
  · rw [if_pos hm] at h
    simp [h, hm]
  · rw [if_neg hm] at h
    rw [if_neg (by simpa using hm)]
    exact h.length hS

/-- What was sealed is opened again. -/
theorem Sealed.opened (hS : E.sodium.Lawful) {key : Key} {m bs : Bytes} (h : Sealed E key m bs) :
    Opened E key m bs := by
  obtain ⟨n, c, hc, rfl⟩ := h
  obtain ⟨c', hc', hlen, hopen⟩ := hS m n key
  obtain rfl : c = c' := Option.some.inj (hc.symm.trans hc')
  exact ⟨n, c, zeroBytes, hopen, length_zeroBytes, by rw [hlen, List.length_append]; rfl, rfl⟩

theorem Opened.length {key : Key} {m bs : Bytes} (h : Opened E key m bs) : bs.length = 24 + (32 + m.length) := by
  obtain ⟨n, c, z, -, -, hc, rfl⟩ := h
  rw [List.length_append, hc, Vector.length_toList]
  rfl

/-- What a decryption cuts out of the sealed bytes ahead of the cursor: the nonce, and behind it what was encrypted.
Neither of the two differences that it computes wraps around. -/
private theorem Opened.cut {key : Key} {m bs rest : Bytes} (h : Opened E key m bs)
    {buf : Buffer} (hahead : buf.ahead = bs ++ rest) (hfit : 32 + m.length < E.word) :
    ∃ (n : Nonce) (c z : Bytes), E.sodium.cryptoBoxOpenAfternm c n key = some (z ++ m) ∧ z.length = 32 ∧
      c.length = 32 + m.length ∧ buf.pos + 24 + c.length ≤ (blockBytes buf.buf).length ∧
      (((bs.length : Int) - cryptoBoxNonceBytes) % E.word).toNat = c.length ∧
      (((c.length : Int) - cryptoBoxZeroBytes) % E.word).toNat = m.length ∧
      pdecryptBuffer2.nonceOf (((blockBytes buf.buf).drop buf.pos).take cryptoBoxNonceBytes) = n ∧
      ((blockBytes buf.buf).drop (buf.pos + cryptoBoxNonceBytes)).take c.length = c := by
  have hbl := h.length
  obtain ⟨n, c, z, hopen, hz, hcl, rfl⟩ := h
  rw [show cryptoBoxZeroBytes = 32 from rfl] at hz hcl
  have hnl : n.toList.length = cryptoBoxNonceBytes := Vector.length_toList
  have hal := congrArg List.length hahead
  rw [Buffer.ahead, List.length_drop, List.length_append, hbl] at hal
  refine ⟨n, c, z, hopen, hz, hcl, by omega, ?_, ?_, ?_, ?_⟩
  · rw [hbl, ← hcl, show cryptoBoxNonceBytes = 24 from rfl, toNat_sub_emod (Nat.le_add_right 24 _) (by omega)]
    exact Nat.add_sub_cancel_left 24 _
  · rw [hcl, show cryptoBoxZeroBytes = 32 from rfl, toNat_sub_emod (Nat.le_add_right 32 _) (by omega)]
    exact Nat.add_sub_cancel_left 32 _
  · change pdecryptBuffer2.nonceOf (buf.ahead.take cryptoBoxNonceBytes) = n
    rw [hahead, List.append_assoc, List.take_left' hnl]
    ext i hi
    simp [pdecryptBuffer2.nonceOf]
  · rw [← List.drop_drop]
    change (buf.ahead.drop cryptoBoxNonceBytes).take c.length = c
    rw [hahead, List.append_assoc, List.drop_left' hnl, List.take_left' rfl]

/-- A store that fills a block. -/
theorem store_whole (p : Option Block) (src : Bytes) (h : (blockBytes p).length = src.length) :
    ∃ p', store p 0 src = pure p' ∧ blockBytes p' = src := by
  obtain ⟨p', hst, hbytes, -⟩ := store_eq p 0 src (by omega)
  refine ⟨p', hst, ?_⟩
  rw [hbytes, List.drop_eq_nil_of_le (by omega)]
  simp

private theorem length_junk (id size : Nat) (junk : Nat → UInt8) :
    (blockBytes (some ⟨id, (List.range size).map junk⟩)).length = size := by simp

/-- The plaintext with its zero bytes is put together in a fresh block. -/
theorem store_message (p : Option Block) (m : Bytes) (h : (blockBytes p).length = m.length + 32) :
    ∃ p1 p2, store p 0 zeroBytes = pure p1 ∧ store p1 cryptoBoxZeroBytes m = pure p2 ∧
      blockBytes p2 = zeroBytes ++ m := by
  obtain ⟨p1, hst1, hbytes1, -⟩ := store_eq p 0 zeroBytes (by rw [length_zeroBytes]; omega)
  have hl1 : (blockBytes p1).length = m.length + 32 := by
    rw [hbytes1]
    simp only [List.length_append, List.length_take, List.length_drop, length_zeroBytes]
    omega
  obtain ⟨p2, hst2, hbytes2, -⟩ := store_eq p1 cryptoBoxZeroBytes m
    (by rw [hl1, show cryptoBoxZeroBytes = 32 from rfl]; omega)
  refine ⟨p1, p2, hst1, hst2, ?_⟩
  have htake : (blockBytes p1).take cryptoBoxZeroBytes = zeroBytes := by
    rw [hbytes1, List.take_zero, List.nil_append]
    exact List.take_left' rfl
  rw [hbytes2, htake, List.drop_eq_nil_of_le (by rw [hl1, show cryptoBoxZeroBytes = 32 from rfl]; omega),
    List.append_nil]

/-- Whatever a decryption returns, the cursor has moved over the nonce, and no further. -/
theorem pdecryptBuffer2_cursor {enc : Encrypt} {buf out : Buffer} {use : Nat} (h0 : 0 < use)
    (hm : out.unmutable = false) (w : World) :
    Exec.Ensures (pdecryptBuffer2 E enc buf out use) w fun r _ =>
      r.2.2.1 = { buf with pos := buf.pos + cryptoBoxNonceBytes } := by
  unfold pdecryptBuffer2
  rw [if_neg (by omega), if_neg (by rw [hm]; decide)]
  refine .seq fun mutex w1 => .seq fun nonce w2 => .seq fun crypt w3 => .seq fun message w4 => ?_
  dsimp only
  split
  · exact .seq fun _ _ => .seq fun _ _ => .seq fun _ _ => .pure rfl
  refine .seq fun bytes w5 => .seq fun crypt w6 => .seq fun mutex w7 => ?_
  split
  · exact .seq fun _ _ => .seq fun _ _ => .pure rfl
  · exact .seq fun _ _ => .seq fun _ _ => .seq fun _ _ => .seq fun _ _ => .pure rfl

/-- `excom_pdecrypt_buffer2` opens what can be opened. -/
theorem pdecryptBuffer2_returns (hA : E.AllocSucceeds) {buf out : Buffer} (enc : Encrypt) {m bs rest : Bytes}
    (hs : Opened E (enc.sharedKey E) m bs) (hahead : buf.ahead = bs ++ rest) (ho : out.WF E)
    (hm : out.unmutable = false) (hfit : 2 * (out.used + (32 + m.length)) ≤ E.word) (w : World) :
    Exec.Returns (pdecryptBuffer2 E enc buf out bs.length) w fun r w' => w.allocs ≤ w'.allocs ∧ ∃ out',
      r = (0, enc.prep E, { buf with pos := buf.pos + cryptoBoxNonceBytes }, out') ∧
        Buffer.FreshBlock w out out' ∧ Buffer.Appended E out m out' := by
  have hbl := hs.length
  obtain ⟨n, c, z, hopen, hz, hcl, hin, hcLen, hmLen, hnonce, hcrypt⟩ := hs.cut hahead (by omega)
  unfold pdecryptBuffer2
  rw [if_neg (by rw [hbl]; omega), if_neg (by rw [hm]; decide), ho.mutex, mutexLock_unlocked, Exec.pure_bind]
  simp only [hcLen, hmLen]
  refine (load_returns (P := fun _ => True) buf.buf buf.pos cryptoBoxNonceBytes
    (by rw [show cryptoBoxNonceBytes = 24 from rfl]; omega) (fun _ _ _ => trivial) w).bind ?_
  rintro _ w1 ⟨rfl, hr1⟩
  rw [hnonce]
  refine (malloc_returns hA _ w1).bind ?_
  rintro _ w2 ⟨junk, -, rfl, rfl⟩
  refine (malloc_returns hA _ _).bind ?_
  rintro _ w3 ⟨junk', -, rfl, rfl⟩
  simp only [Option.isNone_some, Bool.or_self, Bool.false_eq_true, if_false]
  refine (load_returns (P := fun _ => True) buf.buf (buf.pos + cryptoBoxNonceBytes) c.length
    (by rw [show cryptoBoxNonceBytes = 24 from rfl]; omega) (fun _ _ _ => trivial) _).bind ?_
  rintro _ w4 ⟨rfl, hr4⟩
  obtain ⟨p1, hst1, hbytes1⟩ := store_whole (some ⟨w1.allocs, (List.range c.length).map junk⟩) c
    (length_junk _ _ _)
  obtain ⟨p2, hst2, hbytes2⟩ := store_whole (some ⟨w1.allocs + 1, (List.range c.length).map junk'⟩)
    (z ++ m) (by rw [length_junk, hcl, List.length_append, hz])
  rw [hcrypt, hst1, Exec.pure_bind, mutexUnlock_locked, Exec.pure_bind]
  have hbox : E.sodium.cryptoBoxOpenAfternm ((blockBytes p1).take c.length) n (enc.prep E).nm.kkey =
      some (z ++ m) := by
    rw [hbytes1, List.take_of_length_le (Nat.le_refl _)]
    exact hopen
  rw [hbox]
  simp only [hst2, Exec.pure_bind]
  refine (free_returns (fun _ => True) p1 w4).bind ?_
  intro _ w5 hr5
  have hplain : (blockBytes p2).drop cryptoBoxZeroBytes = m := by rw [hbytes2]; exact List.drop_left' hz
  have hwf : ({ out with mutex := .unlocked } : Buffer).WF E := by rw [ho.unlocked]; exact ho
  rw [hplain]
  refine (Buffer.cappend_returns (P := fun _ => True) hA hwf (Or.inr fun _ => trivial) hm (Nat.le_refl m.length)
    (Buffer.canGrow_of_le (by show 2 * (out.used + m.length) ≤ _; omega)) w5).bind ?_
  rintro ⟨_, o1⟩ w6 ⟨-, hr6, hfresh, happ⟩
  rw [List.take_of_length_le (Nat.le_refl _)] at happ
  refine (free_returns (fun _ => True) p2 w6).bind ?_
  intro _ w7 hr7
  have ha1 := hr1.allocs
  have ha4 := hr4.allocs
  have ha5 := hr5.allocs
  have ha6 := hr6.allocs
  have ha7 := hr7.allocs
  simp only at ha4
  refine .pure ⟨by omega, o1, rfl, ?_, happ.wf, happ.contents, happ.used, happ.pos, happ.max, happ.unmutable,
    happ.freeable, happ.slack⟩
  intro blk hblk
  rcases hfresh blk hblk with h | h
  · exact Or.inl h
  · exact Or.inr (by omega)

section Seal

variable (hA : E.AllocSucceeds) (hS : E.sodium.Lawful)

include hA hS

/-- `excom_pencrypt_buffer2` appends the sealed bytes. -/
theorem pencryptBuffer2_returns {buf out : Buffer} (enc : Encrypt) {use : Nat} (h0 : 0 < use)
    (hlen : buf.pos + use ≤ (blockBytes buf.buf).length) (ho : out.WF E) (hm : out.unmutable = false)
    (hfit : 2 * (out.used + (24 + (32 + use))) ≤ E.word) (w : World) :
    Exec.Returns (pencryptBuffer2 E enc buf out use) w fun r _ => ∃ bs out',
      Sealed E (enc.sharedKey E) (buf.ahead.take use) bs ∧ r = (0, enc.prep E, out') ∧
        Buffer.Extends E out bs out' := by
  have hmod : (use + cryptoBoxZeroBytes) % E.word = use + 32 := Nat.mod_eq_of_lt (by
    rw [show cryptoBoxZeroBytes = 32 from rfl]; omega)
  have hml : (buf.ahead.take use).length = use := by
    rw [Buffer.ahead, List.length_take, List.length_drop]; omega
  unfold pencryptBuffer2
  rw [if_neg (by omega), if_neg (by rw [hm]; decide), ho.mutex, mutexLock_unlocked, Exec.pure_bind]
  simp only [hmod]
  refine Exec.Returns.bind (Q := fun _ _ => True) ⟨_, _, rfl, trivial⟩ ?_
  intro nonce w1 _
  refine (malloc_returns hA _ w1).bind ?_
  rintro _ w2 ⟨junk, -, rfl, rfl⟩
  refine (malloc_returns hA _ _).bind ?_
  rintro _ w3 ⟨junk', -, rfl, rfl⟩
  obtain ⟨p1, p2, hst1, hst2, hmsg⟩ := store_message (some ⟨w1.allocs, (List.range (use + 32)).map junk⟩)
    (buf.ahead.take use) (by rw [length_junk, hml])
  simp only [Option.isNone_some, Bool.or_self, Bool.false_eq_true, if_false]
  rw [show List.replicate cryptoBoxZeroBytes (0 : UInt8) = zeroBytes from rfl, hst1, Exec.pure_bind]
  refine (load_returns (P := fun _ => True) buf.buf buf.pos use hlen (fun _ _ _ => trivial) _).bind ?_
  rintro _ w4 ⟨rfl, -⟩
  have hst2 : store p1 cryptoBoxZeroBytes (((blockBytes buf.buf).drop buf.pos).take use) = pure p2 := hst2
  obtain ⟨c, hc, hcl, -⟩ := hS (buf.ahead.take use) nonce (enc.sharedKey E)
  have hcl : c.length = use + 32 := by rw [hcl, List.length_append, hml, length_zeroBytes]; omega
  have hbox :
    E.sodium.cryptoBoxAfternm ((blockBytes p2).take (use + 32)) nonce (enc.prep E).nm.kkey = some c := by
    rw [hmsg, List.take_of_length_le (by rw [List.length_append, hml, length_zeroBytes]; omega)]
    exact hc
  obtain ⟨p3, hst3, hcrypt⟩ := store_whole (some ⟨w1.allocs + 1, (List.range (use + 32)).map junk'⟩) c
    (by rw [length_junk, hcl])
  rw [hst2, Exec.pure_bind, mutexUnlock_locked, Exec.pure_bind, hbox]
  simp only [hst3, Exec.pure_bind]
  refine (free_returns (fun _ => True) p2 w4).bind ?_
  intro _ w5 _
  have hnl : nonce.toList.length = 24 := Vector.length_toList
  have hwf : ({ out with mutex := .unlocked } : Buffer).WF E := by rw [ho.unlocked]; exact ho
  refine (cappend_extends hA hwf hm nonce.toList cryptoBoxNonceBytes (Nat.le_of_eq hnl.symm)
    (by show 2 * (out.used + 24) ≤ _; omega) w5).bind ?_
  rintro ⟨_, o1⟩ w6 h1
  have hnonce : nonce.toList.take cryptoBoxNonceBytes = nonce.toList := List.take_of_length_le
    (Nat.le_of_eq hnl)
  rw [hnonce] at h1
  have hu1 : o1.used = out.used + 24 := by rw [← hnl]; exact h1.used hwf
  refine (cappend_extends hA h1.wf (h1.unmutable.trans hm) (blockBytes p3) (use + 32)
    (by rw [hcrypt]; exact Nat.le_of_eq hcl.symm) (by show 2 * (o1.used + (use + 32)) ≤ _; omega) w6).bind ?_
  rintro ⟨_, o2⟩ w7 h2
  rw [hcrypt, List.take_of_length_le (Nat.le_of_eq hcl)] at h2
  refine (free_returns (fun _ => True) p3 w7).bind ?_
  intro _ w8 _
  have h12 := h1.trans h2
  refine .pure ⟨_, o2, ⟨nonce, c, hc, rfl⟩, rfl, h12.wf, h12.contents, h12.pos, h12.unmutable, h12.slack⟩

/-- `excom_pencrypt_buffer` of a body. -/
theorem pencryptBuffer_returns {buf out : Buffer} (keys : Encrypt) (hb : buf.WF E) (hpos : buf.pos = 0)
    (ho : out.WF E)
    (hm : out.unmutable = false) (hfit : 2 * (out.used + sealedLength buf.used) ≤ E.word) (w : World) :
    Exec.Returns (pencryptBuffer E keys buf out) w fun r _ => ∃ bs keys' out',
      SealedBody E (keys.sharedKey E) buf.contents bs ∧ r = (0, keys', out') ∧ SameKeys E keys keys' ∧
        Buffer.Extends E out bs out' := by
  have hrem : buf.remaining E = buf.used := by
    rw [Buffer.remaining_eq hb (by omega), hpos, Nat.sub_zero]
  have hlen := hb.length_contents
  unfold pencryptBuffer
  rw [hrem]
  by_cases h0 : buf.used = 0
  · have hnil : buf.contents = [] := List.length_eq_zero_iff.1 (hlen.trans h0)
    unfold pencryptBuffer2
    rw [if_pos h0]
    exact .pure ⟨[], keys, out, by rw [SealedBody, if_pos hnil], rfl, .refl keys, .refl ho⟩
  · have hne : buf.contents ≠ [] := by
      intro h
      rw [h] at hlen
      exact h0 hlen.symm
    rw [sealedLength, if_neg h0] at hfit
    have hahead : buf.ahead.take buf.used = buf.contents := by rw [Buffer.ahead, hpos, List.drop_zero]; rfl
    refine (pencryptBuffer2_returns hA hS keys (Nat.pos_of_ne_zero h0)
      (by rw [hpos, Nat.zero_add]; exact hb.block_used) ho hm hfit w).mono ?_
    rintro _ w1 ⟨bs, out', hs, rfl, hext⟩
    rw [hahead] at hs
    exact ⟨bs, _, out', by rw [SealedBody, if_neg hne]; exact hs, rfl, .prep keys, hext⟩

end Seal

end Excom
