import Excom.Seal

/-!
# A decryption that fails cleanly

What is asked of `excom_pdecrypt_buffer2` (`CleanDecrypt`): that its two differences of lengths do not wrap around,
that it reads nothing of the input but the `use` bytes at the cursor, and that it either opens them and moves the
cursor over all of them, or fails and changes nothing.  The cursor is moved over the nonce before anything is
checked, and never further (`pdecryptBuffer2_cursor`); so the function does what is asked of it only where it
fails before that, for an output buffer that may not be changed (`decryptsCleanly_iff`).
-/

namespace Excom

variable (E : Env)

/-- The bytes behind the nonce, of the `use` bytes at the cursor, are the encryption of `m`. -/
def OpensTo (enc : Encrypt) (buf : Buffer) (use : Nat) (m : Bytes) : Prop :=
  E.sodium.cryptoBoxOpenAfternm ((buf.ahead.drop cryptoBoxNonceBytes).take (use - cryptoBoxNonceBytes))
    (pdecryptBuffer2.nonceOf (buf.ahead.take cryptoBoxNonceBytes)) (enc.sharedKey E) = some m

/-- A read of the input buffer is one of the `use` bytes at the cursor. -/
def WithinUse (buf : Buffer) (use : Nat) (l : Load) : Prop :=
  buf.buf.map Block.id = some l.block → buf.pos ≤ l.off ∧ l.off + l.len ≤ buf.pos + use

/-- The results of a decryption of the `use` bytes at the cursor that succeeds or fails as a whole. -/
structure CleanDecrypt (enc : Encrypt) (buf out : Buffer) (use : Nat) (w : World)
    (r : Int × Encrypt × Buffer × Buffer) (w' : World) : Prop where
  /-- `use - crypto_box_NONCEBYTES`, computed once the output is known to be mutable, does not wrap around. -/
  nonce_le : out.unmutable = false → cryptoBoxNonceBytes ≤ use
  /-- `m_len - crypto_box_ZEROBYTES`, computed when the plaintext is appended, does not wrap around. -/
  zero_le : r.1 = 0 → cryptoBoxNonceBytes + cryptoBoxZeroBytes ≤ use
  reads : World.Reads (WithinUse buf use) w w'
  opened : r.1 = 0 → r.2.2.1 = { buf with pos := buf.pos + use } ∧
    ∃ m, OpensTo E enc buf use m ∧ r.2.2.2.contents = out.contents ++ m.drop cryptoBoxZeroBytes
  failed : r.1 ≠ 0 → r.2.2.1 = buf ∧ r.2.2.2 = out

/-- `excom_pdecrypt_buffer2` succeeds or fails as a whole. -/
def DecryptsCleanly (enc : Encrypt) (buf out : Buffer) (use : Nat) (w : World) : Prop :=
  Exec.Returns (pdecryptBuffer2 E enc buf out use) w (CleanDecrypt E enc buf out use w)

variable {E} {enc : Encrypt} {buf out : Buffer} {use : Nat}

/-- An output buffer that may not be changed is seen before anything is done. -/
theorem pdecryptBuffer2_unmutable (h0 : 0 < use) (hm : out.unmutable = true) (w : World) :
    pdecryptBuffer2 E enc buf out use w = .ok ((EACCES, enc, buf, out), w) := by
  unfold pdecryptBuffer2
  rw [if_neg (by omega), if_pos hm]
  rfl

/-- A decryption into a buffer that may be changed is never clean: after a success the cursor would have to be
behind the bytes, which are more than a nonce, and after a failure where it was. -/
theorem not_decryptsCleanly (h0 : 0 < use) (hm : out.unmutable = false) (w : World) :
    ¬ DecryptsCleanly E enc buf out use w := by
  intro ⟨r, w', hrun, h⟩
  have hcur := congrArg Buffer.pos (pdecryptBuffer2_cursor h0 hm w r w' hrun)
  have h24 : cryptoBoxNonceBytes = 24 := rfl
  have h32 : cryptoBoxZeroBytes = 32 := rfl
  by_cases hcode : r.1 = 0
  · have hpos := congrArg Buffer.pos (h.opened hcode).1
    have hle := h.zero_le hcode
    rw [hcur] at hpos
    simp only at hpos
    omega
  · rw [(h.failed hcode).1] at hcur
    simp only at hcur
    omega

/-- `excom_pdecrypt_buffer2` succeeds or fails as a whole exactly when the output buffer may not be changed. -/
theorem decryptsCleanly_iff (h0 : 0 < use) (w : World) :
    DecryptsCleanly E enc buf out use w ↔ out.unmutable = true := by
  constructor
  · intro h
    by_contra hm
    exact not_decryptsCleanly h0 (by simpa using hm) w h
  · intro hm
    refine .intro (pdecryptBuffer2_unmutable h0 hm w) ⟨?_, ?_, .refl w, ?_, fun _ => ⟨rfl, rfl⟩⟩
    · intro hfalse
      rw [hm] at hfalse
      cases hfalse
    · intro hcode
      cases hcode
    · intro hcode
      cases hcode

/-- The keys of a connection, on a host whose `crypto_box` leaves messages as they are. -/
def plainKeys : Encrypt := .init ⟨Vector.replicate _ 0, Vector.replicate _ 0⟩

/-- A nonce, the zero bytes and one byte of plaintext -/
def sealedByte : Bytes := List.replicate 24 9 ++ (List.replicate 32 0 ++ [7])

/-- An output buffer of 64 bytes that holds nothing -/
def emptyOut : Buffer := { Buffer.ofBytes (List.replicate 64 0) with used := 0 }

/-- A sealed byte is opened, and the cursor stops behind the nonce. -/
theorem decrypts_not_cleanly : OpensTo (Env.amd64 0) plainKeys (.ofBytes sealedByte) 57 (zeroBytes ++ [7]) ∧
    57 ≤ (Buffer.ofBytes sealedByte).remaining (Env.amd64 0) ∧ emptyOut.WF (Env.amd64 0) ∧
    ¬ DecryptsCleanly (Env.amd64 0) plainKeys (.ofBytes sealedByte) emptyOut 57 World.start :=
  ⟨rfl, by decide, ⟨rfl, rfl, by decide, by decide⟩, not_decryptsCleanly (by decide) rfl _⟩

/-- The same bytes, to be decrypted into a buffer that may not be changed -/
theorem decryptsCleanly_iff_unmutable : DecryptsCleanly (Env.amd64 0) plainKeys (.ofBytes sealedByte)
    { emptyOut with unmutable := true } 57 World.start :=
  (decryptsCleanly_iff (by decide) _).2 rfl

end Excom
