import Excom.Buffer

/-!
# Encryption

`excom/encryption.c`: the keys of a connection, and the encryption and decryption of the bytes at the cursor
of a buffer.  An encrypted body is the nonce followed by all that `crypto_box_afternm` returns.
-/

namespace Excom

/-- `excom_encrypt_pair_t` -/
structure EncryptPair where
  pkey : Key
  skey : Key
  deriving DecidableEq

structure EncryptRemote where
  active : Bool
  pkey : Key
  deriving DecidableEq

structure EncryptNm where
  active : Bool
  kkey : Key
  deriving DecidableEq

/-- `excom_encrypt_t`; `localPair` is what its field `local` points to. -/
structure Encrypt where
  remote : EncryptRemote
  localPair : EncryptPair
  nm : EncryptNm
  deriving DecidableEq

/-- `excom_encrypt_init`, and then `local` is set. -/
def Encrypt.init (localPair : EncryptPair) : Encrypt :=
  ⟨⟨false, Vector.replicate _ 0⟩, localPair, ⟨false, Vector.replicate _ 0⟩⟩

variable (E : Env)

/-- `excom_encrypt_prep` -/
def Encrypt.prep (enc : Encrypt) : Encrypt :=
  if !enc.nm.active then
    { enc with nm := ⟨true, E.sodium.cryptoBoxBeforenm enc.remote.pkey enc.localPair.skey⟩ }
  else enc

/-- `randombytes_buf` for a nonce. -/
def randombytesBuf : M Nonce := fun w => .ok (E.randombytes w.randoms, { w with randoms := w.randoms + 1 })

/-- `excom_pencrypt_buffer2` -/
def pencryptBuffer2 (enc : Encrypt) (buf out : Buffer) (use : Nat) : M (Int × Encrypt × Buffer) :=
  if use = 0 then pure (0, enc, out)
  else if out.unmutable then pure (EACCES, enc, out)
  else do
    let mutex ← mutexLock out.mutex
    let mLen := (use + cryptoBoxZeroBytes) % E.word
    let cLen := mLen
    let nonce ← randombytesBuf E
    let message ← malloc E mLen
    let crypt ← malloc E cLen
    if crypt.isNone || message.isNone then
      free message
      free crypt
      let mutex ← mutexUnlock mutex
      return (ENOMEM, enc, { out with mutex })
    else
      let message ← store message 0 (List.replicate cryptoBoxZeroBytes 0)
      let bytes ← load buf.buf buf.pos use
      let message ← store message cryptoBoxZeroBytes bytes
      let mutex ← mutexUnlock mutex
      let out := { out with mutex }
      let enc := enc.prep E
      match E.sodium.cryptoBoxAfternm ((blockBytes message).take mLen) nonce enc.nm.kkey with
      | none =>
        free message
        free crypt
        return (-1, enc, out)
      | some c =>
        let crypt ← store crypt 0 c
        free message
        let (_, out) ← out.cappend E nonce.toList cryptoBoxNonceBytes
        let (_, out) ← out.cappend E (blockBytes crypt) cLen
        free crypt
        return (0, enc, out)

/-- `excom_pencrypt_buffer` -/
def pencryptBuffer (enc : Encrypt) (buf out : Buffer) : M (Int × Encrypt × Buffer) :=
  pencryptBuffer2 E enc buf out (buf.remaining E)

/-- `excom_pdecrypt_buffer2`: also the buffer that is read, whose cursor moves over the nonce. -/
def pdecryptBuffer2 (enc : Encrypt) (buf out : Buffer) (use : Nat) : M (Int × Encrypt × Buffer × Buffer) :=
  if use = 0 then pure (0, enc, buf, out)
  else if out.unmutable then pure (EACCES, enc, buf, out)
  else do
    let mutex ← mutexLock out.mutex
    let nonce ← load buf.buf buf.pos cryptoBoxNonceBytes
    -- wraps around when `use` is less than the length of a nonce
    let cLen := (((use : Int) - cryptoBoxNonceBytes) % E.word).toNat
    let mLen := cLen
    let buf := { buf with pos := buf.pos + cryptoBoxNonceBytes }
    let crypt ← malloc E cLen
    let message ← malloc E mLen
    if crypt.isNone || message.isNone then
      free message
      free crypt
      let mutex ← mutexUnlock mutex
      return (ENOMEM, enc, buf, { out with mutex })
    else
      let bytes ← load buf.buf buf.pos cLen
      let crypt ← store crypt 0 bytes
      let mutex ← mutexUnlock mutex
      let out := { out with mutex }
      let enc := enc.prep E
      match E.sodium.cryptoBoxOpenAfternm ((blockBytes crypt).take cLen) (nonceOf nonce) enc.nm.kkey with
      | none =>
        free crypt
        free message
        return (-1, enc, buf, out)
      | some m =>
        let message ← store message 0 m
        free crypt
        let (_, out) ← out.cappend E ((blockBytes message).drop cryptoBoxZeroBytes)
          (((mLen : Int) - cryptoBoxZeroBytes) % E.word).toNat
        free message
        return (0, enc, buf, out)
where
  /-- The bytes read into the array `nonce`. -/
  nonceOf (bytes : Bytes) : Nonce := Vector.ofFn fun i => bytes.getD i 0

end Excom
