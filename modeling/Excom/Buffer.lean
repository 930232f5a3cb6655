import Excom.Memory

/-!
# Buffers

`excom_buffer_t` and its functions.  The cursor `pos` is kept as its distance from `buf`, the only way the code
uses it; `size_t` arithmetic is taken modulo `E.word`.  Of the append functions, `cappend`, `bappend2` and
`bappend_remaining2` are the same code for three kinds of source (`Buffer.append`); `sappend` is written out,
since it does not look at the result of the resize.
-/

namespace Excom

structure Buffer where
  /-- The original starting size. -/
  _init : Nat
  max : Nat
  used : Nat
  /-- The distance of the cursor from `buf`. -/
  pos : Nat
  buf : Option Block
  unmutable : Bool
  freeable : Bool
  mutex : Mutex
  deriving DecidableEq, Repr

namespace Buffer

variable (E : Env)

/-- `excom_buffer_init` -/
def init (start : Nat) : M (Int × Buffer) := do
  let buf ← malloc E start
  let b : Buffer :=
    { _init := start, max := start, used := 0, pos := 0, buf := buf, unmutable := false, freeable := true,
      mutex := .uninit }
  match buf with
  | none => do
    let err ← returnErrno
    return (err, b)
  | some _ => return (0, { b with mutex := .unlocked })

/-- The loop `do { new_size *= 2; } while(new_size < to_fit)` of `excom_buffer_resize`, in `size_t` with `word`
values.  `none` when it does not end within the given number of iterations. -/
def growLoop (word toFit : Nat) : Nat → Nat → Option Nat
  | 0, _ => none
  | fuel + 1, newSize =>
    let newSize := newSize * 2 % word
    if newSize < toFit then growLoop word toFit fuel newSize else some newSize

/-- `excom_buffer_resize`.  A `size_t` that has been doubled `wordBits` times is zero, so a loop that has not
ended by then never ends. -/
def resize (b : Buffer) (toFit : Nat) : M (Int × Buffer) :=
  let newSize := if b.max = 0 then 1 else b.max
  match growLoop E.word toFit (E.wordBits + 1) newSize with
  | none => Exec.fault .diverges
  | some newSize => do
    let newBuf ← malloc E newSize
    match newBuf with
    | none => do
      let err ← returnErrno
      return (err, b)
    | some _ => do
      let old ← load b.buf 0 b.used
      let newBuf ← store newBuf 0 old
      -- `distance` is a `uint32_t`
      let distance := b.pos % 2 ^ 32
      free b.buf
      return (0, { b with buf := newBuf, pos := distance, max := newSize })

/-- `if(buffer->used + size > buffer->max) { chk = excom_buffer_resize(buffer, buffer->used + size); }` -/
def reserve (b : Buffer) (size : Nat) : M (Int × Buffer) :=
  if (b.used + size) % E.word > b.max then b.resize E ((b.used + size) % E.word) else pure (0, b)

/-- `memcpy(buffer->buf + buffer->used, src, size); buffer->used += size;`, the unlock and `return 0`. -/
def put (b : Buffer) (size : Nat) (src : M Bytes) : M (Int × Buffer) := do
  let bytes ← src
  let buf ← store b.buf b.used bytes
  let mutex ← mutexUnlock b.mutex
  return (0, { b with buf, used := (b.used + size) % E.word, mutex })

/-- The common part of `excom_buffer_cappend`, `excom_buffer_bappend2` and `excom_buffer_bappend_remaining2`:
append the `size` bytes that `src` reads. -/
def append (b : Buffer) (size : Nat) (src : M Bytes) : M (Int × Buffer) := do
  let mutex ← mutexLock b.mutex
  let (chk, b) ← { b with mutex }.reserve E size
  if chk ≠ 0 then
    let err ← returnErrno
    let mutex ← mutexUnlock b.mutex
    return (err, { b with mutex })
  else b.put E size src

/-- `excom_buffer_cappend` -/
def cappend (b : Buffer) (str : Bytes) (size : Nat) : M (Int × Buffer) :=
  if b.unmutable then pure (EACCES, b) else b.append E size (readBytes str size)

/-- `excom_buffer_sappend`: append the `size` bytes of the string at `body`.  `chk` stays `0` in the source,
so a resize that failed goes unnoticed. -/
def sappend (b : Buffer) (body : Option Block) (size : UInt32) : M (Int × Buffer) :=
  if b.unmutable then pure (EACCES, b)
  else do
    let mutex ← mutexLock b.mutex
    let (_, b) ← { b with mutex }.reserve E size.toNat
    b.put E size.toNat (load body 0 size.toNat)

/-- `excom_buffer_bappend2`: the bytes from `src->buf` on. -/
def bappend2 (b src : Buffer) (amount : Nat) : M (Int × Buffer) :=
  if b.unmutable then pure (EACCES, b)
  else if amount = 0 then pure (0, b)
  else b.append E amount (load src.buf 0 amount)

/-- `excom_buffer_bappend` -/
def bappend (b src : Buffer) : M (Int × Buffer) := b.bappend2 E src src.used

/-- `excom_buffer_bappend_remaining2`: the bytes from `src->pos` on. -/
def bappendRemaining2 (b src : Buffer) (s : Nat) : M (Int × Buffer) :=
  if b.unmutable then pure (EACCES, b)
  else if s = 0 then pure (0, b)
  else b.append E s (load src.buf src.pos s)

/-- `excom_buffer_remaining`: `used - (pos - buf)` as an unsigned word. -/
def remaining (b : Buffer) : Nat := (((b.used : Int) - b.pos) % E.word).toNat

/-- `excom_buffer_bappend_remaining` -/
def bappendRemaining (b src : Buffer) : M (Int × Buffer) := b.bappendRemaining2 E src (src.remaining E)

/-- `excom_buffer_destroy` -/
def destroy (b : Buffer) : M Buffer := do
  if b.freeable then free b.buf
  return { b with max := 0, used := 0, buf := none, pos := 0 }

/-- `excom_buffer_reset` -/
def reset (b : Buffer) : M (Int × Buffer) := do
  let mutex ← mutexLock b.mutex
  let b ← { b with mutex }.destroy
  let b := { b with max := b._init, used := 0, unmutable := false, freeable := true }
  let buf ← malloc E b.max
  let b := { b with buf, pos := 0 }
  match buf with
  | none => do
    let err ← returnErrno
    let mutex ← mutexUnlock b.mutex
    return (err, { b with mutex })
  | some _ => do
    let mutex ← mutexUnlock b.mutex
    return (0, { b with mutex })

/-- The part of `excom_buffer_write` after a `write` that sent everything: a freeable buffer is destroyed, and
the mutex is locked again. -/
def drained (b : Buffer) : M Buffer :=
  if b.remaining E = 0 ∧ b.freeable then do
    let mutex ← mutexUnlock b.mutex
    let b ← { b with mutex }.destroy
    let mutex ← mutexLock b.mutex
    return { b with mutex }
  else pure b

/-- `excom_buffer_write`, when `write` fails with an `errno` or takes so many bytes, all if there are fewer:
also the bytes that it took.  A `write` that fails reads nothing. -/
def write (b : Buffer) (outcome : Except Int Nat) : M (Int × Buffer × Bytes) :=
  if b.remaining E = 0 then pure (0, b, [])
  else do
    let mutex ← mutexLock b.mutex
    match outcome with
    | .error errno => do
      let mutex ← mutexUnlock mutex
      return (errno, { b with mutex }, [])
    | .ok n => do
      let written := min n (b.remaining E)
      let bytes ← load b.buf b.pos written
      let b ← { b with pos := b.pos + written, mutex }.drained E
      let mutex ← mutexUnlock b.mutex
      return (0, { b with mutex }, bytes)

end Buffer

/-! ### What a buffer holds -/

namespace Buffer

/-- The bytes that have been appended. -/
def contents (b : Buffer) : Bytes := (blockBytes b.buf).take b.used

/-- The bytes appended and not read yet. -/
def unread (b : Buffer) : Bytes := b.contents.drop b.pos

/-- The bytes of the block at the cursor, whether or not they have been written. -/
def ahead (b : Buffer) : Bytes := (blockBytes b.buf).drop b.pos

/-- The bytes of the block that have not been written. -/
def slack (b : Buffer) : Bytes := (blockBytes b.buf).drop b.used

/-- A buffer that is ready for use: `max` is the size of its block, `used` does not exceed it, and its mutex is
free. -/
structure WF (E : Env) (b : Buffer) : Prop where
  mutex : b.mutex = .unlocked
  block : (blockBytes b.buf).length = b.max
  used_le : b.used ≤ b.max
  max_lt : b.max < E.word

/-- A buffer that holds the given bytes, all unread, in the block `0`. -/
def ofBytes (bs : Bytes) : Buffer :=
  { _init := bs.length, max := bs.length, used := bs.length, pos := 0, buf := some ⟨0, bs⟩, unmutable := false,
    freeable := true, mutex := .unlocked }

end Buffer

end Excom
