import Excom.Server

/-!
# A connection of the client

`excom-client/client.c`: the bytes that arrive are appended to the input buffer, and at most one complete
frame is taken off it and handed to the packet handler.
-/

namespace Excom.Client

/-- `excom_client_t`; `enc` is its own key pair. -/
structure ExcomClient where
  state : ProtocolState
  enc : EncryptPair
  keys : Encrypt
  packets : List Packet
  disconnected : Bool
  bufIn : Buffer
  bufOut : Buffer
  deriving DecidableEq

variable (E : Env)

/-- `excom_client_init`, and the buffers that `excom_client_connect` makes. -/
def connect (pair : EncryptPair) : M ExcomClient := do
  let (_, bufIn) ← Buffer.init E 32
  let (_, bufOut) ← Buffer.init E 32
  return { state := .prehandshake, enc := pair, keys := Encrypt.init pair, packets := [], disconnected := false,
           bufIn := { bufIn with freeable := false }, bufOut := { bufOut with freeable := false } }

/-- `check_packet`, with the handler that was given to `excom_client_handle_packets`. -/
def checkPacket (handler : Packet → ExcomClient → M ExcomClient) (c : ExcomClient) : M ExcomClient := do
  let mutex ← mutexLock c.bufIn.mutex
  let bufIn := { c.bufIn with mutex }
  if bufIn.remaining E < 4 then
    let mutex ← mutexUnlock mutex
    return { c with bufIn := { bufIn with mutex } }
  else
    let src ← load bufIn.buf bufIn.pos 4
    let size := unpackUint32 E src
    -- the sum is a `uint32_t`
    if bufIn.remaining E < (4 + size).toNat then
      let mutex ← mutexUnlock mutex
      return { c with bufIn := { bufIn with mutex } }
    else
      let node ← malloc E sizeofPacket
      if node.isNone then Exec.fault .null
      else
        let (err, packet, bufIn, enc) ← protocolReadPacket E bufIn (some c.keys)
        let mutex ← mutexUnlock bufIn.mutex
        let c := { c with bufIn := { bufIn with mutex }, keys := enc.getD c.keys }
        if err ≠ 0 then
          free node
          return c
        else handler packet { c with packets := packet :: c.packets }

/-- `clread`, when `read` gives the pieces and then ends as `stop` says. -/
def read (handler : Packet → ExcomClient → M ExcomClient) (c : ExcomClient) (pieces : List Bytes)
    (stop : ReadEnd) : M ExcomClient :=
  if c.disconnected then pure c
  else do
    let bufIn ← appendPieces E c.bufIn pieces
    let c := { c with bufIn }
    match stop with
    | .eof => pure c
    | .error errno => if errno = EAGAIN then checkPacket E handler c else pure c

end Excom.Client
