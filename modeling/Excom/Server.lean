import Excom.Lib.Loop
import Excom.Protocol

/-!
# A connection of the server

`excom-server/client.c`, as far as its event thread is concerned: how a connection is set up, how the bytes
that arrive are appended to its input buffer, and how complete frames are taken off that buffer and queued for
the worker.  The chain of packets from `packets` to `last` is a list.
-/

namespace Excom

/-- `excom_protocol_state_t` -/
inductive ProtocolState where
  | prehandshake
  | preencrypt
  | encrypt
  | body
  | preclose
  | invalid
  deriving DecidableEq, Repr

/-- How a loop over `read` ends: with an error, or with the end of the file. -/
inductive ReadEnd where
  | error (errno : Int)
  | eof
  deriving DecidableEq, Repr

/-- `sizeof(excom_packet_t)` -/
def sizeofPacket : Nat := 56

variable (E : Env)

/-- The bytes that `read` gave, one `excom_buffer_cappend` for each call. -/
def appendPieces (b : Buffer) : List Bytes → M Buffer
  | [] => pure b
  | piece :: pieces => do
    let (_, b) ← b.cappend E piece piece.length
    appendPieces b pieces

namespace Server

/-- `client_data_t` -/
structure ClientData where
  state : ProtocolState
  keys : Encrypt
  packets : List Packet
  mutex : Mutex
  disconnected : Bool
  bufIn : Buffer
  bufOut : Buffer
  deriving DecidableEq

/-- `excom_server_client_connect` -/
def connect (localPair : EncryptPair) : M ClientData := do
  let (_, bufIn) ← Buffer.init E 16
  let (_, bufOut) ← Buffer.init E 16
  return { state := .prehandshake, keys := Encrypt.init localPair, packets := [], mutex := .unlocked,
           disconnected := false, bufIn, bufOut }

/-- One turn of the loop of `check_packet`, and whether there is another one. -/
def checkTurn (d : ClientData) : M (ClientData × Bool) :=
  if d.bufIn.remaining E > 4 then do
    let mutex ← mutexLock d.bufIn.mutex
    let bufIn := { d.bufIn with mutex }
    let src ← load bufIn.buf bufIn.pos 4
    let size := unpackUint32 E src
    -- the sum is a `uint32_t`
    if bufIn.remaining E < (4 + size).toNat then return ({ d with bufIn }, false)
    else
      let node ← malloc E sizeofPacket
      if node.isNone then Exec.fault .null
      else
        let (err, packet, bufIn, enc) ← protocolReadPacket E bufIn (some d.keys)
        let mutex ← mutexUnlock bufIn.mutex
        let d := { d with bufIn := { bufIn with mutex }, keys := enc.getD d.keys }
        if err ≠ 0 then
          free node
          return (d, false)
        else return ({ d with packets := d.packets ++ [packet] }, true)
  else pure (d, false)

/-- More turns than the loop of `check_packet` can take: each one that is not the last moves the cursor by at
least the eight bytes of a header, and reads that header inside the block. -/
def turnBound (d : ClientData) : Nat := (blockBytes d.bufIn.buf).length + 2

/-- `check_packet` -/
def checkPacket (d : ClientData) : M ClientData := do
  let mutex ← mutexLock d.mutex
  let d := { d with mutex }
  let d ← Exec.loop Fault.diverges (checkTurn E) (turnBound d) d
  let inMutex ← mutexUnlock d.bufIn.mutex
  let mutex ← mutexUnlock d.mutex
  return { d with bufIn := { d.bufIn with mutex := inMutex }, mutex }

/-- `excom_server_client_close`: the connection is gone, unless it was closed before. -/
def close (d : ClientData) : M (Option ClientData) :=
  if d.disconnected then pure (some d)
  else do
    let _ ← d.bufIn.destroy
    let _ ← d.bufOut.destroy
    let mutex ← mutexLock d.mutex
    let _ ← mutexUnlock mutex
    return none

/-- `excom_server_client_read`, when `read` gives the pieces and then ends as `stop` says. -/
def read (d : ClientData) (pieces : List Bytes) (stop : ReadEnd) : M (Option ClientData) :=
  if d.disconnected then pure (some d)
  else do
    let bufIn ← appendPieces E d.bufIn pieces
    let d := { d with bufIn }
    match stop with
    | .eof => close d
    | .error errno =>
      if errno = EAGAIN then
        let d ← checkPacket E d
        return some d
      else return some d

end Server

end Excom
