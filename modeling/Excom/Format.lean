import Excom.Buffer
import Excom.Lib.Loop

/-!
# Formatting into a buffer

`excom_buffer_format`.  The format is the memory from its first byte on, and so is a `char*` among the arguments;
what lies behind the last byte must not be read.  An argument that is missing, or of another type than the one
that `va_arg` asks for, cannot be read either.
-/

namespace Excom

/-- An argument of `excom_buffer_format` -/
inductive FormatArg where
  /-- `char*` -/
  | chars (mem : Bytes)
  /-- `excom_string_t*` -/
  | string (body : Option Block) (size : UInt32)
  /-- `uint32_t` -/
  | number (n : UInt32)
  deriving DecidableEq, Repr

def strlen (mem : Bytes) : M Nat := if 0 ∈ mem then pure (mem.idxOf 0) else Exec.fault .bounds

/-- `strchr`: how far `c` lies ahead, if it comes before the `NUL`. -/
def strchr (c : UInt8) : Bytes → M (Option Nat)
  | [] => Exec.fault .bounds
  | b :: mem => do
    if b = c then return some 0
    else if b = 0 then return none
    else
      let off ← strchr c mem
      return off.map (· + 1)

/-- The variables of `excom_buffer_format`: `cur` is the memory of the format from there on. -/
structure FormatState where
  out : Buffer
  cur : Bytes
  va : List FormatArg
  err : Int

namespace FormatState

variable (E : Env)

/-- The result of an append goes into `err`. -/
def append (s : FormatState) (x : M (Int × Buffer)) : M FormatState := do
  let (err, out) ← x
  return { s with err, out }

/-- `switch(pos[1])` -/
def directive (s : FormatState) (c : UInt8) : M FormatState :=
  if c = 's'.toUInt8 then
    match s.va with
    | .chars tmp :: va => do
      let len ← strlen tmp
      { s with va }.append (s.out.cappend E tmp len)
    | _ => Exec.fault .bounds
  else if c = 'S'.toUInt8 then
    match s.va with
    | .string body size :: va => { s with va }.append (s.out.sappend E body size)
    | _ => Exec.fault .bounds
  else if c = 'b'.toUInt8 then
    match s.va with
    | .number n :: .chars mem :: va => { s with va }.append (s.out.cappend E mem n.toNat)
    | _ => Exec.fault .bounds
  else if c = '%'.toUInt8 then s.append (s.out.cappend E ['%'.toUInt8] 1)
  else
    -- `excom_check_error` prints a message, and `err` stays as it is
    pure s

/-- A turn of the loop: whether there is another one.  A `return` leaves `err` behind. -/
def turn (s : FormatState) : M (FormatState × Bool) := do
  match ← strchr '%'.toUInt8 s.cur with
  | none => return (s, false)
  | some pos =>
    let s ← if pos = 0 then pure s else s.append (s.out.cappend E s.cur pos)
    if s.err ≠ 0 then return (s, false)
    else
      match s.cur.drop (pos + 1) with
      | [] => Exec.fault .bounds
      | c :: cur =>
        let s ← s.directive E c
        if s.err ≠ 0 then return (s, false) else return ({ s with cur }, true)

/-- From the loop to the end. -/
def finish (s : FormatState) : M (Int × Buffer) :=
  if s.err ≠ 0 then pure (s.err, s.out)
  else
    match s.cur with
    | [] => Exec.fault .bounds
    | c :: _ =>
      if c = 0 then pure (0, s.out)
      else do
        let len ← strlen s.cur
        let s ← s.append (s.out.cappend E s.cur len)
        return (s.err, s.out)

end FormatState

/-- `excom_buffer_format` -/
def Buffer.format (E : Env) (out : Buffer) (format : Bytes) (va : List FormatArg) : M (Int × Buffer) :=
  if out.unmutable then pure (EACCES, out)
  else do
    let s ← Exec.loop .diverges (FormatState.turn E) (format.length + 1) { out, cur := format, va, err := 0 }
    s.finish E

end Excom
