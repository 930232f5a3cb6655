import Excom.Handshake
import Excom.ReadPacket
import Mathlib.Data.Nat.Bitwise

/-!
# Write events

Whether the socket is watched for `EXCOM_EVENT_WRITE` while there is output to be sent: what
`excom_server_client_write` and the client's `event_listener` do to the flags under which a connection is
registered.  `not_stranded_iff` says for which flags and outcomes of `write` they are right.
-/

namespace Excom

variable {E : Env}

/-- `EXCOM_EVENT_WRITE`, the same bit in all backends -/
def eventWrite : UInt32 := 4

/-- The other flags that the client looks at differ from backend to backend: `1` and `16` are those of `poll`.
-/
structure EventFlags where
  read : UInt32
  close : UInt32

/-- `flags & mask` -/
def Carries (flags mask : UInt32) : Prop := flags &&& mask ≠ 0

instance (flags mask : UInt32) : Decidable (Carries flags mask) := inferInstanceAs (Decidable (_ ≠ _))

/-- What becomes of the bytes that are to be sent.  `complete` also where there are none, and `write` is not
called. -/
inductive Outcome where
  | complete
  | short
  | again
  deriving DecidableEq, Repr

/-- The socket takes so many bytes, or none before it is ready again. -/
def answer : Option Nat → Except Int Nat
  | none => .error EAGAIN
  | some n => .ok n

/-- The outcome for a buffer with `unsent` bytes -/
def outcome (unsent : Nat) : Option Nat → Outcome
  | none => if unsent = 0 then .complete else .again
  | some n => if unsent ≤ n then .complete else .short

/-- `excom_server_client_write`, for an event with the given flags on a connection that is registered under
`root`. -/
def Server.clientWrite (E : Env) (flags : UInt32) (d : ClientData) (root : UInt32) (socket : Option Nat) :
    M (ClientData × UInt32) :=
  if d.disconnected then pure (d, root)
  else do
    let (err, bufOut, _) ← d.bufOut.write E (answer socket)
    let d := { d with bufOut }
    if err = EAGAIN ∧ flags ^^^ eventWrite = 0 then return (d, root ||| eventWrite)
    else if err = 0 ∧ Carries flags eventWrite then return (d, root ^^^ eventWrite)
    else return (d, root)

namespace Client

/-- `clwrite` -/
def clwrite (E : Env) (flags : UInt32) (c : ExcomClient) (root : UInt32) (socket : Option Nat) :
    M (ExcomClient × UInt32) := do
  let (err, bufOut, _) ← c.bufOut.write E (answer socket)
  let c := { c with bufOut }
  if err = EAGAIN ∧ ¬ Carries flags eventWrite then return (c, root ||| eventWrite)
  else if err = 0 ∧ Carries flags eventWrite then return (c, root ^^^ eventWrite)
  else return (c, root)

/-- `clread`, with the end of `default_handler`, which registers for writing.  The packet that the handler is
given has just been put on the list, and nothing else touches the list. -/
def clread (E : Env) (c : ExcomClient) (root : UInt32) (pieces : List Bytes) (stop : ReadEnd) :
    M (ExcomClient × UInt32) := do
  let c' ← read E (defaultHandler E) c pieces stop
  return (c', if c'.packets.length = c.packets.length then root else root ||| eventWrite)

/-- `clclose` -/
def clclose (c : ExcomClient) : M ExcomClient := do
  let bufIn ← c.bufIn.destroy
  return { c with bufIn, disconnected := true }

/-- A call of `clwrite`, with its outcome behind those of the calls before -/
def flush (E : Env) (flags : UInt32) (c : ExcomClient) (root : UInt32) (outs : List Outcome)
    (socket : Option Nat) : M (ExcomClient × UInt32 × List Outcome) := do
  let out := outcome (c.bufOut.remaining E) socket
  let (c, root) ← clwrite E flags c root socket
  return (c, root, outs ++ [out])

/-- `event_listener`: `sockets` are the answers to the two calls of `clwrite`.  The outcomes of those that are
made are returned as well. -/
def eventListener (E : Env) (B : EventFlags) (flags : UInt32) (c : ExcomClient) (root : UInt32)
    (pieces : List Bytes) (stop : ReadEnd) (sockets : Option Nat × Option Nat) :
    M (ExcomClient × UInt32 × List Outcome) := do
  let (c, root, outs) ← (if Carries flags B.read then do
      let (c, root) ← clread E c root pieces stop
      flush E flags c root [] sockets.1
    else pure (c, root, []))
  let (c, root, outs) ← (if Carries flags eventWrite then flush E flags c root outs sockets.2
    else pure (c, root, outs))
  let c ← (if Carries flags B.close then clclose c else pure c)
  return (c, root, outs)

end Client

/-! ### Flags -/

/-- No output is left behind: what is unsent will be sent at the next write event, and where an event has sent
the last byte, no more write events are asked for. -/
structure NotStranded (flags root : UInt32) (unsent : Nat) : Prop where
  watched : unsent ≠ 0 → Carries root eventWrite
  quiet : Carries flags eventWrite → unsent = 0 → ¬ Carries root eventWrite

private theorem carries_iff (flags : UInt32) : Carries flags eventWrite ↔ flags.toNat.testBit 2 = true := by
  unfold Carries eventWrite
  rw [Ne, ← UInt32.toNat_inj, UInt32.toNat_and]
  show ¬ flags.toNat &&& 2 ^ 2 = 0 ↔ _
  rw [Nat.and_two_pow]
  cases flags.toNat.testBit 2 <;> decide

private theorem carries_or (root : UInt32) : Carries (root ||| eventWrite) eventWrite := by
  rw [carries_iff, UInt32.toNat_or, Nat.testBit_or]
  exact Bool.or_true _

private theorem carries_xor (root : UInt32) :
    Carries (root ^^^ eventWrite) eventWrite ↔ ¬ Carries root eventWrite := by
  rw [carries_iff, carries_iff, UInt32.toNat_xor, Nat.testBit_xor]
  show (root.toNat.testBit 2 ^^ true) = true ↔ _
  cases root.toNat.testBit 2 <;> decide

/-! ### The output buffer -/

private theorem remaining_advance (b : Buffer) {k : Nat} (hk : k ≤ b.remaining E) (mutex : Mutex) :
    { b with pos := b.pos + k, mutex }.remaining E = b.remaining E - k := by
  have hword : (0 : Int) < E.word := by
    have := E.le_word
    omega
  have hle := Int.emod_nonneg ((b.used : Int) - b.pos) (by omega : (E.word : Int) ≠ 0)
  have hlt := Int.emod_lt_of_pos ((b.used : Int) - b.pos) hword
  have hsub : ((b.used : Int) - (b.pos + k : Nat)) % E.word = ((b.used : Int) - b.pos) % E.word - k := by
    rw [Int.natCast_add, ← Int.sub_sub, ← Int.emod_sub_emod]
    refine Int.emod_eq_of_lt ?_ ?_
    · unfold Buffer.remaining at hk
      omega
    · omega
  unfold Buffer.remaining at hk ⊢
  dsimp only
  rw [hsub]
  omega

private theorem destroy_ensures (b : Buffer) (w : World) :
    Exec.Ensures b.destroy w fun b' _ => b'.remaining E = 0 := by
  unfold Buffer.destroy
  dsimp only
  split
  · refine .seq fun _ w1 => .pure ?_
    simp [Buffer.remaining]
  · refine .pure ?_
    simp [Buffer.remaining]

private theorem drained_ensures (b : Buffer) (w : World) :
    Exec.Ensures (b.drained E) w fun b' _ => b'.remaining E = b.remaining E := by
  unfold Buffer.drained
  split
  · rename_i h
    rw [h.1]
    refine .seq fun mutex w1 => ?_
    refine (destroy_ensures (E := E) _ w1).bind ?_
    intro b' w2 hb'
    exact .seq fun _ w3 => .pure hb'
  · exact .pure rfl

/-- What a call of `excom_buffer_write` returns, and whether it leaves something in the buffer. -/
theorem write_ensures (b : Buffer) (socket : Option Nat) (w : World) :
    Exec.Ensures (b.write E (answer socket)) w fun r _ =>
      r.1 = (if outcome (b.remaining E) socket = .again then EAGAIN else 0) ∧
      (r.2.1.remaining E = 0 ↔ outcome (b.remaining E) socket = .complete) := by
  unfold Buffer.write
  split
  · rename_i h
    refine .pure ?_
    rw [h]
    cases socket <;> simp [outcome]
  rename_i h
  refine .seq fun mutex w1 => ?_
  rcases socket with _ | n
  · refine .seq fun mutex w2 => .pure ?_
    have hrem : { b with mutex }.remaining E = b.remaining E := rfl
    dsimp only
    rw [hrem]
    simp [outcome, h]
  · have hadvance := remaining_advance b (Nat.min_le_right n (b.remaining E)) mutex
    refine .seq fun bytes w2 => ?_
    refine (drained_ensures _ w2).bind ?_
    intro b' w3 hb'
    refine .seq fun mutex' w4 => .pure ?_
    have hrem : { b' with mutex := mutex' }.remaining E = b.remaining E - min n (b.remaining E) :=
      hb'.trans hadvance
    dsimp only
    rw [hrem]
    unfold outcome
    dsimp only
    split
    · simp; omega
    · simp; omega

private theorem notStranded_iff {flags root : UInt32} {unsent : Nat} {out : Outcome}
    (h : unsent = 0 ↔ out = .complete) :
    NotStranded flags root unsent ↔
      if out = .complete then Carries flags eventWrite → ¬ Carries root eventWrite
      else Carries root eventWrite := by
  split
  · rename_i hout
    constructor
    · intro hs hflags
      exact hs.quiet hflags (h.2 hout)
    · intro hs
      exact ⟨fun hne => absurd (h.2 hout) hne, fun hflags _ => hs hflags⟩
  · rename_i hout
    constructor
    · intro hs
      exact hs.watched fun hz => hout (h.1 hz)
    · intro hs
      exact ⟨fun _ => hs, fun _ hz => absurd (h.1 hz) hout⟩

/-! ### The server -/

/-- The flags with which `excom_server_client_write` does what it is for. -/
def Server.FlagsRight (flags root : UInt32) : Outcome → Prop
  | .complete => Carries flags eventWrite → Carries root eventWrite
  | .short => Carries root eventWrite ↔ ¬ Carries flags eventWrite
  | .again => flags = eventWrite ∨ Carries root eventWrite

/-- The flags under which the connection is registered afterwards. -/
def Server.flagsAfter (flags root : UInt32) (out : Outcome) : UInt32 :=
  if out = .again then if flags = eventWrite then root ||| eventWrite else root
  else if Carries flags eventWrite then root ^^^ eventWrite else root

private theorem Server.clientWrite_ensures (flags : UInt32) {d : Server.ClientData}
    (hd : d.disconnected = false) (root : UInt32) (socket : Option Nat) (w : World) :
    Exec.Ensures (clientWrite E flags d root socket) w fun r _ =>
      r.2 = flagsAfter flags root (outcome (d.bufOut.remaining E) socket) ∧
      (r.1.bufOut.remaining E = 0 ↔ outcome (d.bufOut.remaining E) socket = .complete) := by
  unfold clientWrite
  rw [if_neg (by simp [hd])]
  refine (write_ensures d.bufOut socket w).bind ?_
  intro ⟨err, bufOut, _⟩ w1 ⟨herr, hrem⟩
  dsimp only at herr hrem ⊢
  have hxor : flags ^^^ eventWrite = 0 ↔ flags = eventWrite := UInt32.xor_eq_zero_iff
  have hne : EAGAIN ≠ 0 := by decide
  by_cases hout : outcome (d.bufOut.remaining E) socket = .again
  · rw [if_pos hout] at herr
    subst herr
    by_cases hflags : flags = eventWrite
    · rw [if_pos ⟨rfl, hxor.2 hflags⟩]
      exact .pure ⟨by simp [flagsAfter, hout, hflags], hrem⟩
    · rw [if_neg (fun h => hflags (hxor.1 h.2)), if_neg (fun h => hne h.1)]
      exact .pure ⟨by simp [flagsAfter, hout, hflags], hrem⟩
  · rw [if_neg hout] at herr
    subst herr
    rw [if_neg (fun h => hne h.1.symm)]
    by_cases hflags : Carries flags eventWrite
    · rw [if_pos ⟨rfl, hflags⟩]
      exact .pure ⟨by simp [flagsAfter, hout, hflags], hrem⟩
    · rw [if_neg (fun h => hflags h.2)]
      exact .pure ⟨by simp [flagsAfter, hout, hflags], hrem⟩

private theorem Server.notStranded_flagsAfter {flags root : UInt32} {unsent : Nat} {out : Outcome}
    (h : unsent = 0 ↔ out = .complete) :
    NotStranded flags (flagsAfter flags root out) unsent ↔ FlagsRight flags root out := by
  have hxor := carries_xor root
  have hor := carries_or root
  rw [notStranded_iff h]
  unfold flagsAfter
  cases out with
  | complete | short =>
    by_cases hflags : Carries flags eventWrite <;> simp [hflags, hxor, FlagsRight]
  | again =>
    by_cases hflags : flags = eventWrite <;> simp [hflags, hor, FlagsRight]

/-! ### The client -/

/-- The flags under which the client is registered after one call of `clwrite`. -/
def Client.flagsAfter (flags root : UInt32) (out : Outcome) : UInt32 :=
  if Carries flags eventWrite then if out = .again then root else root ^^^ eventWrite
  else if out = .again then root ||| eventWrite else root

private theorem Client.clwrite_ensures (flags : UInt32) (c : Client.ExcomClient) (root : UInt32)
    (socket : Option Nat) (w : World) :
    Exec.Ensures (clwrite E flags c root socket) w fun r _ =>
      r.2 = flagsAfter flags root (outcome (c.bufOut.remaining E) socket) ∧
      (r.1.bufOut.remaining E = 0 ↔ outcome (c.bufOut.remaining E) socket = .complete) := by
  unfold clwrite
  refine (write_ensures c.bufOut socket w).bind ?_
  intro ⟨err, bufOut, _⟩ w1 ⟨herr, hrem⟩
  dsimp only at herr hrem ⊢
  have hne : EAGAIN ≠ 0 := by decide
  by_cases hflags : Carries flags eventWrite
  · rw [if_neg (fun h => h.2 hflags)]
    by_cases hout : outcome (c.bufOut.remaining E) socket = .again
    · rw [if_pos hout] at herr
      subst herr
      rw [if_neg (fun h => hne h.1)]
      exact .pure ⟨by simp [flagsAfter, hout, hflags], hrem⟩
    · rw [if_neg hout] at herr
      subst herr
      rw [if_pos ⟨rfl, hflags⟩]
      exact .pure ⟨by simp [flagsAfter, hout, hflags], hrem⟩
  · by_cases hout : outcome (c.bufOut.remaining E) socket = .again
    · rw [if_pos hout] at herr
      subst herr
      rw [if_pos ⟨rfl, hflags⟩]
      exact .pure ⟨by simp [flagsAfter, hout, hflags], hrem⟩
    · rw [if_neg hout] at herr
      subst herr
      rw [if_neg (fun h => hne h.1.symm), if_neg (fun h => hflags h.2)]
      exact .pure ⟨by simp [flagsAfter, hout, hflags], hrem⟩

/-- The bytes at the cursor begin with a complete frame whose type is not `INVALID`. -/
def Buffer.Offers (E : Env) (b : Buffer) : Prop :=
  4 ≤ b.remaining E ∧ (4 + frameSize E b.ahead).toNat ≤ b.remaining E ∧ frameType E b.ahead ≠ packetInvalid

instance (b : Buffer) : Decidable (b.Offers E) := inferInstanceAs (Decidable (_ ∧ _ ∧ _))

/-- A read event brings a packet to the handler. -/
def Client.Brings (E : Env) (c : Client.ExcomClient) (pieces : List Bytes) (stop : ReadEnd)
    (w : World) : Prop :=
  c.disconnected = false ∧ stop = .error EAGAIN ∧
    ∃ b w', appendPieces E c.bufIn pieces w = .ok (b, w') ∧ b.Offers E

private theorem Client.checkPacket_packets (c : Client.ExcomClient) (w : World) :
    Exec.Ensures (checkPacket E (defaultHandler E) c) w fun c' _ =>
      c'.packets.length = c.packets.length ↔ ¬ c.bufIn.Offers E := by
  unfold checkPacket
  refine .seq fun mutex w1 => ?_
  have hrem : { c.bufIn with mutex }.remaining E = c.bufIn.remaining E := rfl
  dsimp only
  rw [hrem]
  split
  · rename_i hlt
    refine .seq fun mutex' w2 => .pure ?_
    have hnot : ¬ c.bufIn.Offers E := fun h => absurd h.1 (by omega)
    simp [hnot]
  refine (load_ensures _ _ _ w1).bind ?_
  intro src w2 ⟨hsrc, _⟩
  have hsize : unpackUint32 E src = frameSize E c.bufIn.ahead := congrArg _ hsrc
  rw [hsize]
  split
  · rename_i hlt
    refine .seq fun mutex' w3 => .pure ?_
    have hnot : ¬ c.bufIn.Offers E := fun h => absurd h.2.1 (by omega)
    simp [hnot]
  rename_i hle4 hle
  refine .seq fun node w3 => ?_
  split
  · exact .fault
  refine (readPacket_code _ _ w3).bind ?_
  intro ⟨err, packet, bufIn, enc⟩ w4 hcode
  have hcode : err = if frameType E c.bufIn.ahead = packetInvalid then 1 else 0 := hcode
  refine .seq fun mutex' w5 => ?_
  dsimp only
  split
  · rename_i herr
    refine .seq fun _ w6 => .pure ?_
    have hnot : ¬ c.bufIn.Offers E := fun h => herr (hcode.trans (if_neg h.2.2))
    simp [hnot]
  · rename_i herr
    refine (defaultHandler_keeps E packet _ w5).mono ?_
    intro c' w6 ⟨_, hc'⟩
    have htype : frameType E c.bufIn.ahead ≠ packetInvalid := by
      intro htype
      rw [if_pos htype] at hcode
      exact herr (by rw [hcode]; decide)
    have hoffers : c.bufIn.Offers E := ⟨by omega, by omega, htype⟩
    simp [hc', hoffers]

private theorem Client.clread_ensures (c : Client.ExcomClient) (root : UInt32) (pieces : List Bytes)
    (stop : ReadEnd) (w : World) :
    Exec.Ensures (clread E c root pieces stop) w fun r _ =>
      Carries r.2 eventWrite ↔ Carries root eventWrite ∨ Brings E c pieces stop w := by
  have hread : Exec.Ensures (read E (defaultHandler E) c pieces stop) w fun c' _ =>
      c'.packets.length = c.packets.length ↔ ¬ Brings E c pieces stop w := by
    unfold read
    split
    · rename_i hdis
      refine .pure ?_
      have hnot : ¬ Brings E c pieces stop w := fun h => absurd h.1 (by simp [hdis])
      simp [hnot]
    rename_i hdis
    intro c' w' hrun
    obtain ⟨b, w1, happend, hcheck⟩ := Exec.bind_eq_ok.1 hrun
    cases stop with
    | eof =>
      cases hcheck
      have hnot : ¬ Brings E c pieces .eof w := fun h => nomatch h.2.1
      simp [hnot]
    | error errno =>
      dsimp only at hcheck
      split at hcheck
      · rename_i herrno
        subst herrno
        have hpackets := checkPacket_packets _ w1 _ _ hcheck
        have hbrings : Brings E c pieces (.error EAGAIN) w ↔ b.Offers E := by
          constructor
          · intro ⟨_, _, b', w', hb', hoffers⟩
            rw [happend] at hb'
            cases hb'
            exact hoffers
          · intro hoffers
            exact ⟨by simpa using hdis, rfl, b, w1, happend, hoffers⟩
        rw [hbrings]
        exact hpackets
      · rename_i herrno
        cases hcheck
        have hnot : ¬ Brings E c pieces (.error errno) w := fun h => herrno (ReadEnd.error.inj h.2.1)
        simp [hnot]
  unfold clread
  refine hread.bind ?_
  intro c' w1 hc'
  refine .pure ?_
  by_cases hbrings : Brings E c pieces stop w
  · rw [if_neg (by rw [hc']; simpa using hbrings)]
    simp [hbrings, carries_or]
  · rw [if_pos (hc'.2 hbrings)]
    simp [hbrings]

/-- The outcomes for which the client does what it is for, when `unsent` bytes are in its buffer before the
event, and `watched` says that it is registered for writing when it comes to the first of them. -/
def Client.FlagsRight (flags : UInt32) (unsent : Nat) (watched : Prop) : List Outcome → Prop
  | [] => unsent ≠ 0 → watched
  | [out] => if Carries flags eventWrite then (watched ↔ out ≠ .short) else out = .short → watched
  | [.short, .short] | [.again, .complete] | [.again, .again] => watched
  | _ => ¬ watched

private theorem Client.flush_ensures (flags : UInt32) (c : Client.ExcomClient) (root : UInt32)
    (outs : List Outcome) (socket : Option Nat) (w : World) :
    Exec.Ensures (flush E flags c root outs socket) w fun r _ => ∃ out, r.2.2 = outs ++ [out] ∧
      r.2.1 = flagsAfter flags root out ∧ (r.1.bufOut.remaining E = 0 ↔ out = .complete) ∧
      (c.bufOut.remaining E = 0 → out = .complete) := by
  refine (clwrite_ensures flags c root socket w).bind ?_
  intro ⟨c', root'⟩ w1 ⟨hroot, hrem⟩
  refine .pure ⟨_, rfl, hroot, hrem, ?_⟩
  intro hz
  rw [hz]
  cases socket <;> simp [outcome]

/-- What `event_listener` has done when it comes to `clclose`: nothing, or one or two calls of `clwrite`. -/
private theorem Client.notStranded_flagsAfter {flags root : UInt32} {unsent : Nat} {out : Outcome}
    (h : unsent = 0 ↔ out = .complete) :
    NotStranded flags (flagsAfter flags root out) unsent ↔
      if Carries flags eventWrite then (Carries root eventWrite ↔ out ≠ .short)
      else out = .short → Carries root eventWrite := by
  have hxor := carries_xor root
  have hor := carries_or root
  rw [notStranded_iff h]
  unfold flagsAfter
  by_cases hflags : Carries flags eventWrite <;> cases out <;> simp [hflags, hxor, hor]

private theorem Client.carries_flagsAfter {flags : UInt32} (hflags : Carries flags eventWrite) (root : UInt32)
    (out : Outcome) :
    Carries (flagsAfter flags root out) eventWrite ↔ (Carries root eventWrite ↔ out = .again) := by
  have hxor := carries_xor root
  unfold flagsAfter
  cases out <;> simp [hflags, hxor]

private theorem Client.listen_rest (B : EventFlags) (flags : UInt32) (c : Client.ExcomClient) (root : UInt32)
    (outs : List Outcome) (socket : Option Nat) (w : World) :
    Exec.Ensures (do
      let (c, root, outs) ← (if Carries flags eventWrite then flush E flags c root outs socket
        else pure (c, root, outs))
      let c ← (if Carries flags B.close then clclose c else pure c)
      return (c, root, outs)) w fun r _ =>
        if Carries flags eventWrite then ∃ out, r.2.2 = outs ++ [out] ∧ r.2.1 = flagsAfter flags root out ∧
          (r.1.bufOut.remaining E = 0 ↔ out = .complete) ∧ (c.bufOut.remaining E = 0 → out = .complete)
        else r.2 = (root, outs) ∧ r.1.bufOut = c.bufOut := by
  have hclose (c : Client.ExcomClient) (w : World) :
      Exec.Ensures (if Carries flags B.close then clclose c else pure c) w fun c' _ =>
        c'.bufOut = c.bufOut := by
    split
    · exact .seq fun _ w1 => .pure rfl
    · exact .pure rfl
  split
  · refine (flush_ensures flags c root outs socket w).bind ?_
    intro ⟨c1, root1, outs1⟩ w1 ⟨out, houts, hroot, hrem, hzero⟩
    refine (hclose c1 w1).bind ?_
    intro c2 w2 hc2
    refine .pure ⟨out, houts, hroot, ?_, hzero⟩
    rw [hc2]
    exact hrem
  · refine (hclose c w).bind ?_
    intro c2 w2 hc2
    exact .pure ⟨rfl, hc2⟩

private theorem Client.eventListener_ensures (B : EventFlags) (flags : UInt32) (c : Client.ExcomClient)
    (root : UInt32) (pieces : List Bytes) (stop : ReadEnd) (sockets : Option Nat × Option Nat) (w : World) :
    Exec.Ensures (eventListener E B flags c root pieces stop sockets) w fun r _ =>
      NotStranded flags r.2.1 (r.1.bufOut.remaining E) ↔
        FlagsRight flags (c.bufOut.remaining E)
          (Carries root eventWrite ∨ Carries flags B.read ∧ Brings E c pieces stop w) r.2.2 := by
  unfold eventListener
  by_cases hread : Carries flags B.read
  · rw [if_pos hread, Exec.bind_assoc]
    simp only [hread, true_and]
    refine (clread_ensures c root pieces stop w).bind ?_
    intro ⟨c1, root1⟩ w1 hroot1
    dsimp only at hroot1 ⊢
    rw [← hroot1]
    clear hroot1
    refine (flush_ensures flags c1 root1 [] sockets.1 w1).bind ?_
    intro ⟨c2, root2, outs2⟩ w2 ⟨out, houts, hroot2, hrem, _⟩
    dsimp only at houts hroot2 hrem
    subst houts hroot2
    refine (listen_rest B flags c2 _ _ sockets.2 w2).mono ?_
    intro ⟨c3, root3, outs3⟩ w3 h
    dsimp only at h ⊢
    split at h
    · rename_i hwrite
      obtain ⟨out', houts, hroot3, hrem', hzero⟩ := h
      subst houts hroot3
      rw [notStranded_flagsAfter hrem', if_pos hwrite, carries_flagsAfter hwrite]
      have hlast : out = .complete → out' = .complete := fun h => hzero (hrem.2 h)
      cases out <;> cases out' <;> simp_all [FlagsRight]
    · rename_i hwrite
      obtain ⟨heq, hbuf⟩ := h
      cases heq
      rw [hbuf, notStranded_flagsAfter hrem, if_neg hwrite]
      simp [FlagsRight, hwrite]
  · rw [if_neg hread]
    simp only [hread, false_and, or_false]
    refine (listen_rest B flags c root [] sockets.2 w).mono ?_
    intro ⟨c3, root3, outs3⟩ w3 h
    dsimp only at h ⊢
    split at h
    · rename_i hwrite
      obtain ⟨out, houts, hroot3, hrem, _⟩ := h
      subst houts hroot3
      rw [notStranded_flagsAfter hrem, if_pos hwrite]
      simp [FlagsRight, hwrite]
    · rename_i hwrite
      obtain ⟨heq, hbuf⟩ := h
      cases heq
      rw [hbuf]
      constructor
      · exact fun hs => hs.watched
      · exact fun hs => ⟨hs, fun hflags => absurd hflags hwrite⟩

/-! ### Both sides -/

/-- Whatever the flags of the event and those under which the connection is registered, and whatever the
socket takes: which of them leave no output behind. -/
theorem not_stranded_iff (E : Env) :
    (∀ flags d root socket w d' root' w', Server.clientWrite E flags d root socket w = .ok ((d', root'), w') →
      (NotStranded flags root' (d'.bufOut.remaining E) ↔
        if d.disconnected then NotStranded flags root (d.bufOut.remaining E)
        else Server.FlagsRight flags root (outcome (d.bufOut.remaining E) socket))) ∧
    (∀ B flags c root pieces stop sockets w c' root' outs w',
      Client.eventListener E B flags c root pieces stop sockets w = .ok ((c', root', outs), w') →
      (NotStranded flags root' (c'.bufOut.remaining E) ↔
        Client.FlagsRight flags (c.bufOut.remaining E)
          (Carries root eventWrite ∨ Carries flags B.read ∧ Client.Brings E c pieces stop w) outs)) := by
  constructor
  · intro flags d root socket w d' root' w' hrun
    split
    · rename_i hdis
      unfold Server.clientWrite at hrun
      rw [if_pos hdis] at hrun
      cases hrun
      rfl
    · rename_i hdis
      obtain ⟨hroot, hrem⟩ := Server.clientWrite_ensures flags (by simpa using hdis) root socket w _ _ hrun
      dsimp only at hroot hrem
      rw [hroot]
      exact Server.notStranded_flagsAfter hrem
  · intro B flags c root pieces stop sockets w c' root' outs w' hrun
    exact Client.eventListener_ensures B flags c root pieces stop sockets w _ _ hrun

/-- At a write event the socket takes three bytes of a PONG: the server no longer waits for the next write
event. -/
theorem stranded_after_short_write :
    ∃ d d' : Server.ClientData, ∃ w',
      Server.clientWrite (Env.amd64 0) eventWrite d (1 ||| eventWrite) (some 3) World.start =
        .ok ((d', 1), w') ∧
      d'.bufOut.remaining (Env.amd64 0) = 5 ∧
      ¬ NotStranded eventWrite 1 (d'.bufOut.remaining (Env.amd64 0)) := by
  let d : Server.ClientData :=
    { state := .body, keys := Encrypt.init ⟨Vector.replicate _ 0, Vector.replicate _ 0⟩, packets := [],
      mutex := .unlocked, disconnected := false, bufIn := Buffer.ofBytes [],
      bufOut := Buffer.ofBytes [0, 0, 0, 0, 1, 0, 5, 0] }
  refine ⟨d, _, _, rfl, by decide, ?_⟩
  intro h
  exact h.watched (by decide) (by decide)

end Excom
