import Excom.Client
import Excom.ReadPacket

/-!
# Bodies that cannot be decrypted

`excom_protocol_read_packet` does not look at the result of the decryption.  A frame whose body cannot be
decrypted is therefore refused, and kept from the queue of the server and from the handler of the client,
exactly when its type is `INVALID` (`refuses_iff`).
-/

namespace Excom

variable {E : Env}

/-- The decryption that `excom_protocol_read_packet` makes of the body of the frame at the cursor: its code. -/
def decryption (E : Env) (input : Buffer) (keys : Encrypt) : M Int := do
  let src ← load input.buf input.pos 4
  let _ ← load input.buf (input.pos + 4) 2
  let _ ← load input.buf (input.pos + 6) 2
  let (_, buf) ← Buffer.init E 32
  let (code, _) ← pdecryptBuffer2 E keys { input with pos := input.pos + 8 } buf (unpackUint32 E src).toNat
  return code

/-- The body of the frame at the cursor cannot be decrypted. -/
def DecryptFails (E : Env) (input : Buffer) (keys : Encrypt) (w : World) : Prop :=
  Exec.Returns (decryption E input keys) w fun code _ => code ≠ 0

/-- The frame at the cursor is refused, the server queues no packet for it, and the client neither queues nor
handles one. -/
structure Refuses (E : Env) (input : Buffer) (keys : Encrypt) (w : World) : Prop where
  code : Exec.Returns (protocolReadPacket E input (some keys)) w fun r _ => r.1 ≠ 0
  server : ∀ (d : Server.ClientData) (w' : World), d.bufIn = input → d.keys = keys →
    Exec.Ensures (Server.checkPacket E d) w' fun d' _ => d'.packets = d.packets
  client : ∀ (handler : Packet → Client.ExcomClient → M Client.ExcomClient) (c : Client.ExcomClient) (w' : World),
    c.bufIn = input → c.keys = keys →
    Exec.Ensures (Client.checkPacket E handler c) w' fun c' _ => ∃ bufIn keys, c' = { c with bufIn, keys }

private theorem checkTurn_invalid {d : Server.ClientData} (ht : frameType E d.bufIn.ahead = packetInvalid)
    (w : World) : Exec.Ensures (Server.checkTurn E d) w fun r _ => r.2 = false ∧ r.1.packets = d.packets := by
  unfold Server.checkTurn
  split
  swap
  · exact .pure ⟨rfl, rfl⟩
  refine .seq ?_
  rintro mutex w1
  refine .seq ?_
  rintro src w2
  dsimp only
  split
  · exact .pure ⟨rfl, rfl⟩
  refine .seq ?_
  rintro node w3
  split
  · exact .fault
  refine (readPacket_code _ _ w3).bind ?_
  rintro ⟨err, packet, bufIn, enc⟩ w4 hcode
  refine .seq ?_
  rintro mutex' w5
  have herr : err = 1 := hcode.trans (if_pos ht)
  subst herr
  rw [if_pos (show (1 : Int) ≠ 0 by decide)]
  refine .seq ?_
  rintro - w6
  exact .pure ⟨rfl, rfl⟩

private theorem server_refuses {d : Server.ClientData} (ht : frameType E d.bufIn.ahead = packetInvalid)
    (w : World) : Exec.Ensures (Server.checkPacket E d) w fun d' _ => d'.packets = d.packets := by
  unfold Server.checkPacket
  refine .seq ?_
  rintro mutex w1
  refine (Exec.loop_ensures (I := fun d' _ => d' = { d with mutex }) (Q := fun d' _ => d'.packets = d.packets)
    ?_ rfl).bind ?_
  · rintro _ s rfl
    refine (checkTurn_invalid (d := { d with mutex }) ht s).mono ?_
    rintro ⟨d', more⟩ s' ⟨rfl, hp⟩
    exact hp
  rintro d' w2 hp
  refine .seq ?_
  rintro m1 w3
  refine .seq ?_
  rintro m2 w4
  exact .pure hp

private theorem client_refuses (handler : Packet → Client.ExcomClient → M Client.ExcomClient)
    {c : Client.ExcomClient} (ht : frameType E c.bufIn.ahead = packetInvalid) (w : World) :
    Exec.Ensures (Client.checkPacket E handler c) w fun c' _ => ∃ bufIn keys, c' = { c with bufIn, keys } := by
  unfold Client.checkPacket
  refine .seq ?_
  rintro mutex w1
  dsimp only
  split
  · refine .seq ?_
    rintro m w2
    exact .pure ⟨_, _, rfl⟩
  refine .seq ?_
  rintro src w2
  split
  · refine .seq ?_
    rintro m w3
    exact .pure ⟨_, _, rfl⟩
  refine .seq ?_
  rintro node w3
  split
  · exact .fault
  refine (readPacket_code _ _ w3).bind ?_
  rintro ⟨err, packet, bufIn, enc⟩ w4 hcode
  refine .seq ?_
  rintro m w5
  have herr : err = 1 := hcode.trans (if_pos ht)
  subst herr
  rw [if_pos (show (1 : Int) ≠ 0 by decide)]
  refine .seq ?_
  rintro - w6
  exact .pure ⟨_, _, rfl⟩

/-- Where the decryption fails, the decoder goes on with what it has. -/
private theorem readPacket_of_decryption {input : Buffer} {keys : Encrypt} (hactive : keys.remote.active = true)
    {w : World} (hfail : DecryptFails E input keys w) :
    ∃ w' input' keys' buf, protocolReadPacket E input (some keys) w =
      parseBody E (frameSize E input.ahead) (frameId E input.ahead) (frameType E input.ahead) input'
        (some keys') buf w' := by
  obtain ⟨code, w', hrun, -⟩ := hfail
  obtain ⟨src, w1, h1, hrun⟩ := Exec.bind_eq_ok.1 hrun
  obtain ⟨src2, w2, h2, hrun⟩ := Exec.bind_eq_ok.1 hrun
  obtain ⟨src3, w3, h3, hrun⟩ := Exec.bind_eq_ok.1 hrun
  obtain ⟨⟨chk, buf⟩, w4, h4, hrun⟩ := Exec.bind_eq_ok.1 hrun
  obtain ⟨⟨code', keys', input', buf'⟩, w5, h5, -⟩ := Exec.bind_eq_ok.1 hrun
  have e1 := (load_ensures _ _ _ w src w1 h1).1
  have e2 := (load_ensures _ _ _ w1 src2 w2 h2).1
  have e3 := (load_ensures _ _ _ w2 src3 w3 h3).1
  rw [← List.drop_drop] at e2 e3
  subst e1 e2 e3
  refine ⟨w5, input', keys', buf', ?_⟩
  unfold protocolReadPacket
  rw [Exec.bind_of_ok h1, Exec.bind_of_ok h2, Exec.bind_of_ok h3, Exec.bind_of_ok h4]
  have hfetch : fetchBody E { input with pos := input.pos + 8 } (some keys) buf (frameSize E input.ahead) w4 =
      .ok ((input', some keys', buf'), w5) := by
    unfold fetchBody
    rw [activeKeys_some hactive]
    exact Exec.bind_of_ok h5 _
  exact Exec.bind_of_ok hfetch _

/-- A frame whose body cannot be decrypted is refused if and only if its type is `INVALID`. -/
theorem refuses_iff {input : Buffer} {keys : Encrypt} (hactive : keys.remote.active = true) {w : World}
    (hfail : DecryptFails E input keys w) :
    Refuses E input keys w ↔ frameType E input.ahead = packetInvalid := by
  constructor
  · rintro ⟨⟨r, w', hrun, hcode⟩, -, -⟩
    have h := readPacket_code input (some keys) w r w' hrun
    by_contra hne
    rw [if_neg hne] at h
    exact hcode h
  · intro ht
    refine ⟨?_, ?_, ?_⟩
    · obtain ⟨w', input', keys', buf, heq⟩ := readPacket_of_decryption hactive hfail
      rw [ht] at heq
      exact .intro heq (show (1 : Int) ≠ 0 by decide)
    · rintro d w' rfl -
      exact server_refuses ht w'
    · rintro handler c w' rfl -
      exact client_refuses handler ht w'

/-- A host on which nothing can be decrypted. -/
def rejecting : Env :=
  { Env.amd64 0 with sodium := { (Env.amd64 0).sodium with cryptoBoxOpenAfternm := fun _ _ _ => none } }

/-- Keys with which a connection is encrypted. -/
def activated : Encrypt :=
  { Encrypt.init ⟨Vector.replicate _ 1, Vector.replicate _ 2⟩ with remote := ⟨true, Vector.replicate _ 3⟩ }

/-- The nonce of an `OK` packet with nothing behind it is accepted. -/
theorem forged_ok_accepted :
    DecryptFails rejecting (Buffer.ofBytes ([0, 0, 0, 24, 0, 1, 0, 1] ++ List.replicate 24 0)) activated
      World.start ∧
      ¬ Refuses rejecting (Buffer.ofBytes ([0, 0, 0, 24, 0, 1, 0, 1] ++ List.replicate 24 0)) activated
        World.start := by
  refine ⟨⟨-1, _, rfl, by decide⟩, ?_⟩
  rintro ⟨⟨r, w', hrun, hcode⟩, -, -⟩
  exact hcode ((readPacket_code _ _ _ r w' hrun).trans (by decide))

/-- One of type `INVALID` is refused. -/
theorem forged_invalid_refused :
    Refuses rejecting (Buffer.ofBytes ([0, 0, 0, 24, 0, 1, 0, 0] ++ List.replicate 24 0)) activated
      World.start :=
  (refuses_iff rfl ⟨-1, _, rfl, by decide⟩).2 (by decide)

end Excom
