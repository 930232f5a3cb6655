import Excom.Client
import Excom.Framing
import Excom.Server

/-!
# What a connection does with the bytes that arrive

The bytes of a read event are appended to the input buffer (`appendPieces_returns`).  From there the loop of the
server's `check_packet` does what `Scan` says about the unread bytes (`checkPacket_returns`).
-/

namespace Excom

variable {E : Env}

/-! ### Appending what was read -/

/-- The cursor after `n` more bytes: a resize keeps only its last 32 bits. -/
def Buffer.cursorAfter (b : Buffer) (n : Nat) : Nat := if b.used + n ≤ b.max then b.pos else b.pos % 2 ^ 32

/-- The capacity is a power of two, and at least sixteen. -/
def Buffer.Doubled (b : Buffer) : Prop := ∃ i, 4 ≤ i ∧ b.max = 2 ^ i

/-- `b'` is `b` with the bytes `bs` that were read. -/
structure Received (E : Env) (b : Buffer) (bs : Bytes) (b' : Buffer) : Prop where
  wf : b'.WF E
  contents : b'.contents = b.contents ++ bs
  pos : b'.pos = b.cursorAfter bs.length
  unmutable : b'.unmutable = b.unmutable
  doubled : b.Doubled → b'.Doubled
  slack : ∀ P, E.Junk P → (∀ x ∈ b.slack, P x) → ∀ x ∈ b'.slack, P x

private theorem Appended.doubled {b b' : Buffer} {bs : Bytes} (h : Buffer.Appended E b bs b') (hd : b.Doubled) :
    b'.Doubled := by
  obtain ⟨i, hi, hmax⟩ := hd
  have h2 := h.max
  split at h2
  · exact ⟨i, hi, h2.trans hmax⟩
  · rename_i hnot
    unfold Buffer.GrowsTo at h2
    have hpos : 0 < 2 ^ i := Nat.pow_pos (by decide)
    rw [hmax, if_neg (by omega)] at h2
    obtain ⟨j, hij, -, hj, -⟩ := Buffer.growLoop_pow (by omega) (by omega) h2
    exact ⟨j, by omega, hj⟩

/-- Where there is room, the pieces are appended one after the other. -/
theorem appendPieces_returns (hA : E.AllocSucceeds) {b : Buffer} (hb : b.WF E) (hm : b.unmutable = false)
    {pieces : List Bytes} (hfit : 2 * (b.used + pieces.flatten.length) ≤ E.word) (w : World) :
    Exec.Returns (appendPieces E b pieces) w fun b' _ => Received E b pieces.flatten b' := by
  induction pieces generalizing b w with
  | nil =>
    refine .pure ⟨hb, (List.append_nil _).symm, ?_, rfl, id, fun _ _ h => h⟩
    exact (if_pos hb.used_le).symm
  | cons piece pieces ih =>
    rw [List.flatten_cons, List.length_append] at *
    unfold appendPieces
    refine (Buffer.cappend_returns (P := fun _ => True) hA hb (Or.inr fun _ => trivial) hm
      (Nat.le_refl piece.length) (Buffer.canGrow_of_le (by omega)) w).bind ?_
    rintro ⟨_, b1⟩ w1 ⟨-, -, -, h1⟩
    rw [List.take_length] at h1
    have hu1 : b1.used = _ := h1.used
    have hp1 : b1.pos = _ := h1.pos
    have hmax1 := h1.max
    refine (ih h1.wf (h1.unmutable.trans hm) (by rw [hu1]; omega) w1).mono ?_
    intro b2 w2 h2
    have hp2 := h2.pos
    refine ⟨h2.wf, by rw [h2.contents, h1.contents, List.append_assoc], ?_, h2.unmutable.trans h1.unmutable,
      fun hd => h2.doubled (Appended.doubled h1 hd), fun P hP hs => h2.slack P hP (h1.slack P hP hs)⟩
    have hle : b1.used ≤ b1.max := h1.wf.used_le
    unfold Buffer.cursorAfter at hp2 ⊢
    rw [hp2, hp1, List.length_append]
    clear hp1 hp2 ih h2
    -- the resizes after the first one change nothing any more
    by_cases hfit1 : b.used + piece.length ≤ b.max
    · rw [if_pos hfit1] at hmax1
      replace hmax1 : b1.max = b.max := hmax1
      rw [if_pos hfit1, hu1, hmax1, Nat.add_assoc]
    · have hfit2 : ¬ b.used + (piece.length + pieces.flatten.length) ≤ b.max := by omega
      rw [if_neg hfit1, if_neg hfit2, Nat.mod_mod, ite_self]

/-! ### A new connection -/

/-- A connection of the server that was just set up. -/
structure Server.Fresh (E : Env) (pair : EncryptPair) (d : Server.ClientData) : Prop where
  bufIn : d.bufIn.Empty E 16
  bufOut : d.bufOut.Empty E 16
  state : d.state = .prehandshake
  keys : d.keys = .init pair
  packets : d.packets = []
  mutex : d.mutex = .unlocked
  connected : d.disconnected = false

/-- Where allocations succeed, a connection of the server is made. -/
theorem Server.connect_returns (hA : E.AllocSucceeds) (pair : EncryptPair) (w : World) :
    Exec.Returns (Server.connect E pair) w fun d _ => Server.Fresh E pair d := by
  have h32 := E.le_word
  unfold Server.connect
  refine (Buffer.init_returns hA 16 (by omega) (fun _ => True) w).bind ?_
  rintro ⟨_, bufIn⟩ w1 ⟨-, -, hin, -⟩
  refine (Buffer.init_returns hA 16 (by omega) (fun _ => True) w1).bind ?_
  rintro ⟨_, bufOut⟩ w2 ⟨-, -, hout, -⟩
  exact .pure ⟨hin, hout, rfl, rfl, rfl, rfl, rfl⟩

/-- A connection of the client that was just set up. -/
structure Client.Fresh (E : Env) (pair : EncryptPair) (c : Client.ExcomClient) : Prop where
  bufIn : c.bufIn.Empty E 32
  bufOut : c.bufOut.Empty E 32
  state : c.state = .prehandshake
  enc : c.enc = pair
  keys : c.keys = .init pair
  connected : c.disconnected = false

/-- Where allocations succeed, a client is connected. -/
theorem Client.connect_returns (hA : E.AllocSucceeds) (pair : EncryptPair) (w : World) :
    Exec.Returns (Client.connect E pair) w fun c _ => Client.Fresh E pair c := by
  have h32 := E.le_word
  unfold Client.connect
  refine (Buffer.init_returns hA 32 (by omega) (fun _ => True) w).bind ?_
  rintro ⟨_, bufIn⟩ w1 ⟨-, -, hin, -⟩
  refine (Buffer.init_returns hA 32 (by omega) (fun _ => True) w1).bind ?_
  rintro ⟨_, bufOut⟩ w2 ⟨-, -, hout, -⟩
  exact .pure ⟨hin.unfreeable, hout.unfreeable, rfl, rfl, rfl, rfl⟩

/-! ### A connection between two calls -/

/-- The input buffer of a connection without encryption, between two calls of its event thread. -/
structure Ready (E : Env) (b : Buffer) (keys : Encrypt) : Prop where
  buf : b.WF E
  pos_le : b.pos ≤ b.used
  fits : 2 * b.used ≤ E.word
  cleartext : keys.remote.active = false

section Ready

variable {b : Buffer} {keys : Encrypt} (hb : Ready E b keys)

include hb

theorem Ready.remaining : b.remaining E = b.unread.length := by
  rw [Buffer.remaining_eq hb.buf hb.pos_le, hb.buf.length_unread]

/-- The size that the test reads. -/
theorem Ready.size (h : 4 ≤ b.unread.length) : unpackUint32 E (b.ahead.take 4) = frameSize E b.unread := by
  rw [Buffer.ahead_eq hb.buf.block_used hb.pos_le, List.take_append_of_le_length h]
  rfl

private theorem Ready.load_size (h : 4 ≤ b.unread.length) (w : World) :
    Exec.Returns (load b.buf b.pos 4) w fun src _ => unpackUint32 E src = frameSize E b.unread := by
  have hlen : b.pos + 4 ≤ (blockBytes b.buf).length := by
    rw [hb.buf.length_unread] at h
    have := hb.buf.block_used
    omega
  refine (load_returns (P := fun _ => True) b.buf b.pos 4 hlen (fun _ _ _ => trivial) w).mono ?_
  rintro src w1 ⟨rfl, -⟩
  exact hb.size h

theorem Ready.locked_returns (hA : E.AllocSucceeds) {n : Nat} {r : Option (UInt32 × Message)}
    (h : Decodes E b.unread n r) (w : World) :
    Exec.Returns (protocolReadPacket E { b with mutex := .locked } (some keys)) w fun res _ => ∃ p,
      res = (if r = none then 1 else 0, p, { b with mutex := .locked, pos := b.pos + n }, some keys) ∧
        (∀ m, r = some m → (p.size, p.message) = m) ∧ ∀ s, Value.string s ∈ p.data → s.Valid :=
  readPacket_decodes hA { b with mutex := .locked } hb.buf.block hb.buf.used_le hb.fits
    (activeKeys_none hb.cleartext) h w

theorem Ready.advance {n : Nat} (h : n ≤ b.unread.length) :
    Ready E { b with pos := b.pos + n, mutex := .unlocked } keys := by
  rw [hb.buf.length_unread] at h
  have := hb.pos_le
  exact ⟨⟨rfl, hb.buf.block, hb.buf.used_le, hb.buf.max_lt⟩, by show b.pos + n ≤ b.used; omega,
    hb.fits, hb.cleartext⟩

end Ready

/-! ### The loop of the server -/

namespace Server

/-- The packets that are queued, with their sizes. -/
def ClientData.queued (d : ClientData) : List (UInt32 × Message) := d.packets.map fun p => (p.size, p.message)

/-- The connection with its cursor moved by `n`. -/
def ClientData.advance (d : ClientData) (n : Nat) : ClientData :=
  { d with bufIn := { d.bufIn with pos := d.bufIn.pos + n, mutex := .unlocked } }

theorem unread_advance (d : ClientData) (n : Nat) (packets : List Packet) :
    ({ d.advance n with packets } : ClientData).bufIn.unread = d.bufIn.unread.drop n := by
  simp only [ClientData.advance, Buffer.unread, Buffer.contents, List.drop_drop]

/-- A turn that finds no frame is the last one, whatever the keys are. -/
theorem checkTurn_stop {d : ClientData} {keys : Encrypt} (hd : Ready E d.bufIn keys) (h : ¬ Passes E d.bufIn.unread)
    (w : World) :
    Exec.Returns (checkTurn E d) w fun r _ => ∃ mutex, mutex ≠ .uninit ∧
      r = ({ d with bufIn := { d.bufIn with mutex } }, false) := by
  unfold checkTurn
  rw [hd.remaining, hd.buf.mutex]
  by_cases h4 : 4 < d.bufIn.unread.length
  swap
  · rw [if_neg h4]
    exact .pure ⟨d.bufIn.mutex, by rw [hd.buf.mutex]; decide, rfl⟩
  rw [if_pos h4, mutexLock_unlocked, Exec.pure_bind]
  refine (hd.load_size (by omega) w).bind ?_
  rintro src w1 hsize
  have hlt : ({ d.bufIn with mutex := .locked } : Buffer).remaining E < (4 + unpackUint32 E src).toNat := by
    show d.bufIn.remaining E < _
    rw [hd.remaining, hsize]
    exact Nat.not_le.1 fun hle => h ⟨h4, hle⟩
  dsimp only
  rw [if_pos hlt]
  exact .pure ⟨.locked, by decide, rfl⟩

/-- A turn that finds a frame gives it to the decoder, whatever the keys are. -/
theorem checkTurn_pass (hA : E.AllocSucceeds) {d : ClientData} {keys : Encrypt} (hd : Ready E d.bufIn keys)
    (h : Passes E d.bufIn.unread) (w : World) : ∃ w' node, checkTurn E d w = (do
      let (err, packet, bufIn, enc) ← protocolReadPacket E { d.bufIn with mutex := .locked } (some d.keys)
      let mutex ← mutexUnlock bufIn.mutex
      let d := { d with bufIn := { bufIn with mutex }, keys := enc.getD d.keys }
      if err ≠ 0 then
        free node
        return (d, false)
      else return ({ d with packets := d.packets ++ [packet] }, true) : M (ClientData × Bool)) w' := by
  obtain ⟨h4, hle⟩ := h
  obtain ⟨src, w1, h1, hsize⟩ := hd.load_size (by omega) w
  obtain ⟨node, w2, h2, junk, -, rfl, -⟩ := malloc_returns hA sizeofPacket w1
  refine ⟨w2, some ⟨w1.allocs, (List.range sizeofPacket).map junk⟩, ?_⟩
  have hnlt : ¬ ({ d.bufIn with mutex := .locked } : Buffer).remaining E < (4 + unpackUint32 E src).toNat := by
    show ¬ d.bufIn.remaining E < _
    rw [hd.remaining, hsize]
    exact Nat.not_lt.2 hle
  unfold checkTurn
  rw [if_pos (by rw [hd.remaining]; exact h4), hd.buf.mutex, mutexLock_unlocked, Exec.pure_bind,
    Exec.bind_of_ok h1]
  dsimp only
  rw [if_neg hnlt, Exec.bind_of_ok h2]
  rfl

/-- A turn puts packets behind those of the queue. -/
theorem checkTurn_extends (d : ClientData) (w : World) :
    Exec.Ensures (checkTurn E d) w fun r _ => d.packets <+: r.1.packets := by
  unfold checkTurn
  split
  swap
  · exact .pure List.prefix_rfl
  refine .seq fun mutex w1 => .seq fun src w2 => ?_
  dsimp only
  split
  · exact .pure List.prefix_rfl
  refine .seq fun node w3 => ?_
  split
  · exact .fault
  refine .seq fun ⟨err, packet, bufIn, enc⟩ w4 => .seq fun mutex' w5 => ?_
  dsimp only
  split
  · exact .seq fun _ w6 => .pure List.prefix_rfl
  · exact .pure (List.prefix_append _ _)

/-- The loop puts packets behind those of the queue. -/
theorem checkLoop_extends (fuel : Nat) (d : ClientData) (w : World) :
    Exec.Ensures (Exec.loop .diverges (checkTurn E) fuel d) w fun d' _ => d.packets <+: d'.packets :=
  Exec.loop_rel (R := fun d d' : ClientData => d.packets <+: d'.packets) (fun _ => List.prefix_rfl)
    (fun h h' => List.IsPrefix.trans h h') checkTurn_extends

/-- A turn of the server ends the loop where the decoder refuses the frame. -/
theorem checkTurn_refuse (hA : E.AllocSucceeds) {d : ClientData} (hd : Ready E d.bufIn d.keys) {n : Nat}
    (h : Decodes E d.bufIn.unread n none) (w : World) :
    Exec.Returns (checkTurn E d) w fun r _ => r = (d.advance n, false) := by
  obtain ⟨w1, node, heq⟩ := checkTurn_pass hA hd h.complete.passes w
  obtain ⟨_, w2, hrun, p, rfl, -⟩ := hd.locked_returns hA h w1
  obtain ⟨_, w3, hfree, -⟩ := free_returns (fun _ => True) node w2
  refine ⟨_, w3, ?_, rfl⟩
  rw [heq, Exec.bind_of_ok hrun]
  exact Exec.bind_of_ok hfree _

/-- A turn of the server queues the packet of the frame, and moves the cursor behind it. -/
theorem checkTurn_accept (hA : E.AllocSucceeds) {d : ClientData} (hd : Ready E d.bufIn d.keys) {n : Nat}
    {m : UInt32 × Message} (h : Decodes E d.bufIn.unread n (some m)) (w : World) :
    Exec.Returns (checkTurn E d) w fun r _ => ∃ p, (p.size, p.message) = m ∧
      (∀ s, Value.string s ∈ p.data → s.Valid) ∧
      r = ({ d.advance n with packets := d.packets ++ [p] }, true) := by
  obtain ⟨w1, node, heq⟩ := checkTurn_pass hA hd h.complete.passes w
  obtain ⟨_, w2, hrun, p, rfl, hp, hvalid⟩ := hd.locked_returns hA h w1
  refine ⟨_, w2, ?_, p, hp m rfl, hvalid, rfl⟩
  rw [heq, Exec.bind_of_ok hrun]
  rfl

/-- What the loop leaves behind: it has found the packets `ms` and moved the cursor by `k`. -/
structure Checked (d : ClientData) (ms : List (UInt32 × Message)) (k : Nat) (d' : ClientData) : Prop where
  queue : d'.queued = d.queued ++ ms
  rest : ∃ mutex packets, mutex ≠ .uninit ∧
    d' = { d with packets, bufIn := { d.bufIn with pos := d.bufIn.pos + k, mutex } }

/-- From unread bytes that can be scanned, the loop returns, and does what the scan says. -/
theorem checkLoop_returns (hA : E.AllocSucceeds) {d : ClientData} (hd : Ready E d.bufIn d.keys)
    {ms : List (UInt32 × Message)}
    {rest : Bytes} (h : Scan E d.bufIn.unread ms rest) {fuel : Nat} (hfuel : d.bufIn.unread.length < fuel)
    (w : World) :
    Exec.Returns (Exec.loop .diverges (checkTurn E) fuel d) w fun d' _ =>
      ∃ k, k ≤ d.bufIn.unread.length ∧ rest = d.bufIn.unread.drop k ∧ Checked d ms k d' := by
  induction fuel generalizing d ms w with
  | zero => omega
  | succ fuel ih =>
    generalize hbs : d.bufIn.unread = bs at h
    cases h with
    | stop hstop =>
      rw [← hbs] at hstop
      obtain ⟨_, w1, hrun, mutex, hmx, rfl⟩ := checkTurn_stop hd hstop w
      refine .intro (Exec.loop_last hrun) ⟨0, Nat.zero_le _, rfl, (List.append_nil _).symm, mutex,
        d.packets, hmx, rfl⟩
    | @refuse _ n hdec =>
      rw [← hbs] at hdec ⊢
      obtain ⟨_, w1, hrun, rfl⟩ := checkTurn_refuse hA hd hdec w
      refine .intro (Exec.loop_last hrun)
        ⟨n, hdec.le_length, rfl, (List.append_nil _).symm, .unlocked, d.packets, by decide, rfl⟩
    | @accept _ _ n m ms hdec hrest =>
      rw [← hbs] at hdec hrest ⊢
      obtain ⟨_, w1, hrun, p, hp, -, rfl⟩ := checkTurn_accept hA hd hdec w
      have hn := hdec.le_length
      have h8 := hdec.bounds.1
      have hun := unread_advance d n (d.packets ++ [p])
      rw [← hun] at hrest
      obtain ⟨d', w2, hrun', k, hk, hrest', hq, mutex, packets, hmx, hd'⟩ :=
        ih (hd.advance hn) hrest (by rw [hun, List.length_drop]; omega) w1
      rw [hun, List.length_drop] at hk
      refine .intro ((Exec.loop_turn hrun).trans hrun')
        ⟨n + k, by omega, by rw [hrest', hun, List.drop_drop], ?_, mutex, packets, hmx, ?_⟩
      · rw [hq, ClientData.queued, ClientData.queued, List.map_append, List.append_assoc,
          List.map_singleton, hp]
        rfl
      · rw [hd', ClientData.advance, Nat.add_assoc]

/-- `check_packet`: the packets of the scan are queued, the cursor moves, and nothing else changes. -/
theorem checkPacket_returns (hA : E.AllocSucceeds) {d : ClientData} (hd : Ready E d.bufIn d.keys)
    (hm : d.mutex = .unlocked)
    {ms : List (UInt32 × Message)} {rest : Bytes} (h : Scan E d.bufIn.unread ms rest) (w : World) :
    Exec.Returns (checkPacket E d) w fun d' _ => d'.queued = d.queued ++ ms ∧ Ready E d'.bufIn d'.keys ∧
      d'.bufIn.unread = rest ∧ ∃ k packets, k ≤ d.bufIn.unread.length ∧ d' = { d.advance k with packets } := by
  unfold checkPacket
  rw [hm, mutexLock_unlocked, Exec.pure_bind]
  have hfuel : d.bufIn.unread.length < turnBound d := by
    rw [hd.buf.length_unread, turnBound]
    have := hd.buf.block_used
    omega
  obtain ⟨d', w1, hrun, k, hk, hrest, hq, mutex, packets, hmx, rfl⟩ :=
    checkLoop_returns (d := { d with mutex := .locked }) hA ⟨hd.buf, hd.pos_le, hd.fits, hd.cleartext⟩ h hfuel w
  have hunlock : ∃ w2, mutexUnlock mutex w1 = .ok (.unlocked, w2) := by
    cases mutex with
    | uninit => exact absurd rfl hmx
    | unlocked | locked => exact ⟨_, rfl⟩
  obtain ⟨w2, hun⟩ := hunlock
  have hk' : k ≤ d.bufIn.unread.length := hk
  refine ⟨{ d.advance k with packets }, w2, ?_, hq, hd.advance hk', ?_, k, packets, hk', rfl⟩
  · refine (Exec.bind_of_ok hrun _).trans ((Exec.bind_of_ok hun _).trans ?_)
    show Except.ok _ = Except.ok _
    simp only [ClientData.advance, hm]
  · rw [unread_advance, hrest]

end Server

/-! ### The test of the client -/

variable (E) in
/-- The frame at the front seems to be there completely: the test of the client's `check_packet`. -/
def Client.Passes (bs : Bytes) : Prop := 4 ≤ bs.length ∧ (4 + frameSize E bs).toNat ≤ bs.length

instance (bs : Bytes) : Decidable (Client.Passes E bs) := inferInstanceAs (Decidable (_ ∧ _))

/-- The server's test asks for a byte more. -/
theorem Passes.client {bs : Bytes} (h : Passes E bs) : Client.Passes E bs := ⟨Nat.le_of_lt h.1, h.2⟩

namespace Client

/-- The client with its cursor moved by `n`. -/
def ExcomClient.advance (c : ExcomClient) (n : Nat) : ExcomClient :=
  { c with bufIn := { c.bufIn with pos := c.bufIn.pos + n, mutex := .unlocked } }

variable (handler : Packet → ExcomClient → M ExcomClient) {c : ExcomClient}

/-- Where the test finds no frame nothing happens, whatever the keys are. -/
theorem checkPacket_wait {keys : Encrypt} (hc : Ready E c.bufIn keys) (h : ¬ Passes E c.bufIn.unread) (w : World) :
    Exec.Returns (checkPacket E handler c) w fun c' _ => c' = c := by
  have hsame : ({ c with bufIn := { c.bufIn with mutex := .unlocked } } : ExcomClient) = c := by
    rw [hc.buf.unlocked]
  have hrem : ({ c.bufIn with mutex := .locked } : Buffer).remaining E = c.bufIn.unread.length := hc.remaining
  unfold checkPacket
  rw [hc.buf.mutex, mutexLock_unlocked, Exec.pure_bind]
  dsimp only
  rw [hrem]
  by_cases h4 : c.bufIn.unread.length < 4
  · rw [if_pos h4, mutexUnlock_locked, Exec.pure_bind]
    exact .pure hsame
  · rw [if_neg h4]
    refine (hc.load_size (by omega) w).bind ?_
    intro src w1 hsize
    have hlt : c.bufIn.unread.length < (4 + frameSize E c.bufIn.unread).toNat := by
      by_contra hle
      exact h ⟨by omega, by omega⟩
    rw [hsize, if_pos hlt, mutexUnlock_locked, Exec.pure_bind]
    exact .pure hsame

/-- Where the test finds a frame the decoder gets it, whatever the keys are. -/
theorem checkPacket_pass {keys : Encrypt} (hc : Ready E c.bufIn keys) (hA : E.AllocSucceeds)
    (h : Passes E c.bufIn.unread) (w : World) :
    ∃ w' node, checkPacket E handler c w = (do
      let (err, packet, bufIn, enc) ← protocolReadPacket E { c.bufIn with mutex := .locked } (some c.keys)
      let mutex ← mutexUnlock bufIn.mutex
      let c := { c with bufIn := { bufIn with mutex }, keys := enc.getD c.keys }
      if err ≠ 0 then
        free node
        return c
      else handler packet { c with packets := packet :: c.packets } : M ExcomClient) w' := by
  obtain ⟨src, w1, h1, hsize⟩ := hc.load_size h.1 w
  obtain ⟨node, w2, h2, junk, -, rfl, -⟩ := malloc_returns hA sizeofPacket w1
  refine ⟨w2, some ⟨w1.allocs, (List.range sizeofPacket).map junk⟩, ?_⟩
  have hrem : ({ c.bufIn with mutex := .locked } : Buffer).remaining E = c.bufIn.unread.length := hc.remaining
  unfold checkPacket
  rw [hc.buf.mutex, mutexLock_unlocked, Exec.pure_bind]
  dsimp only
  rw [hrem, if_neg (Nat.not_lt.2 h.1), Exec.bind_of_ok h1, hsize, if_neg (Nat.not_lt.2 h.2), Exec.bind_of_ok h2]
  rfl

variable (hc : Ready E c.bufIn c.keys)

include hc

/-- The client moves its cursor where the decoder refuses the frame. -/
theorem checkPacket_refuse (hA : E.AllocSucceeds) {n : Nat} (h : Decodes E c.bufIn.unread n none) (w : World) :
    Exec.Returns (checkPacket E handler c) w fun c' _ => c' = c.advance n := by
  obtain ⟨w1, node, heq⟩ := checkPacket_pass handler hc hA h.complete.passes.client w
  obtain ⟨_, w2, hrun, p, rfl, -⟩ := hc.locked_returns hA h w1
  obtain ⟨_, w3, hfree, -⟩ := free_returns (fun _ => True) node w2
  refine ⟨_, w3, ?_, rfl⟩
  rw [heq, Exec.bind_of_ok hrun]
  exact Exec.bind_of_ok hfree _

/-- The packet of a complete frame goes to the handler. -/
theorem checkPacket_accept (hA : E.AllocSucceeds) {n : Nat} {m : UInt32 × Message}
    (h : Decodes E c.bufIn.unread n (some m)) (w : World) :
    ∃ p w', (p.size, p.message) = m ∧ (∀ s, Value.string s ∈ p.data → s.Valid) ∧
      checkPacket E handler c w = handler p { c.advance n with packets := p :: c.packets } w' := by
  obtain ⟨w1, node, heq⟩ := checkPacket_pass handler hc hA h.complete.passes.client w
  obtain ⟨_, w2, hrun, p, rfl, hp, hvalid⟩ := hc.locked_returns hA h w1
  refine ⟨p, w2, hp m rfl, hvalid, ?_⟩
  rw [heq, Exec.bind_of_ok hrun]
  rfl

end Client

end Excom
