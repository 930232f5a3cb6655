import Excom.Delivery
import Excom.Lib.Responder
import Excom.WireFormat

/-!
# The server as a machine that answers

A connection of the server and a client that may send what it likes, as long as this is a sequence of frames
(`Connection`).  The handlers are a machine that takes one packet after the other and answers each of them
(`Server.responder`).  However the bytes come in pieces, and however the read events, the turns of the worker and the
write events interleave, what the server sends is what this machine answers: at any time a beginning of it
(`Connection.answers_prefix`), and all of it in the end (`Connection.answers_all`), as long as encryption is not
switched on while there are packets to come.
-/

namespace Excom

variable {E : Env}

/-! ### What is to be answered -/

namespace Server

/-- How far a connection has come. -/
structure Progress where
  state : ProtocolState
  active : Bool

/-- The handlers of a server with the public key `own` -/
def responder (own : Key) : Responder Progress Packet Packet where
  next v p := ⟨(react v.state own p).state, (react v.state own p).activates || v.active⟩
  reply v p := (react v.state own p).reply.toList

def progress (own : Key) (ps : List Packet) : Progress := (responder own).run ⟨.prehandshake, false⟩ ps

def answers (own : Key) (ps : List Packet) : List Packet := (responder own).answers ⟨.prehandshake, false⟩ ps

/-- Encryption is not switched on before the last packet. -/
def Clear (own : Key) (ps : List Packet) : Prop := ∀ qs p, qs ++ [p] <+: ps → (progress own qs).active = false

/-- The server does not encrypt as long as no public key is sent. -/
theorem clear_of_no_key {own : Key} {ps : List Packet} (h : ∀ p ∈ ps, ¬ IsKey p) : Clear own ps := by
  intro qs p hbeg
  refine Responder.run_invariant (I := fun v : Progress => v.active = false) rfl ?_
  intro v q hq hactive
  show ((react v.state own q).activates || v.active) = false
  rw [hactive, Bool.or_false]
  generalize hx : react v.state own q = x
  have hmoves := hx ▸ react_moves v.state own q
  generalize v.state = state, x.state = state', x.activates = activates at hmoves
  cases hmoves with
  | stay | version | ping => rfl
  | key hkey => exact absurd hkey (h q (hbeg.subset (List.mem_append_left _ hq)))

end Server

/-- The packet says what `p` says. -/
def Packet.Says (q p : Packet) : Prop := q.message = p.message ∧ ∃ t, q.Known t

theorem Reaction.require_eq {p q : Packet} {state level : ProtocolState} {r r' : Reaction} (hid : q.id = p.id)
    (h : r = r') : Reaction.require q state level r = Reaction.require p state level r' := by
  subst h
  simp only [require, error, answer, hid]

/-- The reaction depends only on what a packet says. -/
theorem Packet.Says.react_eq {p q : Packet} (h : q.Says p) {t : PacketType} (hp : p.Known t) (state : ProtocolState)
    (own : Key) : Server.react state own q = Server.react state own p := by
  obtain ⟨hmsg, t', hq⟩ := h
  obtain ⟨hid, htype, hdata⟩ := Message.mk.inj hmsg
  have hsize : (q.stringAt 0).size.toNat = (p.stringAt 0).size.toNat := by
    have hbytes := congrArg List.length (stringAt_bytes hdata 0)
    rwa [(stringAt_valid hq.valid 0).length_bytes, (stringAt_valid hp.valid 0).length_bytes] at hbytes
  have hcompatible : Server.Incompatible q ↔ Server.Incompatible p := by
    simp only [Server.Incompatible, numberAt_eq hdata]
  unfold Server.react
  rw [htype]
  rcases packetType? p.type with _ | t
  · rfl
  cases t with
  | ok | reject | error | pong => rfl
  | protocolVersion =>
    refine Reaction.require_eq hid ?_
    simp only [hcompatible, Reaction.answer, hid]
  | ping => simp only [Reaction.answer, hid]
  | publicKey =>
    refine Reaction.require_eq hid ?_
    simp only [hsize, Reaction.error, Reaction.answer, hid]
  | command | commandResponse => exact Reaction.require_eq hid rfl

/-! ### Connections -/

/-- A connection of the server, the bytes that are on their way from its client, and those that it has sent. -/
structure Connection where
  server : Server.ClientData
  toServer : Bytes
  toClient : Bytes
  world : World

/-- Complete frames, and behind them at most a beginning of one that the test of `check_packet` leaves alone. -/
def EndsWell (E : Env) (bs : Bytes) : Prop :=
  ∃ qs tail, bs = frames E qs ++ tail ∧ (∀ q ∈ qs, q.Sendable E) ∧ ¬ Passes E tail

namespace Connection

/-- A new connection, whose client sends the packets `ps`. -/
structure Initial (E : Env) (pair : EncryptPair) (ps : List Packet) (s : Connection) : Prop where
  connect : ∃ w, Server.connect E pair w = .ok (s.server, s.world)
  toServer : s.toServer = frames E ps
  toClient : s.toClient = []

/-- A read event, a turn of the worker, or a write event.  No read event ends where the test of `check_packet` takes
the beginning of a frame for a frame. -/
inductive Step (E : Env) : Connection → Connection → Prop where
  | read {s : Connection} {d : Server.ClientData} {w : World} (pieces : List Bytes) (later : Bytes) (errno : Int)
      (hin : s.toServer = pieces.flatten ++ later)
      (hend : errno = EAGAIN → EndsWell E (s.server.bufIn.unread ++ pieces.flatten))
      (h : Server.read E s.server pieces (.error errno) s.world = .ok (some d, w)) :
      Step E s { s with server := d, toServer := later, world := w }
  | work {s : Connection} {d : Server.ClientData} {w : World} (h : Server.work E s.server s.world = .ok (d, w)) :
      Step E s { s with server := d, world := w }
  | write {s : Connection} {d : Server.ClientData} {bytes : Bytes} {w : World} (outcome : Except Int Nat)
      (h : Server.write E s.server outcome s.world = .ok ((d, bytes), w)) :
      Step E s { s with server := d, toClient := s.toClient ++ bytes, world := w }

/-- The events of a connection come to no fault, where a read event ends well. -/
structure Faultless (E : Env) (s : Connection) : Prop where
  read : ∀ pieces later errno, s.toServer = pieces.flatten ++ later →
    (errno = EAGAIN → EndsWell E (s.server.bufIn.unread ++ pieces.flatten)) →
      Exec.Returns (Server.read E s.server pieces (.error errno)) s.world fun r _ => r ≠ none
  work : Exec.Returns (Server.work E s.server) s.world fun _ _ => True
  write : ∀ outcome, Exec.Returns (Server.write E s.server outcome) s.world fun _ _ => True

/-- The packets `handled` were handled, `queued` are in the queue, and the frames of `rest` have not been read. -/
structure Served (E : Env) (own : Key) (ps handled queued rest : List Packet) (s : Connection) : Prop where
  split : ps = handled ++ (queued ++ rest)
  progress : (⟨s.server.state, s.server.keys.remote.active⟩ : Server.Progress) = Server.progress own handled
  key : s.server.keys.localPair.pkey = own
  connected : s.server.disconnected = false
  mutex : s.server.mutex = .unlocked
  queue : List.Forall₂ Packet.Says s.server.packets queued
  input : s.server.bufIn.Pending E (frames E ps).length s.server.bufIn.unread
  room : s.server.bufIn.used + s.toServer.length ≤ (frames E ps).length
  bytes : s.server.bufIn.unread ++ s.toServer = frames E rest
  output : s.server.bufOut.Pending E (44 * handled.length) s.server.bufOut.unread
  sent : s.toClient ++ s.server.bufOut.unread = frames E (Server.answers own handled)

end Connection

/-! ### Frames are queued -/

/-- The end of what is there, seen from the frames that are to come: it is complete frames of these. -/
theorem frames_split (hE : E.littleEndian = true) {qs rest : List Packet} (hqs : ∀ q ∈ qs, q.Sendable E)
    (hrest : ∀ p ∈ rest, p.Sendable E) {tail later : Bytes} (h : frames E qs ++ tail ++ later = frames E rest) :
    ∃ front back, rest = front ++ back ∧ frames E front = frames E qs ∧ tail ++ later = frames E back := by
  have hcode := frames_code hE
  rw [List.append_assoc] at h
  have hprefix : qs.flatMap (Packet.frame E) <+: rest.flatMap (Packet.frame E) := ⟨_, h⟩
  obtain ⟨ms, hms⟩ := (hcode.prefix_iff hqs hrest).1 hprefix
  obtain ⟨front, back, rfl, hfront, -⟩ := List.map_eq_append_iff.1 hms.symm
  have heq : frames E front = frames E qs := hcode.flatMap_eq hfront
  refine ⟨front, back, rfl, heq, ?_⟩
  have hall : frames E (front ++ back) = frames E front ++ frames E back := List.flatMap_append
  rw [hall, heq] at h
  exact List.append_cancel_left h

namespace Server

variable (hE : E.littleEndian = true) (hA : E.AllocSucceeds)

include hE hA

/-- The loop of `check_packet` queues the packets of the frames that are there. -/
theorem checkLoop_takes {ps : List Packet} (hps : ∀ p ∈ ps, p.Sendable E) {tail : Bytes} (htail : ¬ Passes E tail)
    {d : ClientData} {keys : Encrypt} (hd : Ready E d.bufIn keys) (hk : ps ≠ [] → d.keys.remote.active = false)
    (hun : d.bufIn.unread = frames E ps ++ tail) {fuel : Nat} (hfuel : d.bufIn.unread.length < fuel) (w : World) :
    Exec.Returns (Exec.loop .diverges (checkTurn E) fuel d) w fun d' _ => ∃ new mutex, mutex ≠ .uninit ∧
      List.Forall₂ Packet.Says new ps ∧ d' = { d with
        packets := d.packets ++ new
        bufIn := { d.bufIn with pos := d.bufIn.pos + (frames E ps).length, mutex } } := by
  induction ps generalizing d keys fuel w with
  | nil =>
    obtain ⟨fuel, rfl⟩ := Nat.exists_eq_succ_of_ne_zero (Nat.ne_zero_of_lt hfuel)
    obtain ⟨_, w1, hstop, mutex, hmutex, rfl⟩ := checkTurn_stop hd (by rw [hun]; exact htail) w
    exact .intro (Exec.loop_last hstop) ⟨[], mutex, hmutex, .nil, by simp⟩
  | cons p ps ih =>
    obtain ⟨fuel, rfl⟩ := Nat.exists_eq_succ_of_ne_zero (Nat.ne_zero_of_lt hfuel)
    obtain ⟨hp, hps⟩ := List.forall_mem_cons.1 hps
    have hactive := hk (List.cons_ne_nil p ps)
    have hready : Ready E d.bufIn d.keys := ⟨hd.buf, hd.pos_le, hd.fits, hactive⟩
    rw [frames_cons, List.append_assoc] at hun
    have hdec := decodes_frame hE hp.1 hp.2 (frames E ps ++ tail)
    rw [← hun] at hdec
    obtain ⟨_, w1, hturn, q, hq, hvalid, rfl⟩ := checkTurn_accept hA hready hdec w
    obtain ⟨t, hknown⟩ := hp.1
    obtain ⟨hmsg, hq⟩ := known_of_described hknown hq hvalid
    have hnext := unread_advance d (p.frame E).length (d.packets ++ [q])
    rw [hun, List.drop_left] at hnext
    have hlen := congrArg List.length hun
    rw [List.length_append, p.length_frame] at hlen
    obtain ⟨d', w2, hloop, new, mutex, hmutex, hnew, rfl⟩ := ih hps
      (d := { d.advance (p.frame E).length with packets := d.packets ++ [q] }) (hready.advance hdec.le_length)
      (fun _ => hactive) hnext (by rw [hnext]; omega : _ < fuel) w1
    refine .intro ((Exec.loop_turn hturn).trans hloop) ⟨q :: new, mutex, hmutex, .cons ⟨hmsg, t, hq⟩ hnew, ?_⟩
    simp only [ClientData.advance, frames_cons, List.length_append, Nat.add_assoc, List.append_assoc,
      List.singleton_append]

/-- `check_packet` queues them, and moves the cursor behind them. -/
theorem checkPacket_takes {ps : List Packet} (hps : ∀ p ∈ ps, p.Sendable E) {tail : Bytes} (htail : ¬ Passes E tail)
    {d : ClientData} {keys : Encrypt} (hd : Ready E d.bufIn keys) (hmutex : d.mutex = .unlocked)
    (hk : ps ≠ [] → d.keys.remote.active = false) (hun : d.bufIn.unread = frames E ps ++ tail) (w : World) :
    Exec.Returns (checkPacket E d) w fun d' _ => ∃ new, List.Forall₂ Packet.Says new ps ∧
      d' = { d with
        packets := d.packets ++ new
        bufIn := { d.bufIn with pos := d.bufIn.pos + (frames E ps).length, mutex := .unlocked } } := by
  have hfuel : d.bufIn.unread.length < turnBound { d with mutex := .locked } := by
    have hblock := hd.buf.block_used
    have hlen := hd.buf.length_unread
    show _ < (blockBytes d.bufIn.buf).length + 2
    omega
  obtain ⟨_, w1, hloop, new, mutex, hne, hnew, rfl⟩ := checkLoop_takes hE hA hps htail
    (d := { d with mutex := .locked }) hd hk hun hfuel w
  obtain ⟨w2, hunlock⟩ : ∃ w2, mutexUnlock mutex w1 = .ok (.unlocked, w2) := by
    cases mutex with
    | uninit => exact absurd rfl hne
    | unlocked | locked => exact ⟨_, rfl⟩
  refine ⟨_, w2, ?_, new, hnew, rfl⟩
  unfold checkPacket
  rw [hmutex, mutexLock_unlocked, Exec.pure_bind]
  exact (Exec.bind_of_ok hloop _).trans ((Exec.bind_of_ok hunlock _).trans rfl)

end Server

/-! ### One event -/

namespace Connection

variable {own : Key} {ps handled queued rest : List Packet} {s : Connection}

private theorem length_reply {raw : Packet} {r : Reaction} (hr : r.Sound E raw) :
    (frames E r.reply.toList).length ≤ 44 := by
  rcases hreply : r.reply with _ | p
  · exact Nat.zero_le 44
  · have hshort := hr.short p hreply
    show (p.frame E ++ []).length ≤ 44
    rw [List.append_nil, p.length_frame]
    omega

/-- A reply without encryption -/
theorem writeReply_clear (hA : E.AllocSucceeds) {raw : Packet} {r : Reaction} (hr : r.Sound E raw) {keys : Encrypt}
    (hk : keys.remote.active = false) {n : Nat} (hn : n < 2 ^ 30) {out : Buffer} (ho : out.Pending E n out.unread)
    (w : World) :
    Exec.Returns (writeReply E r.reply out keys) w fun x _ => x.2 = keys ∧ x.1.Pending E (n + 44) x.1.unread ∧
      x.1.unread = out.unread ++ frames E r.reply.toList := by
  have h32 := E.le_word
  unfold writeReply
  rcases hreply : r.reply with _ | p
  · refine .pure ⟨rfl, ⟨ho.wf, ho.mutable, ho.pos_le, ?_, rfl⟩, (List.append_nil _).symm⟩
    have hle := ho.used_le
    show out.used ≤ n + 44
    omega
  · obtain ⟨t, hp⟩ := hr.known p hreply
    have hshort := hr.short p hreply
    have hlen := p.length_frame (E := E)
    have hle := ho.used_le
    refine (writePacket_returns hA hp ho.wf ho.mutable (activeKeys_none hk) (by omega) w).bind ?_
    rintro _ w1 ⟨out', hext, rfl⟩
    have happend := ho.append hext (by omega)
    have hunread := happend.unread
    have hused := happend.used_le
    refine .pure ⟨rfl, ⟨happend.wf, happend.mutable, happend.pos_le, by dsimp only; omega, rfl⟩, ?_⟩
    show out'.unread = out.unread ++ (p.frame E ++ [])
    rw [hunread, List.append_nil]

/-- As long as there are packets to come, nothing is encrypted. -/
theorem Served.inactive (h : Served E own ps handled queued rest s) (hclear : Server.Clear own ps)
    (hne : queued ++ rest ≠ []) : s.server.keys.remote.active = false := by
  obtain ⟨p, later, hp⟩ := List.exists_cons_of_ne_nil hne
  have hprefix : handled ++ [p] <+: ps := ⟨later, by rw [h.split, hp, List.append_assoc]; rfl⟩
  exact (congrArg Server.Progress.active h.progress).trans (hclear handled p hprefix)

private theorem Served.sendable (h : Served E own ps handled queued rest s) (hps : ∀ p ∈ ps, p.Sendable E) :
    ∀ p ∈ handled ++ (queued ++ rest), p.Sendable E := by
  rw [← h.split]
  exact hps

section Events

variable (hE : E.littleEndian = true) (hA : E.AllocSucceeds) (hps : ∀ p ∈ ps, p.Sendable E)
  (hclear : Server.Clear own ps) (hn : (frames E ps).length < 2 ^ 30)
  (h : Served E own ps handled queued rest s)

include hA hn h in
private theorem Served.append_returns {pieces : List Bytes} {later : Bytes}
    (hin : s.toServer = pieces.flatten ++ later) (w : World) :
    Exec.Returns (appendPieces E s.server.bufIn pieces) w fun b _ =>
      b.Pending E (frames E ps).length (s.server.bufIn.unread ++ pieces.flatten) ∧
        b.used + later.length ≤ (frames E ps).length := by
  have h32 := E.le_word
  have hinput := h.input
  have hroom := h.room
  rw [hin, List.length_append] at hroom
  refine (appendPieces_returns hA hinput.wf hinput.mutable (by omega) w).mono ?_
  intro b w1 hr
  have hext : Buffer.Extends E s.server.bufIn pieces.flatten b := by
    refine ⟨hr.wf, hr.contents, fun hpos => ?_, hr.unmutable, hr.slack⟩
    rw [hr.pos, Buffer.cursorAfter, Nat.mod_eq_of_lt hpos, ite_self]
  have hb := hinput.append hext (by omega)
  have hused := hext.used hinput.wf
  exact ⟨⟨hb.wf, hb.mutable, hb.pos_le, by omega, hb.unread⟩, by omega⟩

include h in
private theorem Served.moved {pieces : List Bytes} {later : Bytes} (hin : s.toServer = pieces.flatten ++ later)
    {b : Buffer} (hb : b.Pending E (frames E ps).length (s.server.bufIn.unread ++ pieces.flatten))
    (hroom : b.used + later.length ≤ (frames E ps).length) (w : World) :
    Served E own ps handled queued rest
      { s with server := { s.server with bufIn := b }, toServer := later, world := w } := by
  have hbytes := h.bytes
  rw [hin, ← List.append_assoc] at hbytes
  refine ⟨h.split, h.progress, h.key, h.connected, h.mutex, h.queue, ?_, hroom, ?_, h.output, h.sent⟩
  · exact ⟨hb.wf, hb.mutable, hb.pos_le, hb.used_le, rfl⟩
  · show b.unread ++ later = frames E rest
    rw [hb.unread, hbytes]

include hE hA hps hclear hn h in
/-- The packets of complete frames are queued. -/
private theorem Served.check_returns (hend : EndsWell E s.server.bufIn.unread) :
    Exec.Returns (Server.checkPacket E s.server) s.world fun d w => ∃ front back, rest = front ++ back ∧
      Served E own ps handled (queued ++ front) back { s with server := d, world := w } ∧
      ¬ Passes E d.bufIn.unread := by
  have h32 := E.le_word
  obtain ⟨qs, tail, hqs, hsend, htail⟩ := hend
  have hrest : ∀ p ∈ rest, p.Sendable E := fun p hp =>
    h.sendable hps p (List.mem_append_right _ (List.mem_append_right _ hp))
  have hbytes := h.bytes
  rw [hqs] at hbytes
  obtain ⟨front, back, rfl, hfront, hback⟩ := frames_split hE hsend hrest hbytes
  rw [← hfront] at hqs
  have hready : Ready E s.server.bufIn (.init ⟨own, own⟩) := h.input.ready (by omega) rfl
  have hsendfront : ∀ p ∈ front, p.Sendable E := fun p hp => hrest p (List.mem_append_left _ hp)
  have hactive : front ≠ [] → s.server.keys.remote.active = false := by
    intro hne
    refine h.inactive hclear ?_
    simp [hne]
  refine (Server.checkPacket_takes hE hA hsendfront htail hready h.mutex hactive hqs s.world).mono ?_
  rintro _ w ⟨new, hnew, rfl⟩
  have hle : (frames E front).length ≤ s.server.bufIn.unread.length := by
    rw [hqs, List.length_append]
    exact Nat.le_add_right _ _
  have hadv := h.input.advance hle
  have hleft : s.server.bufIn.unread.drop (frames E front).length = tail := by rw [hqs, List.drop_left]
  rw [hleft] at hadv
  have hunread := hadv.unread
  refine ⟨front, back, rfl, ⟨?_, h.progress, h.key, h.connected, h.mutex, ?_, ?_, ?_, ?_, h.output, h.sent⟩, ?_⟩
  · rw [h.split, List.append_assoc]
  · exact List.rel_append h.queue hnew
  · exact ⟨hadv.wf, hadv.mutable, hadv.pos_le, hadv.used_le, rfl⟩
  · exact h.room
  · dsimp only
    rw [hunread, hback]
  · dsimp only
    rw [hunread]
    exact htail

include hE hA hps hclear hn h in
/-- A read event moves bytes, and queues the packets of complete frames. -/
theorem Served.read_returns {pieces : List Bytes} {later : Bytes} {errno : Int}
    (hin : s.toServer = pieces.flatten ++ later)
    (hend : errno = EAGAIN → EndsWell E (s.server.bufIn.unread ++ pieces.flatten)) :
    Exec.Returns (Server.read E s.server pieces (.error errno)) s.world fun r w => ∃ d front back, r = some d ∧
      rest = front ++ back ∧
      Served E own ps handled (queued ++ front) back { s with server := d, toServer := later, world := w } ∧
      (errno = EAGAIN → ¬ Passes E d.bufIn.unread) := by
  unfold Server.read
  rw [if_neg (by rw [h.connected]; decide)]
  refine (h.append_returns hA hn hin s.world).bind ?_
  intro b w1 ⟨hb, hroom⟩
  have hmoved := h.moved hin hb hroom w1
  dsimp only
  by_cases hagain : errno = EAGAIN
  · rw [if_pos hagain]
    have hunread : EndsWell E b.unread := by
      rw [hb.unread]
      exact hend hagain
    refine (hmoved.check_returns hE hA hps hclear hn hunread).bind ?_
    rintro d w2 ⟨front, back, hrest, hserved, hstops⟩
    exact .pure ⟨d, front, back, rfl, hrest, hserved, fun _ => hstops⟩
  · rw [if_neg hagain]
    refine .pure ⟨_, [], rest, rfl, rfl, ?_, fun he => absurd he hagain⟩
    rw [List.append_nil]
    exact hmoved

include h in
/-- The worker has nothing to do. -/
theorem Served.work_idle (hqueued : queued = []) : Server.work E s.server s.world = .ok (s.server, s.world) := by
  have hqueue := h.queue
  rw [hqueued, List.forall₂_nil_right_iff] at hqueue
  unfold Server.work
  rw [hqueue]
  rfl

include hA hps hclear h in
/-- The worker handles one packet. -/
theorem Served.work_returns {p : Packet} {later : List Packet} (hqueued : queued = p :: later)
    (hm : 44 * ps.length < 2 ^ 30) :
    Exec.Returns (Server.work E s.server) s.world fun d w =>
      Served E own ps (handled ++ [p]) later rest { s with server := d, world := w } ∧
        d.bufOut.unread.length ≤ s.server.bufOut.unread.length + 44 := by
  subst hqueued
  have hactive := h.inactive hclear (by simp)
  have hlen := congrArg List.length h.split
  simp only [List.length_append, List.length_cons] at hlen
  obtain ⟨⟨t, hp⟩, -⟩ := h.sendable hps p (by simp)
  obtain ⟨q, new, hq, hnew, hpackets⟩ := List.forall₂_cons_right_iff.1 h.queue
  unfold Server.work
  rw [hpackets]
  dsimp only
  rw [Server.handlePacket_eq]
  have hreact : Server.react s.server.state s.server.keys.localPair.pkey q =
      Server.react (Server.progress own handled).state own p := by
    rw [h.key, hq.react_eq hp, ← h.progress]
  rw [show Server.react ({ s.server with packets := new } : Server.ClientData).state
    ({ s.server with packets := new } : Server.ClientData).keys.localPair.pkey q = _ from hreact]
  have hsound := hreact ▸ Server.react_sound (E := E) s.server.state s.server.keys.localPair.pkey q
  generalize hx : Server.react (Server.progress own handled).state own p = x at hsound
  obtain ⟨_, _, hknown⟩ := hq
  unfold Server.perform
  refine (touchBody_returns hsound (Packet.stringAt_valid hknown.valid 0) _ s.world).bind ?_
  intro _ w1 _
  refine (writeReply_clear hA hsound hactive (by omega) h.output w1).bind ?_
  rintro ⟨out, keys⟩ w2 ⟨hkeys, hout, hun⟩
  dsimp only at hkeys hout hun
  subst hkeys
  have hnext : Server.progress own (handled ++ [p]) =
      ⟨x.state, x.activates || (Server.progress own handled).active⟩ := by
    subst hx
    exact Responder.run_append ..
  have hreply : Server.answers own (handled ++ [p]) = Server.answers own handled ++ x.reply.toList := by
    subst hx
    exact Responder.answers_snoc ..
  refine .pure ⟨⟨?_, ?_, ?_, h.connected, h.mutex, hnew, h.input, h.room, h.bytes, ?_, ?_⟩, ?_⟩
  · rw [h.split]
    simp
  · rw [hnext, ← h.progress]
    cases x.activates <;> simp [Encrypt.activate]
  · show (if x.activates = true then s.server.keys.activate else s.server.keys).localPair.pkey = own
    rw [apply_ite Encrypt.localPair]
    split <;> exact h.key
  · rw [List.length_append, List.length_singleton]
    exact hout
  · show s.toClient ++ out.unread = _
    have hall : frames E (Server.answers own handled ++ x.reply.toList) =
      frames E (Server.answers own handled) ++ frames E x.reply.toList := List.flatMap_append
    rw [hun, hreply, hall, ← List.append_assoc, h.sent]
  · have hlen := length_reply hsound
    show out.unread.length ≤ _
    rw [hun, List.length_append]
    omega

include h in
/-- The socket takes some of what is to be sent. -/
theorem Served.write_returns (outcome : Except Int Nat) :
    Exec.Returns (Server.write E s.server outcome) s.world fun r w =>
      Served E own ps handled queued rest
        { s with server := r.1, toClient := s.toClient ++ r.2, world := w } ∧
      s.server.bufOut.unread = r.2 ++ r.1.bufOut.unread ∧
      ∀ k, outcome = .ok k → s.server.bufOut.unread.length ≤ k → r.1.bufOut.unread = [] := by
  unfold Server.write
  rw [if_neg (by rw [h.connected]; decide)]
  refine (Excom.write_returns h.output outcome s.world).bind ?_
  rintro ⟨code, out, sent⟩ w ⟨left, hsplit, hpending, hall⟩
  dsimp only at hsplit hpending hall
  obtain rfl := hpending.unread
  refine .pure ⟨⟨h.split, h.progress, h.key, h.connected, h.mutex, h.queue, h.input, h.room, h.bytes, hpending, ?_⟩,
    hsplit, hall⟩
  rw [← h.sent, hsplit, List.append_assoc]

end Events

/-! ### Runs -/

/-- Bytes have moved, or a packet was queued or handled. -/
def Busy (s s' : Connection) : Prop :=
  s'.toServer ≠ s.toServer ∨ s'.toClient ≠ s.toClient ∨ s'.server.packets.length ≠ s.server.packets.length

/-- What is left to do: a packet that is read, handled and answered takes less of it each time. -/
def left (queued rest : List Packet) (s : Connection) : Nat :=
  s.toServer.length + 46 * rest.length + 45 * queued.length + s.server.bufOut.unread.length

/-- All packets are answered. -/
def Answered (E : Env) (own : Key) (ps : List Packet) (s : Connection) : Prop :=
  s.toClient = frames E (Server.answers own ps)

/-- Where nothing is left to read, to handle or to send, all is answered. -/
theorem Served.answered (h : Served E own ps handled [] [] s) (hout : s.server.bufOut.unread = []) :
    Answered E own ps s := by
  have hsent := h.sent
  have hsplit := h.split
  rw [hout, List.append_nil] at hsent
  rw [List.append_nil, List.append_nil] at hsplit
  rw [Answered, hsplit, hsent]

private theorem Served.toClient_prefix (h : Served E own ps handled queued rest s) :
    s.toClient <+: frames E (Server.answers own ps) := by
  have hanswers : Server.answers own handled <+: Server.answers own ps :=
    Responder.answers_mono ⟨queued ++ rest, h.split.symm⟩
  obtain ⟨later, hlater⟩ := hanswers
  refine ⟨s.server.bufOut.unread ++ frames E later, ?_⟩
  rw [← List.append_assoc, h.sent, ← hlater]
  exact List.flatMap_append.symm

section Runs

variable (hE : E.littleEndian = true) (hA : E.AllocSucceeds) (hps : ∀ p ∈ ps, p.Sendable E)
  (hclear : Server.Clear own ps) (hn : (frames E ps).length < 2 ^ 30) (hm : 44 * ps.length < 2 ^ 30)

include hA in
private theorem served_initial {pair : EncryptPair} (h : Initial E pair ps s) :
    Served E pair.pkey ps [] [] ps s ∧ s.server.bufOut.unread = [] := by
  obtain ⟨⟨w, hconnect⟩, htoServer, htoClient⟩ := h
  have hd := (Server.connect_returns hA pair w).ensures _ _ hconnect
  have hin := hd.bufIn.pending
  have hout := hd.bufOut.pending
  have hused := hin.used_le
  refine ⟨⟨rfl, ?_, ?_, hd.connected, hd.mutex, ?_, ?_, ?_, ?_, ?_, ?_⟩, hout.unread⟩
  · rw [hd.state, hd.keys]
    rfl
  · rw [hd.keys]
    rfl
  · rw [hd.packets]
    exact .nil
  · exact ⟨hin.wf, hin.mutable, hin.pos_le, by omega, rfl⟩
  · rw [htoServer]
    omega
  · rw [hin.unread, htoServer]
    rfl
  · exact ⟨hout.wf, hout.mutable, hout.pos_le, hout.used_le, rfl⟩
  · rw [hout.unread, htoClient]
    rfl

include hE hA hps hclear hn hm

/-- A step keeps the order of the packets, and leaves less to do if it is a busy one. -/
theorem Served.step (h : Served E own ps handled queued rest s) {s' : Connection} (hstep : Step E s s') :
    ∃ handled' queued' rest', Served E own ps handled' queued' rest' s' ∧
      (Busy s s' → left queued' rest' s' < left queued rest s) := by
  have hlen := h.queue.length_eq
  cases hstep with
  | @read d w pieces later errno hin hend hrun =>
    obtain ⟨_, front, back, hd, rfl, hserved, -⟩ :=
      (h.read_returns hE hA hps hclear hn hin hend).ensures _ _ hrun
    cases hd
    refine ⟨handled, _, back, hserved, fun hbusy => ?_⟩
    have hlen' := hserved.queue.length_eq
    have hmoved := congrArg List.length hin
    -- nothing was answered
    have hout : d.bufOut.unread = s.server.bufOut.unread := List.append_cancel_left (hserved.sent.trans h.sent.symm)
    rw [List.length_append] at hmoved hlen'
    have hpos : 0 < pieces.flatten.length + front.length := by
      rw [Nat.pos_iff_ne_zero]
      intro hzero
      have hnil : pieces.flatten = [] := List.eq_nil_of_length_eq_zero (by omega)
      rcases hbusy with hne | hne | hne
      · exact hne (by rw [hin, hnil]; rfl)
      · exact hne rfl
      · exact hne (by dsimp only; omega)
    simp only [left, hout, List.length_append]
    omega
  | work hrun =>
    cases queued with
    | nil =>
      rw [h.work_idle rfl] at hrun
      cases hrun
      exact ⟨handled, [], rest, h, fun hbusy => by simp [Busy] at hbusy⟩
    | cons p later =>
      obtain ⟨hserved, hout⟩ := (h.work_returns hA hps hclear rfl hm).ensures _ _ hrun
      refine ⟨_, later, rest, hserved, fun _ => ?_⟩
      simp only [left, List.length_cons]
      omega
  | @write d bytes w outcome hrun =>
    obtain ⟨hserved, hsplit, -⟩ := (h.write_returns outcome).ensures _ _ hrun
    dsimp only at hsplit
    refine ⟨handled, queued, rest, hserved, fun hbusy => ?_⟩
    have hlen' := hserved.queue.length_eq
    have hsent := congrArg List.length hsplit
    rw [List.length_append] at hsent
    have hpos : bytes ≠ [] := by
      rintro rfl
      rcases hbusy with hne | hne | hne
      · exact hne rfl
      · exact hne (List.append_nil _)
      · exact hne (hlen'.trans hlen.symm)
    have := List.length_pos_iff.2 hpos
    simp only [left]
    omega

/-- As long as not all is answered, somebody can go on. -/
theorem Served.exists_busy (h : Served E own ps handled queued rest s) (hnot : ¬ Answered E own ps s) :
    ∃ s', Step E s s' ∧ Busy s s' := by
  have hlen := h.queue.length_eq
  cases queued with
  | cons p later =>
    obtain ⟨d, w, hrun, hserved, -⟩ := h.work_returns hA hps hclear rfl hm
    have hlen' := hserved.queue.length_eq
    refine ⟨_, .work hrun, .inr (.inr ?_)⟩
    rw [List.length_cons] at hlen
    dsimp only at hlen' ⊢
    omega
  | nil =>
    by_cases hout : s.server.bufOut.unread = []
    swap
    · obtain ⟨⟨d, bytes⟩, w, hrun, -, hsplit, hall⟩ := h.write_returns (.ok s.server.bufOut.unread.length)
      have hnil := hall _ rfl (Nat.le_refl _)
      dsimp only at hsplit hnil
      rw [hnil, List.append_nil] at hsplit
      refine ⟨_, .write _ hrun, .inr (.inl ?_)⟩
      rw [← hsplit]
      simpa using hout
    · cases rest with
      | nil => exact absurd (h.answered hout) hnot
      | cons p later =>
        have hbytes := h.bytes
        have hsend := h.sendable hps
        have hin : s.toServer = [s.toServer].flatten ++ [] := by simp
        have hend : EndsWell E (s.server.bufIn.unread ++ [s.toServer].flatten) := by
          refine ⟨p :: later, [], by simpa using hbytes, fun q hq => hsend q (List.mem_append_right _ hq), ?_⟩
          exact fun hpass => absurd hpass.1 (Nat.not_lt_zero 4)
        obtain ⟨_, w, hrun, d, front, back, rfl, hsplit, hserved, hpass⟩ :=
          h.read_returns hE hA hps hclear hn hin fun _ : EAGAIN = EAGAIN => hend
        have hlen' := hserved.queue.length_eq
        refine ⟨_, .read [s.toServer] [] EAGAIN hin (fun _ => hend) hrun, .inr (.inr ?_)⟩
        have hfront : front ≠ [] := by
          rintro rfl
          obtain rfl : p :: later = back := hsplit
          have hunread := hserved.bytes
          dsimp only at hunread
          rw [List.append_nil] at hunread
          refine hpass rfl ?_
          rw [hunread, frames_cons]
          obtain ⟨hknown, hsize⟩ := hsend p (by simp)
          exact (decodes_frame hE hknown hsize _).complete.passes
        have := List.length_pos_iff.2 hfront
        rw [List.length_append] at hlen'
        dsimp only at hlen' ⊢
        omega

/-- While all goes as it should no event comes to a fault. -/
theorem Served.faultless (h : Served E own ps handled queued rest s) : Faultless E s := by
  refine ⟨?_, ?_, fun outcome => (h.write_returns outcome).mono fun _ _ _ => trivial⟩
  · intro pieces later errno hin hend
    refine (h.read_returns hE hA hps hclear hn hin hend).mono ?_
    rintro _ w ⟨d, _, _, rfl, -⟩
    exact Option.some_ne_none d
  · cases queued with
    | nil => exact .intro (h.work_idle rfl) trivial
    | cons p later => exact (h.work_returns hA hps hclear rfl hm).mono fun _ _ _ => trivial

end Runs

/-- At any time the server has sent a beginning of what is to be answered, and none of its events comes to a fault. -/
theorem answers_prefix (hE : E.littleEndian = true) (hA : E.AllocSucceeds) {pair : EncryptPair}
    (hps : ∀ p ∈ ps, p.Sendable E) (hclear : Server.Clear pair.pkey ps) (hn : (frames E ps).length < 2 ^ 30)
    (hm : 44 * ps.length < 2 ^ 30) (h : Reachable (Initial E pair ps) (Step E) s) :
    s.toClient <+: frames E (Server.answers pair.pkey ps) ∧ Faultless E s := by
  obtain ⟨handled, queued, rest, hserved⟩ :
      ∃ handled queued rest, Served E pair.pkey ps handled queued rest s := by
    refine h.invariant (I := fun s => ∃ handled queued rest, Served E pair.pkey ps handled queued rest s) ?_ ?_
    · exact fun s hs => ⟨[], [], ps, (served_initial hA hs).1⟩
    · rintro s s' ⟨handled, queued, rest, hs⟩ hstep
      obtain ⟨handled', queued', rest', hs', -⟩ := hs.step hE hA hps hclear hn hm hstep
      exact ⟨handled', queued', rest', hs'⟩
  exact ⟨hserved.toClient_prefix, hserved.faultless hE hA hps hclear hn hm⟩

private theorem exists_initial_connection (hA : E.AllocSucceeds) (pair : EncryptPair) (ps : List Packet) :
    ∃ s, Initial E pair ps s := by
  obtain ⟨d, w, hconnect, -⟩ := Server.connect_returns hA pair World.start
  exact ⟨⟨d, frames E ps, [], w⟩, ⟨_, hconnect⟩, rfl, rfl⟩

/-- Two pings -/
def pings : List Packet := [⟨0, 1, 5, []⟩, ⟨0, 2, 5, []⟩]

def ones : EncryptPair := ⟨Vector.replicate _ 1, Vector.replicate _ 1⟩

private theorem pings_sendable : ∀ p ∈ pings, p.Sendable (Env.amd64 0) ∧ ¬ Server.IsKey p := by
  intro p hp
  rcases List.mem_cons.1 hp with rfl | hp
  · exact ⟨⟨⟨.ping, rfl, rfl, by simp⟩, by decide⟩, fun h => absurd h.1 (by decide)⟩
  · obtain rfl := List.mem_singleton.1 hp
    exact ⟨⟨⟨.ping, rfl, rfl, by simp⟩, by decide⟩, fun h => absurd h.1 (by decide)⟩

private theorem pings_clear : Server.Clear ones.pkey pings :=
  Server.clear_of_no_key fun p hp => (pings_sendable p hp).2

/-- In some run both of them are read, handled and answered. -/
private theorem exists_answered : ∃ s, Reachable (Initial (Env.amd64 0) ones pings) (Step (Env.amd64 0)) s ∧
    Answered (Env.amd64 0) ones.pkey pings s := by
  have hA := Env.amd64_allocSucceeds 0
  have hps : ∀ p ∈ pings, p.Sendable (Env.amd64 0) := fun p hp => (pings_sendable p hp).1
  have hn : (frames (Env.amd64 0) pings).length < 2 ^ 30 := by decide
  obtain ⟨s, hs⟩ := exists_initial_connection hA ones pings
  refine (Reachable.start hs).attains (I := fun n s => ∃ handled queued rest,
    Served (Env.amd64 0) ones.pkey pings handled queued rest s ∧ left queued rest s = n) ?_
    ⟨[], [], pings, (served_initial hA hs).1, rfl⟩
  rintro n s ⟨handled, queued, rest, hs, rfl⟩ hnot
  obtain ⟨s', hstep, hbusy⟩ := hs.exists_busy rfl hA hps pings_clear hn (by decide) hnot
  obtain ⟨handled', queued', rest', hs', hlt⟩ := hs.step rfl hA hps pings_clear hn (by decide) hstep
  exact ⟨s', hstep, .inr ⟨_, hlt hbusy, handled', queued', rest', hs', rfl⟩⟩

/-- After both pings were answered. -/
theorem answers_prefix_pings :
    ∃ s, Reachable (Initial (Env.amd64 0) ones pings) (Step (Env.amd64 0)) s ∧
      Answered (Env.amd64 0) ones.pkey pings s ∧
        s.toClient <+: frames (Env.amd64 0) (Server.answers ones.pkey pings) ∧ Faultless (Env.amd64 0) s := by
  obtain ⟨s, hs, hanswered⟩ := exists_answered
  exact ⟨s, hs, hanswered, answers_prefix (E := Env.amd64 0) rfl (Env.amd64_allocSucceeds 0)
    (fun p hp => (pings_sendable p hp).1) pings_clear (by decide) (by decide) hs⟩

/-- A connection that goes on as long as a byte can be moved or a packet be handled answers all packets. -/
theorem answers_all (hE : E.littleEndian = true) (hA : E.AllocSucceeds) {pair : EncryptPair}
    (hps : ∀ p ∈ ps, p.Sendable E) (hclear : Server.Clear pair.pkey ps) (hn : (frames E ps).length < 2 ^ 30)
    (hm : 44 * ps.length < 2 ^ 30) {run : Nat → Connection}
    (hrun : Exhaustive (fun s s' => Step E s s' ∧ Busy s s') run) (hstart : Initial E pair ps (run 0)) :
    ∃ k, k ≤ (frames E ps).length + 46 * ps.length ∧ Answered E pair.pkey ps (run k) := by
  let own := pair.pkey
  obtain ⟨hserved, hout⟩ := served_initial hA hstart
  by_cases hdone : Answered E own ps (run 0)
  · exact ⟨0, Nat.zero_le _, hdone⟩
  let I (n : Nat) (s : Connection) : Prop :=
    ∃ handled queued rest, Served E own ps handled queued rest s ∧ left queued rest s = n ∧ ¬ Answered E own ps s
  have hpos : ∀ n s, I n s → 0 < n := by
    rintro n s ⟨handled, queued, rest, hs, rfl, hnot⟩
    rw [Nat.pos_iff_ne_zero]
    intro hzero
    unfold left at hzero
    obtain rfl : queued = [] := List.eq_nil_of_length_eq_zero (by omega)
    obtain rfl : rest = [] := List.eq_nil_of_length_eq_zero (by omega)
    exact hnot (hs.answered (List.eq_nil_of_length_eq_zero (by omega)))
  have hlive : ∀ n s, I n s → ∃ s', Step E s s' ∧ Busy s s' := by
    rintro n s ⟨handled, queued, rest, hs, -, hnot⟩
    exact hs.exists_busy hE hA hps hclear hn hm hnot
  have hstep : ∀ n s s', I n s → Step E s s' ∧ Busy s s' → Answered E own ps s' ∨ ∃ m, m < n ∧ I m s' := by
    rintro n s s' ⟨handled, queued, rest, hs, rfl, -⟩ ⟨hstep, hbusy⟩
    obtain ⟨handled', queued', rest', hs', hlt⟩ := hs.step hE hA hps hclear hn hm hstep
    by_cases hdone : Answered E own ps s'
    · exact .inl hdone
    · exact .inr ⟨_, hlt hbusy, handled', queued', rest', hs', rfl, hdone⟩
  have hleft : left [] ps (run 0) = (frames E ps).length + 46 * ps.length := by
    rw [left, hout, hstart.toServer]
    rfl
  exact hrun.attains_within hpos hlive hstep ⟨[], [], ps, hserved, hleft, hdone⟩

/-- Two pings are answered. -/
theorem answers_all_pings :
    ∃ run, Exhaustive (fun s s' => Step (Env.amd64 0) s s' ∧ Busy s s') run ∧
      Initial (Env.amd64 0) ones pings (run 0) ∧
        ∃ k, k ≤ (frames (Env.amd64 0) pings).length + 46 * pings.length ∧
          Answered (Env.amd64 0) ones.pkey pings (run k) := by
  obtain ⟨s, hs⟩ := exists_initial_connection (Env.amd64_allocSucceeds 0) ones pings
  obtain ⟨run, hrun, rfl⟩ := Exhaustive.exists_run (fun s s' => Step (Env.amd64 0) s s' ∧ Busy s s') s
  exact ⟨run, hrun, hs, answers_all (E := Env.amd64 0) rfl (Env.amd64_allocSucceeds 0)
    (fun p hp => (pings_sendable p hp).1) pings_clear (by decide) (by decide) hrun hs⟩

end Connection

end Excom
