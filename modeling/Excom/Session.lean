import Excom.Handlers
import Excom.Lib.Transition
import Excom.Pending
import Excom.Receive
import Excom.RoundTrip

/-!
# A client and a server

A client and a connection of the server that run the default handlers, joined by a channel of bytes in each
direction (`Session`, `Step`).  The read and write events of either side and the turns of the server's worker
come in any order, and a read or a write event may move any number of bytes.

The rest is about sessions in which nothing is encrypted yet: a side whose buffers hold only a few bytes takes
in a frame that arrives (`Server.read_frame`, `Client.read_frame`).
-/

namespace Excom

structure Session where
  client : Client.ExcomClient
  server : Server.ClientData
  /-- The bytes on their way to the server. -/
  toServer : Bytes
  /-- The bytes on their way to the client. -/
  toClient : Bytes
  clientWorld : World
  serverWorld : World

namespace Session

variable (E : Env)

/-- A client that has connected and sent what the socket took of its version, and the connection that the
server made for it. -/
def Initial (clientPair serverPair : EncryptPair) (s : Session) : Prop :=
  ∃ (w w1 : World) (c : Client.ExcomClient) (outcome : Except Int Nat),
    Client.connect E clientPair w = .ok (c, w1) ∧
      Client.greet E c outcome w1 = .ok ((s.client, s.toServer), s.clientWorld) ∧
      (∃ w', Server.connect E serverPair w' = .ok (s.server, s.serverWorld)) ∧ s.toClient = []

/-- One event of the client, one of the server, or one turn of the worker. -/
inductive Step : Session → Session → Prop where
  | clientRead {s : Session} {c : Client.ExcomClient} {w : World} (pieces : List Bytes) (rest : Bytes)
      (stop : ReadEnd) (hin : s.toClient = pieces.flatten ++ rest)
      (h : Client.read E (Client.defaultHandler E) s.client pieces stop s.clientWorld = .ok (c, w)) :
      Step s { s with client := c, clientWorld := w, toClient := rest }
  | clientWrite {s : Session} {c : Client.ExcomClient} {bytes : Bytes} {w : World} (outcome : Except Int Nat)
      (h : Client.write E s.client outcome s.clientWorld = .ok ((c, bytes), w)) :
      Step s { s with client := c, clientWorld := w, toServer := s.toServer ++ bytes }
  | serverRead {s : Session} {d : Server.ClientData} {w : World} (pieces : List Bytes) (rest : Bytes)
      (stop : ReadEnd) (hin : s.toServer = pieces.flatten ++ rest)
      (h : Server.read E s.server pieces stop s.serverWorld = .ok (some d, w)) :
      Step s { s with server := d, serverWorld := w, toServer := rest }
  | serverWork {s : Session} {d : Server.ClientData} {w : World}
      (h : Server.work E s.server s.serverWorld = .ok (d, w)) : Step s { s with server := d, serverWorld := w }
  | serverWrite {s : Session} {d : Server.ClientData} {bytes : Bytes} {w : World} (outcome : Except Int Nat)
      (h : Server.write E s.server outcome s.serverWorld = .ok ((d, bytes), w)) :
      Step s { s with server := d, serverWorld := w, toClient := s.toClient ++ bytes }

end Session

variable {E : Env}

/-- A buffer that is written and read in order is ready for the decoder. -/
theorem Buffer.Pending.ready {n : Nat} {bs : Bytes} {b : Buffer} (h : b.Pending E n bs) (hn : 2 * n ≤ E.word)
    {keys : Encrypt} (hk : keys.remote.active = false) : Ready E b keys := by
  have := h.used_le
  exact ⟨h.wf, h.pos_le, by omega, hk⟩

/-! ### A frame arrives -/

section Frame

variable (hE : E.littleEndian = true) (hA : E.AllocSucceeds) {p : Packet} {t : PacketType} (hp : p.Known t)
    {n : Nat}
  (hn : n + (p.frame E).length ≤ 2 ^ 30)

/-- A packet that says the same as one of a known type. -/
theorem known_of_described {q : Packet} (hp : p.Known t) (hq : (q.size, q.message) = described E p)
    (hvalid : ∀ s, Value.string s ∈ q.data → s.Valid) : q.message = p.message ∧ q.Known t := by
  have hm : q.message = p.message := congrArg Prod.snd hq
  have htype : q.type = p.type := congrArg Message.type hm
  have hdata : q.data.map Value.content = p.data.map Value.content := congrArg Message.fields hm
  refine ⟨hm, htype.trans hp.type, ?_, hvalid⟩
  rw [← hp.field_content, ← hdata]
  simp [Function.comp_def]

include hA in
private theorem append_frame {f : Bytes} (hn : n + f.length ≤ 2 ^ 30) {b : Buffer} (hb : b.Pending E n [])
    (w : World) : Exec.Returns (appendPieces E b [f]) w fun b' _ => b'.Pending E (n + f.length) f := by
  have h32 := E.le_word
  have hused := hb.used_le
  refine (appendPieces_returns hA hb.wf hb.mutable (by simp; omega) w).mono ?_
  intro b' w1 hr
  have hflat : [f].flatten = f := by simp
  rw [hflat] at hr
  refine hb.append ⟨hr.wf, hr.contents, fun hpos => ?_, hr.unmutable, hr.slack⟩ (by omega)
  rw [hr.pos, Buffer.cursorAfter, Nat.mod_eq_of_lt hpos, ite_self]

include hE hA hp hn

/-- The server queues the packet. -/
theorem Server.read_frame {d : ClientData} (hin : d.bufIn.Pending E n []) (hk : d.keys.remote.active = false)
    (hm : d.mutex = .unlocked) (hc : d.disconnected = false) (w : World) :
    Exec.Returns (read E d [p.frame E] (.error EAGAIN)) w fun r _ => ∃ b q,
      r = some { d with bufIn := b, packets := d.packets ++ [q] } ∧ b.Pending E (n + (p.frame E).length) [] ∧
        q.message = p.message ∧ q.Known t := by
  have h32 := E.le_word
  have hlen := p.length_frame (E := E)
  unfold read
  rw [if_neg (by rw [hc]; decide)]
  refine (append_frame hA hn hin w).bind ?_
  intro b w1 hb
  show Exec.Returns (if EAGAIN = EAGAIN then _ else _) w1 _
  rw [if_pos rfl]
  have hready := hb.ready (by omega) hk
  have hdec : Decodes E b.unread (p.frame E).length (some (described E p)) := by
    have h := decodes_frame hE ⟨t, hp⟩ (by omega) []
    rw [List.append_nil] at h
    rw [hb.unread]
    exact h
  have hadv := hb.advance_all
  obtain ⟨_, w2, hturn, q, hq, hvalid, rfl⟩ :=
    checkTurn_accept (d := { d with bufIn := b, mutex := .locked }) hA hready hdec w1
  obtain ⟨hmsg, hknown⟩ := known_of_described hp hq hvalid
  have hready' := hadv.ready (by omega) hk
  have hempty : ¬ Passes E ({ b with pos := b.pos + (p.frame E).length, mutex := .unlocked } : Buffer).unread := by
    rw [hadv.unread]
    exact fun h => absurd h.1 (Nat.not_lt_zero 4)
  obtain ⟨_, w3, hstop, mutex, hmx, rfl⟩ := checkTurn_stop
    (d := { d with bufIn := { b with pos := b.pos + (p.frame E).length, mutex := .unlocked }, mutex := .locked,
                   packets := d.packets ++ [q] }) hready' hempty w2
  have hloop : Exec.loop Fault.diverges (checkTurn E) (turnBound { d with bufIn := b, mutex := .locked })
      { d with bufIn := b, mutex := .locked } w1 = .ok (_, w3) :=
    (Exec.loop_turn hturn).trans (Exec.loop_last hstop)
  have hunlock : ∃ w4, mutexUnlock mutex w3 = .ok (.unlocked, w4) := by
    cases mutex with
    | uninit => exact absurd rfl hmx
    | unlocked | locked => exact ⟨_, rfl⟩
  obtain ⟨w4, hun⟩ := hunlock
  have hcheck : checkPacket E { d with bufIn := b } w1 =
      .ok ({ d with bufIn := { b with pos := b.pos + (p.frame E).length, mutex := .unlocked },
                    packets := d.packets ++ [q] }, w4) := by
    unfold checkPacket
    rw [hm, mutexLock_unlocked, Exec.pure_bind]
    exact (Exec.bind_of_ok hloop _).trans ((Exec.bind_of_ok hun _).trans rfl)
  exact .intro (Exec.bind_of_ok hcheck _) ⟨_, q, rfl, hadv, hmsg, hknown⟩

/-- The client hands the packet to its handler. -/
theorem Client.read_frame {handler : Packet → ExcomClient → M ExcomClient} {c : ExcomClient}
    (hin : c.bufIn.Pending E n []) (hk : c.keys.remote.active = false) (hc : c.disconnected = false)
    {Q : ExcomClient → World → Prop}
    (hh : ∀ b q w', b.Pending E (n + (p.frame E).length) [] → q.message = p.message → q.Known t →
      Exec.Returns (handler q { c with bufIn := b, packets := q :: c.packets }) w' Q) (w : World) :
    Exec.Returns (read E handler c [p.frame E] (.error EAGAIN)) w Q := by
  have h32 := E.le_word
  have hlen := p.length_frame (E := E)
  unfold read
  rw [if_neg (by rw [hc]; decide)]
  refine (append_frame hA hn hin w).bind ?_
  intro b w1 hb
  show Exec.Returns (if EAGAIN = EAGAIN then _ else _) w1 _
  rw [if_pos rfl]
  have hready := hb.ready (by omega) hk
  have hdec : Decodes E b.unread (p.frame E).length (some (described E p)) := by
    have h := decodes_frame hE ⟨t, hp⟩ (by omega) []
    rw [List.append_nil] at h
    rw [hb.unread]
    exact h
  obtain ⟨q, w2, hq, hvalid, heq⟩ := checkPacket_accept handler (c := { c with bufIn := b }) hready
    hA hdec w1
  obtain ⟨hmsg, hknown⟩ := known_of_described hp hq hvalid
  obtain ⟨c', w3, hrun, hQ⟩ := hh _ q w2 hb.advance_all hmsg hknown
  exact .intro (heq.trans hrun) hQ

end Frame

end Excom
