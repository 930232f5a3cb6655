import Excom.HandshakeOrder
import Excom.Lib.Transition
import Excom.RoundTrip

/-!
# Encrypted on both sides

A client and a connection of the server with the frames between them (`Conversation`), where a frame is
encrypted or not as `keys.remote.active` said when it was written, and is taken for encrypted or not as that
flag says when it is read (`fetchBody`, `writeBody`: both go by `activeKeys`).  The server reads in one thread
and handles the packets in another, which writes the reply before it changes anything (`Server.perform`); the
client reads and handles in one (`Client.perform`).  `modes_agree`: a frame with a body is always read as it
was written.
-/

namespace Excom

/-- A frame on its way: the packet, and whether it was encrypted. -/
structure Frame where
  packet : Packet
  sealed : Bool

/-- What a reader makes of a frame: the header is never encrypted, and where neither side encrypts, the packet
says the same. -/
structure Reads (active : Bool) (f : Frame) (q : Packet) : Prop where
  id : q.id = f.packet.id
  type : q.type = f.packet.type
  clear : f.sealed = false → active = false →
    q.data.map Value.content = f.packet.data.map Value.content ∧ ∀ s, Value.string s ∈ q.data → s.Valid

/-- A packet is read as itself. -/
theorem Reads.same {p : Packet} (hvalid : ∀ s, Value.string s ∈ p.data → s.Valid) (active sealed : Bool) :
    Reads active ⟨p, sealed⟩ p :=
  ⟨rfl, rfl, fun _ _ => ⟨rfl, hvalid⟩⟩

/-- The decoder reads a frame that is not encrypted in this way. -/
theorem reads_of_readPacket {E : Env} (hE : E.littleEndian = true) (hA : E.AllocSucceeds) {p : Packet}
    {t : PacketType}
    (hp : p.Known t) (hsize : (p.body E).length < 2 ^ 32) (hfit : 2 * (p.body E).length ≤ E.word)
    {input : Buffer}
    (hb : input.WF E) {rest : Bytes} (hrest : input.unread = p.frame E ++ rest) {keys : Encrypt}
    (hkeys : keys.remote.active = false) (w : World) :
    Exec.Returns (protocolReadPacket E input (some keys)) w fun r _ => r.1 = 0 ∧
      Reads false ⟨p, false⟩ r.2.1 := by
  have henc : activeKeys (some keys) = none := by simp [activeKeys, hkeys]
  refine (readFrame_returns hE hA hp hsize hfit hb hrest henc w).mono ?_
  intro r w' ⟨q, hr, _, hmessage, hknown⟩
  subst hr
  have hid : q.id = p.id := congrArg Message.id hmessage
  have htype : q.type = p.type := congrArg Message.type hmessage
  have hdata : q.data.map Value.content = p.data.map Value.content := congrArg Message.fields hmessage
  exact ⟨rfl, hid, htype, fun _ _ => ⟨hdata, hknown.valid⟩⟩

/-- What the worker of the server is at: it writes the reply, and then changes the state and the keys. -/
inductive Turn where
  | idle
  | replying (r : Reaction)
  | switching (r : Reaction)

structure Conversation where
  client : ProtocolState
  clientActive : Bool
  server : ProtocolState
  serverActive : Bool
  toServer : List Frame
  toClient : List Frame
  /-- The packets that the server has read and not handled. -/
  queue : List Packet
  worker : Turn
  /-- The cursor is not at the start of a frame any more. -/
  serverLost : Bool
  clientLost : Bool

namespace Conversation

/-- The version is on its way. -/
def start : Conversation where
  client := .prehandshake
  clientActive := false
  server := .prehandshake
  serverActive := false
  toServer := [⟨Client.version, false⟩]
  toClient := []
  queue := []
  worker := .idle
  serverLost := false
  clientLost := false

def post (r : Reaction) (active : Bool) : List Frame := (r.reply.map fun packet => ⟨packet, active⟩).toList

/-- The client moves on, and answers. -/
def clientHandles (own : Key) (s : Conversation) (raw : Packet) : Conversation :=
  let r := Client.react s.client own raw
  let active := r.activates || s.clientActive
  { s with client := r.state, clientActive := active, toServer := s.toServer ++ post r active }

variable (clientKey serverKey : Key)

/-- One step of the client, of the thread of the server that reads, or of its worker.  After an encrypted body
the cursor is not where the next frame starts, and a reader may then find any packets, and miss frames. -/
inductive Step : Conversation → Conversation → Prop where
  | serverRead {s : Conversation} {f : Frame} {rest : List Frame} {q : Packet} (hin : s.toServer = f :: rest)
      (hq : Reads s.serverActive f q) :
      Step s { s with toServer := rest, queue := s.queue ++ [q],
                      serverLost := s.serverLost || (s.serverActive && !f.packet.data.isEmpty) }
  | serverStray {s : Conversation} (q : Packet) (hlost : s.serverLost = true) :
      Step s { s with queue := s.queue ++ [q] }
  | serverSkip {s : Conversation} {f : Frame} {rest : List Frame} (hlost : s.serverLost = true)
      (hin : s.toServer = f :: rest) : Step s { s with toServer := rest }
  | take {s : Conversation} {raw : Packet} {rest : List Packet} (hidle : s.worker = .idle)
      (hqueue : s.queue = raw :: rest) :
      Step s { s with queue := rest, worker := .replying (Server.react s.server serverKey raw) }
  | reply {s : Conversation} {r : Reaction} (hworker : s.worker = .replying r) :
      Step s { s with worker := .switching r, toClient := s.toClient ++ post r s.serverActive }
  | switch {s : Conversation} {r : Reaction} (hworker : s.worker = .switching r) :
      Step s { s with worker := .idle, server := r.state, serverActive := r.activates || s.serverActive }
  | clientRead {s : Conversation} {f : Frame} {rest : List Frame} {q : Packet} (hin : s.toClient = f :: rest)
      (hq : Reads s.clientActive f q) :
      Step s (clientHandles clientKey
        { s with toClient := rest, clientLost := s.clientLost || (s.clientActive && !f.packet.data.isEmpty) } q)
  | clientStray {s : Conversation} (q : Packet) (hlost : s.clientLost = true) :
      Step s (clientHandles clientKey s q)
  | clientSkip {s : Conversation} {f : Frame} {rest : List Frame} (hlost : s.clientLost = true)
      (hin : s.toClient = f :: rest) : Step s { s with toClient := rest }

/-- The frame that is read next is read as it was written, if it has a body. -/
structure Agree (s : Conversation) : Prop where
  server : ∀ f rest, s.toServer = f :: rest → f.packet.data ≠ [] → f.sealed = s.serverActive
  client : ∀ f rest, s.toClient = f :: rest → f.packet.data ≠ [] → f.sealed = s.clientActive

/-! ### The rounds of the handshake -/

/-- The client asks, and the server answers: for the version, for the key, and for a ping. -/
inductive Round where
  | version
  | key
  | ping
  deriving DecidableEq

namespace Round

/-- The state of both sides before the round -/
def before : Round → ProtocolState
  | version => .prehandshake
  | key => .preencrypt
  | ping => .encrypt

def after : Round → ProtocolState
  | version => .preencrypt
  | key => .encrypt
  | ping => .body

/-- A `public_key` packet, with a key that is there -/
def KeyPacket (p : Packet) : Prop := Server.IsKey p ∧ (p.stringAt 0).Valid

def Request : Round → Packet → Prop
  | version => Server.Acceptable
  | key => KeyPacket
  | ping => Server.IsPing

def Answer : Round → Packet → Prop
  | version => fun p => packetType? p.type = some .ok
  | key => KeyPacket
  | ping => fun p => packetType? p.type = some .pong

theorem keyPacket_own (id : UInt16) (own : Key) : KeyPacket ⟨0, id, PacketType.publicKey.id,
    publicKeyField own⟩ := by
  have hlen : own.toList.length = 32 := own.length_toList
  refine ⟨⟨packetType?_id .publicKey, ?_⟩, ?_⟩
  · show (UInt32.ofNat own.toList.length).toNat = 32
    rw [hlen]
    rfl
  · exact ExcomString.ofBytes_valid (by rw [hlen]; decide)

private theorem keyPacket_reads {active : Bool} {f : Frame} {q : Packet} (h : KeyPacket f.packet)
    (hq : Reads active f q) (hsealed : f.sealed = false) (hactive : active = false) : KeyPacket q := by
  obtain ⟨hdata, hvalid⟩ := hq.clear hsealed hactive
  obtain ⟨⟨htype, hsize⟩, hfvalid⟩ := h
  have hqvalid := Packet.stringAt_valid hvalid 0
  refine ⟨⟨by rw [hq.type]; exact htype, ?_⟩, hqvalid⟩
  rw [← hqvalid.length_bytes, Packet.stringAt_bytes hdata, hfvalid.length_bytes]
  exact hsize

/-- A request is read as a request of the same round. -/
theorem request_reads {r : Round} {active : Bool} {f : Frame} {q : Packet} (h : r.Request f.packet)
    (hq : Reads active f q) (hclear : r ≠ .ping → f.sealed = false ∧ active = false) : r.Request q := by
  cases r with
  | version =>
    obtain ⟨hsealed, hactive⟩ := hclear (by decide)
    obtain ⟨hdata, _⟩ := hq.clear hsealed hactive
    obtain ⟨htype, hversion⟩ := h
    refine ⟨by rw [hq.type]; exact htype, ?_⟩
    unfold Server.Incompatible at hversion ⊢
    rw [Packet.numberAt_eq hdata, Packet.numberAt_eq hdata, Packet.numberAt_eq hdata]
    exact hversion
  | key =>
    obtain ⟨hsealed, hactive⟩ := hclear (by decide)
    exact keyPacket_reads h hq hsealed hactive
  | ping =>
    show packetType? q.type = _
    rw [hq.type]
    exact h

/-- An answer is read as an answer of the same round. -/
theorem answer_reads {r : Round} {active : Bool} {f : Frame} {q : Packet} (h : r.Answer f.packet)
    (hq : Reads active f q) (hclear : r = .key → f.sealed = false ∧ active = false) : r.Answer q := by
  cases r with
  | version | ping =>
    show packetType? q.type = _
    rw [hq.type]
    exact h
  | key =>
    obtain ⟨hsealed, hactive⟩ := hclear rfl
    exact keyPacket_reads h hq hsealed hactive

/-- The server answers a request, and moves on to the next round. -/
structure Answers (r : Round) (x : Reaction) (p : Packet) : Prop where
  reply : x.reply = some p
  answer : r.Answer p
  bare : r ≠ .key → p.data = []
  state : x.state = r.after
  active : (x.activates || Server.active r.before) = Server.active r.after

/-- The server answers the request of each round. -/
theorem server_answers {r : Round} (own : Key) {q : Packet} (h : r.Request q) :
    ∃ p, Answers r (Server.react r.before own q) p := by
  cases r with
  | version =>
    obtain ⟨htype, hversion⟩ := h
    refine ⟨⟨0, q.id, PacketType.ok.id, []⟩, ?_⟩
    unfold Server.react
    rw [htype]
    simp only [Reaction.require, before, ne_eq, not_true_eq_false, if_false, if_neg hversion]
    exact ⟨rfl, packetType?_id .ok, fun _ => rfl, rfl, rfl⟩
  | key =>
    obtain ⟨⟨htype, hsize⟩, _⟩ := h
    refine ⟨⟨0, q.id, PacketType.publicKey.id, publicKeyField own⟩, ?_⟩
    unfold Server.react
    rw [htype]
    simp only [Reaction.require, before, ne_eq, not_true_eq_false, if_false, hsize]
    exact ⟨rfl, keyPacket_own q.id own, fun h => absurd rfl h, rfl, rfl⟩
  | ping =>
    refine ⟨⟨0, q.id, PacketType.pong.id, []⟩, ?_⟩
    unfold Server.react
    rw [show packetType? q.type = some .ping from h]
    exact ⟨rfl, packetType?_id .pong, fun _ => rfl, rfl, rfl⟩

/-- The client asks again, in the round after `r`. -/
structure Asks (r next : Round) (x : Reaction) (p : Packet) : Prop where
  before : next.before = r.after
  reply : x.reply = some p
  request : next.Request p
  bare : next = .ping → p.data = []
  state : x.state = r.after
  active : (x.activates || Server.active r.before) = Server.active r.after

private theorem client_asks {r : Round} (own : Key) {q : Packet} (h : r.Answer q) (hr : r ≠ .ping) :
    ∃ next p, Asks r next (Client.react r.before own q) p := by
  cases r with
  | version =>
    refine ⟨.key, ⟨0, q.id, PacketType.publicKey.id, publicKeyField own⟩, ?_⟩
    unfold Client.react
    rw [show packetType? q.type = some .ok from h]
    exact ⟨rfl, rfl, keyPacket_own q.id own, nofun, rfl, rfl⟩
  | key =>
    obtain ⟨⟨htype, hsize⟩, _⟩ := h
    refine ⟨.ping, ⟨0, q.id, PacketType.ping.id, []⟩, ?_⟩
    unfold Client.react
    rw [htype]
    simp only [Reaction.require, before, ne_eq, not_true_eq_false, if_false, hsize]
    exact ⟨rfl, rfl, packetType?_id .ping, fun _ => rfl, rfl, rfl⟩
  | ping => exact absurd rfl hr

end Round

/-! ### Where the conversation is -/

/-- The state of the server once the worker has finished the packet that it is at; the reply is written. -/
def Settled (s : Conversation) (state : ProtocolState) : Prop :=
  match s.worker with
  | .idle => s.server = state ∧ s.serverActive = Server.active state
  | .replying _ => False
  | .switching x => x.state = state ∧ (x.activates || s.serverActive) = Server.active state

/-- The client is in the round `r`, and nobody has lost the frames. -/
structure Waits (s : Conversation) (r : Round) : Prop where
  client : s.client = r.before
  clientActive : s.clientActive = Server.active r.before
  serverLost : s.serverLost = false
  clientLost : s.clientLost = false

/-- The request or the answer of a round is the only thing on its way, until the handshake is over; then
everything is encrypted. -/
inductive Phase : Conversation → Prop where
  | asked {s : Conversation} (r : Round) {f : Frame} (hwaits : s.Waits r) (hin : s.toServer = [f])
      (hout : s.toClient = [])
      (hqueue : s.queue = []) (hworker : s.Settled r.before) (hrequest : r.Request f.packet)
      (hclear : r ≠ .ping → f.sealed = false) (hbare : r = .ping → f.packet.data = []) : Phase s
  | read {s : Conversation} (r : Round) {q : Packet} (hwaits : s.Waits r) (hin : s.toServer = [])
      (hout : s.toClient = [])
      (hqueue : s.queue = [q]) (hworker : s.Settled r.before) (hrequest : r.Request q) : Phase s
  | taken {s : Conversation} (r : Round) {x : Reaction} {p : Packet} (hwaits : s.Waits r)
      (hin : s.toServer = [])
      (hout : s.toClient = []) (hqueue : s.queue = []) (hworker : s.worker = .replying x)
      (hserver : s.server = r.before) (hactive : s.serverActive = Server.active r.before)
        (hanswers : r.Answers x p) :
      Phase s
  | answered {s : Conversation} (r : Round) {f : Frame} (hwaits : s.Waits r) (hin : s.toServer = [])
      (hout : s.toClient = [f]) (hqueue : s.queue = []) (hworker : s.Settled r.after)
        (hanswer : r.Answer f.packet)
      (hclear : r = .key → f.sealed = false) (hbare : r ≠ .key → f.packet.data = [])
      (hactive : r = .ping → s.serverActive = true) : Phase s
  | opened {s : Conversation} (hclient : s.clientActive = true) (hserver : s.serverActive = true)
      (hin : ∀ f ∈ s.toServer, f.sealed = true) (hout : ∀ f ∈ s.toClient, f.sealed = true) : Phase s

theorem Settled.inactive {s : Conversation} {state : ProtocolState} (h : s.Settled state)
    (hstate : Server.active state = false) : s.serverActive = false := by
  unfold Settled at h
  split at h
  · rw [h.2, hstate]
  · exact h.elim
  · rw [hstate] at h
    exact (Bool.or_eq_false_iff.1 h.2).2

/-- In every phase of the handshake both sides read as the other one writes. -/
theorem Phase.agree {s : Conversation} (h : Phase s) : s.Agree := by
  cases h with
  | asked r hwaits hin hout hqueue hworker hrequest hclear hbare =>
    constructor
    · intro f rest heq hdata
      rw [hin] at heq
      cases heq
      by_cases hr : r = .ping
      · exact absurd (hbare hr) hdata
      · rw [hclear hr, hworker.inactive (by cases r <;> first | rfl | exact absurd rfl hr)]
    · intro f rest heq
      rw [hout] at heq
      cases heq
  | read r hwaits hin hout =>
    constructor
    · intro f rest heq
      rw [hin] at heq
      cases heq
    · intro f rest heq
      rw [hout] at heq
      cases heq
  | taken r hwaits hin hout =>
    constructor
    · intro f rest heq
      rw [hin] at heq
      cases heq
    · intro f rest heq
      rw [hout] at heq
      cases heq
  | answered r hwaits hin hout hqueue hworker hanswer hclear hbare =>
    constructor
    · intro f rest heq
      rw [hin] at heq
      cases heq
    · intro f rest heq hdata
      rw [hout] at heq
      cases heq
      by_cases hr : r = .key
      · subst hr
        rw [hclear rfl, hwaits.clientActive]
        rfl
      · exact absurd (hbare hr) hdata
  | opened hclient hserver hin hout =>
    constructor
    · intro f rest heq _
      rw [hserver]
      exact hin f (by rw [heq]; exact .head _)
    · intro f rest heq _
      rw [hclient]
      exact hout f (by rw [heq]; exact .head _)

/-! ### Every step keeps the phase -/

variable {clientKey serverKey : Key} {s s' : Conversation}

theorem Settled.ne_replying {state : ProtocolState} (h : s.Settled state) {x : Reaction} :
    s.worker ≠ .replying x := by
  intro hx
  unfold Settled at h
  rw [hx] at h
  exact h

/-- The worker finishes a packet. -/
theorem Settled.switch {state : ProtocolState} (h : s.Settled state) {x : Reaction}
    (hx : s.worker = .switching x) :
    Settled { s with worker := .idle, server := x.state, serverActive := x.activates || s.serverActive }
      state := by
  unfold Settled at h
  rw [hx] at h
  exact h

theorem Settled.idle {state : ProtocolState} (h : s.Settled state) (hidle : s.worker = .idle) :
    s.server = state ∧ s.serverActive = Server.active state := by
  unfold Settled at h
  rw [hidle] at h
  exact h

theorem post_some {x : Reaction} {p : Packet} (h : x.reply = some p) (active : Bool) :
    post x active = [⟨p, active⟩] := by
  unfold post
  rw [h]
  rfl

private theorem mem_post {x : Reaction} {active : Bool} {f : Frame} (h : f ∈ post x active) :
    f.sealed = active := by
  unfold post at h
  rw [Option.mem_toList, Option.map_eq_some_iff] at h
  obtain ⟨p, _, rfl⟩ := h
  rfl

theorem active_before {r : Round} (hr : r ≠ .ping) : Server.active r.before = false := by
  cases r with
  | version | key => rfl
  | ping => exact absurd rfl hr

private theorem asked_step (r : Round) {f : Frame} (hwaits : s.Waits r) (hin : s.toServer = [f])
    (hout : s.toClient = [])
    (hqueue : s.queue = []) (hworker : s.Settled r.before) (hrequest : r.Request f.packet)
    (hclear : r ≠ .ping → f.sealed = false) (hbare : r = .ping → f.packet.data = [])
    (h : Step clientKey serverKey s s') : Phase s' := by
  cases h with
  | serverRead hin' hq =>
    rw [hin] at hin'
    cases hin'
    have hinactive (hr : r ≠ .ping) := hworker.inactive (active_before hr)
    refine .read r ⟨hwaits.client, hwaits.clientActive, ?_, hwaits.clientLost⟩ rfl hout ?_ hworker
      (Round.request_reads hrequest hq fun hr => ⟨hclear hr, hinactive hr⟩)
    · dsimp only
      by_cases hr : r = .ping
      · simp [hwaits.serverLost, hbare hr]
      · simp [hwaits.serverLost, hinactive hr]
    · dsimp only
      rw [hqueue]
      rfl
  | serverStray _ hlost | serverSkip hlost _ => exact absurd hlost (by simp [hwaits.serverLost])
  | clientStray _ hlost | clientSkip hlost _ => exact absurd hlost (by simp [hwaits.clientLost])
  | take _ hqueue' =>
    rw [hqueue] at hqueue'
    cases hqueue'
  | reply hreply => exact absurd hreply hworker.ne_replying
  | switch hswitch =>
    exact .asked r ⟨hwaits.client, hwaits.clientActive, hwaits.serverLost, hwaits.clientLost⟩ hin hout hqueue
      (hworker.switch hswitch) hrequest hclear hbare
  | clientRead hin' _ =>
    rw [hout] at hin'
    cases hin'

private theorem read_step (r : Round) {q : Packet} (hwaits : s.Waits r) (hin : s.toServer = [])
    (hout : s.toClient = []) (hqueue : s.queue = [q]) (hworker : s.Settled r.before) (hrequest : r.Request q)
    (h : Step clientKey serverKey s s') : Phase s' := by
  cases h with
  | serverRead hin' _ | serverSkip _ hin' =>
    rw [hin] at hin'
    cases hin'
  | serverStray _ hlost => exact absurd hlost (by simp [hwaits.serverLost])
  | clientStray _ hlost => exact absurd hlost (by simp [hwaits.clientLost])
  | take hidle hqueue' =>
    rw [hqueue] at hqueue'
    cases hqueue'
    obtain ⟨hserver, hactive⟩ := hworker.idle hidle
    obtain ⟨p, hanswers⟩ := Round.server_answers serverKey hrequest
    refine .taken r ⟨hwaits.client, hwaits.clientActive, hwaits.serverLost, hwaits.clientLost⟩ hin hout rfl
      rfl hserver hactive (p := p) ?_
    rw [hserver]
    exact hanswers
  | reply hreply => exact absurd hreply hworker.ne_replying
  | switch hswitch =>
    exact .read r ⟨hwaits.client, hwaits.clientActive, hwaits.serverLost, hwaits.clientLost⟩ hin hout hqueue
      (hworker.switch hswitch) hrequest
  | clientRead hin' _ | clientSkip _ hin' =>
    rw [hout] at hin'
    cases hin'

private theorem taken_step (r : Round) {x : Reaction} {p : Packet} (hwaits : s.Waits r) (hin : s.toServer = [])
    (hout : s.toClient = []) (hqueue : s.queue = []) (hworker : s.worker = .replying x)
    (hactive : s.serverActive = Server.active r.before) (hanswers : r.Answers x p)
    (h : Step clientKey serverKey s s') : Phase s' := by
  cases h with
  | serverRead hin' _ | serverSkip _ hin' =>
    rw [hin] at hin'
    cases hin'
  | serverStray _ hlost => exact absurd hlost (by simp [hwaits.serverLost])
  | clientStray _ hlost => exact absurd hlost (by simp [hwaits.clientLost])
  | take hidle _ =>
    rw [hworker] at hidle
    cases hidle
  | reply hreply =>
    rw [hworker] at hreply
    cases hreply
    refine .answered r (f := ⟨p, s.serverActive⟩) ⟨hwaits.client, hwaits.clientActive, hwaits.serverLost,
      hwaits.clientLost⟩ hin ?_ hqueue ⟨hanswers.state, ?_⟩ hanswers.answer ?_ hanswers.bare ?_
    · dsimp only
      rw [hout, post_some hanswers.reply]
      rfl
    · dsimp only
      rw [hactive]
      exact hanswers.active
    · intro hr
      subst hr
      exact hactive
    · intro hr
      subst hr
      exact hactive
  | switch hswitch =>
    rw [hworker] at hswitch
    cases hswitch
  | clientRead hin' _ | clientSkip _ hin' =>
    rw [hout] at hin'
    cases hin'

/-- The client gets its answer: it asks again, or sends its first command. -/
private theorem answered_step (r : Round) {f : Frame} (hwaits : s.Waits r) (hin : s.toServer = [])
    (hout : s.toClient = [f]) (hqueue : s.queue = []) (hworker : s.Settled r.after)
    (hanswer : r.Answer f.packet) (hclear : r = .key → f.sealed = false) (hbare : r ≠ .key → f.packet.data = [])
    (hactive : r = .ping → s.serverActive = true) (h : Step clientKey serverKey s s') : Phase s' := by
  cases h with
  | serverRead hin' _ | serverSkip _ hin' =>
    rw [hin] at hin'
    cases hin'
  | serverStray _ hlost => exact absurd hlost (by simp [hwaits.serverLost])
  | clientStray _ hlost | clientSkip hlost _ => exact absurd hlost (by simp [hwaits.clientLost])
  | take _ hqueue' =>
    rw [hqueue] at hqueue'
    cases hqueue'
  | reply hreply => exact absurd hreply hworker.ne_replying
  | switch hswitch =>
    refine .answered r ⟨hwaits.client, hwaits.clientActive, hwaits.serverLost, hwaits.clientLost⟩ hin
      hout hqueue (hworker.switch hswitch) hanswer hclear hbare ?_
    intro hr
    dsimp only
    rw [hactive hr, Bool.or_true]
  | @clientRead _ _ q hin' hq =>
    rw [hout] at hin'
    cases hin'
    have hanswer : r.Answer q := by
      refine Round.answer_reads hanswer hq fun hr => ⟨hclear hr, ?_⟩
      rw [hwaits.clientActive, hr]
      rfl
    by_cases hr : r = .ping
    · subst hr
      have hclient : s.clientActive = true := hwaits.clientActive
      refine .opened ?_ (hactive rfl) ?_ ?_
      · simp only [clientHandles, hclient, Bool.or_true]
      · intro f' hf'
        simp only [clientHandles, hin, hclient, Bool.or_true, List.nil_append] at hf'
        exact mem_post hf'
      · intro f' hf'
        cases hf'
    · obtain ⟨next, p, hasks⟩ := Round.client_asks clientKey hanswer hr
      rw [← hwaits.client] at hasks
      have hactive' :
        ((Client.react s.client clientKey q).activates || s.clientActive) = Server.active r.after := by
        rw [hwaits.clientActive]
        exact hasks.active
      refine .asked next (f := ⟨p, Server.active r.after⟩) ⟨?_, ?_, hwaits.serverLost, ?_⟩ ?_ rfl hqueue ?_
        hasks.request ?_ hasks.bare
      · exact hasks.state.trans hasks.before.symm
      · rw [hasks.before]
        exact hactive'
      · simp only [clientHandles, hwaits.clientLost, Bool.false_or]
        by_cases hkey : r = .key
        · rw [hwaits.clientActive, hkey]
          rfl
        · simp [hbare hkey]
      · simp only [clientHandles, hin, hactive', post_some hasks.reply, List.nil_append]
      · rw [hasks.before]
        exact hworker
      · intro hnext
        rw [← hasks.before]
        exact active_before hnext

private theorem opened_step (hclient : s.clientActive = true) (hserver : s.serverActive = true)
    (hin : ∀ f ∈ s.toServer, f.sealed = true) (hout : ∀ f ∈ s.toClient, f.sealed = true)
    (h : Step clientKey serverKey s s') : Phase s' := by
  have hhandles (s : Conversation) (q : Packet) (hclient : s.clientActive = true)
      (hin : ∀ f ∈ s.toServer, f.sealed = true) : (clientHandles clientKey s q).clientActive = true ∧
        ∀ f ∈ (clientHandles clientKey s q).toServer, f.sealed = true := by
    simp only [clientHandles, hclient, Bool.or_true, true_and]
    intro f hf
    rcases List.mem_append.1 hf with hf | hf
    · exact hin f hf
    · exact mem_post hf
  cases h with
  | serverRead hin' _ | serverSkip _ hin' =>
    refine .opened hclient hserver ?_ hout
    intro f hf
    exact hin f (by rw [hin']; exact .tail _ hf)
  | serverStray _ _ | take _ _ => exact .opened hclient hserver hin hout
  | reply hreply =>
    refine .opened hclient hserver hin ?_
    intro f hf
    rcases List.mem_append.1 hf with hf | hf
    · exact hout f hf
    · rw [mem_post hf, hserver]
  | switch hswitch =>
    refine .opened hclient ?_ hin hout
    dsimp only
    rw [hserver, Bool.or_true]
  | clientRead hin' _ =>
    obtain ⟨hactive, hsealed⟩ := hhandles _ _ hclient hin
    refine .opened hactive hserver hsealed ?_
    intro f hf
    exact hout f (by rw [hin']; exact .tail _ hf)
  | clientStray q _ =>
    obtain ⟨hactive, hsealed⟩ := hhandles s q hclient hin
    exact .opened hactive hserver hsealed hout
  | clientSkip _ hin' =>
    refine .opened hclient hserver hin ?_
    intro f hf
    exact hout f (by rw [hin']; exact .tail _ hf)

/-- Every step keeps to the phases of the handshake. -/
theorem Phase.step (hp : Phase s) (h : Step clientKey serverKey s s') : Phase s' := by
  cases hp with
  | asked r hwaits hin hout hqueue hworker hrequest hclear hbare =>
    exact asked_step r hwaits hin hout hqueue hworker hrequest hclear hbare h
  | read r hwaits hin hout hqueue hworker hrequest =>
    exact read_step r hwaits hin hout hqueue hworker hrequest h
  | taken r hwaits hin hout hqueue hworker _ hactive hanswers =>
    exact taken_step r hwaits hin hout hqueue hworker hactive hanswers h
  | answered r hwaits hin hout hqueue hworker hanswer hclear hbare hactive =>
    exact answered_step r hwaits hin hout hqueue hworker hanswer hclear hbare hactive h
  | opened hclient hserver hin hout => exact opened_step hclient hserver hin hout h

end Conversation

end Excom
