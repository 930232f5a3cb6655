import Excom.ModeAgreement

/-!
# The handshake completes

In a conversation that goes on as long as there is a step, the three rounds of the handshake come to an end: the
client is in its last state after at most fifteen steps, the server has answered the last request, and the first
thing that is encrypted is on its way (`handshake_completes`).
-/

namespace Excom.Conversation

variable {clientKey serverKey : Key} {s s' : Conversation}

namespace Round

/-- What the client asks in a round -/
def question (own : Key) : Round → Packet
  | version => Client.version
  | key => ⟨0, 1, PacketType.publicKey.id, publicKeyField own⟩
  | ping => ⟨0, 1, PacketType.ping.id, []⟩

/-- What the server answers -/
def response (own : Key) : Round → Packet
  | version => ⟨0, 1, PacketType.ok.id, []⟩
  | key => ⟨0, 1, PacketType.publicKey.id, publicKeyField own⟩
  | ping => ⟨0, 1, PacketType.pong.id, []⟩

private theorem question_id (own : Key) (r : Round) : (r.question own).id = 1 := by
  cases r <;> rfl

private theorem response_id (own : Key) (r : Round) : (r.response own).id = 1 := by
  cases r <;> rfl

private theorem question_request (own : Key) (r : Round) : r.Request (r.question own) := by
  cases r with
  | version =>
    show Server.Acceptable Client.version
    exact ⟨by decide, by decide⟩
  | key => exact keyPacket_own 1 own
  | ping => exact packetType?_id .ping

private theorem response_answer (own : Key) (r : Round) : r.Answer (r.response own) := by
  cases r with
  | version => exact packetType?_id .ok
  | key => exact keyPacket_own 1 own
  | ping => exact packetType?_id .pong

theorem question_valid (own : Key) (r : Round) : ∀ s, Value.string s ∈ (r.question own).data → s.Valid := by
  have hkey : own.toList.length < 2 ^ 32 := by
    rw [Vector.length_toList]
    decide
  intro s hs
  cases r with
  | version =>
    have hs : s = .ofBytes excomVersion := by simpa [question, Client.version] using hs
    rw [hs]
    exact ExcomString.ofBytes_valid (by decide)
  | key =>
    have hs : s = .ofBytes own.toList := by simpa [question, publicKeyField] using hs
    rw [hs]
    exact ExcomString.ofBytes_valid hkey
  | ping => simp [question] at hs

theorem response_valid (own : Key) (r : Round) : ∀ s, Value.string s ∈ (r.response own).data → s.Valid := by
  cases r with
  | version | ping => simp [response]
  | key => exact question_valid own .key

/-- The server answers a request under its id. -/
theorem server_responds {r : Round} (own : Key) {q : Packet} (h : r.Request q) (hid : q.id = 1) :
    r.Answers (Server.react r.before own q) (r.response own) := by
  obtain ⟨p, hanswers⟩ := server_answers own h
  have hreply : (Server.react r.before own q).reply = some (r.response own) := by
    cases r with
    | version =>
      obtain ⟨htype, hversion⟩ := h
      unfold Server.react
      rw [htype]
      simp only [Reaction.require, before, ne_eq, not_true_eq_false, if_false, if_neg hversion, Reaction.answer, hid,
        response]
    | key =>
      obtain ⟨⟨htype, hsize⟩, _⟩ := h
      unfold Server.react
      rw [htype]
      simp only [Reaction.require, before, ne_eq, not_true_eq_false, if_false, hsize, Reaction.answer, hid, response]
    | ping =>
      unfold Server.react
      rw [show packetType? q.type = some .ping from h]
      simp only [Reaction.answer, hid, response]
  obtain rfl : p = r.response own := Option.some.inj (hanswers.reply.symm.trans hreply)
  exact hanswers

/-- The round after -/
def next? : Round → Option Round
  | version => some key
  | key => some ping
  | ping => none

/-- The client goes on with the next request. -/
theorem client_questions {r next : Round} (own : Key) {q : Packet} (h : r.Answer q) (hid : q.id = 1)
    (hnext : r.next? = some next) : r.Asks next (Client.react r.before own q) (next.question own) := by
  cases r with
  | version =>
    cases hnext
    unfold Client.react
    rw [show packetType? q.type = some .ok from h]
    refine ⟨rfl, ?_, keyPacket_own 1 own, nofun, rfl, rfl⟩
    simp only [before, if_true, Reaction.answer, hid, question]
  | key =>
    cases hnext
    obtain ⟨⟨htype, hsize⟩, _⟩ := h
    unfold Client.react
    rw [htype]
    simp only [Reaction.require, before, ne_eq, not_true_eq_false, if_false, hsize, Reaction.answer, hid]
    exact ⟨rfl, rfl, packetType?_id .ping, fun _ => rfl, rfl, rfl⟩
  | ping => cases hnext

end Round

/-- The first packet after the handshake -/
def command : Packet := ⟨0, 1, PacketType.command.id, [.string (.ofBytes helloWorld)]⟩

/-- The client is in its last state, the server has answered the last request and is in its last state or about to
get there, and nothing is on its way but the encrypted command. -/
structure Completed (s : Conversation) : Prop where
  client : s.client = .body
  clientActive : s.clientActive = true
  serverActive : s.serverActive = true
  worker : s.Settled .body
  toServer : s.toServer = [⟨command, true⟩]
  toClient : s.toClient = []
  queue : s.queue = []
  serverLost : s.serverLost = false
  clientLost : s.clientLost = false

/-! ### The rounds -/

/-- The handshake is in the round `r`: its request or its answer is the only thing on its way. -/
inductive Underway (clientKey serverKey : Key) (r : Round) : Conversation → Prop where
  | asked {s : Conversation} (hwaits : s.Waits r)
      (hin : s.toServer = [⟨r.question clientKey, Server.active r.before⟩]) (hout : s.toClient = [])
      (hqueue : s.queue = []) (hworker : s.Settled r.before) : Underway clientKey serverKey r s
  | read {s : Conversation} {q : Packet} (hwaits : s.Waits r) (hin : s.toServer = []) (hout : s.toClient = [])
      (hqueue : s.queue = [q]) (hworker : s.Settled r.before) (hid : q.id = 1) (hrequest : r.Request q) :
      Underway clientKey serverKey r s
  | taken {s : Conversation} {x : Reaction} (hwaits : s.Waits r) (hin : s.toServer = []) (hout : s.toClient = [])
      (hqueue : s.queue = []) (hworker : s.worker = .replying x) (hactive : s.serverActive = Server.active r.before)
      (hanswers : r.Answers x (r.response serverKey)) : Underway clientKey serverKey r s
  | answered {s : Conversation} (hwaits : s.Waits r) (hin : s.toServer = [])
      (hout : s.toClient = [⟨r.response serverKey, Server.active r.before⟩]) (hqueue : s.queue = [])
      (hworker : s.Settled r.after) (hactive : r = .ping → s.serverActive = true) : Underway clientKey serverKey r s

/-- The rounds that are still to come -/
def Round.left : ProtocolState → Nat
  | .prehandshake => 2
  | .preencrypt => 1
  | .encrypt | .body | .preclose | .invalid => 0

/-- The steps that are left in the turn of the worker -/
def turnLeft : Turn → Nat
  | .idle => 0
  | .switching _ => 1
  | .replying _ => 3

/-- The steps that are left of the handshake -/
def stepsLeft (s : Conversation) : Nat :=
  5 * Round.left s.client + 5 * s.toServer.length + 4 * s.queue.length + turnLeft s.worker + s.toClient.length

/-- A frame without a body, or one that is read where nothing is encrypted, leaves the cursor where it should be. -/
private theorem stays {r : Round} {own : Key} (p : Packet) (hp : p = r.question own ∨ p = r.response own)
    {lost : Bool} (hlost : lost = false) : (lost || (Server.active r.before && !p.data.isEmpty)) = false := by
  rw [hlost]
  cases r with
  | version | key => rfl
  | ping => rcases hp with rfl | rfl <;> rfl

section Steps

variable {r : Round} (hwaits : s.Waits r)

include hwaits

private theorem asked_next (hin : s.toServer = [⟨r.question clientKey, Server.active r.before⟩])
    (hout : s.toClient = []) (hqueue : s.queue = []) (hworker : s.Settled r.before)
    (h : Step clientKey serverKey s s') : Underway clientKey serverKey r s' ∧ s'.stepsLeft < s.stepsLeft := by
  cases h with
  | @serverRead f rest q hin' hq =>
    rw [hin] at hin'
    cases hin'
    have hinactive : r ≠ .ping → s.serverActive = false := fun hr => hworker.inactive (active_before hr)
    have hrequest : r.Request q :=
      Round.request_reads (Round.question_request clientKey r) hq fun hr => ⟨active_before hr, hinactive hr⟩
    have hid : q.id = 1 := hq.id.trans (Round.question_id clientKey r)
    have hlost : (s.serverLost || (s.serverActive && !(r.question clientKey).data.isEmpty)) = false := by
      by_cases hr : r = .ping
      · subst hr
        simp [hwaits.serverLost, Round.question]
      · rw [hwaits.serverLost, hinactive hr]
        rfl
    refine ⟨.read (q := q) ⟨hwaits.client, hwaits.clientActive, hlost, hwaits.clientLost⟩ rfl hout ?_ hworker hid
      hrequest, ?_⟩
    · dsimp only
      rw [hqueue]
      rfl
    · simp only [stepsLeft, hin, hqueue, List.length_cons, List.length_nil, List.length_append]
      omega
  | serverStray _ hlost | serverSkip hlost _ => exact absurd hlost (by simp [hwaits.serverLost])
  | clientStray _ hlost | clientSkip hlost _ => exact absurd hlost (by simp [hwaits.clientLost])
  | take _ hqueue' =>
    rw [hqueue] at hqueue'
    cases hqueue'
  | reply hreply => exact absurd hreply hworker.ne_replying
  | switch hswitch =>
    refine ⟨.asked ⟨hwaits.client, hwaits.clientActive, hwaits.serverLost, hwaits.clientLost⟩ hin hout hqueue
      (hworker.switch hswitch), ?_⟩
    simp only [stepsLeft, hswitch, turnLeft]
    omega
  | clientRead hin' _ =>
    rw [hout] at hin'
    cases hin'

private theorem read_next {q : Packet} (hin : s.toServer = []) (hout : s.toClient = []) (hqueue : s.queue = [q])
    (hworker : s.Settled r.before) (hid : q.id = 1) (hrequest : r.Request q) (h : Step clientKey serverKey s s') :
    Underway clientKey serverKey r s' ∧ s'.stepsLeft < s.stepsLeft := by
  cases h with
  | serverRead hin' _ | serverSkip _ hin' =>
    rw [hin] at hin'
    cases hin'
  | serverStray _ hlost => exact absurd hlost (by simp [hwaits.serverLost])
  | clientStray _ hlost => exact absurd hlost (by simp [hwaits.clientLost])
  | take hidle hqueue' =>
    rw [hqueue] at hqueue'
    cases hqueue'
    obtain ⟨hserver, hactive⟩ := hworker.idle hidle
    have hanswers := Round.server_responds serverKey hrequest hid
    rw [← hserver] at hanswers
    refine ⟨.taken ⟨hwaits.client, hwaits.clientActive, hwaits.serverLost, hwaits.clientLost⟩ hin hout rfl rfl hactive
      hanswers, ?_⟩
    simp only [stepsLeft, hqueue, hidle, turnLeft, List.length_cons, List.length_nil]
    omega
  | reply hreply => exact absurd hreply hworker.ne_replying
  | switch hswitch =>
    refine ⟨.read ⟨hwaits.client, hwaits.clientActive, hwaits.serverLost, hwaits.clientLost⟩ hin hout hqueue
      (hworker.switch hswitch) hid hrequest, ?_⟩
    simp only [stepsLeft, hswitch, turnLeft]
    omega
  | clientRead hin' _ | clientSkip _ hin' =>
    rw [hout] at hin'
    cases hin'

private theorem taken_next {x : Reaction} (hin : s.toServer = []) (hout : s.toClient = []) (hqueue : s.queue = [])
    (hworker : s.worker = .replying x) (hactive : s.serverActive = Server.active r.before)
    (hanswers : r.Answers x (r.response serverKey)) (h : Step clientKey serverKey s s') :
    Underway clientKey serverKey r s' ∧ s'.stepsLeft < s.stepsLeft := by
  cases h with
  | serverRead hin' _ | serverSkip _ hin' =>
    rw [hin] at hin'
    cases hin'
  | serverStray _ hlost => exact absurd hlost (by simp [hwaits.serverLost])
  | clientStray _ hlost => exact absurd hlost (by simp [hwaits.clientLost])
  | take hidle _ =>
    rw [hworker] at hidle
    cases hidle
  | reply hreply =>
    rw [hworker] at hreply
    cases hreply
    have hpost : s.toClient ++ post x s.serverActive = [⟨r.response serverKey, Server.active r.before⟩] := by
      rw [hout, post_some hanswers.reply, hactive]
      rfl
    refine ⟨.answered ⟨hwaits.client, hwaits.clientActive, hwaits.serverLost, hwaits.clientLost⟩ hin hpost hqueue
      ⟨hanswers.state, ?_⟩ ?_, ?_⟩
    · dsimp only
      rw [hactive]
      exact hanswers.active
    · intro hr
      subst hr
      exact hactive
    · have hlen := congrArg List.length hpost
      simp only [List.length_cons, List.length_nil] at hlen
      simp only [stepsLeft, hlen, hworker, turnLeft]
      omega
  | switch hswitch =>
    rw [hworker] at hswitch
    cases hswitch
  | clientRead hin' _ | clientSkip _ hin' =>
    rw [hout] at hin'
    cases hin'

private theorem pong_completes {q : Packet} {lost : Bool} (hr : r = .ping) (hin : s.toServer = [])
    (hqueue : s.queue = []) (hworker : s.Settled r.after) (hactive : s.serverActive = true) (hid : q.id = 1)
    (hanswer : r.Answer q) (hlost : lost = false) :
    Completed (clientHandles clientKey { s with toClient := [], clientLost := lost } q) := by
  subst hr
  have hclient : s.client = .encrypt := hwaits.client
  have hclientActive : s.clientActive = true := hwaits.clientActive
  have htype : packetType? q.type = some .pong := hanswer
  have hreact : Client.react s.client clientKey q = Reaction.answer q .command
      [.string (.ofBytes helloWorld)] .body := by
    unfold Client.react
    rw [htype, hclient]
    rfl
  unfold clientHandles
  rw [hreact]
  refine ⟨rfl, ?_, hactive, hworker, ?_, rfl, hqueue, hwaits.serverLost, hlost⟩
  · exact hclientActive
  · show s.toServer ++ [⟨⟨0, q.id, _, _⟩, s.clientActive⟩] = _
    rw [hin, hclientActive, hid]
    rfl

private theorem answer_asks {q : Packet} {lost : Bool} {next : Round} (hnext : r.next? = some next)
    (hin : s.toServer = []) (hout : s.toClient.length = 1) (hqueue : s.queue = []) (hworker : s.Settled r.after)
    (hid : q.id = 1) (hanswer : r.Answer q) (hlost : lost = false) :
    Underway clientKey serverKey next (clientHandles clientKey { s with toClient := [], clientLost := lost } q) ∧
      (clientHandles clientKey { s with toClient := [], clientLost := lost } q).stepsLeft < s.stepsLeft := by
  have hasks := Round.client_questions clientKey hanswer hid hnext
  rw [← hwaits.client] at hasks
  have hactive : ((Client.react s.client clientKey q).activates || s.clientActive) = Server.active r.after := by
    rw [hwaits.clientActive]
    exact hasks.active
  have hpost : s.toServer ++ post (Client.react s.client clientKey q)
      ((Client.react s.client clientKey q).activates || s.clientActive) =
        [⟨next.question clientKey, Server.active next.before⟩] := by
    rw [hin, hactive, post_some hasks.reply, hasks.before]
    rfl
  constructor
  · refine .asked ⟨hasks.state.trans hasks.before.symm, ?_, hwaits.serverLost, hlost⟩ hpost rfl hqueue ?_
    · rw [hasks.before]
      exact hactive
    · rw [hasks.before]
      exact hworker
  · have hleft : Round.left (Client.react s.client clientKey q).state + 1 = Round.left s.client := by
      rw [hasks.state, hwaits.client]
      cases r <;> cases hnext <;> rfl
    have hlen := congrArg List.length hpost
    rw [hin] at hlen
    simp only [List.length_cons, List.length_nil] at hlen
    simp only [clientHandles, stepsLeft, hin, hlen, hout, List.length_nil]
    omega

/-- The client gets its answer: it asks again, or the handshake is over. -/
private theorem answered_next (hin : s.toServer = [])
    (hout : s.toClient = [⟨r.response serverKey, Server.active r.before⟩]) (hqueue : s.queue = [])
    (hworker : s.Settled r.after) (hactive : r = .ping → s.serverActive = true)
    (h : Step clientKey serverKey s s') :
    Completed s' ∨ (∃ r', Underway clientKey serverKey r' s') ∧ s'.stepsLeft < s.stepsLeft := by
  cases h with
  | serverRead hin' _ | serverSkip _ hin' =>
    rw [hin] at hin'
    cases hin'
  | serverStray _ hlost => exact absurd hlost (by simp [hwaits.serverLost])
  | clientStray _ hlost | clientSkip hlost _ => exact absurd hlost (by simp [hwaits.clientLost])
  | take _ hqueue' =>
    rw [hqueue] at hqueue'
    cases hqueue'
  | reply hreply => exact absurd hreply hworker.ne_replying
  | switch hswitch =>
    have hopen : r = .ping → ∀ x : Reaction, (x.activates || s.serverActive) = true := by
      intro hr x
      rw [hactive hr, Bool.or_true]
    refine .inr ⟨⟨r, .answered ⟨hwaits.client, hwaits.clientActive, hwaits.serverLost, hwaits.clientLost⟩ hin hout
      hqueue (hworker.switch hswitch) fun hr => hopen hr _⟩, ?_⟩
    simp only [stepsLeft, hswitch, turnLeft]
    omega
  | @clientRead f rest q hin' hq =>
    rw [hout] at hin'
    cases hin'
    have hid : q.id = 1 := hq.id.trans (Round.response_id serverKey r)
    have hanswer : r.Answer q := by
      refine Round.answer_reads (Round.response_answer serverKey r) hq fun hr => ?_
      rw [hwaits.clientActive, hr]
      exact ⟨rfl, rfl⟩
    have hlost := stays (r.response serverKey) (.inr rfl) hwaits.clientLost
    rw [← hwaits.clientActive] at hlost
    rcases hnext : r.next? with _ | next
    · have hr : r = .ping := by
        cases r with
        | version | key => cases hnext
        | ping => rfl
      exact .inl (pong_completes hwaits hr hin hqueue hworker (hactive hr) hid hanswer hlost)
    · have hlen : s.toClient.length = 1 := by simp [hout]
      obtain ⟨hunderway, hlt⟩ := answer_asks hwaits hnext hin hlen hqueue hworker hid hanswer hlost
      exact .inr ⟨⟨next, hunderway⟩, hlt⟩

end Steps

/-! ### All rounds -/

/-- A step completes the handshake, or leaves less of it to do. -/
theorem Underway.next {r : Round} (hr : Underway clientKey serverKey r s) (h : Step clientKey serverKey s s') :
    Completed s' ∨ (∃ r', Underway clientKey serverKey r' s') ∧ s'.stepsLeft < s.stepsLeft := by
  cases hr with
  | asked hwaits hin hout hqueue hworker =>
    obtain ⟨hr', hlt⟩ := asked_next hwaits hin hout hqueue hworker h
    exact .inr ⟨⟨r, hr'⟩, hlt⟩
  | read hwaits hin hout hqueue hworker hid hrequest =>
    obtain ⟨hr', hlt⟩ := read_next hwaits hin hout hqueue hworker hid hrequest h
    exact .inr ⟨⟨r, hr'⟩, hlt⟩
  | taken hwaits hin hout hqueue hworker hactive hanswers =>
    obtain ⟨hr', hlt⟩ := taken_next hwaits hin hout hqueue hworker hactive hanswers h
    exact .inr ⟨⟨r, hr'⟩, hlt⟩
  | answered hwaits hin hout hqueue hworker hactive =>
    exact answered_next hwaits hin hout hqueue hworker hactive h

/-- In no round does the conversation get stuck: whoever has the packet can go on with it, once the worker has
finished the last one. -/
theorem Underway.exists_step {r : Round} (hr : Underway clientKey serverKey r s) :
    ∃ s', Step clientKey serverKey s s' := by
  cases hr with
  | asked hwaits hin => exact ⟨_, .serverRead hin (.same (Round.question_valid clientKey r) _ _)⟩
  | read hwaits hin hout hqueue hworker =>
    rcases hturn : s.worker with _ | x | x
    · exact ⟨_, .take hturn hqueue⟩
    · exact absurd hturn hworker.ne_replying
    · exact ⟨_, .switch hturn⟩
  | taken hwaits hin hout hqueue hworker => exact ⟨_, .reply hworker⟩
  | answered hwaits hin hout => exact ⟨_, .clientRead hout (.same (Round.response_valid serverKey r) _ _)⟩

theorem Underway.stepsLeft_pos {r : Round} (hr : Underway clientKey serverKey r s) : 0 < s.stepsLeft := by
  unfold stepsLeft
  cases hr with
  | asked _ hin =>
    rw [hin, List.length_singleton]
    omega
  | read _ _ _ hqueue =>
    rw [hqueue, List.length_singleton]
    omega
  | taken _ _ _ _ hworker =>
    rw [hworker]
    show 0 < _ + 3 + _
    omega
  | answered _ _ hout =>
    rw [hout, List.length_singleton]
    omega

/-- A conversation begins with the round of the versions. -/
theorem start_underway : Underway clientKey serverKey .version start :=
  .asked ⟨rfl, rfl, rfl, rfl⟩ rfl rfl rfl ⟨rfl, rfl⟩

/-- However the client and the two threads of the server interleave, the handshake is over after at most fifteen
steps. -/
theorem handshake_completes {run : Nat → Conversation} (hrun : Exhaustive (Step clientKey serverKey) run)
    (hstart : run 0 = start) : ∃ k, k ≤ 15 ∧ Completed (run k) := by
  have hunderway : ∃ r, Underway clientKey serverKey r (run 0) := by
    rw [hstart]
    exact ⟨.version, start_underway⟩
  obtain ⟨k, hk, hcompleted⟩ := hrun.attains (I := fun s => ∃ r, Underway clientKey serverKey r s) (D := Completed)
    (fun _ ⟨_, hr⟩ => hr.stepsLeft_pos) (fun _ ⟨_, hr⟩ => hr.exists_step) (fun _ _ ⟨_, hr⟩ h => hr.next h) hunderway
  rw [hstart] at hk
  exact ⟨k, hk, hcompleted⟩

/-- The keys are all ones and all twos. -/
theorem handshake_completes_ones :
    ∃ run, Exhaustive (Step (Vector.replicate _ 1) (Vector.replicate _ 2)) run ∧ run 0 = start ∧
      ∃ k, k ≤ 15 ∧ Completed (run k) := by
  obtain ⟨run, hrun, hstart⟩ := Exhaustive.exists_run (Step (Vector.replicate _ 1) (Vector.replicate _ 2)) start
  exact ⟨run, hrun, hstart, handshake_completes hrun hstart⟩

end Excom.Conversation
