import Excom.Completion
import Excom.Delivery

/-!
# A session is a conversation

The two sides with their buffers and the bytes between them do what the conversation says (`Represents`): each event
of a session moves bytes only, or is a step of the conversation (`Simulated`), as long as the handshake goes on and
no read event ends inside the last four bytes of a frame (`Careful`).  So the handshake completes over any way in
which the bytes are cut into pieces and the events interleave (`session_completes`).
-/

namespace Excom

/-! ### The frames of the handshake -/

namespace Conversation

variable {E : Env} {clientKey serverKey : Key} {a : Conversation}

/-- The frames that are on their way during the handshake. -/
structure Fair (E : Env) (active : Bool) (fs : List Frame) : Prop where
  readable : Readable active fs
  short : ∀ f ∈ fs, (f.packet.body E).length ≤ 36

private theorem fair_nil (active : Bool) : Fair E active [] := ⟨.inl rfl, by simp⟩

private theorem length_ofBytes_body (E : Env) (bs : Bytes) (h : bs.length < 2 ^ 32) :
    (Content.encode E (Value.string (.ofBytes bs)).content).length = 4 + bs.length := by
  simp only [Value.content, Content.encode, ExcomString.bytes_ofBytes h, List.length_append, length_wire32]

private theorem Round.question_known (own : Key) (r : Round) : ∃ t, (r.question own).Known t := by
  have hvalid := Round.question_valid own r
  cases r with
  | version => exact ⟨.protocolVersion, rfl, rfl, hvalid⟩
  | key => exact ⟨.publicKey, rfl, rfl, hvalid⟩
  | ping => exact ⟨.ping, rfl, rfl, hvalid⟩

private theorem Round.response_known (own : Key) (r : Round) : ∃ t, (r.response own).Known t := by
  have hvalid := Round.response_valid own r
  cases r with
  | version => exact ⟨.ok, rfl, rfl, hvalid⟩
  | key => exact ⟨.publicKey, rfl, rfl, hvalid⟩
  | ping => exact ⟨.pong, rfl, rfl, hvalid⟩

private theorem length_key_body (own : Key) :
    (encodeBody E ((publicKeyField own).map Value.content)).length = 36 := by
  have hlen : own.toList.length = 32 := own.length_toList
  simp only [publicKeyField, List.map_cons, List.map_nil, encodeBody_cons, encodeBody_nil, List.append_nil]
  rw [length_ofBytes_body _ _ (by rw [hlen]; decide), hlen]

private theorem Round.question_short (own : Key) (r : Round) : ((r.question own).body E).length ≤ 36 := by
  cases r with
  | version =>
    have hlen := length_ofBytes_body E excomVersion (by decide)
    simp only [question, Client.version, Packet.body, List.map_cons, List.map_nil, encodeBody_cons, encodeBody_nil,
      List.length_append, hlen]
    show 4 + 6 + (1 + (1 + (1 + 0))) ≤ 36
    decide
  | key => exact Nat.le_of_eq (length_key_body own)
  | ping => exact Nat.zero_le _

private theorem Round.response_short (own : Key) (r : Round) : ((r.response own).body E).length ≤ 36 := by
  cases r with
  | version | ping => exact Nat.zero_le _
  | key => exact Nat.le_of_eq (length_key_body own)

private theorem fair_frame {r : Round} {p : Packet} {active : Bool} (hknown : ∃ t, p.Known t)
    (hshort : (p.body E).length ≤ 36) (hbare : r = .ping → p.data = []) (hactive : r ≠ .ping → active = false) :
    Fair E active [⟨p, Server.active r.before⟩] := by
  refine ⟨.inr ⟨_, rfl, ⟨hknown, ?_⟩, ?_⟩, ?_⟩
  · by_cases hr : r = .ping
    · exact .inr (hbare hr)
    · exact .inl (active_before hr)
  · by_cases hr : r = .ping
    · exact .inr (hbare hr)
    · exact .inl (hactive hr)
  · intro f hf
    obtain rfl := List.mem_singleton.1 hf
    exact hshort

private theorem Underway.fair {r : Round} (h : Underway clientKey serverKey r a) :
    Fair E a.serverActive a.toServer ∧ Fair E a.clientActive a.toClient := by
  cases h with
  | asked hwaits hin hout _ hworker =>
    rw [hin, hout]
    refine ⟨?_, fair_nil _⟩
    exact fair_frame (Round.question_known _ r) (Round.question_short _ r) (by rintro rfl; rfl) fun hr =>
      hworker.inactive (active_before hr)
  | read _ hin hout | taken _ hin hout =>
    rw [hin, hout]
    exact ⟨fair_nil _, fair_nil _⟩
  | answered hwaits hin hout =>
    rw [hin, hout]
    refine ⟨fair_nil _, ?_⟩
    refine fair_frame (Round.response_known _ r) (Round.response_short _ r) (by rintro rfl; rfl) fun hr => ?_
    rw [hwaits.clientActive]
    exact active_before hr

private theorem Underway.client_ne {r : Round} (h : Underway clientKey serverKey r a) : a.client ≠ .body := by
  have hwaits : a.Waits r := by cases h <;> assumption
  rw [hwaits.client]
  cases r <;> decide

end Conversation

/-! ### Sessions and conversations -/

namespace Session

section Definitions

variable (E : Env)

/-- A step in which no read event ends where its test takes what is there of a frame for a frame. -/
structure Careful (s s' : Session) : Prop where
  step : Step E s s'
  server : ∀ new, s.toServer = new ++ s'.toServer → Cut E (s.server.bufIn.unread ++ new)
  client : ∀ new, s.toClient = new ++ s'.toClient → Client.Cut E (s.client.bufIn.unread ++ new)

/-- Bytes have moved, or a packet was read or handled. -/
def Busy (s s' : Session) : Prop :=
  s'.toServer ≠ s.toServer ∨ s'.toClient ≠ s.toClient ∨ s'.server.packets ≠ s.server.packets ∨
    s'.client.packets ≠ s.client.packets

/-- The session is where the conversation is, and not more than `n` bytes have gone either way. -/
structure Represents (clientKey serverKey : Key) (n : Nat) (s : Session) (a : Conversation) : Prop where
  client : s.client.state = a.client
  clientActive : s.client.keys.remote.active = a.clientActive
  clientKey : s.client.enc.pkey = clientKey
  clientConnected : s.client.disconnected = false
  server : s.server.state = a.server
  serverActive : s.server.keys.remote.active = a.serverActive
  serverKey : s.server.keys.localPair.pkey = serverKey
  serverConnected : s.server.disconnected = false
  mutex : s.server.mutex = .unlocked
  worker : a.worker = .idle
  queue : s.server.packets = a.queue
  known : ∀ q ∈ a.queue, ∃ t, q.Known t
  toServer : Channel E n (s.client.keys.sharedKey E) s.client.bufOut s.toServer s.server.bufIn a.toServer
  toClient : Channel E n (s.server.keys.sharedKey E) s.server.bufOut s.toClient s.client.bufIn a.toClient

/-- Neither input buffer ends inside the last four bytes of a frame. -/
structure Clean (s : Session) : Prop where
  server : Cut E s.server.bufIn.unread
  client : Client.Cut E s.client.bufIn.unread

end Definitions

/-- The bytes on their way, with three for each that is to be sent and two for each that is to be read. -/
def pending (out : Buffer) (socket : Bytes) (input : Buffer) : Nat :=
  3 * out.unread.length + 2 * socket.length + input.unread.length

/-- The bytes on their way in both directions -/
def allPending (s : Session) : Nat :=
  pending s.client.bufOut s.toServer s.server.bufIn + pending s.server.bufOut s.toClient s.client.bufIn

variable {E : Env} {clientKey serverKey : Key} {n : Nat} {s s' : Session} {a : Conversation}

/-- What a step of a session does to the conversation. -/
inductive Simulated (E : Env) (clientKey serverKey : Key) (n : Nat) (s : Session) (a : Conversation) (s' : Session) :
    Prop where
  /-- Only bytes move. -/
  | stays (h : Represents E clientKey serverKey n s' a) (hclean : Clean E s')
      (hpending : Busy s s' → s'.allPending < s.allPending)
  /-- The conversation moves on. -/
  | moves {a' : Conversation} (h : Represents E clientKey serverKey (n + 100) s' a') (hclean : Clean E s')
      (hsteps : Relation.ReflTransGen (Conversation.Step clientKey serverKey) a a')
      (hnext : a'.Completed ∨
        (∃ r, Conversation.Underway clientKey serverKey r a') ∧ a'.stepsLeft < a.stepsLeft)

/-! ### Bytes that move -/

private theorem pending_flush {out out' : Buffer} (input : Buffer) (socket : Bytes) {sent : Bytes}
    (h : out.unread = sent ++ out'.unread) :
    pending out' (socket ++ sent) input + sent.length = pending out socket input := by
  unfold pending
  rw [h, List.length_append, List.length_append]
  omega

private theorem pending_receive (out : Buffer) {input input' : Buffer} {new : Bytes} (rest : Bytes)
    (h : input'.unread = input.unread ++ new) :
    pending out rest input' + new.length = pending out (new ++ rest) input := by
  unfold pending
  rw [h, List.length_append, List.length_append]
  omega

private theorem cut_nil : Cut E [] := fun h => absurd h.1 (Nat.not_lt_zero 4)

private theorem client_cut_nil : Client.Cut E [] := fun h => absurd h.1 (by decide)

/-- The client writes. -/
theorem clientWrite_returns (h : Represents E clientKey serverKey n s a) (hclean : Clean E s)
    (outcome : Except Int Nat) :
    Exec.Returns (Client.write E s.client outcome) s.clientWorld fun x w =>
      Simulated E clientKey serverKey n s a
        { s with client := x.1, clientWorld := w, toServer := s.toServer ++ x.2 } ∧
      ∀ k, outcome = .ok k → s.client.bufOut.unread.length ≤ k → x.2 = s.client.bufOut.unread := by
  unfold Client.write
  refine (h.toServer.flush outcome s.clientWorld).bind ?_
  rintro ⟨code, out, sent⟩ w ⟨hchannel, hsent, hall⟩
  dsimp only at hchannel hsent hall
  refine .pure ⟨?_, ?_⟩
  · refine .stays ⟨h.client, h.clientActive, h.clientKey, h.clientConnected, h.server, h.serverActive, h.serverKey,
      h.serverConnected, h.mutex, h.worker, h.queue, h.known, hchannel, h.toClient⟩ ⟨hclean.server, hclean.client⟩ ?_
    intro hbusy
    have hne : sent ≠ [] := by
      rintro rfl
      simp [Busy] at hbusy
    have hpos := List.length_pos_iff.2 hne
    have hflush := pending_flush s.server.bufIn s.toServer hsent
    simp only [allPending]
    omega
  · intro k hk hle
    have hnil := hall k hk hle
    rw [hnil, List.append_nil] at hsent
    exact hsent.symm

/-- The server writes. -/
theorem serverWrite_returns (h : Represents E clientKey serverKey n s a) (hclean : Clean E s)
    (outcome : Except Int Nat) :
    Exec.Returns (Server.write E s.server outcome) s.serverWorld fun x w =>
      Simulated E clientKey serverKey n s a
        { s with server := x.1, serverWorld := w, toClient := s.toClient ++ x.2 } ∧
      ∀ k, outcome = .ok k → s.server.bufOut.unread.length ≤ k → x.2 = s.server.bufOut.unread := by
  unfold Server.write
  rw [if_neg (by rw [h.serverConnected]; decide)]
  refine (h.toClient.flush outcome s.serverWorld).bind ?_
  rintro ⟨code, out, sent⟩ w ⟨hchannel, hsent, hall⟩
  dsimp only at hchannel hsent hall
  refine .pure ⟨?_, ?_⟩
  · refine .stays ⟨h.client, h.clientActive, h.clientKey, h.clientConnected, h.server, h.serverActive, h.serverKey,
      h.serverConnected, h.mutex, h.worker, h.queue, h.known, h.toServer, hchannel⟩ ⟨hclean.server, hclean.client⟩ ?_
    intro hbusy
    have hne : sent ≠ [] := by
      rintro rfl
      simp [Busy] at hbusy
    have hpos := List.length_pos_iff.2 hne
    have hflush := pending_flush s.client.bufIn s.toClient hsent
    simp only [allPending]
    omega
  · intro k hk hle
    have hnil := hall k hk hle
    rw [hnil, List.append_nil] at hsent
    exact hsent.symm

/-! ### Packets that are handled -/

/-- Switching encryption on changes nothing else about the keys. -/
theorem activate_if (activates : Bool) (keys : Encrypt) :
    (if activates then keys.activate else keys).remote.active = (activates || keys.remote.active) ∧
      (if activates then keys.activate else keys).localPair = keys.localPair ∧
      (if activates then keys.activate else keys).sharedKey E = keys.sharedKey E := by
  cases activates with
  | false => exact ⟨rfl, rfl, rfl⟩
  | true =>
    refine ⟨rfl, rfl, ?_⟩
    unfold Encrypt.sharedKey Encrypt.prep
    cases hnm : keys.nm.active <;> simp [Encrypt.activate, hnm]

/-- A turn of the worker is three steps of the conversation, and the client still waits. -/
private theorem turn_steps {r : Conversation.Round} (hr : Conversation.Underway clientKey serverKey r a)
    (hworker : a.worker = .idle) {q : Packet} {rest : List Packet} (hqueue : a.queue = q :: rest) {x : Reaction}
    (hx : Server.react a.server serverKey q = x) {a' : Conversation} (ha' : a' =
      { a with
        queue := rest, worker := .idle, server := x.state, serverActive := x.activates || a.serverActive
        toClient := a.toClient ++ Conversation.post x a.serverActive }) :
    Relation.ReflTransGen (Conversation.Step clientKey serverKey) a a' ∧
      (∃ r', Conversation.Underway clientKey serverKey r' a') ∧ a'.stepsLeft < a.stepsLeft := by
  let a1 : Conversation := { a with queue := rest, worker := .replying x }
  let a2 : Conversation :=
    { a1 with worker := .switching x, toClient := a.toClient ++ Conversation.post x a.serverActive }
  have hstep1 : Conversation.Step clientKey serverKey a a1 := by
    subst hx
    exact .take hworker hqueue
  have hstep2 : Conversation.Step clientKey serverKey a1 a2 := .reply rfl
  have hstep3 : Conversation.Step clientKey serverKey a2 a' := by
    subst ha'
    exact .switch rfl
  have hnot : ∀ b : Conversation, b.client = a.client → ¬ b.Completed := by
    intro b hb hdone
    exact hr.client_ne (hb.symm.trans hdone.client)
  obtain ⟨⟨r1, hr1⟩, hlt1⟩ := (hr.next hstep1).resolve_left (hnot a1 rfl)
  obtain ⟨⟨r2, hr2⟩, hlt2⟩ := (hr1.next hstep2).resolve_left (hnot a2 rfl)
  obtain ⟨hr3, hlt3⟩ := (hr2.next hstep3).resolve_left (hnot a' (by rw [ha']))
  exact ⟨((Relation.ReflTransGen.single hstep1).tail hstep2).tail hstep3, hr3, by omega⟩

/-- The worker of the server does three steps of the conversation in one turn. -/
theorem serverWork_returns (hA : E.AllocSucceeds) (hS : E.sodium.Lawful) (hn : n < 2 ^ 30)
    (h : Represents E clientKey serverKey n s a) (hclean : Clean E s) {r : Conversation.Round}
    (hr : Conversation.Underway clientKey serverKey r a) :
    Exec.Returns (Server.work E s.server) s.serverWorld fun d w =>
      Simulated E clientKey serverKey n s a { s with server := d, serverWorld := w } ∧
      (s.server.packets ≠ [] → d.packets ≠ s.server.packets) := by
  unfold Server.work
  rcases hpackets : s.server.packets with _ | ⟨q, rest⟩
  · refine .pure ⟨.stays ⟨h.client, h.clientActive, h.clientKey, h.clientConnected, h.server, h.serverActive,
      h.serverKey, h.serverConnected, h.mutex, h.worker, h.queue, h.known, h.toServer, h.toClient⟩
      ⟨hclean.server, hclean.client⟩ ?_, fun hne => absurd rfl hne⟩
    simp [Busy]
  have hqueue : a.queue = q :: rest := h.queue.symm.trans hpackets
  obtain ⟨t, hq⟩ := h.known q (by rw [hqueue]; exact List.mem_cons_self ..)
  dsimp only
  rw [Server.handlePacket_eq]
  show Exec.Returns (Server.perform E { s.server with packets := rest } q
    (Server.react s.server.state s.server.keys.localPair.pkey q)) s.serverWorld _
  rw [h.server, h.serverKey]
  generalize hx : Server.react a.server serverKey q = x
  have hsound : x.Sound E q := hx ▸ Server.react_sound a.server serverKey q
  unfold Server.perform
  refine (touchBody_returns hsound (Packet.stringAt_valid hq.valid 0) _ s.serverWorld).bind ?_
  intro _ w1 _
  refine (writeReply_returns hA hS hsound h.toClient hn w1).bind ?_
  rintro ⟨out, keys⟩ w2 ⟨hchannel, hremote, hpair, hshared⟩
  dsimp only at hchannel hremote hpair hshared
  refine .pure ⟨?_, fun _ => ?_⟩
  swap
  · intro he
    have hlen := congrArg List.length he
    simp at hlen
  obtain ⟨hsteps, hunderway, hlt⟩ := turn_steps hr h.worker hqueue hx rfl
  refine .moves ?_ ⟨hclean.server, hclean.client⟩ hsteps (.inr ⟨hunderway, hlt⟩)
  obtain ⟨hactive, hlocal, hkey⟩ := activate_if (E := E) x.activates keys
  rw [h.serverActive] at hchannel
  refine ⟨h.client, h.clientActive, h.clientKey, h.clientConnected, rfl, ?_, ?_, h.serverConnected, h.mutex, rfl, rfl,
    ?_, h.toServer.mono (Nat.le_add_right n 100), ?_⟩
  · exact hactive.trans (by rw [hremote, h.serverActive])
  · exact (congrArg EncryptPair.pkey (hlocal.trans hpair)).trans h.serverKey
  · intro q' hq'
    exact h.known q' (by rw [hqueue]; exact List.mem_cons_of_mem _ hq')
  · show Channel E (n + 100) ((if x.activates then keys.activate else keys).sharedKey E) out s.toClient s.client.bufIn
      (a.toClient ++ Conversation.post x a.serverActive)
    rw [hkey]
    exact hchannel

/-- The client does a step of the conversation with each packet. -/
theorem clientHandles_returns (hA : E.AllocSucceeds) (hS : E.sodium.Lawful) (hn : n < 2 ^ 30)
    (h : Represents E clientKey serverKey n s a) (hclean : Clean E s) {r : Conversation.Round}
    (hr : Conversation.Underway clientKey serverKey r a) {f : Frame} (hf : a.toClient = [f]) {q : Packet}
    (hq : ReadAs q f) {b : Buffer} {rest : Bytes}
    (hb : Channel E n (s.server.keys.sharedKey E) s.server.bufOut rest b []) (w : World) :
    Exec.Returns (Client.defaultHandler E q { s.client with bufIn := b, packets := q :: s.client.packets }) w
      fun c w' => Simulated E clientKey serverKey n s a { s with client := c, clientWorld := w', toClient := rest } ∧
        c.packets ≠ s.client.packets := by
  have hstep := @Conversation.Step.clientRead clientKey serverKey a _ _ _ hf (hq.reads a.clientActive)
  obtain ⟨t, hknown⟩ := hq.2
  rw [Client.defaultHandler_eq]
  show Exec.Returns (Client.perform E { s.client with bufIn := b, packets := q :: s.client.packets } q
    (Client.react s.client.state s.client.enc.pkey q)) w _
  rw [h.client, h.clientKey]
  unfold Conversation.clientHandles at hstep
  dsimp only at hstep
  generalize hx : Client.react a.client clientKey q = x at hstep
  have hsound : x.Sound E q := hx ▸ Client.react_sound a.client clientKey q
  obtain ⟨hactive, -, hkey⟩ := activate_if (E := E) x.activates s.client.keys
  rw [h.clientActive] at hactive
  have hchannel := h.toServer
  rw [← hkey] at hchannel
  unfold Client.perform
  refine (touchBody_returns hsound (Packet.stringAt_valid hknown.valid 0) _ w).bind ?_
  intro _ w1 _
  refine (writeReply_returns hA hS hsound hchannel hn w1).bind ?_
  rintro ⟨out, keys⟩ w2 ⟨hposted, hremote, -, -⟩
  dsimp only at hposted hremote
  rw [hactive] at hposted
  refine .pure ⟨.moves ?_ ⟨hclean.server, ?_⟩ (.single hstep) ?_, ?_⟩
  · exact ⟨rfl, (congrArg EncryptRemote.active hremote).trans hactive, h.clientKey, h.clientConnected, h.server,
      h.serverActive, h.serverKey, h.serverConnected, h.mutex, h.worker, h.queue, h.known, hposted,
      hb.mono (Nat.le_add_right n 100)⟩
  · show Client.Cut E b.unread
    rw [hb.empty.1]
    exact client_cut_nil
  · exact (hr.next hstep).imp id id
  · intro he
    have hlen := congrArg List.length he
    simp at hlen

/-! ### Read events -/

section ReadEvents

variable (hE : E.littleEndian = true) (hA : E.AllocSucceeds) (hn : n < 2 ^ 30)
  (h : Represents E clientKey serverKey n s a) (hclean : Clean E s) {r : Conversation.Round}
  (hr : Conversation.Underway clientKey serverKey r a) (pieces : List Bytes) (rest : Bytes)

include hE hA hn h hclean hr

/-- The server reads. -/
theorem serverRead_returns (hin : s.toServer = pieces.flatten ++ rest)
    (hcut : Cut E (s.server.bufIn.unread ++ pieces.flatten)) (errno : Int) :
    Exec.Returns (Server.read E s.server pieces (.error errno)) s.serverWorld fun x w => ∃ d, x = some d ∧
      Simulated E clientKey serverKey n s a { s with server := d, serverWorld := w, toServer := rest } ∧
      (errno = EAGAIN → Passes E (s.server.bufIn.unread ++ pieces.flatten) → d.packets ≠ s.server.packets) := by
  have hchannel := h.toServer
  rw [hin] at hchannel
  have hread : Readable s.server.keys.remote.active a.toServer := by
    rw [h.serverActive]
    exact (hr.fair (E := E)).1.readable
  refine (Server.read_channel hE hA hn h.mutex hchannel hread h.serverConnected hcut errno s.serverWorld).mono ?_
  rintro x w ⟨b, ⟨rfl, hb, hun, hpass⟩ | ⟨f, q, hf, hq, rfl, hb⟩⟩
  · refine ⟨_, rfl, .stays ⟨h.client, h.clientActive, h.clientKey, h.clientConnected, h.server, h.serverActive,
      h.serverKey, h.serverConnected, h.mutex, h.worker, h.queue, h.known, hb, h.toClient⟩ ⟨?_, hclean.client⟩ ?_, ?_⟩
    · show Cut E b.unread
      rw [hun]
      exact hcut
    · intro hbusy
      have hne : pieces.flatten ≠ [] := by
        intro hnil
        rw [hnil] at hin
        simp [Busy, hin] at hbusy
      have hpos := List.length_pos_iff.2 hne
      have hmoved := pending_receive s.client.bufOut rest hun
      rw [← hin] at hmoved
      simp only [allPending]
      omega
    · intro hagain hpasses
      rw [← hun] at hpasses
      exact absurd hpasses (hpass hagain)
  · have hstep := @Conversation.Step.serverRead clientKey serverKey a _ _ _ hf (hq.reads a.serverActive)
    refine ⟨_, rfl, .moves ?_ ⟨?_, hclean.client⟩ (.single hstep) (hr.next hstep), ?_⟩
    · refine ⟨h.client, h.clientActive, h.clientKey, h.clientConnected, h.server, h.serverActive, h.serverKey,
        h.serverConnected, h.mutex, h.worker, congrArg (· ++ [q]) h.queue, ?_, hb.mono (Nat.le_add_right n 100),
        h.toClient.mono (Nat.le_add_right n 100)⟩
      intro q' hq'
      rcases List.mem_append.1 hq' with hq' | hq'
      · exact h.known q' hq'
      · obtain rfl := List.mem_singleton.1 hq'
        exact hq.2
    · show Cut E b.unread
      rw [hb.empty.1]
      exact cut_nil
    · intro _ _ he
      have hlen := congrArg List.length he
      simp at hlen

/-- The client reads. -/
theorem clientRead_returns (hS : E.sodium.Lawful) (hin : s.toClient = pieces.flatten ++ rest)
    (hcut : Client.Cut E (s.client.bufIn.unread ++ pieces.flatten)) (stop : ReadEnd) :
    Exec.Returns (Client.read E (Client.defaultHandler E) s.client pieces stop) s.clientWorld fun c w =>
      Simulated E clientKey serverKey n s a { s with client := c, clientWorld := w, toClient := rest } ∧
      (stop = .error EAGAIN → Client.Passes E (s.client.bufIn.unread ++ pieces.flatten) →
        c.packets ≠ s.client.packets) := by
  have hchannel := h.toClient
  rw [hin] at hchannel
  have hread : Readable s.client.keys.remote.active a.toClient := by
    rw [h.clientActive]
    exact (hr.fair (E := E)).2.readable
  rcases Client.read_channel hE hA hn (Client.defaultHandler E) hchannel hread h.clientConnected hcut
    stop s.clientWorld with hwait | ⟨f, q, b, w1, hf, hq, hb, hrun⟩
  · refine hwait.mono ?_
    rintro _ w ⟨b, rfl, hb, hun, hpass⟩
    refine ⟨.stays ⟨h.client, h.clientActive, h.clientKey, h.clientConnected, h.server, h.serverActive, h.serverKey,
      h.serverConnected, h.mutex, h.worker, h.queue, h.known, h.toServer, hb⟩ ⟨hclean.server, ?_⟩ ?_, ?_⟩
    · show Client.Cut E b.unread
      rw [hun]
      exact hcut
    · intro hbusy
      have hne : pieces.flatten ≠ [] := by
        intro hnil
        rw [hnil] at hin
        simp [Busy, hin] at hbusy
      have hpos := List.length_pos_iff.2 hne
      have hmoved := pending_receive s.server.bufOut rest hun
      rw [← hin] at hmoved
      simp only [allPending]
      omega
    · intro hagain hpasses
      rw [← hun] at hpasses
      exact absurd hpasses (hpass hagain)
  · obtain ⟨c, w2, hhandler, hsim, hne⟩ := clientHandles_returns hA hS hn h hclean hr hf hq hb w1
    exact .intro (hrun.trans hhandler) ⟨hsim, fun _ _ => hne⟩

end ReadEvents

/-! ### Runs -/

/-- A new session is where the conversation starts. -/
theorem initial_returns (hA : E.AllocSucceeds) (clientPair serverPair : EncryptPair) (outcome : Except Int Nat)
    {w w' w1 wd : World} {c : Client.ExcomClient} {d : Server.ClientData}
    (hconnect : Client.connect E clientPair w = .ok (c, w1))
    (hserver : Server.connect E serverPair w' = .ok (d, wd)) :
    Exec.Returns (Client.greet E c outcome) w1 fun x wc =>
      Represents E clientPair.pkey serverPair.pkey 100 ⟨x.1, d, x.2, [], wc, wd⟩ .start ∧
        Clean E ⟨x.1, d, x.2, [], wc, wd⟩ := by
  have h32 := E.le_word
  have hc := (Client.connect_returns hA clientPair w).ensures _ _ hconnect
  have hd := (Server.connect_returns hA serverPair w').ensures _ _ hserver
  have htoServer : Channel E 0 (c.keys.sharedKey E) c.bufOut [] d.bufIn [] := .new hc.bufOut hd.bufIn
  have htoClient : Channel E 0 (d.keys.sharedKey E) d.bufOut [] c.bufIn [] := .new hd.bufOut hc.bufIn
  have hinactive : c.keys.remote.active = false := by rw [hc.keys]; rfl
  obtain ⟨t, hknown⟩ := Conversation.Round.question_known clientPair.pkey .version
  have hshort : (Client.version.body E).length ≤ 36 := Conversation.Round.question_short clientPair.pkey .version
  have hlen := Client.version.length_frame (E := E)
  unfold Client.greet
  have hout := htoServer.sender
  have hused := hout.used_le
  refine (writePacket_returns hA hknown hout.wf hout.mutable (activeKeys_none hinactive)
    (by show 2 * (c.bufOut.used + (Client.version.frame E).length) ≤ _; omega) w1).bind ?_
  rintro _ w2 ⟨out, hext, rfl⟩
  dsimp only
  have hroom : 0 + (Client.version.frame E).length ≤ 100 := by omega
  have hposted := htoServer.post (f := ⟨Client.version, false⟩) hroom (by decide) rfl hext
  unfold Client.write
  refine (hposted.flush outcome w2).bind ?_
  rintro ⟨code, out', sent⟩ w3 ⟨hchannel, -, -⟩
  refine .pure ⟨⟨hc.state, hinactive, congrArg EncryptPair.pkey hc.enc, hc.connected, hd.state, ?_, ?_, hd.connected,
    hd.mutex, rfl, hd.packets, by simp [Conversation.start], hchannel, htoClient.mono (by decide)⟩, ?_, ?_⟩
  · rw [hd.keys]
    rfl
  · rw [hd.keys]
    rfl
  · show Cut E d.bufIn.unread
    rw [hd.bufIn.pending.unread]
    exact cut_nil
  · show Client.Cut E c.bufIn.unread
    rw [hc.bufIn.pending.unread]
    exact client_cut_nil

/-- During the handshake there are only a few bytes on their way. -/
private theorem pending_le (h : Represents E clientKey serverKey n s a) {r : Conversation.Round}
    (hr : Conversation.Underway clientKey serverKey r a) : s.allPending ≤ 264 := by
  have hchannel {key : Key} {out input : Buffer} {socket : Bytes} {fs : List Frame} {active : Bool}
      (hc : Channel E n key out socket input fs) (hfair : Conversation.Fair E active fs) :
      pending out socket input ≤ 132 := by
    unfold pending
    rcases hfair.readable with rfl | ⟨f, rfl, hf, -⟩
    · obtain ⟨hin, hsocket, hout⟩ := hc.empty
      rw [hin, hsocket, hout]
      decide
    · have hshort := hfair.short f (List.mem_singleton.2 rfl)
      have hlen := congrArg List.length (hf.onWire.1 (carriesFrames_singleton.1 hc.carries))
      rw [List.length_append, List.length_append, f.packet.length_frame] at hlen
      omega
  have h1 := hchannel h.toServer hr.fair.1
  have h2 := hchannel h.toClient hr.fair.2
  unfold allPending
  omega

private theorem ne_append_sent {xs sent : Bytes} (hne : sent ≠ []) (new : Bytes) : xs ≠ new ++ (xs ++ sent) := by
  intro hnew
  have hlen := congrArg List.length hnew
  have hpos := List.length_pos_iff.2 hne
  simp only [List.length_append] at hlen
  omega

/-- Once all of it has been sent, the frame on its way is there completely. -/
private theorem complete_of_sent (hE : E.littleEndian = true) {key : Key} {out input : Buffer} {socket : Bytes}
    {f : Frame} {active : Bool} (hc : Channel E n key out socket input [f])
    (hfair : Conversation.Fair E active [f]) (hout : out.unread = []) : Complete E (input.unread ++ socket) := by
  have hshort := hfair.short f (List.mem_singleton.2 rfl)
  obtain ⟨f', hf', hplain, -⟩ := hfair.readable.resolve_left (List.cons_ne_nil f [])
  obtain rfl := List.head_eq_of_cons_eq hf'
  have hbytes := hplain.onWire.1 (carriesFrames_singleton.1 hc.carries)
  rw [hout, List.append_nil] at hbytes
  rw [hbytes]
  exact Packet.complete_frame hE (by omega)

section Steps

variable (hE : E.littleEndian = true) (hA : E.AllocSucceeds) (hS : E.sodium.Lawful) (hn : n < 2 ^ 30)
  (h : Represents E clientKey serverKey n s a) (hclean : Clean E s) {r : Conversation.Round}
  (hr : Conversation.Underway clientKey serverKey r a)

include hE hA hS hn h hclean hr

/-- Every event moves bytes only, or is a step of the conversation. -/
theorem simulated_of_step (hstep : Careful E s s') : Simulated E clientKey serverKey n s a s' := by
  obtain ⟨hstep, hserver, hclient⟩ := hstep
  cases hstep with
  | clientRead pieces rest stop hin hrun =>
    exact ((clientRead_returns hE hA hn h hclean hr _ _ hS hin (hclient _ hin) stop).ensures _ _ hrun).1
  | clientWrite outcome hrun => exact ((clientWrite_returns h hclean outcome).ensures _ _ hrun).1
  | serverRead pieces rest stop hin hrun =>
    cases stop with
    | eof =>
      -- the connection is closed
      have hnone : Exec.Ensures (Server.read E s.server pieces .eof) s.serverWorld fun x _ => x = none := by
        unfold Server.read
        rw [if_neg (by rw [h.serverConnected]; decide)]
        refine .seq fun bufIn w1 => ?_
        show Exec.Ensures (Server.close { s.server with bufIn }) w1 _
        unfold Server.close
        rw [if_neg (by show ¬ s.server.disconnected = true; rw [h.serverConnected]; decide)]
        exact .seq fun _ _ => .seq fun _ _ => .seq fun _ _ => .seq fun _ _ => .pure rfl
      cases hnone _ _ hrun
    | error errno =>
      have hread := serverRead_returns hE hA hn h hclean hr _ _ hin (hserver _ hin) errno
      obtain ⟨d, hd, hsim, -⟩ := hread.ensures _ _ hrun
      cases hd
      exact hsim
  | serverWork hrun => exact ((serverWork_returns hA hS hn h hclean hr).ensures _ _ hrun).1
  | serverWrite outcome hrun => exact ((serverWrite_returns h hclean outcome).ensures _ _ hrun).1

/-- Somebody can go on: the bytes of the frame on its way are sent, and then read at once. -/
theorem exists_busy : ∃ s', Careful E s s' ∧ Busy s s' := by
  have hserver : ∀ new, s.toServer = new ++ s.toServer → Cut E (s.server.bufIn.unread ++ new) := by
    intro new hnew
    rw [List.self_eq_append_left.1 hnew, List.append_nil]
    exact hclean.server
  have hclient : ∀ new, s.toClient = new ++ s.toClient → Client.Cut E (s.client.bufIn.unread ++ new) := by
    intro new hnew
    rw [List.self_eq_append_left.1 hnew, List.append_nil]
    exact hclean.client
  have hfair := Conversation.Underway.fair (E := E) hr
  have hfromClient := h.toServer
  have hfromServer := h.toClient
  have hround := hr
  cases hr with
  | asked hwaits hin =>
    rw [hin] at hfair hfromClient
    by_cases hempty : s.client.bufOut.unread = []
    · have hcomplete := complete_of_sent hE hfromClient hfair.1 hempty
      obtain ⟨_, w, hrun, d, rfl, -, hpackets⟩ := serverRead_returns hE hA hn h hclean hround
        [s.toServer] [] (by simp) (fun _ => by simpa using hcomplete) EAGAIN
      refine ⟨_, ⟨.serverRead [s.toServer] [] (.error EAGAIN) (by simp) hrun, ?_, hclient⟩, .inr (.inr (.inl ?_))⟩
      · intro new hnew
        rw [show s.toServer = new from hnew.trans (List.append_nil new)] at hcomplete
        exact fun _ => hcomplete
      · exact hpackets rfl (by simpa using hcomplete.passes)
    · obtain ⟨⟨c, sent⟩, w, hrun, -, hall⟩ := clientWrite_returns h hclean (.ok s.client.bufOut.unread.length)
      obtain rfl : sent = _ := hall _ rfl (Nat.le_refl _)
      refine ⟨_, ⟨.clientWrite _ hrun, fun new hnew => absurd hnew (ne_append_sent hempty new), hclient⟩, .inl ?_⟩
      exact fun he => ne_append_sent hempty [] he.symm
  | read _ _ _ hqueue =>
    obtain ⟨d, w, hrun, -, hpackets⟩ := serverWork_returns hA hS hn h hclean hround
    have hne : s.server.packets ≠ [] := by
      rw [h.queue, hqueue]
      exact List.cons_ne_nil _ _
    exact ⟨_, ⟨.serverWork hrun, hserver, hclient⟩, .inr (.inr (.inl (hpackets hne)))⟩
  | taken _ _ _ _ hworker =>
    have hidle := h.worker
    rw [hworker] at hidle
    cases hidle
  | answered hwaits hin hout =>
    rw [hout] at hfair hfromServer
    by_cases hempty : s.server.bufOut.unread = []
    · have hcomplete := complete_of_sent hE hfromServer hfair.2 hempty
      obtain ⟨c, w, hrun, -, hpackets⟩ := clientRead_returns hE hA hn h hclean hround
        [s.toClient] [] hS (by simp) (fun _ => by simpa using hcomplete) (.error EAGAIN)
      refine ⟨_, ⟨.clientRead [s.toClient] [] (.error EAGAIN) (by simp) hrun, hserver, ?_⟩, .inr (.inr (.inr ?_))⟩
      · intro new hnew
        rw [show s.toClient = new from hnew.trans (List.append_nil new)] at hcomplete
        exact fun _ => hcomplete
      · exact hpackets rfl (by simpa using hcomplete.passes.client)
    · obtain ⟨⟨d, sent⟩, w, hrun, -, hall⟩ := serverWrite_returns h hclean (.ok s.server.bufOut.unread.length)
      obtain rfl : sent = _ := hall _ rfl (Nat.le_refl _)
      refine ⟨_, ⟨.serverWrite _ hrun, hserver, fun new hnew => absurd hnew (ne_append_sent hempty new)⟩,
        .inr (.inl ?_)⟩
      exact fun he => ne_append_sent hempty [] he.symm

end Steps

section Runs

variable (hE : E.littleEndian = true) (hA : E.AllocSucceeds) (hS : E.sodium.Lawful)
  {clientPair serverPair : EncryptPair}

/-- The handshake goes on, and `left` is more than what is left of it. -/
private def Handshaking (E : Env) (clientKey serverKey : Key) (left : Nat) (s : Session) : Prop :=
  ∃ n a r, Represents E clientKey serverKey n s a ∧ Clean E s ∧ Conversation.Underway clientKey serverKey r a ∧
    Reachable (· = Conversation.start) (Conversation.Step clientKey serverKey) a ∧
    n + 100 * a.stepsLeft ≤ 1600 ∧ 265 * a.stepsLeft + s.allPending = left

/-- The handshake is over. -/
def HandshakeOver (E : Env) (clientKey serverKey : Key) (s : Session) : Prop :=
  ∃ n a, Represents E clientKey serverKey n s a ∧ a.Completed ∧
    Reachable (· = Conversation.start) (Conversation.Step clientKey serverKey) a

private theorem reachable_of_steps {a' : Conversation}
    (h : Relation.ReflTransGen (Conversation.Step clientKey serverKey) a a')
    (ha : Reachable (· = Conversation.start) (Conversation.Step clientKey serverKey) a) :
    Reachable (· = Conversation.start) (Conversation.Step clientKey serverKey) a' := by
  induction h with
  | refl => exact ha
  | tail _ hstep ih => exact .step ih hstep

include hA in
private theorem handshaking_initial (h : Initial E clientPair serverPair s) :
    ∃ left, left ≤ 4239 ∧ Handshaking E clientPair.pkey serverPair.pkey left s := by
  obtain ⟨w, w1, c, outcome, hconnect, hgreet, ⟨w', hserver⟩, hnone⟩ := h
  obtain ⟨hrep, hclean⟩ := (initial_returns hA clientPair serverPair outcome hconnect hserver).ensures _ _ hgreet
  obtain ⟨client, server, toServer, toClient, clientWorld, serverWorld⟩ := s
  obtain rfl : toClient = [] := hnone
  have hunderway : Conversation.Underway clientPair.pkey serverPair.pkey .version .start :=
    Conversation.start_underway
  have hpending := pending_le hrep hunderway
  have hleft : Conversation.start.stepsLeft = 15 := rfl
  refine ⟨_, ?_, 100, _, _, hrep, hclean, hunderway, .start rfl, by omega, rfl⟩
  rw [hleft]
  exact Nat.add_le_add_left hpending _

include hE hA hS in
/-- A step moves the handshake on, and so do the bytes that move. -/
private theorem Handshaking.step {left : Nat} (h : Handshaking E clientKey serverKey left s)
    (hstep : Careful E s s') :
    HandshakeOver E clientKey serverKey s' ∨
      ∃ left', (Busy s s' → left' < left) ∧ Handshaking E clientKey serverKey left' s' := by
  obtain ⟨n, a, r, hrep, hclean, hr, hreach, hroom, rfl⟩ := h
  cases simulated_of_step hE hA hS (by omega) hrep hclean hr hstep with
  | stays hrep' hclean' hpending =>
    refine .inr ⟨_, fun hbusy => ?_, n, a, r, hrep', hclean', hr, hreach, hroom, rfl⟩
    have := hpending hbusy
    omega
  | @moves a' hrep' hclean' hsteps hnext =>
    have hreach' := reachable_of_steps hsteps hreach
    rcases hnext with hdone | ⟨⟨r', hr'⟩, hlt⟩
    · exact .inl ⟨n + 100, a', hrep', hdone, hreach'⟩
    · have hpending := pending_le hrep' hr'
      exact .inr ⟨_, fun _ => by omega, n + 100, a', r', hrep', hclean', hr', hreach', by omega, rfl⟩

/-- No event of a side comes to a fault, as long as it is a careful one. -/
structure Faultless (E : Env) (s : Session) : Prop where
  clientWrite : ∀ outcome, Exec.Returns (Client.write E s.client outcome) s.clientWorld fun _ _ => True
  serverWrite : ∀ outcome, Exec.Returns (Server.write E s.server outcome) s.serverWorld fun _ _ => True
  serverWork : Exec.Returns (Server.work E s.server) s.serverWorld fun _ _ => True
  clientRead : ∀ pieces rest stop, s.toClient = pieces.flatten ++ rest →
    Client.Cut E (s.client.bufIn.unread ++ pieces.flatten) →
      Exec.Returns (Client.read E (Client.defaultHandler E) s.client pieces stop) s.clientWorld fun _ _ => True
  serverRead : ∀ pieces rest errno, s.toServer = pieces.flatten ++ rest →
    Cut E (s.server.bufIn.unread ++ pieces.flatten) →
      Exec.Returns (Server.read E s.server pieces (.error errno)) s.serverWorld fun _ _ => True

include hE hA hS in
private theorem Handshaking.faultless {left : Nat} (h : Handshaking E clientKey serverKey left s) :
    Faultless E s := by
  obtain ⟨n, a, r, hrep, hclean, hr, hreach, hroom, rfl⟩ := h
  have hn : n < 2 ^ 30 := by omega
  refine ⟨?_, ?_, ?_, ?_, ?_⟩
  · exact fun outcome => (clientWrite_returns hrep hclean outcome).mono fun _ _ _ => trivial
  · exact fun outcome => (serverWrite_returns hrep hclean outcome).mono fun _ _ _ => trivial
  · exact (serverWork_returns hA hS hn hrep hclean hr).mono fun _ _ _ => trivial
  · exact fun pieces rest stop hin hcut =>
      (clientRead_returns hE hA hn hrep hclean hr _ _ hS hin hcut stop).mono fun _ _ _ => trivial
  · exact fun pieces rest errno hin hcut =>
      (serverRead_returns hE hA hn hrep hclean hr _ _ hin hcut errno).mono fun _ _ _ => trivial

/-- Until the client has finished the handshake, a session is at every time where some run of the conversation is, and
none of its events comes to a fault. -/
theorem session_refines (hE : E.littleEndian = true) (hA : E.AllocSucceeds) (hS : E.sodium.Lawful)
    {clientPair serverPair : EncryptPair}
    (h : Reachable (Initial E clientPair serverPair) (fun s s' => Careful E s s' ∧ s.client.state ≠ .body) s) :
    (∃ n a, Represents E clientPair.pkey serverPair.pkey n s a ∧
      Reachable (· = Conversation.start) (Conversation.Step clientPair.pkey serverPair.pkey) a) ∧
        (s.client.state ≠ .body → Faultless E s) := by
  have hall : HandshakeOver E clientPair.pkey serverPair.pkey s ∨
      ∃ left, Handshaking E clientPair.pkey serverPair.pkey left s := by
    refine h.invariant (I := fun s => HandshakeOver E _ _ s ∨ ∃ left, Handshaking E _ _ left s) ?_ ?_
    · intro s hs
      obtain ⟨left, -, hleft⟩ := handshaking_initial hA hs
      exact .inr ⟨left, hleft⟩
    · rintro s s' (⟨n, a, hrep, hdone, -⟩ | ⟨left, hs⟩) ⟨hstep, hbody⟩
      · exact absurd (hrep.client.trans hdone.client) hbody
      · exact (hs.step hE hA hS hstep).imp id fun ⟨left', _, hs'⟩ => ⟨left', hs'⟩
  rcases hall with ⟨n, a, hrep, hdone, hreach⟩ | ⟨left, hs⟩
  · exact ⟨⟨n, a, hrep, hreach⟩, fun hbody => absurd (hrep.client.trans hdone.client) hbody⟩
  · have hfaultless := hs.faultless hE hA hS
    obtain ⟨n, a, r, hrep, -, -, hreach, -⟩ := hs
    exact ⟨⟨n, a, hrep, hreach⟩, fun _ => hfaultless⟩

include hA in
private theorem exists_started (clientPair serverPair : EncryptPair) : ∃ s, Initial E clientPair serverPair s := by
  obtain ⟨d, wd, hserver, -⟩ := Server.connect_returns hA serverPair World.start
  obtain ⟨c, w1, hconnect, -⟩ := Client.connect_returns hA clientPair World.start
  obtain ⟨⟨c', bytes⟩, wc, hgreet, -⟩ := initial_returns hA clientPair serverPair (.ok 0) hconnect hserver
  exact ⟨⟨c', d, bytes, [], wc, wd⟩, _, _, c, .ok 0, hconnect, hgreet, ⟨_, hserver⟩, rfl⟩

/-- A host whose cipher is as documented. -/
def host : Env := { Env.amd64 0 with sodium := rotating }

private theorem host_allocSucceeds : host.AllocSucceeds := fun _ => rfl

private def ones : EncryptPair := ⟨Vector.replicate _ 1, Vector.replicate _ 1⟩

private def twos : EncryptPair := ⟨Vector.replicate _ 2, Vector.replicate _ 2⟩

/-- In some run all packets of the handshake are written, read and handled. -/
private theorem exists_finished : ∃ s,
    Reachable (Initial host ones twos) (fun s s' => Careful host s s' ∧ s.client.state ≠ .body) s ∧
      s.client.state = .body := by
  obtain ⟨s, hs⟩ := exists_started host_allocSucceeds ones twos
  obtain ⟨left, -, hleft⟩ := handshaking_initial host_allocSucceeds hs
  refine (Reachable.start hs).attains (I := Handshaking host ones.pkey twos.pkey) ?_ hleft
  intro left s hs hbody
  obtain ⟨n, a, r, hrep, hclean, hr, -, hroom, -⟩ := id hs
  obtain ⟨s', hstep, hbusy⟩ := exists_busy rfl host_allocSucceeds rotating_lawful (by omega) hrep hclean hr
  refine ⟨s', ⟨hstep, hbody⟩, ?_⟩
  rcases hs.step rfl host_allocSucceeds rotating_lawful hstep with ⟨n', a', hrep', hdone, -⟩ | ⟨left', hlt, hs'⟩
  · exact .inl (hrep'.client.trans hdone.client)
  · exact .inr ⟨left', hlt hbusy, hs'⟩

/-- With pairs of ones and twos, at the end of a handshake. -/
theorem session_refines_ones :
    ∃ s, Reachable (Initial host ones twos) (fun s s' => Careful host s s' ∧ s.client.state ≠ .body) s ∧
      s.client.state = .body ∧ (∃ n a, Represents host ones.pkey twos.pkey n s a ∧
        Reachable (· = Conversation.start) (Conversation.Step ones.pkey twos.pkey) a) ∧
          (s.client.state ≠ .body → Faultless host s) := by
  obtain ⟨s, hs, hbody⟩ := exists_finished
  exact ⟨s, hs, hbody, session_refines (E := host) rfl host_allocSucceeds rotating_lawful hs⟩

/-- A session whose events are careful, and which goes on as long as somebody can move a byte or handle a packet,
completes the handshake after a bounded number of events, however they interleave and cut the bytes into pieces. -/
theorem session_completes (hE : E.littleEndian = true) (hA : E.AllocSucceeds) (hS : E.sodium.Lawful)
    {clientPair serverPair : EncryptPair} {run : Nat → Session}
    (hrun : Exhaustive (fun s s' => Careful E s s' ∧ Busy s s') run)
    (hstart : Initial E clientPair serverPair (run 0)) :
    ∃ k, k ≤ 4239 ∧ HandshakeOver E clientPair.pkey serverPair.pkey (run k) := by
  obtain ⟨left, hleft, hs⟩ := handshaking_initial hA hstart
  have hpos : ∀ left s, Handshaking E clientPair.pkey serverPair.pkey left s → 0 < left := by
    rintro left s ⟨n, a, r, -, -, hr, -, -, rfl⟩
    have := hr.stepsLeft_pos
    omega
  have hlive : ∀ left s, Handshaking E clientPair.pkey serverPair.pkey left s → ∃ s', Careful E s s' ∧ Busy s s' := by
    rintro left s ⟨n, a, r, hrep, hclean, hr, -, hroom, -⟩
    exact exists_busy hE hA hS (by omega) hrep hclean hr
  obtain ⟨k, hk, hover⟩ := hrun.attains_within hpos hlive (D := HandshakeOver E clientPair.pkey serverPair.pkey)
    (fun left s s' hs ⟨hstep, hbusy⟩ => (hs.step hE hA hS hstep).imp id
      fun ⟨left', hlt, hs'⟩ => ⟨left', hlt hbusy, hs'⟩) hs
  exact ⟨k, Nat.le_trans hk hleft, hover⟩

/-- With pairs of ones and twos. -/
theorem session_completes_ones :
    ∃ run, Exhaustive (fun s s' => Careful host s s' ∧ Busy s s') run ∧
      Initial host ones twos (run 0) ∧ ∃ k, k ≤ 4239 ∧ HandshakeOver host ones.pkey twos.pkey (run k) := by
  obtain ⟨s, hs⟩ := exists_started host_allocSucceeds ones twos
  obtain ⟨run, hrun, rfl⟩ := Exhaustive.exists_run (fun s s' => Careful host s s' ∧ Busy s s') s
  exact ⟨run, hrun, hs, session_completes (E := host) rfl host_allocSucceeds rotating_lawful hrun hs⟩

end Runs

end Session

end Excom
