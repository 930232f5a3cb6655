import Excom.Handshake
import Excom.Lib.Transition

/-!
# Conversations that end

The default handlers of both sides answer each other's packets, in any states and from any packets on their way.
A packet brings about an answer of a lower rank only (`Server.rank_reply`, `Client.rank_reply`), so there is an
end to it: `quiesces`.
-/

namespace Excom

/-- The number of packets that a packet of the given type can bring about at the server, with itself. -/
def Server.rank : Option PacketType → Nat
  | some .protocolVersion => 8
  | some .publicKey => 6
  | some .ping => 4
  | some .command | some .commandResponse => 2
  | some .ok | some .reject | some .error | some .pong | none => 1

/-- The number of packets that it can bring about at the client. -/
def Client.rank : Option PacketType → Nat
  | some .ok => 7
  | some .publicKey => 5
  | some .pong => 3
  | some .protocolVersion => 2
  | some .reject | some .error | some .ping | some .command | some .commandResponse | none => 1

/-- A client and a connection of the server, and the packets on their way. -/
structure Exchange where
  client : ProtocolState
  server : ProtocolState
  toServer : List Packet
  toClient : List Packet

namespace Exchange

variable (clientKey serverKey : Key)

/-- The next packet of a channel is handled, and the answer goes into the other one, or is lost when it cannot be
written.  The header is never encrypted, so the type is the one that was sent; a body that is read in the wrong
mode may be anything. -/
inductive Deliver : Exchange → Exchange → Prop where
  | server {s : Exchange} {p : Packet} {rest : List Packet} (raw : Packet) {posted : Option Packet}
      (hin : s.toServer = p :: rest) (htype : raw.type = p.type)
      (hposted : posted = (Server.react s.server serverKey raw).reply ∨ posted = none) :
      Deliver s { s with
        server := (Server.react s.server serverKey raw).state
        toServer := rest, toClient := s.toClient ++ posted.toList }
  | client {s : Exchange} {p : Packet} {rest : List Packet} (raw : Packet) {posted : Option Packet}
      (hin : s.toClient = p :: rest) (htype : raw.type = p.type)
      (hposted : posted = (Client.react s.client clientKey raw).reply ∨ posted = none) :
      Deliver s { s with
        client := (Client.react s.client clientKey raw).state
        toClient := rest, toServer := s.toServer ++ posted.toList }

/-- One of the runs: the packets to the server are delivered first, as they are. -/
def next (s : Exchange) : Exchange :=
  match s.toServer, s.toClient with
  | p :: rest, _ =>
    let r := Server.react s.server serverKey p
    { s with server := r.state, toServer := rest, toClient := s.toClient ++ r.reply.toList }
  | [], p :: rest =>
    let r := Client.react s.client clientKey p
    { s with client := r.state, toClient := rest, toServer := s.toServer ++ r.reply.toList }
  | [], [] => s

end Exchange

/-! ### The ranks of the answers -/

/-- The rank of the answer, if there is one -/
def Reaction.replyRank (rank : Option PacketType → Nat) (r : Reaction) : Nat :=
  match r.reply with
  | none => 0
  | some p => rank (packetType? p.type)

private theorem replyRank_answer (rank : Option PacketType → Nat) (raw : Packet) (t : PacketType)
    (data : List Value) (state : ProtocolState) :
    (Reaction.answer raw t data state).replyRank rank = rank (some t) := by
  show rank (packetType? t.id) = rank (some t)
  rw [packetType?_id]

/-- A packet in the wrong state is answered with an error. -/
private theorem replyRank_require_lt {rank : Option PacketType → Nat} {raw : Packet} {state level : ProtocolState}
    {r : Reaction} {n : Nat} (herror : rank (some .error) < n) (h : r.replyRank rank < n) :
    (Reaction.require raw state level r).replyRank rank < n := by
  unfold Reaction.require Reaction.error
  split
  · rw [replyRank_answer]
    exact herror
  · exact h

private theorem Server.rank_pos (t : Option PacketType) : 0 < Server.rank t := by
  rcases t with _ | t
  · decide
  · cases t <;> decide

private theorem Client.rank_pos (t : Option PacketType) : 0 < Client.rank t := by
  rcases t with _ | t
  · decide
  · cases t <;> decide

/-- What the server answers ranks lower at the client than what it answers to. -/
theorem Server.replyRank_lt (state : ProtocolState) (own : Key) (raw : Packet) :
    (Server.react state own raw).replyRank Client.rank < Server.rank (packetType? raw.type) := by
  have hpos := Server.rank_pos (packetType? raw.type)
  unfold Server.react
  rcases htype : packetType? raw.type with _ | t
  · rw [htype] at hpos
    exact hpos
  rw [htype] at hpos
  cases t with
  | ok | reject | error | pong => exact hpos
  | protocolVersion =>
    apply replyRank_require_lt (by decide)
    split <;> rw [replyRank_answer] <;> decide
  | ping =>
    rw [replyRank_answer]
    decide
  | publicKey =>
    apply replyRank_require_lt (by decide)
    split
    · unfold Reaction.error
      rw [replyRank_answer]
      decide
    · show (Reaction.answer raw .publicKey (publicKeyField own) .encrypt).replyRank Client.rank < _
      rw [replyRank_answer]
      decide
  | command => exact replyRank_require_lt (by decide) hpos
  | commandResponse => exact replyRank_require_lt (by decide) hpos

/-- What the client answers ranks lower at the server than what it answers to. -/
theorem Client.replyRank_lt (state : ProtocolState) (own : Key) (raw : Packet) :
    (Client.react state own raw).replyRank Server.rank < Client.rank (packetType? raw.type) := by
  have hpos := Client.rank_pos (packetType? raw.type)
  unfold Client.react
  rcases htype : packetType? raw.type with _ | t
  · rw [htype] at hpos
    exact hpos
  rw [htype] at hpos
  cases t with
  | reject | error | ping | command | commandResponse => exact hpos
  | ok =>
    show Reaction.replyRank _ (if _ then _ else _) < _
    split
    · rw [replyRank_answer]
      decide
    · exact hpos
  | protocolVersion =>
    unfold Reaction.error
    rw [replyRank_answer]
    decide
  | pong =>
    show Reaction.replyRank _ (if _ then _ else _) < _
    split
    · rw [replyRank_answer]
      decide
    · exact hpos
  | publicKey =>
    apply replyRank_require_lt (by decide)
    split
    · unfold Reaction.error
      rw [replyRank_answer]
      decide
    · show (Reaction.answer raw .ping [] .encrypt).replyRank Server.rank < _
      rw [replyRank_answer]
      decide

/-! ### The packets on their way -/

/-- The ranks of the packets in a channel, all together -/
def channelRank (rank : Option PacketType → Nat) (ps : List Packet) : Nat :=
  (ps.map fun p => rank (packetType? p.type)).sum

private theorem channelRank_cons (rank : Option PacketType → Nat) (p : Packet) (ps : List Packet) :
    channelRank rank (p :: ps) = rank (packetType? p.type) + channelRank rank ps := by
  simp [channelRank]

private theorem channelRank_post (rank : Option PacketType → Nat) (ps : List Packet) {r : Reaction}
    {posted : Option Packet} (hposted : posted = r.reply ∨ posted = none) :
    channelRank rank (ps ++ posted.toList) ≤ channelRank rank ps + r.replyRank rank := by
  rcases hposted with rfl | rfl
  · unfold channelRank Reaction.replyRank
    rcases r.reply with _ | p <;> simp
  · simp

namespace Exchange

/-- All that the packets on their way can bring about -/
def load (s : Exchange) : Nat := channelRank Server.rank s.toServer + channelRank Client.rank s.toClient

def Quiet (s : Exchange) : Prop := s.toServer = [] ∧ s.toClient = []

variable {clientKey serverKey : Key} {s s' : Exchange}

private theorem Deliver.load_lt (h : Deliver clientKey serverKey s s') : s'.load < s.load := by
  cases h with
  | server raw hin htype hposted =>
    have hlt := Server.replyRank_lt s.server serverKey raw
    rw [htype] at hlt
    have hle := channelRank_post Client.rank s.toClient hposted
    simp only [load, hin, channelRank_cons]
    omega
  | client raw hin htype hposted =>
    have hlt := Client.replyRank_lt s.client clientKey raw
    rw [htype] at hlt
    have hle := channelRank_post Server.rank s.toServer hposted
    simp only [load, hin, channelRank_cons]
    omega

/-- As long as there is a packet on its way, it can be delivered. -/
theorem quiet_of_stuck (h : ∀ s', ¬ Deliver clientKey serverKey s s') : s.Quiet := by
  constructor
  · rcases hin : s.toServer with _ | ⟨p, rest⟩
    · rfl
    · exact absurd (.server p hin rfl (.inl rfl)) (h _)
  · rcases hin : s.toClient with _ | ⟨p, rest⟩
    · rfl
    · exact absurd (.client p hin rfl (.inl rfl)) (h _)

/-- From any states of the two sides and any packets on their way, and in whichever order these are delivered,
there is an end to the packets, after no more deliveries than `load` says. -/
theorem quiesces {run : Nat → Exchange} (hrun : Exhaustive (Deliver clientKey serverKey) run) :
    ∃ k, k ≤ (run 0).load ∧ (run k).Quiet := by
  obtain ⟨k, hk, -, hstuck⟩ := hrun.halts (I := fun _ => True) (fun _ _ _ h => ⟨trivial, h.load_lt⟩) trivial
  exact ⟨k, hk, quiet_of_stuck hstuck⟩

private theorem deliver_next (s : Exchange) :
    Deliver clientKey serverKey s (next clientKey serverKey s) ∨ ∀ s', ¬ Deliver clientKey serverKey s s' := by
  unfold next
  rcases hserver : s.toServer with _ | ⟨p, rest⟩
  · rcases hclient : s.toClient with _ | ⟨p, rest⟩
    · right
      intro s' h
      cases h with
      | server raw hin => rw [hserver] at hin; cases hin
      | client raw hin => rw [hclient] at hin; cases hin
    · left
      have h : Deliver clientKey serverKey s _ := .client p hclient rfl (.inl rfl)
      rw [hserver] at h
      exact h
  · exact .inl (.server p hserver rfl (.inl rfl))

/-- A `PING` to a server in its first state, of a client that waits for the `PONG`: the client goes on with a
command, and the server refuses it.  These are four deliveries. -/
def pingAndCommand : Exchange :=
  { client := .encrypt, server := .prehandshake, toServer := [⟨0, 1, PacketType.ping.id, []⟩], toClient := [] }

/-- With a ping and a command nothing is left to do after at most four steps. -/
theorem quiesces_ping :
    ∃ k, k ≤ 4 ∧ ((next (Vector.replicate _ 1) (Vector.replicate _ 2))^[k] pingAndCommand).Quiet :=
  quiesces (.iterate deliver_next pingAndCommand)

end Exchange

end Excom
