import Excom.Handshake

/-!
# The order of the handshake

The packets that the server handles for one connection (`Server.History`) take its state through the handshake
one step at a time.  `handshake_order`: the state says which packets came before, encryption is on in its last
two states, a packet gets at most one reply, under its own id, and a command is looked at only behind the
whole handshake.
-/

namespace Excom.Server

variable {E : Env}

/-! ### The packets of the handshake -/

/-- A `protocol_version` packet that the server accepts -/
def Acceptable (raw : Packet) : Prop := packetType? raw.type = some .protocolVersion ∧ ¬ Incompatible raw

/-- A `public_key` packet with a key of `crypto_box_PUBLICKEYBYTES` bytes -/
def IsKey (raw : Packet) : Prop :=
  packetType? raw.type = some .publicKey ∧ (raw.stringAt 0).size.toNat = cryptoBoxPublicKeyBytes

def IsPing (raw : Packet) : Prop := packetType? raw.type = some .ping

/-- The next state of the handshake -/
def next? : ProtocolState → Option ProtocolState
  | .prehandshake => some .preencrypt
  | .preencrypt => some .encrypt
  | .encrypt => some .body
  | .body | .preclose | .invalid => none

/-- Encryption is on from `encrypt` on. -/
def active : ProtocolState → Bool
  | .encrypt | .body => true
  | .prehandshake | .preencrypt | .preclose | .invalid => false

/-- What the packets handled so far contain, in this order, when the connection is in the given state. -/
def Passed (raws : List Packet) : ProtocolState → Prop
  | .prehandshake => True
  | .preencrypt => ∃ v, Acceptable v ∧ List.Sublist [v] raws
  | .encrypt => ∃ v k, Acceptable v ∧ IsKey k ∧ List.Sublist [v, k] raws
  | .body => ∃ v k p, Acceptable v ∧ IsKey k ∧ IsPing p ∧ List.Sublist [v, k, p] raws
  | .preclose | .invalid => False

/-- Further packets do not take back what has been passed. -/
theorem Passed.snoc {raws : List Packet} {state : ProtocolState} (h : Passed raws state) (raw : Packet) :
    Passed (raws ++ [raw]) state := by
  have hsub : List.Sublist raws (raws ++ [raw]) := List.sublist_append_left ..
  cases state with
  | prehandshake => trivial
  | preencrypt =>
    obtain ⟨v, hv, hs⟩ := h
    exact ⟨v, hv, hs.trans hsub⟩
  | encrypt =>
    obtain ⟨v, k, hv, hk, hs⟩ := h
    exact ⟨v, k, hv, hk, hs.trans hsub⟩
  | body =>
    obtain ⟨v, k, p, hv, hk, hp, hs⟩ := h
    exact ⟨v, k, p, hv, hk, hp, hs.trans hsub⟩
  | preclose | invalid => exact h.elim

/-! ### One packet -/

/-- The reaction to a packet, as far as the handshake is concerned: the connection stays where it is, or the
packet is the one that the next state takes. -/
inductive Moves (raw : Packet) : ProtocolState → ProtocolState → Bool → Prop where
  | stay (state : ProtocolState) : Moves raw state state false
  | version (h : Acceptable raw) : Moves raw .prehandshake .preencrypt false
  | key (h : IsKey raw) : Moves raw .preencrypt .encrypt true
  | ping (h : IsPing raw) : Moves raw .encrypt .body false

private theorem moves_require {raw : Packet} {state level : ProtocolState} {rest : Reaction}
    (h : state = level → Moves raw state rest.state rest.activates) :
    Moves raw state (Reaction.require raw state level rest).state
      (Reaction.require raw state level rest).activates := by
  unfold Reaction.require
  split
  · exact .stay state
  · rename_i hstate
    exact h (not_not.1 hstate)

/-- A reaction of the server stays in its state, or moves on with the packet that this state waits for. -/
theorem react_moves (state : ProtocolState) (own : Key) (raw : Packet) :
    Moves raw state (react state own raw).state (react state own raw).activates := by
  unfold react
  rcases htype : packetType? raw.type with _ | t
  · exact .stay state
  cases t with
  | ok | reject | error | pong => exact .stay state
  | protocolVersion =>
    apply moves_require
    intro hstate
    subst hstate
    split
    · exact .stay _
    · rename_i hversion
      exact .version ⟨htype, hversion⟩
  | ping =>
    show Moves raw state (if state = .encrypt then _ else state) false
    split
    · rename_i hstate
      subst hstate
      exact .ping htype
    · exact .stay state
  | publicKey =>
    apply moves_require
    intro hstate
    subst hstate
    split
    · exact .stay _
    · rename_i hsize
      exact .key ⟨htype, not_not.1 hsize⟩
  | command | commandResponse =>
    apply moves_require
    intro _
    exact .stay state

private theorem require_reply {raw : Packet} {state level : ProtocolState} {rest : Reaction}
    (h : ∀ p ∈ rest.reply, p.id = raw.id) :
    ∀ p ∈ (Reaction.require raw state level rest).reply, p.id = raw.id := by
  unfold Reaction.require
  split
  · intro p hp
    cases hp; rfl
  · exact h

private theorem react_reply (state : ProtocolState) (own : Key) (raw : Packet) :
    ∀ p ∈ (react state own raw).reply, p.id = raw.id := by
  unfold react
  rcases packetType? raw.type with _ | t
  · intro p hp
    cases hp
  cases t with
  | ok | reject | error | pong =>
    intro p hp
    cases hp
  | ping =>
    intro p hp
    cases hp; rfl
  | protocolVersion | publicKey =>
    apply require_reply
    intro p hp
    split at hp <;> cases hp <;> rfl
  | command | commandResponse =>
    apply require_reply
    intro p hp
    cases hp

private theorem react_inspects {state : ProtocolState} {own : Key} {raw : Packet}
    (h : (react state own raw).inspects = true) : packetType? raw.type = some .command ∧ state = .body := by
  unfold react at h
  rcases htype : packetType? raw.type with _ | t
  · rw [htype] at h
    cases h
  rw [htype] at h
  cases t with
  | ok | reject | error | pong | ping => cases h
  | protocolVersion | publicKey =>
    simp only [Reaction.require] at h
    split at h
    · cases h
    · split at h <;> cases h
  | commandResponse =>
    simp only [Reaction.require] at h
    split at h <;> cases h
  | command =>
    simp only [Reaction.require] at h
    split at h
    · cases h
    · rename_i hstate
      exact ⟨rfl, not_not.1 hstate⟩

/-- A move goes to the next state at most. -/
theorem Moves.next {raw : Packet} {state state' : ProtocolState} {b : Bool} (h : Moves raw state state' b) :
    state' = state ∨ next? state = some state' := by
  cases h with
  | stay => exact .inl rfl
  | version | key | ping => exact .inr rfl

/-- Encryption is active exactly in the states that say so. -/
theorem Moves.active {raw : Packet} {state state' : ProtocolState} {b : Bool} (h : Moves raw state state' b) :
    (b || Server.active state) = Server.active state' := by
  cases h <;> rfl

theorem Moves.passed {raw : Packet} {state state' : ProtocolState} {b : Bool} (h : Moves raw state state' b)
    {raws : List Packet} (hp : Passed raws state) : Passed (raws ++ [raw]) state' := by
  cases h with
  | stay => exact hp.snoc raw
  | version h => exact ⟨raw, h, List.sublist_append_right ..⟩
  | key h =>
    obtain ⟨v, hv, hs⟩ := hp
    exact ⟨v, raw, hv, h, hs.append (.refl [raw])⟩
  | ping h =>
    obtain ⟨v, k, hv, hk, hs⟩ := hp
    exact ⟨v, k, raw, hv, hk, h, hs.append (.refl [raw])⟩

/-! ### All packets of a connection -/

/-- The worker handles the packets of a connection; in between, the rest of the program may do anything to the
connection but to its state and to `keys.remote.active`, which only the handlers write. -/
inductive History (E : Env) : List Packet → ClientData → Prop where
  | start {d : ClientData} (hstate : d.state = .prehandshake) (hactive : d.keys.remote.active = false) :
      History E [] d
  | handle {raws : List Packet} {d d' : ClientData} {raw : Packet} {w w' : World} (h : History E raws d)
      (hrun : handlePacket E d raw w = .ok (d', w')) : History E (raws ++ [raw]) d'
  | other {raws : List Packet} {d d' : ClientData} (h : History E raws d) (hstate : d'.state = d.state)
      (hactive : d'.keys.remote.active = d.keys.remote.active) : History E raws d'

/-- A handler makes such a move. -/
theorem handlePacket_moves {d d' : ClientData} {raw : Packet} {w w' : World}
    (hrun : handlePacket E d raw w = .ok (d', w')) :
    ∃ b, Moves raw d.state d'.state b ∧ d'.keys.remote.active = (b || d.keys.remote.active) := by
  rw [handlePacket_eq] at hrun
  obtain ⟨hstate, hactive⟩ := perform_ensures E d raw _ w _ _ hrun
  have hmoves := react_moves d.state d.keys.localPair.pkey raw
  rw [← hstate] at hmoves
  exact ⟨_, hmoves, hactive⟩

/-- A connection is in a state only after the packets that lead to it. -/
theorem History.passed {raws : List Packet} {d : ClientData} (h : History E raws d) :
    Passed raws d.state ∧ d.keys.remote.active = Server.active d.state := by
  induction h with
  | start hstate hactive =>
    rw [hstate, hactive]
    exact ⟨trivial, rfl⟩
  | handle _ hrun ih =>
    obtain ⟨b, hmoves, hactive⟩ := handlePacket_moves hrun
    refine ⟨hmoves.passed ih.1, ?_⟩
    rw [hactive, ih.2]
    exact hmoves.active
  | other _ hstate hactive ih =>
    rw [hstate, hactive]
    exact ih

/-- What the server does with one packet, after the packets `raws`. -/
structure Ordered (E : Env) (raws : List Packet) (d : ClientData) (raw : Packet) : Prop where
  /-- What the handler does is the reaction that the next fields are about. -/
  run : handlePacket E d raw = perform E d raw (react d.state d.keys.localPair.pkey raw)
  moves : ∀ w d' w', handlePacket E d raw w = .ok (d', w') → d'.state = d.state ∨ next? d.state = some d'.state
  reply : ∀ p ∈ (react d.state d.keys.localPair.pkey raw).reply, p.id = raw.id
  command : (react d.state d.keys.localPair.pkey raw).inspects = true →
    packetType? raw.type = some .command ∧
      ∃ v k p, Acceptable v ∧ IsKey k ∧ IsPing p ∧ List.Sublist [v, k, p] raws

/-- Whatever packets arrive: encryption is on exactly in the last two states of the handshake, and the next
packet is handled in order. -/
theorem handshake_order {raws : List Packet} {d : ClientData} (h : History E raws d) :
    (d.keys.remote.active = true ↔ d.state = .encrypt ∨ d.state = .body) ∧ ∀ raw, Ordered E raws d raw := by
  obtain ⟨hpassed, hactive⟩ := h.passed
  constructor
  · rw [hactive]
    cases d.state <;> simp [Server.active]
  intro raw
  refine ⟨handlePacket_eq E d raw, ?_, react_reply _ _ raw, ?_⟩
  · intro w d' w' hrun
    obtain ⟨b, hmoves, _⟩ := handlePacket_moves hrun
    exact hmoves.next
  · intro hinspects
    obtain ⟨htype, hstate⟩ := react_inspects hinspects
    rw [hstate] at hpassed
    exact ⟨htype, hpassed⟩

private theorem History.all {raws raws' : List Packet} {d d' : ClientData} {w w' : World} (h : History E raws d)
    (hrun : raws'.foldlM (handlePacket E) d w = .ok (d', w')) : History E (raws ++ raws') d' := by
  induction raws' generalizing raws d w with
  | nil =>
    cases hrun
    rw [List.append_nil]
    exact h
  | cons raw raws' ih =>
    rw [List.foldlM_cons] at hrun
    obtain ⟨d1, w1, h1, h2⟩ := Exec.bind_eq_ok.1 hrun
    rw [List.append_cons]
    exact ih (.handle h h1) h2

/-- A connection that three packets have led to the last state. -/
theorem handshake_order_body :
    ∃ raws d, d.state = .body ∧
      (d.keys.remote.active = true ↔ d.state = .encrypt ∨ d.state = .body) ∧
      ∀ raw, Ordered (Env.amd64 0) raws d raw := by
  let key : Key := Vector.replicate _ 1
  let raws : List Packet := [Client.version, ⟨0, 2, PacketType.publicKey.id, publicKeyField key⟩,
    ⟨0, 3, PacketType.ping.id, []⟩]
  let run : M ClientData := connect (Env.amd64 0) ⟨key, key⟩ >>= raws.foldlM (handlePacket (Env.amd64 0))
  have hrun : ∃ d w, run World.start = .ok (d, w) ∧ d.state = .body := by
    have h : (run World.start).toOption.map (fun r => r.1.state) = some .body := by decide +kernel
    rcases hr : run World.start with e | ⟨d, w⟩
    · rw [hr] at h
      cases h
    · rw [hr] at h
      exact ⟨d, w, rfl, Option.some.inj h⟩
  obtain ⟨d, w, hrun, hstate⟩ := hrun
  obtain ⟨d0, w0, h0, h1⟩ := Exec.bind_eq_ok.1 hrun
  have hstart : d0.state = .prehandshake ∧ d0.keys.remote.active = false := by
    cases h0
    exact ⟨rfl, rfl⟩
  exact ⟨raws, d, hstate, handshake_order (History.all (.start hstart.1 hstart.2) h1)⟩

end Excom.Server
