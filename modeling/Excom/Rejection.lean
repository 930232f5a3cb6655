import Excom.HandshakeOrder

/-!
# Rejected connections

What the handlers of both sides make of a connection that was rejected: nothing.  No handler sets the state
`EXCOM_PROTOCOL_STATE_INVALID` (`Endpoint.Run.valid`), the state does not change when a rejection is handled
or sent (`Endpoint.Run.ignored`), and so a run in which there is one does not end dead (`rejected_dead_iff`).
-/

namespace Excom

/-- One side of a connection: its state, its handler, and which packets reject the connection. -/
structure Endpoint (σ : Type) where
  state : σ → ProtocolState
  handle : σ → Packet → M σ
  Rejects : ProtocolState → Packet → Prop

/-- The server is told of a rejection, or it rejects the version of the client. -/
def Server.endpoint (E : Env) : Endpoint Server.ClientData where
  state := ClientData.state
  handle := Server.handlePacket E
  Rejects state raw := packetType? raw.type = some .reject ∨
    packetType? raw.type = some .protocolVersion ∧ state = .prehandshake ∧ Incompatible raw

def Client.endpoint (E : Env) : Endpoint Client.ExcomClient where
  state := ExcomClient.state
  handle c raw := Client.defaultHandler E raw c
  Rejects _ raw := packetType? raw.type = some .reject

/-- A packet that was handled, with the states before and afterwards -/
structure Handled where
  packet : Packet
  before : ProtocolState
  after : ProtocolState

namespace Endpoint

variable {σ : Type} {e : Endpoint σ} {s : σ} {ts : List Handled}

/-- The packets that one side has handled.  In between, anything may happen to it but to its state. -/
inductive Run (e : Endpoint σ) : σ → List Handled → Prop where
  | start {s : σ} (h : e.state s = .prehandshake) : Run e s []
  | handle {s s' : σ} {ts : List Handled} {raw : Packet} {w w' : World} (h : Run e s ts)
      (hrun : e.handle s raw w = .ok (s', w')) : Run e s' (ts ++ [⟨raw, e.state s, e.state s'⟩])
  | other {s s' : σ} {ts : List Handled} (h : Run e s ts) (hstate : e.state s' = e.state s) : Run e s' ts

/-- From the first rejection on, the connection is dead. -/
def Dead (e : Endpoint σ) (ts : List Handled) : Prop :=
  ∀ xs t ys, ts = xs ++ t :: ys → e.Rejects t.before t.packet → ∀ u ∈ t :: ys, u.after = .invalid

/-- A handler that never gives up the connection. -/
structure Forgiving (e : Endpoint σ) : Prop where
  valid {s s' : σ} {raw : Packet} {w w' : World} : e.handle s raw w = .ok (s', w') → e.state s ≠ .invalid →
    e.state s' ≠ .invalid
  ignored {s s' : σ} {raw : Packet} {w w' : World} : e.handle s raw w = .ok (s', w') →
    e.Rejects (e.state s) raw → e.state s' = e.state s

/-- In a run of a side that forgives the state is never `INVALID`. -/
theorem Run.valid (he : e.Forgiving) (h : e.Run s ts) :
    e.state s ≠ .invalid ∧ ∀ t ∈ ts, t.after ≠ .invalid := by
  induction h with
  | start h =>
    rw [h]
    exact ⟨by decide, by simp⟩
  | handle _ hrun ih =>
    have hvalid := he.valid hrun ih.1
    refine ⟨hvalid, ?_⟩
    intro t ht
    rcases List.mem_append.1 ht with ht | ht
    · exact ih.2 t ht
    · rw [List.mem_singleton.1 ht]
      exact hvalid
  | other _ hstate ih =>
    rw [hstate]
    exact ih

/-- A rejection has no effect on the state. -/
theorem Run.ignored (he : e.Forgiving) (h : e.Run s ts) :
    ∀ t ∈ ts, e.Rejects t.before t.packet → t.after = t.before := by
  induction h with
  | start _ => simp
  | handle _ hrun ih =>
    intro t ht hrejects
    rcases List.mem_append.1 ht with ht | ht
    · exact ih t ht hrejects
    · rw [List.mem_singleton.1 ht] at hrejects ⊢
      exact he.ignored hrun hrejects
  | other _ _ ih => exact ih

private theorem Run.dead_iff (he : e.Forgiving) (h : e.Run s ts) :
    e.Dead ts ↔ ∀ t ∈ ts, ¬ e.Rejects t.before t.packet := by
  constructor
  · intro hdead t ht hrejects
    obtain ⟨xs, ys, hts⟩ := List.append_of_mem ht
    exact (h.valid he).2 t ht (hdead xs t ys hts hrejects t (by simp))
  · intro hnone xs t ys hts hrejects
    exact absurd hrejects (hnone t (by rw [hts]; simp))

end Endpoint

/-! ### The server -/

private theorem Server.Moves.rejected {E : Env} {raw : Packet} {state state' : ProtocolState} {b : Bool}
    (h : Server.Moves raw state state' b) (hrejects : (Server.endpoint E).Rejects state raw) :
    state' = state := by
  cases h with
  | stay => rfl
  | version h =>
    rcases hrejects with htype | ⟨_, _, hversion⟩
    · rw [h.1] at htype
      cases htype
    · exact absurd hversion h.2
  | key h =>
    rcases hrejects with htype | ⟨htype, _⟩ <;> rw [h.1] at htype <;> cases htype
  | ping h =>
    unfold Server.IsPing at h
    rcases hrejects with htype | ⟨htype, _⟩ <;> rw [h] at htype <;> cases htype

private theorem Server.forgiving (E : Env) : (Server.endpoint E).Forgiving where
  valid {s s' raw w w'} hrun hvalid := by
    obtain ⟨b, hmoves, _⟩ := handlePacket_moves hrun
    show s'.state ≠ .invalid
    have hvalid : s.state ≠ .invalid := hvalid
    generalize s.state = state at hmoves hvalid
    generalize s'.state = state' at hmoves
    cases hmoves with
    | stay => exact hvalid
    | version | key | ping => decide
  ignored hrun hrejects := by
    obtain ⟨b, hmoves, _⟩ := handlePacket_moves hrun
    exact hmoves.rejected hrejects

/-! ### The client -/

private theorem Client.require_valid {raw : Packet} {state level : ProtocolState} {rest : Reaction}
    (hstate : state ≠ .invalid) (h : rest.state ≠ .invalid) :
    (Reaction.require raw state level rest).state ≠ .invalid := by
  unfold Reaction.require
  split
  · exact hstate
  · exact h

private theorem Client.react_valid {state : ProtocolState} (own : Key) (raw : Packet) (h : state ≠ .invalid) :
    (Client.react state own raw).state ≠ .invalid := by
  unfold Client.react
  rcases packetType? raw.type with _ | t
  · exact h
  cases t with
  | reject | error | ping | command | commandResponse | protocolVersion => exact h
  | ok | pong =>
    dsimp only
    split
    · exact nofun
    · exact h
  | publicKey =>
    apply Client.require_valid h
    split
    · exact h
    · exact nofun

private theorem Client.forgiving (E : Env) : (Client.endpoint E).Forgiving where
  valid {s s' raw w w'} hrun hvalid := by
    have hrun : defaultHandler E raw s w = .ok (s', w') := hrun
    rw [defaultHandler_eq] at hrun
    have hstate : s'.state = _ := (perform_ensures E s raw _ w _ _ hrun).1
    show s'.state ≠ .invalid
    rw [hstate]
    exact react_valid _ raw hvalid
  ignored {s s' raw w w'} hrun hrejects := by
    have hrun : defaultHandler E raw s w = .ok (s', w') := hrun
    have htype : packetType? raw.type = some .reject := hrejects
    unfold defaultHandler at hrun
    rw [htype] at hrun
    cases hrun
    rfl

/-! ### Both sides -/

/-- On both sides, a run ends dead exactly when there was no rejection in it. -/
theorem rejected_dead_iff (E : Env) :
    (∀ d ts, (Server.endpoint E).Run d ts →
      ((Server.endpoint E).Dead ts ↔ ∀ t ∈ ts, ¬ (Server.endpoint E).Rejects t.before t.packet)) ∧
    (∀ c ts, (Client.endpoint E).Run c ts →
      ((Client.endpoint E).Dead ts ↔ ∀ t ∈ ts, ¬ (Client.endpoint E).Rejects t.before t.packet)) :=
  ⟨fun _ _ h => h.dead_iff (Server.forgiving E), fun _ _ h => h.dead_iff (Client.forgiving E)⟩

/-- The version of a client that is too new: `1.0.1` -/
private def newerVersion : Packet :=
  ⟨0, 1, PacketType.protocolVersion.id,
    [.string (.ofBytes excomVersion), .number 1, .number (UInt8.ofNat excomVersionMinor),
      .number (UInt8.ofNat excomVersionPatch)]⟩

/-- The server rejects a client, and then takes the next version that it sends. -/
theorem rejected_not_dead :
    ∃ d ts, (Server.endpoint (Env.amd64 0)).Run d ts ∧ d.state = .preencrypt ∧
      (∃ t ∈ ts, (Server.endpoint (Env.amd64 0)).Rejects t.before t.packet) ∧
      ¬ (Server.endpoint (Env.amd64 0)).Dead ts := by
  let E := Env.amd64 0
  let key : Key := Vector.replicate _ 1
  let run : M Server.ClientData := do
    let d ← Server.connect E ⟨key, key⟩
    let d ← Server.handlePacket E d newerVersion
    Server.handlePacket E d Client.version
  have hrun : (run World.start).toOption.map (fun r => r.1.state) = some .preencrypt := by decide +kernel
  obtain ⟨d, w, hrun, hstate⟩ : ∃ d w, run World.start = .ok (d, w) ∧ d.state = .preencrypt := by
    rcases hr : run World.start with e | ⟨d, w⟩
    · rw [hr] at hrun
      cases hrun
    · rw [hr] at hrun
      exact ⟨d, w, rfl, Option.some.inj hrun⟩
  obtain ⟨d0, w0, h0, hrun⟩ := Exec.bind_eq_ok.1 hrun
  obtain ⟨d1, w1, h1, h2⟩ := Exec.bind_eq_ok.1 hrun
  have h1 : (Server.endpoint E).handle d0 newerVersion w0 = .ok (d1, w1) := h1
  have h2 : (Server.endpoint E).handle d1 Client.version w1 = .ok (d, w) := h2
  have hstart : d0.state = .prehandshake := by
    cases h0
    rfl
  have h : (Server.endpoint E).Run d _ :=
    Endpoint.Run.handle (.handle (.start hstart) h1) h2
  have hrejects : (Server.endpoint E).Rejects d0.state newerVersion := .inr ⟨by decide, hstart, by decide⟩
  have hmem := List.mem_append_left [⟨Client.version, d1.state, d.state⟩]
    (List.mem_singleton_self (Handled.mk newerVersion d0.state d1.state))
  refine ⟨d, _, h, hstate, ⟨_, hmem, hrejects⟩, ?_⟩
  intro hdead
  exact (h.dead_iff (Server.forgiving E)).1 hdead _ hmem hrejects

end Excom
