import Excom.Keys
import Excom.Session

/-!
# Whose keys the two sides use

The handlers of `public_key` do not store the key that they receive: nothing in a session changes
`remote.pkey`, which is zero from the start.  The two sides therefore agree on their keys, in every state that
a session reaches, exactly when both public keys are zero (`keys_agree_iff`).
-/

namespace Excom

variable {E : Env}

/-! ### The events of the two sides -/

section Events

variable {I : Encrypt → Prop} (hprep : ∀ keys, I keys → I (keys.prep E))
  (hactivate : ∀ keys, I keys → I keys.activate)

include hprep

namespace Server

private theorem send_keys {d : ClientData} (h : I d.keys) (raw : Packet) (t : PacketType) (data : List Value)
    (w : World) : Exec.Ensures (send E d raw t data) w fun d' _ => I d'.keys := by
  unfold send
  refine (sendPacket_keys hprep h raw t data d.bufOut w).bind ?_
  rintro ⟨bufOut, keys⟩ w1 h'
  exact .pure h'

private theorem require_keys {d : ClientData} (h : I d.keys) (raw : Packet) (level : ProtocolState)
    {rest : M ClientData} {w : World} (hrest : Exec.Ensures rest w fun d' _ => I d'.keys) :
    Exec.Ensures (require E d raw level rest) w fun d' _ => I d'.keys := by
  unfold require
  split
  · exact send_keys hprep h raw _ _ w
  · exact hrest

private theorem checkTurn_keys {d : ClientData} (h : I d.keys) (w : World) :
    Exec.Ensures (checkTurn E d) w fun r _ => I r.1.keys := by
  unfold checkTurn
  split
  swap
  · exact .pure h
  refine .seq fun mutex w1 => .seq fun src w2 => ?_
  dsimp only
  split
  · exact .pure h
  refine .seq fun node w3 => ?_
  split
  · exact .fault
  refine (readPacket_keys hprep h _ w3).bind ?_
  rintro ⟨err, packet, bufIn, enc⟩ w4 ⟨keys', rfl, h'⟩
  refine .seq fun mutex' w5 => ?_
  dsimp only
  split
  · exact .seq fun _ w6 => .pure h'
  · exact .pure h'

private theorem read_keys {d : ClientData} (h : I d.keys) (pieces : List Bytes) (stop : ReadEnd) (w : World) :
    Exec.Ensures (read E d pieces stop) w fun r _ => ∀ d', r = some d' → I d'.keys := by
  have hsame : ∀ {d' d'' : ClientData}, I d'.keys → some d' = some d'' → I d''.keys := by
    rintro d' _ hd ⟨⟩
    exact hd
  unfold read
  split
  · exact .pure fun d' => hsame h
  refine .seq fun bufIn w1 => ?_
  cases stop with
  | eof =>
    show Exec.Ensures (close { d with bufIn }) w1 _
    unfold close
    split
    · exact .pure fun d' => hsame h
    · exact .seq fun _ w2 => .seq fun _ w3 => .seq fun _ w4 => .seq fun _ w5 => .pure fun d' hd => by cases hd
  | error errno =>
    dsimp only
    split
    · have hcheck : Exec.Ensures (checkPacket E { d with bufIn }) w1 fun d' _ => I d'.keys := by
        unfold checkPacket
        refine .seq fun mutex w2 => ?_
        refine (Exec.loop_ensures (I := fun d' _ => I d'.keys) (Q := fun d' _ => I d'.keys) ?_ h).bind ?_
        · intro d' s hd
          refine (checkTurn_keys hprep hd s).mono ?_
          intro r s' hr
          split <;> exact hr
        · exact fun d' w3 hd => .seq fun _ w4 => .seq fun _ w5 => .pure hd
      exact hcheck.bind fun d' w2 hd => .pure fun d'' => hsame hd
    · exact .pure fun d' => hsame h

include hactivate

private theorem handlePacket_keys {d : ClientData} (h : I d.keys) (raw : Packet) (w : World) :
    Exec.Ensures (handlePacket E d raw) w fun d' _ => I d'.keys := by
  unfold handlePacket
  split
  case h_1 | h_2 | h_3 | h_4 => exact .pure h
  case h_5 =>
    refine require_keys hprep h raw _ ?_
    split
    · exact send_keys hprep h raw _ _ w
    · exact send_keys hprep (d := { d with state := .preencrypt }) h raw _ _ w
  case h_6 =>
    unfold handlePing
    refine (send_keys hprep h raw _ _ w).bind ?_
    intro d' w1 hd
    refine .pure ?_
    split <;> exact hd
  case h_7 =>
    refine require_keys hprep h raw _ ?_
    split
    · exact send_keys hprep h raw _ _ w
    · refine .seq fun _ w1 => (send_keys hprep h raw _ _ w1).bind ?_
      exact fun d' w2 hd => .pure (hactivate _ hd)
  case h_8 => exact require_keys hprep h raw _ (.seq fun _ w1 => .pure h)
  case h_9 => exact require_keys hprep h raw _ (.pure h)
  case h_10 => exact .pure h

end Server

namespace Client

private theorem send_keys {c : ExcomClient} (h : I c.keys) (raw : Packet) (t : PacketType) (data : List Value)
    (w : World) : Exec.Ensures (send E c raw t data) w fun c' _ => I c'.keys := by
  unfold send
  refine (sendPacket_keys hprep h raw t data c.bufOut w).bind ?_
  rintro ⟨bufOut, keys⟩ w1 h'
  exact .pure h'

private theorem require_keys {c : ExcomClient} (h : I c.keys) (raw : Packet) (level : ProtocolState)
    {rest : M ExcomClient} {w : World} (hrest : Exec.Ensures rest w fun c' _ => I c'.keys) :
    Exec.Ensures (require E c raw level rest) w fun c' _ => I c'.keys := by
  unfold require
  split
  · exact send_keys hprep h raw _ _ w
  · exact hrest

private theorem read_keys {handler : Packet → ExcomClient → M ExcomClient}
    (hh : ∀ p c w, I c.keys → Exec.Ensures (handler p c) w fun c' _ => I c'.keys) {c : ExcomClient}
    (h : I c.keys) (pieces : List Bytes) (stop : ReadEnd) (w : World) :
    Exec.Ensures (read E handler c pieces stop) w fun c' _ => I c'.keys := by
  unfold read
  split
  · exact .pure h
  refine .seq fun bufIn w1 => ?_
  cases stop with
  | eof => exact .pure h
  | error errno =>
    dsimp only
    split
    swap
    · exact .pure h
    unfold checkPacket
    refine .seq fun mutex w2 => ?_
    dsimp only
    split
    · exact .seq fun _ w3 => .pure h
    refine .seq fun src w3 => ?_
    split
    · exact .seq fun _ w4 => .pure h
    refine .seq fun node w4 => ?_
    split
    · exact .fault
    refine (readPacket_keys hprep h _ w4).bind ?_
    rintro ⟨err, packet, bufIn', enc⟩ w5 ⟨keys', rfl, h'⟩
    refine .seq fun mutex' w6 => ?_
    dsimp only
    split
    · exact .seq fun _ w7 => .pure h'
    · exact hh _ _ w6 h'

include hactivate

private theorem defaultHandler_keys (raw : Packet) (c : ExcomClient) (w : World) (h : I c.keys) :
    Exec.Ensures (defaultHandler E raw c) w fun c' _ => I c'.keys := by
  unfold defaultHandler
  split
  case h_1 | h_2 | h_3 | h_4 | h_5 => exact .pure h
  case h_6 =>
    unfold handleOk
    split
    · exact send_keys hprep (c := { c with state := .preencrypt }) h raw _ _ w
    · exact .pure h
  case h_7 => exact send_keys hprep h raw _ _ w
  case h_8 =>
    unfold handlePong
    split
    · exact send_keys hprep (c := { c with state := .body }) h raw _ _ w
    · exact .pure h
  case h_9 =>
    refine require_keys hprep h raw _ ?_
    split
    · exact send_keys hprep h raw _ _ w
    · exact .seq fun _ w1 =>
        send_keys hprep (c := { c with keys := c.keys.activate, state := .encrypt }) (hactivate _ h) raw _ _ w1
  case h_10 => exact .pure h

end Client

end Events

/-! ### Keys that are never stored -/

/-- The key of zeros that `excom_encrypt_init` leaves. -/
def zeroKey : Key := Vector.replicate _ 0

/-- The keys of a side that has not stored the key of its peer. -/
structure Unstored (E : Env) (pair : EncryptPair) (keys : Encrypt) : Prop where
  localPair : keys.localPair = pair
  pkey : keys.remote.pkey = zeroKey
  cache : keys.nm.active = true → keys.nm.kkey = E.sodium.cryptoBoxBeforenm zeroKey pair.skey

theorem Unstored.init (pair : EncryptPair) : Unstored E pair (.init pair) := by
  refine ⟨rfl, rfl, ?_⟩
  intro h
  cases h

theorem Unstored.prep {pair : EncryptPair} (keys : Encrypt) (h : Unstored E pair keys) :
    Unstored E pair (keys.prep E) := by
  unfold Encrypt.prep
  split
  · refine ⟨h.localPair, h.pkey, fun _ => ?_⟩
    show E.sodium.cryptoBoxBeforenm keys.remote.pkey keys.localPair.skey = _
    rw [h.pkey, h.localPair]
  · exact h

theorem Unstored.activate {pair : EncryptPair} (keys : Encrypt) (h : Unstored E pair keys) :
    Unstored E pair keys.activate :=
  ⟨h.localPair, h.pkey, h.cache⟩

namespace Session

/-- Each side that encrypts has the key of its peer, both do once the handshake is over, and a shared key that
is cached was made from the key of the peer. -/
structure Agrees (E : Env) (clientPair serverPair : EncryptPair) (s : Session) : Prop where
  client : s.client.keys.remote.active = true → s.client.keys.remote.pkey = serverPair.pkey
  server : s.server.keys.remote.active = true → s.server.keys.remote.pkey = clientPair.pkey
  body : s.client.state = .body → s.server.state = .body →
    s.client.keys.remote.pkey = serverPair.pkey ∧ s.server.keys.remote.pkey = clientPair.pkey
  clientCache : s.client.keys.nm.active = true →
    s.client.keys.nm.kkey = E.sodium.cryptoBoxBeforenm serverPair.pkey clientPair.skey
  serverCache : s.server.keys.nm.active = true →
    s.server.keys.nm.kkey = E.sodium.cryptoBoxBeforenm clientPair.pkey serverPair.skey

variable {clientPair serverPair : EncryptPair}

/-- No session stores a key. -/
private theorem reachable_unstored {s : Session} (h : Reachable (Initial E clientPair serverPair) (Step E) s) :
    Unstored E clientPair s.client.keys ∧ Unstored E serverPair s.server.keys := by
  refine h.invariant (I := fun s => Unstored E clientPair s.client.keys ∧ Unstored E serverPair s.server.keys)
    ?_ ?_
  · rintro s ⟨w, w1, c, outcome, hconnect, hgreet, ⟨w', hserver⟩, -⟩
    have hclient : Exec.Ensures (Client.connect E clientPair) w fun c _ => c.keys = .init clientPair := by
      unfold Client.connect
      exact .seq fun _ w1 => .seq fun _ w2 => .pure rfl
    have hserver' : Exec.Ensures (Server.connect E serverPair) w' fun d _ => d.keys = .init serverPair := by
      unfold Server.connect
      exact .seq fun _ w1 => .seq fun _ w2 => .pure rfl
    have hc : c.keys = .init clientPair := hclient _ _ hconnect
    have hd : s.server.keys = .init serverPair := hserver' _ _ hserver
    have hkeys : Exec.Ensures (Client.greet E c outcome) w1 fun r _ => Unstored E clientPair r.1.keys := by
      unfold Client.greet
      refine (writePacket_keys Unstored.prep (by rw [hc]; exact .init clientPair) _ c.bufOut w1).bind ?_
      rintro ⟨_, _, bufOut, enc⟩ w2 ⟨keys', rfl, h'⟩
      unfold Client.write
      exact .seq fun _ w3 => .pure h'
    exact ⟨hkeys _ _ hgreet, by rw [hd]; exact .init serverPair⟩
  · rintro s s' ⟨hc, hd⟩ hstep
    cases hstep with
    | clientRead pieces rest stop hin h =>
      exact ⟨Client.read_keys Unstored.prep (Client.defaultHandler_keys Unstored.prep Unstored.activate) hc
        pieces stop _ _ _ h, hd⟩
    | clientWrite outcome h =>
      have hkeys : Exec.Ensures (Client.write E s.client outcome) s.clientWorld fun r _ =>
          Unstored E clientPair r.1.keys := by
        unfold Client.write
        exact .seq fun _ w1 => .pure hc
      exact ⟨hkeys _ _ h, hd⟩
    | serverRead pieces rest stop hin h =>
      exact ⟨hc, Server.read_keys Unstored.prep hd pieces stop _ _ _ h _ rfl⟩
    | serverWork h =>
      have hkeys :
          Exec.Ensures (Server.work E s.server) s.serverWorld fun d _ => Unstored E serverPair d.keys := by
        unfold Server.work
        split
        · exact .pure hd
        · rename_i packet packets _
          exact Server.handlePacket_keys Unstored.prep Unstored.activate (d := { s.server with packets })
            hd packet _
      exact ⟨hc, hkeys _ _ h⟩
    | serverWrite outcome h =>
      have hkeys : Exec.Ensures (Server.write E s.server outcome) s.serverWorld fun r _ =>
          Unstored E serverPair r.1.keys := by
        unfold Server.write
        split
        · exact .pure hd
        · exact .seq fun _ w1 => .pure hd
      exact ⟨hc, hkeys _ _ h⟩

end Session

/-! ### A handshake -/

/-- A connection of the server between two packets, with `out` still to be sent. -/
structure Server.Quiet (E : Env) (n : Nat) (out : Bytes) (d : Server.ClientData) : Prop where
  bufIn : d.bufIn.Pending E n []
  bufOut : d.bufOut.Pending E n out
  mutex : d.mutex = .unlocked
  connected : d.disconnected = false
  idle : d.packets = []

/-- A client between two packets. -/
structure Client.Quiet (E : Env) (n : Nat) (out : Bytes) (c : Client.ExcomClient) : Prop where
  bufIn : c.bufIn.Pending E n []
  bufOut : c.bufOut.Pending E n out
  connected : c.disconnected = false

theorem Buffer.Pending.mono {n m : Nat} {bs : Bytes} {b : Buffer} (h : b.Pending E n bs) (hn : n ≤ m) :
    b.Pending E m bs :=
  ⟨h.wf, h.mutable, h.pos_le, Nat.le_trans h.used_le hn, h.unread⟩

theorem Server.Quiet.mono {n m : Nat} {out : Bytes} {d : Server.ClientData} (h : Server.Quiet E n out d)
    (hn : n ≤ m) : Server.Quiet E m out d :=
  ⟨h.bufIn.mono hn, h.bufOut.mono hn, h.mutex, h.connected, h.idle⟩

theorem Client.Quiet.mono {n m : Nat} {out : Bytes} {c : Client.ExcomClient} (h : Client.Quiet E n out c)
    (hn : n ≤ m) : Client.Quiet E m out c :=
  ⟨h.bufIn.mono hn, h.bufOut.mono hn, h.connected⟩

private theorem sendPacket_pending (hA : E.AllocSucceeds) {raw : Packet} {t : PacketType} {data : List Value}
    (hp : (⟨0, raw.id, t.id, data⟩ : Packet).Known t) {n : Nat} (hn : n ≤ 2 ^ 16) {out : Buffer}
    (ho : out.Pending E n []) {keys : Encrypt} (hlen : ((⟨0, raw.id, t.id, data⟩ : Packet).frame E).length ≤ 64)
    (hk : keys.remote.active = false ∨ data = []) (w : World) :
    Exec.Returns (sendPacket E raw t data out keys) w fun r _ =>
      r.1.Pending E (n + 64) ((⟨0, raw.id, t.id, data⟩ : Packet).frame E) ∧ r.2 = keys := by
  have h32 := E.le_word
  have hused := ho.used_le
  unfold sendPacket
  have hwrite : Exec.Returns (protocolWritePacket E ⟨0, raw.id, t.id, data⟩ out (some keys)) w fun r _ =>
      Buffer.Extends E out ((⟨0, raw.id, t.id, data⟩ : Packet).frame E) r.2.2.1 ∧ r.2.2.2 = some keys := by
    rcases hk with hk | rfl
    · refine (writePacket_returns hA hp ho.wf ho.mutable (activeKeys_none hk) (by omega) w).mono ?_
      rintro _ w1 ⟨o', hext, rfl⟩
      exact ⟨hext, rfl⟩
    · refine (writeBare_returns hA hp rfl ho.wf ho.mutable keys (by omega) w).mono ?_
      rintro _ w1 ⟨o', hext, rfl⟩
      exact ⟨hext, rfl⟩
  refine hwrite.bind ?_
  rintro ⟨_, _, out', enc⟩ w1 ⟨hext, henc⟩
  obtain rfl : enc = some keys := henc
  have h := ho.append hext (by omega)
  rw [List.nil_append] at h
  exact .pure ⟨h.mono (by omega), rfl⟩

/-- The packet with a public key. -/
def keyPacket (id : UInt16) (key : Key) : Packet :=
  ⟨0, id, PacketType.publicKey.id, [.string (.ofBytes key.toList)]⟩

private theorem length_key (key : Key) : key.toList.length < 2 ^ 32 := by
  rw [Vector.length_toList]
  decide

private theorem keyPacket_known (id : UInt16) (key : Key) : (keyPacket id key).Known .publicKey := by
  refine ⟨rfl, rfl, ?_⟩
  intro s hs
  have h : s = .ofBytes key.toList := by simpa [keyPacket] using hs
  rw [h]
  exact ExcomString.ofBytes_valid (length_key key)

private theorem keyPacket_length (id : UInt16) (key : Key) : ((keyPacket id key).frame E).length = 44 := by
  rw [Packet.length_frame]
  show 8 + (encodeBody E [.string (ExcomString.ofBytes key.toList).bytes]).length = 44
  rw [ExcomString.bytes_ofBytes (length_key key), encodeBody_cons, encodeBody_nil,
    List.append_nil, Content.encode, List.length_append, length_wire32, Vector.length_toList]
  rfl

private theorem bare_known (id : UInt16) {t : PacketType} (ht : t.fields = []) :
    (⟨0, id, t.id, []⟩ : Packet).Known t :=
  ⟨rfl, ht.symm, by simp⟩

private theorem bare_length (id : UInt16) (t : PacketType) :
    ((⟨0, id, t.id, []⟩ : Packet).frame E).length = 8 := by
  rw [Packet.length_frame]
  rfl

private theorem version_known : Client.version.Known .protocolVersion := by
  refine ⟨rfl, rfl, ?_⟩
  intro s hs
  have h : s = .ofBytes excomVersion := by simpa [Client.version] using hs
  rw [h]
  exact ExcomString.ofBytes_valid (by decide)

private theorem version_length : (Client.version.frame E).length = 21 := by
  rw [Packet.length_frame]
  show 8 + (encodeBody E [.string (ExcomString.ofBytes excomVersion).bytes, .number 0, .number 0,
    .number 1]).length = 21
  rw [ExcomString.bytes_ofBytes (by decide)]
  simp only [encodeBody_cons, encodeBody_nil, Content.encode, List.length_append, length_wire32]
  rfl

private theorem key_received {q : Packet} {t : PacketType} {id : UInt16} {key : Key}
    (hmsg : q.message = (keyPacket id key).message) (hq : q.Known t) (own : Key) :
    (q.stringAt 0).size.toNat = cryptoBoxPublicKeyBytes ∧
    ∃ p, store (q.stringAt 0).body 0 own.toList = pure p := by
  have hvalid := Packet.stringAt_valid hq.valid 0
  have hbytes : (q.stringAt 0).bytes = key.toList := by
    have h := Packet.stringAt_bytes (q := keyPacket id key) (congrArg Message.fields hmsg) 0
    rw [h]
    exact ExcomString.bytes_ofBytes (length_key key)
  have hsize : (q.stringAt 0).size.toNat = cryptoBoxPublicKeyBytes := by
    rw [← hvalid.length_bytes, hbytes, Vector.length_toList]
  obtain ⟨p, hst, -⟩ := store_eq (q.stringAt 0).body 0 own.toList (by
    rw [Vector.length_toList, Nat.zero_add, ← hsize]
    exact hvalid)
  exact ⟨hsize, p, hst⟩

section Answers

variable (hA : E.AllocSucceeds) {n : Nat} (hn : n ≤ 2 ^ 16)

include hA hn

private theorem Server.send_quiet {d : Server.ClientData} (hd : Server.Quiet E n [] d) {raw : Packet}
    {t : PacketType} {data : List Value} (hp : (⟨0, raw.id, t.id, data⟩ : Packet).Known t)
    (hlen : ((⟨0, raw.id, t.id, data⟩ : Packet).frame E).length ≤ 64)
    (hk : d.keys.remote.active = false ∨ data = []) (w : World) :
    Exec.Returns (Server.send E d raw t data) w fun d' _ =>
      Server.Quiet E (n + 64) ((⟨0, raw.id, t.id, data⟩ : Packet).frame E) d' ∧ d'.state = d.state ∧
        d'.keys = d.keys := by
  unfold Server.send
  refine (sendPacket_pending hA hp hn hd.bufOut hlen hk w).bind ?_
  rintro ⟨bufOut, keys⟩ w1 ⟨hout, hkeys⟩
  exact .pure ⟨⟨hd.bufIn.mono (by omega), hout, hd.mutex, hd.connected, hd.idle⟩, rfl, hkeys⟩

private theorem Client.send_quiet {c : Client.ExcomClient} (hc : Client.Quiet E n [] c) {raw : Packet}
    {t : PacketType} {data : List Value} (hp : (⟨0, raw.id, t.id, data⟩ : Packet).Known t)
    (hlen : ((⟨0, raw.id, t.id, data⟩ : Packet).frame E).length ≤ 64)
    (hk : c.keys.remote.active = false ∨ data = []) (w : World) :
    Exec.Returns (Client.send E c raw t data) w fun c' _ =>
      Client.Quiet E (n + 64) ((⟨0, raw.id, t.id, data⟩ : Packet).frame E) c' ∧ c'.state = c.state ∧
        c'.keys = c.keys ∧ c'.enc = c.enc := by
  unfold Client.send
  refine (sendPacket_pending hA hp hn hc.bufOut hlen hk w).bind ?_
  rintro ⟨bufOut, keys⟩ w1 ⟨hout, hkeys⟩
  exact .pure ⟨⟨hc.bufIn.mono (by omega), hout, hc.connected⟩, rfl, hkeys, rfl⟩

private theorem Server.answers_version {d : Server.ClientData} (hd : Server.Quiet E n [] d)
    (hst : d.state = .prehandshake) (hk : d.keys.remote.active = false) {q : Packet}
    (hmsg : q.message = Client.version.message) (w : World) :
    Exec.Returns (Server.handlePacket E d q) w fun d' _ =>
      Server.Quiet E (n + 64) ((⟨0, q.id, PacketType.ok.id, []⟩ : Packet).frame E) d' ∧ d'.state = .preencrypt ∧
        d'.keys = d.keys := by
  have htype : q.type = PacketType.protocolVersion.id := congrArg Message.type hmsg
  have hdata : q.data.map Value.content = Client.version.data.map Value.content := congrArg Message.fields hmsg
  have hcompatible : ¬ Server.Incompatible q := by
    unfold Server.Incompatible
    rw [Packet.numberAt_eq hdata, Packet.numberAt_eq hdata, Packet.numberAt_eq hdata]
    decide
  unfold Server.handlePacket
  rw [htype, packetType?_id]
  show Exec.Returns (Server.handleProtocolVersion E d q) w _
  unfold Server.handleProtocolVersion Server.require
  rw [if_neg (by rw [hst]; decide), if_neg hcompatible]
  exact Server.send_quiet hA hn (d := { d with state := .preencrypt })
    ⟨hd.bufIn, hd.bufOut, hd.mutex, hd.connected, hd.idle⟩ (bare_known _ rfl) (by rw [bare_length]; decide)
      (Or.inl hk) w

/-- The server answers a public key with its own, and encrypts from there on. -/
private theorem Server.answers_key {d : Server.ClientData} (hd : Server.Quiet E n [] d)
    (hst : d.state = .preencrypt)
    (hk : d.keys.remote.active = false) {q : Packet} {t : PacketType} {id : UInt16} {key : Key}
    (hmsg : q.message = (keyPacket id key).message) (hq : q.Known t) (w : World) :
    Exec.Returns (Server.handlePacket E d q) w fun d' _ =>
      Server.Quiet E (n + 64) ((keyPacket q.id d.keys.localPair.pkey).frame E) d' ∧
      d'.keys = d.keys.activate := by
  have htype : q.type = PacketType.publicKey.id := congrArg Message.type hmsg
  obtain ⟨hsize, p, hstore⟩ := key_received hmsg hq d.keys.remote.pkey
  unfold Server.handlePacket
  rw [htype, packetType?_id]
  show Exec.Returns (Server.handlePublicKey E d q) w _
  unfold Server.handlePublicKey Server.require
  rw [if_neg (by rw [hst]; decide), if_neg (by rw [hsize]; decide), hstore, Exec.pure_bind]
  refine (Server.send_quiet hA hn hd (keyPacket_known q.id _)
    (by show ((keyPacket q.id _).frame E).length ≤ 64; rw [keyPacket_length]; decide) (Or.inl hk) w).bind ?_
  rintro d' w1 ⟨hq', -, hkeys⟩
  refine .pure ⟨⟨hq'.bufIn, hq'.bufOut, hq'.mutex, hq'.connected, hq'.idle⟩, ?_⟩
  show d'.keys.activate = _
  rw [hkeys]

private theorem Client.answers_ok {c : Client.ExcomClient} (hc : Client.Quiet E n [] c)
    (hst : c.state = .prehandshake) (hk : c.keys.remote.active = false) {q : Packet} {id : UInt16}
    (hmsg : q.message = (⟨0, id, PacketType.ok.id, []⟩ : Packet).message) (w : World) :
    Exec.Returns (Client.defaultHandler E q c) w fun c' _ =>
      Client.Quiet E (n + 64) ((keyPacket q.id c.enc.pkey).frame E) c' ∧ c'.state = .preencrypt ∧
      c'.keys = c.keys := by
  have htype : q.type = PacketType.ok.id := congrArg Message.type hmsg
  unfold Client.defaultHandler
  rw [htype, packetType?_id]
  show Exec.Returns (Client.handleOk E c q) w _
  unfold Client.handleOk
  rw [if_pos hst]
  refine (Client.send_quiet hA hn (c := { c with state := .preencrypt }) ⟨hc.bufIn, hc.bufOut, hc.connected⟩
    (keyPacket_known q.id _) (by show ((keyPacket q.id _).frame E).length ≤ 64; rw [keyPacket_length]; decide)
    (Or.inl hk) w).mono ?_
  rintro c' w1 ⟨hq', hst', hkeys, -⟩
  exact ⟨hq', hst', hkeys⟩

private theorem Client.answers_key {c : Client.ExcomClient} (hc : Client.Quiet E n [] c)
    (hst : c.state = .preencrypt)
    {q : Packet} {t : PacketType} {id : UInt16} {key : Key} (hmsg : q.message = (keyPacket id key).message)
    (hq : q.Known t) (w : World) :
    Exec.Returns (Client.defaultHandler E q c) w fun c' _ => c'.keys.remote.active = true := by
  have htype : q.type = PacketType.publicKey.id := congrArg Message.type hmsg
  obtain ⟨hsize, p, hstore⟩ := key_received hmsg hq c.keys.remote.pkey
  unfold Client.defaultHandler
  rw [htype, packetType?_id]
  show Exec.Returns (Client.handlePublicKey E c q) w _
  unfold Client.handlePublicKey Client.require
  rw [if_neg (by rw [hst]; decide), if_neg (by rw [hsize]; decide), hstore, Exec.pure_bind]
  refine (Client.send_quiet hA hn (c := { c with keys := c.keys.activate, state := .encrypt })
    ⟨hc.bufIn, hc.bufOut, hc.connected⟩ (bare_known _ rfl) (by rw [bare_length]; decide) (Or.inr rfl) w).mono ?_
  rintro c' w1 ⟨-, -, hkeys, -⟩
  rw [hkeys]
  rfl

end Answers

/-! ### The run of a handshake -/

namespace Session

section Turns

variable (hE : E.littleEndian = true) (hA : E.AllocSucceeds) {clientPair serverPair : EncryptPair} {s : Session}
  (hs : Reachable (Initial E clientPair serverPair) (Step E) s) {p : Packet} {t : PacketType} (hp : p.Known t)
  (hlen : (p.frame E).length ≤ 64) {n : Nat} (hn : n ≤ 2 ^ 15)

include hE hA hs hp hlen hn

/-- A packet arrives at the server, is handled, and what the handler wrote goes out. -/
private theorem server_turn (hd : Server.Quiet E n [] s.server) (hk : s.server.keys.remote.active = false)
    (harrived : s.toServer = p.frame E) (hsent : s.toClient = []) {o : Bytes}
    {P : ProtocolState → Encrypt → Prop}
    (hh : ∀ d q w, Server.Quiet E (n + 64) [] d → d.state = s.server.state → d.keys = s.server.keys →
      q.message = p.message → q.Known t → Exec.Returns (Server.handlePacket E d q) w fun d' _ =>
        Server.Quiet E (n + 128) o d' ∧ P d'.state d'.keys) :
    ∃ s', Reachable (Initial E clientPair serverPair) (Step E) s' ∧ s'.client = s.client ∧ s'.toServer = [] ∧
      s'.toClient = o ∧ Server.Quiet E (n + 128) [] s'.server ∧ P s'.server.state s'.server.keys := by
  obtain ⟨_, w1, hread, b, q, rfl, hb, hmsg, hq⟩ :=
    Server.read_frame hE hA hp (by omega) hd.bufIn hk hd.mutex hd.connected s.serverWorld
  have hs1 := hs.step (.serverRead [p.frame E] [] (.error EAGAIN) (by rw [harrived]; simp) hread)
  rw [hd.idle, List.nil_append] at hs1
  have hquiet : Server.Quiet E (n + 64) [] { s.server with bufIn := b, packets := [] } :=
    ⟨hb.mono (by omega), hd.bufOut.mono (by omega), hd.mutex, hd.connected, rfl⟩
  obtain ⟨d, w2, hwork, hd2, hP⟩ := hh _ q w1 hquiet rfl rfl hmsg hq
  have hs2 := hs1.step (.serverWork hwork)
  obtain ⟨⟨_, bufOut, bytes⟩, w3, hwrite, hbytes, hout⟩ := write_pending hd2.bufOut w2
  have hwrite' : Server.write E d (.ok o.length) w2 = .ok (({ d with bufOut }, bytes), w3) := by
    unfold Server.write
    rw [if_neg (by rw [hd2.connected]; decide)]
    exact Exec.bind_of_ok hwrite _
  have hs3 := hs2.step (.serverWrite (.ok o.length) hwrite')
  refine ⟨_, hs3, rfl, rfl, ?_, ⟨hd2.bufIn, hout, hd2.mutex, hd2.connected, hd2.idle⟩, hP⟩
  show s.toClient ++ bytes = o
  rw [hsent, List.nil_append]
  exact hbytes

private theorem client_read (hc : Client.Quiet E n [] s.client) (hk : s.client.keys.remote.active = false)
    (harrived : s.toClient = p.frame E) {Q : Client.ExcomClient → Prop}
    (hh : ∀ c q w, Client.Quiet E (n + 64) [] c → c.state = s.client.state → c.keys = s.client.keys →
      c.enc = s.client.enc → q.message = p.message → q.Known t →
        Exec.Returns (Client.defaultHandler E q c) w fun c' _ => Q c') :
    ∃ s', Reachable (Initial E clientPair serverPair) (Step E) s' ∧ s'.server = s.server ∧
      s'.toServer = s.toServer ∧ s'.toClient = [] ∧ Q s'.client := by
  have hread : Exec.Returns (Client.read E (Client.defaultHandler E) s.client [p.frame E] (.error EAGAIN))
    s.clientWorld
      fun c' _ => Q c' := by
    refine Client.read_frame hE hA hp (by omega) hc.bufIn hk hc.connected ?_ s.clientWorld
    intro b q w hb hmsg hq
    exact hh _ q w ⟨hb.mono (by omega), hc.bufOut.mono (by omega), hc.connected⟩ rfl rfl rfl hmsg hq
  obtain ⟨c, w1, hread, hQ⟩ := hread
  have hs1 := hs.step (.clientRead [p.frame E] [] (.error EAGAIN) (by rw [harrived]; simp) hread)
  exact ⟨_, hs1, rfl, rfl, rfl, hQ⟩

end Turns

private theorem client_write {clientPair serverPair : EncryptPair} {s : Session}
    (hs : Reachable (Initial E clientPair serverPair) (Step E) s) {n : Nat} {out : Bytes}
    (hc : Client.Quiet E n out s.client) :
    ∃ s', Reachable (Initial E clientPair serverPair) (Step E) s' ∧ s'.server = s.server ∧
      s'.toServer = s.toServer ++ out ∧ s'.toClient = s.toClient ∧ Client.Quiet E n [] s'.client ∧
        s'.client.state = s.client.state ∧ s'.client.keys = s.client.keys := by
  obtain ⟨⟨_, bufOut, bytes⟩, w1, hwrite, hbytes, hout⟩ := write_pending hc.bufOut s.clientWorld
  have hwrite' :
    Client.write E s.client (.ok out.length) s.clientWorld = .ok (({ s.client with bufOut }, bytes), w1) :=
    Exec.bind_of_ok hwrite _
  have hs1 := hs.step (.clientWrite (.ok out.length) hwrite')
  refine ⟨_, hs1, rfl, ?_, rfl, ⟨hc.bufIn, hout, hc.connected⟩, rfl, rfl⟩
  exact congrArg (s.toServer ++ ·) hbytes

/-- A new session, whose client could send all of its version at once. -/
private theorem exists_initial (hA : E.AllocSucceeds) (clientPair serverPair : EncryptPair) :
    ∃ s, Initial E clientPair serverPair s ∧ Client.Quiet E 64 [] s.client ∧ s.client.state = .prehandshake ∧
      s.client.keys = .init clientPair ∧ s.client.enc = clientPair ∧ Server.Quiet E 0 [] s.server ∧
        s.server.state = .prehandshake ∧ s.server.keys = .init serverPair ∧
        s.toServer = Client.version.frame E ∧
        s.toClient = [] := by
  have h32 := E.le_word
  obtain ⟨d, wd, hconnect, hserver⟩ := Server.connect_returns hA serverPair World.start
  obtain ⟨c, wc, hconnect', hclient⟩ := Client.connect_returns hA clientPair World.start
  have hd : Server.Quiet E 0 [] d :=
    ⟨hserver.bufIn.pending, hserver.bufOut.pending, hserver.mutex, hserver.connected, hserver.packets⟩
  have hc : Client.Quiet E 0 [] c := ⟨hclient.bufIn.pending, hclient.bufOut.pending, hclient.connected⟩
  have hused := hc.bufOut.used_le
  have hlen : (Client.version.frame E).length = 21 := version_length
  have hgreet : Exec.Returns (Client.greet E c (.ok (Client.version.frame E).length)) wc fun r _ =>
      Client.Quiet E 64 [] r.1 ∧ r.1.state = c.state ∧ r.1.keys = c.keys ∧ r.1.enc = c.enc ∧
        r.2 = Client.version.frame E := by
    unfold Client.greet
    refine (writePacket_returns hA version_known hc.bufOut.wf hc.bufOut.mutable
      (activeKeys_none (by rw [hclient.keys]; rfl)) (by omega) wc).bind ?_
    rintro _ w1 ⟨o', hext, rfl⟩
    have hpending := hc.bufOut.append hext (by omega)
    rw [List.nil_append] at hpending
    refine (write_pending hpending w1).bind ?_
    rintro ⟨_, bufOut, bytes⟩ w2 ⟨hbytes, hout⟩
    exact .pure ⟨⟨hc.bufIn.mono (by omega), hout.mono (by omega), hc.connected⟩, rfl, rfl, rfl, hbytes⟩
  obtain ⟨⟨c', bytes⟩, wc', hgreet, hc', hstate', hkeys', henc', hbytes⟩ := hgreet
  exact ⟨⟨c', d, bytes, [], wc', wd⟩, ⟨_, _, c, _, hconnect', hgreet, ⟨_, hconnect⟩, rfl⟩, hc',
    hstate'.trans hclient.state, hkeys'.trans hclient.keys, henc'.trans hclient.enc, hd, hserver.state,
    hserver.keys, hbytes, rfl⟩

/-- On a little-endian host some session gets so far that both sides encrypt. -/
theorem exists_active (hE : E.littleEndian = true) (hA : E.AllocSucceeds)
    (clientPair serverPair : EncryptPair) :
    ∃ s, Reachable (Initial E clientPair serverPair) (Step E) s ∧ s.client.keys.remote.active = true ∧
      s.server.keys.remote.active = true := by
  obtain ⟨s0, hinit, hc0, hcstate, hckeys, hcenc, hd0, hdstate, hdkeys, hversion, hnone⟩ :=
    exists_initial hA clientPair serverPair
  have hlen : ∀ key, ((keyPacket 1 key).frame E).length ≤ 64 := fun key => by rw [keyPacket_length]; decide
  -- the server takes the version
  obtain ⟨s1, hs1, hclient1, htoServer1, htoClient1, hd1, hdstate1, hdkeys1⟩ :=
    server_turn hE hA (.start hinit) version_known (by rw [version_length]; decide) (by decide)
      (hd0.mono (by decide))
      (by rw [hdkeys]; rfl) hversion hnone (o := (⟨0, 1, PacketType.ok.id, []⟩ : Packet).frame E)
      (P := fun st keys => st = .preencrypt ∧ keys = .init serverPair) (n := 64) (by
        intro d q w hd hst hkeys hmsg _
        refine (Server.answers_version hA (by decide) hd (hst.trans hdstate) (by rw [hkeys, hdkeys]; rfl) hmsg
          w).mono ?_
        rintro d' w' ⟨hd', hst', hkeys'⟩
        have hid : q.id = 1 := congrArg Message.id hmsg
        rw [hid] at hd'
        exact ⟨hd', hst', hkeys'.trans (hkeys.trans hdkeys)⟩)
  -- the client takes the `OK` and sends its key
  obtain ⟨s2, hs2, hserver2, htoServer2, htoClient2, hc2, hcstate2, hckeys2⟩ :=
    client_read hE hA hs1 (bare_known 1 (t := .ok) rfl) (by rw [bare_length]; decide) (by decide)
      (by rw [hclient1]; exact hc0.mono (by decide)) (by rw [hclient1, hckeys]; rfl) htoClient1 (n := 192)
      (Q := fun c => Client.Quiet E 320 ((keyPacket 1 clientPair.pkey).frame E) c ∧ c.state = .preencrypt ∧
        c.keys = .init clientPair) (by
        intro c q w hc hst hkeys henc hmsg _
        rw [hclient1] at hst hkeys henc
        refine (Client.answers_ok hA (by decide) hc (hst.trans hcstate) (by rw [hkeys, hckeys]; rfl) hmsg
          w).mono ?_
        rintro c' w' ⟨hc', hst', hkeys'⟩
        have hid : q.id = 1 := congrArg Message.id hmsg
        rw [hid, henc, hcenc] at hc'
        exact ⟨hc', hst', hkeys'.trans (hkeys.trans hckeys)⟩)
  obtain ⟨s3, hs3, hserver3, htoServer3, htoClient3, hc3, hcstate3, hckeys3⟩ := client_write hs2 hc2
  rw [htoServer2, htoServer1, List.nil_append] at htoServer3
  rw [hserver2] at hserver3
  -- the server takes the key, sends its own and encrypts
  obtain ⟨s4, hs4, hclient4, -, htoClient4, -, hactive⟩ :=
    server_turn hE hA hs3 (keyPacket_known 1 clientPair.pkey) (hlen _) (by decide)
      (by rw [hserver3]; exact hd1.mono (by decide)) (by rw [hserver3, hdkeys1]; rfl) htoServer3
      (htoClient3.trans htoClient2) (o := (keyPacket 1 serverPair.pkey).frame E)
      (P := fun _ keys => keys.remote.active = true) (n := 320) (by
        intro d q w hd hst hkeys hmsg hq
        rw [hserver3] at hst hkeys
        refine (Server.answers_key hA (by decide) hd (hst.trans hdstate1) (by rw [hkeys, hdkeys1]; rfl)
          hmsg hq w).mono ?_
        rintro d' w' ⟨hd', hkeys'⟩
        have hid : q.id = 1 := congrArg Message.id hmsg
        rw [hid, hkeys, hdkeys1] at hd'
        refine ⟨hd', ?_⟩
        rw [hkeys']
        rfl)
  -- and so does the client
  obtain ⟨s5, hs5, hserver5, -, -, hactive'⟩ :=
    client_read hE hA hs4 (keyPacket_known 1 serverPair.pkey) (hlen _) (by decide)
      (by rw [hclient4]; exact hc3.mono (by decide)) (by rw [hclient4, hckeys3, hckeys2]; rfl) htoClient4
        (n := 448)
      (Q := fun c => c.keys.remote.active = true) (by
        intro c q w hc hst _ _ hmsg hq
        rw [hclient4] at hst
        exact Client.answers_key hA (by decide) hc (hst.trans (hcstate3.trans hcstate2)) hmsg hq w)
  exact ⟨s5, hs5, hactive', by rw [hserver5]; exact hactive⟩

/-- On such a host sides that always agree have zeros for their public keys. -/
private theorem zero_of_agrees (hE : E.littleEndian = true) (hA : E.AllocSucceeds)
    {clientPair serverPair : EncryptPair}
    (h : ∀ s, Reachable (Initial E clientPair serverPair) (Step E) s → Agrees E clientPair serverPair s) :
    clientPair.pkey = zeroKey ∧ serverPair.pkey = zeroKey := by
  obtain ⟨s, hs, hclient, hserver⟩ := exists_active hE hA clientPair serverPair
  obtain ⟨hc, hd⟩ := reachable_unstored hs
  have hagrees := h s hs
  exact ⟨(hagrees.server hserver).symm.trans hd.pkey, (hagrees.client hclient).symm.trans hc.pkey⟩

/-- And zeros are what both sides have for the key of their peer, on every host. -/
private theorem agrees_of_zero {clientPair serverPair : EncryptPair} (hclient : clientPair.pkey = zeroKey)
    (hserver : serverPair.pkey = zeroKey) {s : Session}
    (hs : Reachable (Initial E clientPair serverPair) (Step E) s) : Agrees E clientPair serverPair s := by
  obtain ⟨hc, hd⟩ := reachable_unstored hs
  have hcp : s.client.keys.remote.pkey = serverPair.pkey := hc.pkey.trans hserver.symm
  have hdp : s.server.keys.remote.pkey = clientPair.pkey := hd.pkey.trans hclient.symm
  refine ⟨fun _ => hcp, fun _ => hdp, fun _ _ => ⟨hcp, hdp⟩, ?_, ?_⟩
  · rw [hserver]
    exact hc.cache
  · rw [hclient]
    exact hd.cache

/-- Whatever the host, its `malloc` and its libsodium are, the two sides agree in every state that a session
reaches, exactly when the public keys of both are zero. -/
theorem keys_agree_iff (clientPair serverPair : EncryptPair) :
    (∀ (E : Env) (s : Session), Reachable (Initial E clientPair serverPair) (Step E) s →
      Agrees E clientPair serverPair s) ↔ clientPair.pkey = zeroKey ∧ serverPair.pkey = zeroKey := by
  constructor
  · intro h
    exact zero_of_agrees rfl (Env.amd64_allocSucceeds 0) (h (Env.amd64 0))
  · intro h E s hs
    exact agrees_of_zero h.1 h.2 hs

/-- The public key of the client is all ones, that of the server all twos. -/
theorem keys_disagree_ones :
    ¬ ∀ (E : Env) (s : Session),
      Reachable (Initial E ⟨Vector.replicate _ 1, Vector.replicate _ 3⟩
        ⟨Vector.replicate _ 2, Vector.replicate _ 4⟩) (Step E) s →
      Agrees E ⟨Vector.replicate _ 1, Vector.replicate _ 3⟩ ⟨Vector.replicate _ 2, Vector.replicate _ 4⟩ s := by
  intro h
  have hzero := zero_of_agrees rfl (Env.amd64_allocSucceeds 0) (h (Env.amd64 0))
  exact absurd hzero.1 (by decide)

end Session

end Excom
