import Excom.Cursor
import Excom.RoundTrip

/-!
# Fragmentation

The frames of a list of packets reach the server in chunks.  After each chunk the packets queued so far should
be those whose bytes have arrived (`Delivered`).  The test of `check_packet` asks for four bytes less than a
frame has, so this is the case exactly when no chunk ends where the test already passes but the frame is not
complete (`Waits`, `delivered_iff`).
-/

namespace Excom

variable (E : Env)

/-- The packets whose frames lie in the first `n` bytes of the stream. -/
def arrived : List Packet → Nat → List Packet
  | [], _ => []
  | p :: ps, n => if (p.frame E).length ≤ n then p :: arrived ps (n - (p.frame E).length) else []

/-- After `n` bytes of the stream the test of `check_packet` does not pass: no frame has begun, or no more
than four bytes of it are there, or fewer than its size and four. -/
def Waits : List Packet → Nat → Prop
  | [], _ => True
  | p :: ps, n =>
    if (p.frame E).length ≤ n then Waits ps (n - (p.frame E).length)
    else n ≤ 4 ∨ n < (4 + UInt32.ofNat (p.body E).length).toNat

/-- The length of the frames in the first `n` bytes: where the cursor is. -/
def decoded (ps : List Packet) (n : Nat) : Nat := (frames E (arrived E ps n)).length

/-- The buffer is not resized while more bytes grow from `n` to `n'`, or the cursor fits into 32 bits. -/
def KeepsCursor (ps : List Packet) (n n' : Nat) : Prop :=
  decoded E ps n < 2 ^ 32 ∨ ∀ i, 4 ≤ i → n ≤ 2 ^ i → n' ≤ 2 ^ i

/-- `Q` relates the number of bytes before and after each chunk. -/
def Along (Q : Nat → Nat → Prop) : Nat → List (List Bytes) → Prop
  | _, [] => True
  | n, c :: cs => Q n (n + c.flatten.length) ∧ Along Q (n + c.flatten.length) cs

namespace Server

/-- What the worker may do to a connection between two read events, as long as encryption is not switched on. -/
structure Worker (d d' : ClientData) : Prop where
  bufIn : d'.bufIn = d.bufIn
  mutex : d'.mutex = d.mutex
  disconnected : d'.disconnected = d.disconnected
  cleartext : d'.keys.remote.active = false

/-- The chunks are delivered, from the state after `n` bytes, when `q` is what was queued so far: each read
event returns, and what has been queued in all are the packets that have arrived. -/
def Delivered (ps : List Packet) :
    Nat → List (UInt32 × Message) → List (List Bytes) → ClientData → World → Prop
  | _, _, [], _, _ => True
  | n, q, c :: cs, d, w =>
    Exec.Returns (read E d c (.error EAGAIN)) w fun r _ => ∃ d' new, r = some d' ∧ d'.queued = d.queued ++ new ∧
      q ++ new = (arrived E ps (n + c.flatten.length)).map (described E) ∧
      ∀ d'' w'', Worker d' d'' → Delivered ps (n + c.flatten.length) (q ++ new) cs d'' w''

/-- On a new connection the chunks are delivered, whatever the blocks contain that the allocations give. -/
def AlwaysDelivered (ps : List Packet) (chunks : List (List Bytes)) : Prop :=
  ∀ f, ({ E with malloc := f } : Env).AllocSucceeds → ∀ pair w d w',
    connect { E with malloc := f } pair w = .ok (d, w') → Delivered { E with malloc := f } ps 0 [] chunks d w'

end Server

variable {E}

/-! ### The stream -/

/-- The packets that have not arrived after `n` bytes, seen from the end of those that have. -/
private theorem arrived_split (ps : List Packet) (n n' : Nat) (h : n ≤ n') :
    ∃ qs, ps = arrived E ps n ++ qs ∧ decoded E ps n ≤ n ∧
      arrived E ps n' = arrived E ps n ++ arrived E qs (n' - decoded E ps n) ∧
      (Waits E ps n' ↔ Waits E qs (n' - decoded E ps n)) := by
  induction ps generalizing n n' with
  | nil => exact ⟨[], rfl, Nat.zero_le _, rfl, Iff.rfl⟩
  | cons p ps ih =>
    by_cases hp : (p.frame E).length ≤ n
    · obtain ⟨qs, h1, h2, h3, h4⟩ := ih (n - (p.frame E).length) (n' - (p.frame E).length) (by omega)
      have hd : decoded E (p :: ps) n = (p.frame E).length + decoded E ps (n - (p.frame E).length) := by
        unfold decoded
        rw [arrived, if_pos hp, frames_cons, List.length_append]
      have hsub :
        n' - decoded E (p :: ps) n = n' - (p.frame E).length - decoded E ps (n - (p.frame E).length) := by omega
      rw [hsub, hd, arrived, if_pos hp, arrived, if_pos (by omega), Waits, if_pos (by omega)]
      exact ⟨qs, by rw [List.cons_append, ← h1], by omega, by rw [h3, List.cons_append], h4⟩
    · have ha : arrived E (p :: ps) n = [] := by rw [arrived, if_neg hp]
      have hd : decoded E (p :: ps) n = 0 := by unfold decoded; rw [ha]; rfl
      rw [hd, ha]
      exact ⟨p :: ps, rfl, Nat.zero_le _, rfl, Iff.rfl⟩

private theorem frameSize_cut (hE : E.littleEndian = true) (p : Packet) {m : Nat} (h4 : 4 ≤ m) (rest : Bytes) :
    frameSize E ((p.frame E ++ rest).take m) = UInt32.ofNat (p.body E).length := by
  have h := (p.framed hE rest).size
  rw [← List.take_append_drop m (p.frame E ++ rest), frameSize_append] at h
  · exact h
  · rw [List.length_take, List.length_append, p.length_frame]; omega

section Stream

variable (hE : E.littleEndian = true)

include hE

/-- The loop finds the packets that have arrived, and waits for the next one. -/
private theorem scan_frames {ps : List Packet} (hknown : ∀ p ∈ ps, ∃ t, p.Known t)
    (hsize : ∀ p ∈ ps, (p.body E).length < 2 ^ 32) {m : Nat} (hm : m ≤ (frames E ps).length)
    (hw : Waits E ps m) :
    Scan E ((frames E ps).take m) ((arrived E ps m).map (described E))
      (((frames E ps).take m).drop (decoded E ps m)) := by
  induction ps generalizing m with
  | nil => exact .stop (by rintro ⟨h, -⟩; simp at h)
  | cons p ps ih =>
    rw [frames_cons, List.length_append] at *
    unfold decoded
    rw [arrived]
    rw [Waits] at hw
    split at hw
    · rename_i hp
      have hscan := ih (fun q hq => hknown q (List.mem_cons_of_mem _ hq))
        (fun q hq => hsize q (List.mem_cons_of_mem _ hq))
        (m := m - (p.frame E).length) (by omega) hw
      have htake : (p.frame E ++ frames E ps).take m =
          p.frame E ++ (frames E ps).take (m - (p.frame E).length) := by
        rw [List.take_append, List.take_of_length_le hp]
      rw [if_pos hp, htake, frames_cons, List.length_append, List.map_cons, ← List.drop_drop, List.drop_left]
      refine .accept (decodes_frame hE (hknown p (List.mem_cons_self ..)) (hsize p (List.mem_cons_self ..)) _)
        ?_
      rw [List.drop_left]
      exact hscan
    · rename_i hp
      rw [if_neg hp]
      refine .stop ?_
      rintro ⟨h4, hle⟩
      rw [List.length_take, List.length_append, Nat.min_eq_left hm] at h4 hle
      rw [frameSize_cut hE p (by omega)] at hle
      omega

end Stream

/-! ### A connection in the middle of the stream -/

namespace Server

/-- The connection has received the first `n` bytes of the stream, and its cursor is behind the frames in
them. -/
structure InStream (E : Env) (ps : List Packet) (n : Nat) (d : ClientData) : Prop where
  alive : Alive E d.bufIn d.keys
  mutex : d.mutex = .unlocked
  connected : d.disconnected = false
  contents : d.bufIn.contents = (frames E ps).take n
  pos : d.bufIn.pos = decoded E ps n
  doubled : d.bufIn.Doubled
  slack : ∀ P, E.Junk P → ∀ x ∈ d.bufIn.slack, P x

private theorem connect_inStream (hA : E.AllocSucceeds) (ps : List Packet) {pair : EncryptPair} {w w' : World}
    {d : ClientData} (h : connect E pair w = .ok (d, w')) : InStream E ps 0 d := by
  have hfresh := (connect_returns hA pair w).ensures _ _ h
  have hin := hfresh.bufIn
  have hdec : decoded E ps 0 = 0 := by
    cases ps with
    | nil => rfl
    | cons p ps =>
      unfold decoded
      rw [arrived, if_neg (by rw [p.length_frame]; omega)]
      rfl
  refine ⟨hin.alive (by rw [hfresh.keys]; rfl), hfresh.mutex, hfresh.connected, ?_, ?_,
    ⟨4, Nat.le_refl _, hin.max⟩, hin.slack⟩
  · rw [List.take_zero, hin.contents]
  · rw [hdec, hin.pos]

theorem InStream.worker {ps : List Packet} {n : Nat} {d d' : ClientData} (h : InStream E ps n d)
    (hw : Worker d d') : InStream E ps n d' := by
  have hr := h.alive.ready
  refine ⟨⟨⟨?_, ?_, ?_, hw.cleartext⟩, ?_⟩, hw.mutex.trans h.mutex, hw.disconnected.trans h.connected, ?_,
    ?_, ?_, ?_⟩
  all_goals rw [hw.bufIn]
  · exact hr.buf
  · exact hr.pos_le
  · exact hr.fits
  · exact h.alive.mutable
  · exact h.contents
  · exact h.pos
  · exact h.doubled
  · exact h.slack

/-- The input buffer once a chunk has been appended, `m` bytes of the packets `qs` being unread. -/
structure Appended (E : Env) (ps : List Packet) (n : Nat) (d : ClientData) (qs : List Packet) (m : Nat)
    (b : Buffer) : Prop where
  alive : Alive E b d.keys
  pos : b.pos = d.bufIn.pos
  contents : b.contents = (frames E ps).take n
  unread : b.unread = (frames E qs).take m
  bound : m ≤ (frames E qs).length
  doubled : b.Doubled
  slack : ∀ P, E.Junk P → ∀ x ∈ b.slack, P x

section Chunk

variable (hA : E.AllocSucceeds) {ps : List Packet} (hroom : 2 * (frames E ps).length ≤ E.word) {n : Nat}
  {d : ClientData} (h : InStream E ps n d) {c : List Bytes} {rest : Bytes}
  (hbytes : (frames E ps).drop n = c.flatten ++ rest) (hn : n ≤ (frames E ps).length)
  (hkeep : KeepsCursor E ps n (n + c.flatten.length))

include hbytes hn

private theorem chunk_bytes : (frames E ps).take (n + c.flatten.length) = (frames E ps).take n ++ c.flatten ∧
    n + c.flatten.length ≤ (frames E ps).length := by
  have hl := congrArg List.length hbytes
  rw [List.length_drop, List.length_append] at hl
  exact ⟨by rw [List.take_add, hbytes, List.take_left], by omega⟩

include hA hroom h hkeep

private theorem chunk_appended {qs : List Packet} (hqs : ps = arrived E ps n ++ qs) (w : World) :
    Exec.Returns (appendPieces E d.bufIn c) w fun b _ =>
      Appended E ps (n + c.flatten.length) d qs (n + c.flatten.length - decoded E ps n) b := by
  obtain ⟨htake, hle⟩ := chunk_bytes hbytes hn
  have hb := h.alive
  have hused : d.bufIn.used = n := by
    rw [← hb.ready.buf.length_contents, h.contents, List.length_take, Nat.min_eq_left hn]
  have hcursor : d.bufIn.cursorAfter c.flatten.length = decoded E ps n := by
    unfold Buffer.cursorAfter
    rw [← h.pos]
    split
    · rfl
    · rename_i hfull
      rcases hkeep with hlt | hpow
      · rw [← h.pos] at hlt; exact Nat.mod_eq_of_lt hlt
      · obtain ⟨i, hi, hmax⟩ := h.doubled
        have hle' := hb.ready.buf.used_le
        have := hpow i hi (by omega)
        omega
  have hsplit : frames E ps = frames E (arrived E ps n) ++ frames E qs := by
    conv => lhs; rw [hqs]
    exact List.flatMap_append
  have hfr : (frames E ps).length = decoded E ps n + (frames E qs).length := by
    rw [hsplit, List.length_append]; rfl
  have hdec : decoded E ps n ≤ n := by
    have h1 := hb.ready.pos_le
    rw [h.pos] at h1
    omega
  refine ((appendPieces_returns hA hb.ready.buf hb.mutable (by rw [hused]; omega) w)).mono ?_
  intro b w1 hb1
  have hpos1 : b.pos = decoded E ps n := hb1.pos.trans hcursor
  have hcont : b.contents = (frames E ps).take (n + c.flatten.length) := by rw [hb1.contents, h.contents, htake]
  have hused1 : b.used = n + c.flatten.length := by
    rw [← hb1.wf.length_contents, hcont, List.length_take, Nat.min_eq_left hle]
  refine ⟨⟨⟨hb1.wf, by omega, by omega, hb.ready.cleartext⟩, hb1.unmutable.trans hb.mutable⟩,
    hpos1.trans h.pos.symm, hcont, ?_, by omega,
    hb1.doubled h.doubled, fun P hP => hb1.slack P hP (h.slack P hP)⟩
  rw [Buffer.unread, hcont, hpos1, List.drop_take, hsplit]
  show List.take _ ((frames E (arrived E ps n) ++ frames E qs).drop (frames E (arrived E ps n)).length) = _
  rw [List.drop_left]

/-- A chunk that ends where the test does not pass: what has arrived is queued. -/
private theorem chunk_returns (hE : E.littleEndian = true) (hknown : ∀ p ∈ ps, ∃ t, p.Known t)
    (hsize : ∀ p ∈ ps, (p.body E).length < 2 ^ 32) (hw : Waits E ps (n + c.flatten.length)) (w : World) :
    Exec.Returns (read E d c (.error EAGAIN)) w fun r _ => ∃ d' new, r = some d' ∧ d'.queued = d.queued ++ new ∧
      (arrived E ps n).map (described E) ++ new = (arrived E ps (n + c.flatten.length)).map (described E) ∧
      InStream E ps (n + c.flatten.length) d' := by
  obtain ⟨qs, hqs, -, harr, hwaits⟩ := arrived_split (E := E) ps n _ (Nat.le_add_right n c.flatten.length)
  unfold read
  rw [if_neg (by rw [h.connected]; decide)]
  refine (chunk_appended hA hroom h hbytes hn hkeep hqs w).bind ?_
  intro b w1 hb
  show Exec.Returns (if EAGAIN = EAGAIN then _ else _) w1 _
  rw [if_pos rfl]
  have hmem : ∀ q ∈ qs, q ∈ ps := fun q hq => by rw [hqs]; exact List.mem_append_right _ hq
  have hscan := scan_frames hE (fun q hq => hknown q (hmem q hq)) (fun q hq => hsize q (hmem q hq)) hb.bound
    (hwaits.1 hw)
  rw [← hb.unread] at hscan
  refine (checkPacket_returns (d := { d with bufIn := b }) hA hb.alive.ready h.mutex hscan w1).bind ?_
  rintro d' w2 ⟨hq, hready, hrest, k, packets, hk, rfl⟩
  refine .pure ⟨_, _, rfl, hq, by rw [harr, List.map_append], ⟨hready, hb.alive.mutable⟩, h.mutex, h.connected,
    hb.contents, ?_, hb.doubled, hb.slack⟩
  have hk' : k ≤ b.unread.length := hk
  have hdrop : b.unread.drop k = b.unread.drop (decoded E qs (n + c.flatten.length - decoded E ps n)) := by
    rw [← hrest, unread_advance]
  obtain ⟨-, -, hdec, -⟩ := arrived_split (E := E) qs _ _
    (Nat.le_refl (n + c.flatten.length - decoded E ps n))
  have hlen := congrArg List.length hdrop
  have hbl : b.unread.length = n + c.flatten.length - decoded E ps n := by
    rw [hb.unread, List.length_take, Nat.min_eq_left hb.bound]
  have hle : decoded E qs (n + c.flatten.length - decoded E ps n) ≤ n + c.flatten.length - decoded E ps n :=
    hdec
  rw [List.length_drop, List.length_drop, hbl] at hlen
  rw [hbl] at hk'
  have hpos : b.pos = decoded E ps n := hb.pos.trans h.pos
  show b.pos + k = _
  have hdn : decoded E ps (n + c.flatten.length) =
      decoded E ps n + decoded E qs (n + c.flatten.length - decoded E ps n) := by
    unfold decoded
    rw [harr, frames, List.flatMap_append, List.length_append]
    rfl
  omega

end Chunk

/-! ### A chunk that ends too early -/

private theorem frameType_ne_zero {bs : Bytes} (h8 : 8 ≤ bs.length) (h : ∀ x ∈ bs.drop 7, x = 0xFF) :
    frameType E bs ≠ packetInvalid := by
  have h6 : bs.drop 6 = bs[6] :: bs[7] :: bs.drop 8 := by
    rw [List.drop_eq_getElem_cons (by omega), List.drop_eq_getElem_cons (by omega)]
  have h7 : bs[7] = 0xFF := h _ (by rw [List.drop_eq_getElem_cons (by omega)]; exact List.mem_cons_self ..)
  unfold frameType
  rw [h6, h7]
  intro hc
  have := unpackUint16_bytes (E := E) 0xFF bs[6]
  rw [show List.take 2 (bs[6] :: 0xFF :: bs.drop 8) = [bs[6], 0xFF] from rfl] at hc
  rw [hc] at this
  have h255 : (0xFF : UInt8).toNat = 255 := rfl
  have h0 : packetInvalid.toNat = 0 := rfl
  omega

/-- The type that the decoder finds in the first bytes of a frame is not `INVALID`, if the bytes that have not
arrived are all ones. -/
private theorem prefix_type (hE : E.littleEndian = true) {p : Packet} (hp : ∃ t, p.Known t) {m : Nat}
    (h4 : 4 < m) (hm : m < (p.frame E).length) {slack : Bytes} (hslack : ∀ x ∈ slack, x = 0xFF)
    (h8 : 8 ≤ ((p.frame E).take m ++ slack).length) :
    frameType E ((p.frame E).take m ++ slack) ≠ packetInvalid := by
  have hl : ((p.frame E).take m).length = m := by rw [List.length_take]; omega
  by_cases hm8 : 8 ≤ m
  · obtain ⟨t, hp⟩ := hp
    have hf := (p.framed hE []).type
    rw [List.append_nil, ← List.take_append_drop m (p.frame E), frameType_append (by omega)] at hf
    rw [frameType_append (by omega), hf, hp.type]
    intro h
    have := packetType?_id t
    rw [h, packetType?_invalid] at this
    cases this
  · refine frameType_ne_zero h8 fun x hx => hslack x ?_
    rw [List.drop_append, List.drop_eq_nil_of_le (by omega), List.nil_append] at hx
    exact List.mem_of_mem_drop hx

section Overrun

variable (hE : E.littleEndian = true) (hA : E.AllocSucceeds)

include hE hA

/-- The test passes for a frame that is not complete, and the decoder makes a packet of it. -/
private theorem checkTurn_overruns {d : ClientData} (hd : Ready E d.bufIn d.keys) {p : Packet}
    (hp : ∃ t, p.Known t) {m : Nat} (hm : m < (p.frame E).length) (hun : d.bufIn.unread = (p.frame E).take m)
    (hslack : ∀ x ∈ d.bufIn.slack, x = 0xFF) (h4 : 4 < m)
    (hpass : (4 + UInt32.ofNat (p.body E).length).toNat ≤ m) (w : World) :
    Exec.Ensures (checkTurn E d) w fun r _ => d.packets.length < r.1.packets.length := by
  have hl : ((p.frame E).take m).length = m := by rw [List.length_take]; omega
  have hpasses : Passes E d.bufIn.unread := by
    have hs := frameSize_cut hE p (m := m) (by omega) []
    rw [List.append_nil] at hs
    rw [hun, Passes, hl, hs]
    exact ⟨h4, hpass⟩
  obtain ⟨w1, node, heq⟩ := checkTurn_pass hA hd hpasses w
  have hahead : d.bufIn.ahead = (p.frame E).take m ++ d.bufIn.slack := by
    rw [Buffer.ahead_eq hd.buf.block_used hd.pos_le, hun]
  intro r w' hrun
  rw [heq] at hrun
  obtain ⟨⟨err, packet, bufIn, enc⟩, w2, hread, hrun⟩ := Exec.bind_eq_ok.1 hrun
  have h8 : 8 ≤ d.bufIn.ahead.length :=
    readPacket_header { d.bufIn with mutex := .locked } (some d.keys) w1 _ w2 hread
  have hcode := readPacket_code { d.bufIn with mutex := .locked } (some d.keys) w1 _ w2 hread
  change err = if frameType E d.bufIn.ahead = packetInvalid then 1 else 0 at hcode
  rw [hahead] at h8 hcode
  rw [if_neg (prefix_type hE hp h4 hm hslack h8)] at hcode
  subst hcode
  obtain ⟨mutex, w3, -, hrun⟩ := Exec.bind_eq_ok.1 hrun
  dsimp only at hrun
  rw [if_neg (fun h => h rfl)] at hrun
  cases hrun
  show d.packets.length < (d.packets ++ [packet]).length
  rw [List.length_append]
  exact Nat.lt_succ_self _

/-- From bytes where the test passes too early, the loop queues more packets than have arrived. -/
private theorem loop_overruns {qs : List Packet} (hknown : ∀ p ∈ qs, ∃ t, p.Known t)
    (hsize : ∀ p ∈ qs, (p.body E).length < 2 ^ 32) {m : Nat} (hm : m ≤ (frames E qs).length)
    (hw : ¬ Waits E qs m)
    {d : ClientData} (hd : Ready E d.bufIn d.keys) (hun : d.bufIn.unread = (frames E qs).take m)
    (hslack : ∀ x ∈ d.bufIn.slack, x = 0xFF) (fuel : Nat) (w : World) :
    Exec.Ensures (Exec.loop .diverges (checkTurn E) fuel d) w fun d' _ =>
      d.packets.length + (arrived E qs m).length < d'.packets.length := by
  induction qs generalizing m d fuel w with
  | nil => exact absurd trivial hw
  | cons p qs ih =>
    rcases fuel with _ | fuel
    · exact .fault
    rw [frames_cons] at hun hm
    rw [List.length_append] at hm
    rw [Waits] at hw
    by_cases hp : (p.frame E).length ≤ m
    · rw [if_pos hp] at hw
      have htake : (p.frame E ++ frames E qs).take m =
          p.frame E ++ (frames E qs).take (m - (p.frame E).length) := by
        rw [List.take_append, List.take_of_length_le hp]
      have hdec := decodes_frame hE (hknown p (List.mem_cons_self ..)) (hsize p (List.mem_cons_self ..))
        ((frames E qs).take (m - (p.frame E).length))
      rw [← htake, ← hun] at hdec
      obtain ⟨_, w1, hrun, q, -, -, rfl⟩ := checkTurn_accept hA hd hdec w
      have hih := ih (fun q hq => hknown q (List.mem_cons_of_mem _ hq))
        (fun q hq => hsize q (List.mem_cons_of_mem _ hq))
        (by omega) hw (d := { d.advance (p.frame E).length with packets := d.packets ++ [q] })
        (hd.advance hdec.le_length) (by rw [unread_advance, hun, htake, List.drop_left]) hslack fuel w1
      intro d' w' hloop
      have := hih d' w' ((Exec.loop_turn hrun).symm.trans hloop)
      rw [arrived, if_pos hp, List.length_cons]
      change (d.packets ++ [q]).length + _ < _ at this
      rw [List.length_append, List.length_singleton] at this
      omega
    · rw [if_neg hp, not_or] at hw
      rw [List.take_append_of_le_length (by omega)] at hun
      have hover := checkTurn_overruns hE hA hd (hknown p (List.mem_cons_self ..)) (by omega) hun hslack
        (by omega) (by omega) w
      have ha : arrived E (p :: qs) m = [] := by rw [arrived, if_neg hp]
      rw [ha, List.length_nil, Nat.add_zero, Exec.loop_succ]
      refine hover.bind ?_
      rintro ⟨d1, more⟩ w1 hlt
      have hlt : d.packets.length < d1.packets.length := hlt
      cases more with
      | false => exact .pure hlt
      | true =>
        refine (checkLoop_extends fuel d1 w1).mono ?_
        intro d' w' hext
        exact Nat.lt_of_lt_of_le hlt hext.length_le

end Overrun

section Chunk

variable (hE : E.littleEndian = true) (hA : E.AllocSucceeds) (hones : E.Junk (· = 0xFF)) {ps : List Packet}
  (hknown : ∀ p ∈ ps, ∃ t, p.Known t) (hsize : ∀ p ∈ ps, (p.body E).length < 2 ^ 32)
  (hroom : 2 * (frames E ps).length ≤ E.word) {n : Nat} {d : ClientData} (h : InStream E ps n d)
    {c : List Bytes}
  {rest : Bytes} (hbytes : (frames E ps).drop n = c.flatten ++ rest) (hn : n ≤ (frames E ps).length)
  (hkeep : KeepsCursor E ps n (n + c.flatten.length))

include hE hA hones hknown hsize hroom h hbytes hn hkeep

/-- After a chunk that ends where the test passes too early, too many packets are queued. -/
private theorem chunk_overruns (hw : ¬ Waits E ps (n + c.flatten.length)) (w : World) :
    Exec.Ensures (read E d c (.error EAGAIN)) w fun r _ => ∀ d', r = some d' →
      d.packets.length + (arrived E ps (n + c.flatten.length)).length <
        d'.packets.length + (arrived E ps n).length := by
  obtain ⟨qs, hqs, -, harr, hwaits⟩ := arrived_split (E := E) ps n _ (Nat.le_add_right n c.flatten.length)
  have hmem : ∀ q ∈ qs, q ∈ ps := fun q hq => by rw [hqs]; exact List.mem_append_right _ hq
  unfold read
  rw [if_neg (by rw [h.connected]; decide)]
  refine (chunk_appended hA hroom h hbytes hn hkeep hqs w).ensures.bind ?_
  intro b w1 hb
  show Exec.Ensures (if EAGAIN = EAGAIN then _ else _) w1 _
  rw [if_pos rfl]
  unfold checkPacket
  rw [h.mutex, mutexLock_unlocked, Exec.pure_bind, Exec.bind_assoc]
  refine (loop_overruns (d := { d with bufIn := b, mutex := .locked }) hE hA (fun q hq => hknown q (hmem q hq))
    (fun q hq => hsize q (hmem q hq)) hb.bound (fun hc => hw (hwaits.2 hc)) hb.alive.ready hb.unread
    (hb.slack _ hones) _ w1).bind ?_
  intro d' w2 hlt
  rw [Exec.bind_assoc]
  refine .seq ?_
  rintro m1 w3
  rw [Exec.bind_assoc]
  refine .seq ?_
  rintro m2 w4
  refine .pure ?_
  rintro _ ⟨⟩
  rw [harr, List.length_append]
  change d.packets.length + _ < d'.packets.length at hlt
  show _ < d'.packets.length + _
  omega

end Chunk

/-! ### All chunks -/

section Chunks

variable (hE : E.littleEndian = true) (hA : E.AllocSucceeds) {ps : List Packet}
    (hknown : ∀ p ∈ ps, ∃ t, p.Known t)
  (hsize : ∀ p ∈ ps, (p.body E).length < 2 ^ 32) (hroom : 2 * (frames E ps).length ≤ E.word)

include hE hA hknown hsize hroom

private theorem delivered_of_waits {chunks : List (List Bytes)} {n : Nat} (hn : n ≤ (frames E ps).length)
    (hbytes : (frames E ps).drop n = chunks.flatten.flatten) (hkeep : Along (KeepsCursor E ps) n chunks)
    (hw : Along (fun _ => Waits E ps) n chunks) {d : ClientData} (h : InStream E ps n d) (w : World) :
    Delivered E ps n ((arrived E ps n).map (described E)) chunks d w := by
  induction chunks generalizing n d w with
  | nil => trivial
  | cons c cs ih =>
    rw [List.flatten_cons, List.flatten_append] at hbytes
    obtain ⟨-, hle⟩ := chunk_bytes hbytes hn
    refine (chunk_returns hA hroom h hbytes hn hkeep.1 hE hknown hsize hw.1 w).mono ?_
    rintro _ w' ⟨d', new, rfl, hq, hnew, hd'⟩
    refine ⟨d', new, rfl, hq, hnew, fun d'' w'' hwk => ?_⟩
    rw [hnew]
    exact ih hle (by rw [← List.drop_drop, hbytes, List.drop_left]) hkeep.2 hw.2 (hd'.worker hwk) w''

private theorem waits_of_delivered (hones : E.Junk (· = 0xFF)) {chunks : List (List Bytes)} {n : Nat}
    (hn : n ≤ (frames E ps).length) (hbytes : (frames E ps).drop n = chunks.flatten.flatten)
    (hkeep : Along (KeepsCursor E ps) n chunks) {d : ClientData} (h : InStream E ps n d) {w : World}
    (hdel : Delivered E ps n ((arrived E ps n).map (described E)) chunks d w) :
    Along (fun _ => Waits E ps) n chunks := by
  induction chunks generalizing n d w with
  | nil => trivial
  | cons c cs ih =>
    rw [List.flatten_cons, List.flatten_append] at hbytes
    obtain ⟨-, hle⟩ := chunk_bytes hbytes hn
    obtain ⟨_, w', hrun, d', new, rfl, hq, hnew, hrest⟩ := hdel
    have hw : Waits E ps (n + c.flatten.length) := by
      by_contra hw
      have hover := chunk_overruns hE hA hones hknown hsize hroom h hbytes hn hkeep.1 hw w _ w' hrun d' rfl
      have h1 := congrArg List.length hq
      have h2 := congrArg List.length hnew
      simp only [ClientData.queued, List.length_append, List.length_map] at h1 h2
      omega
    obtain ⟨_, w1, hrun', d1, new1, rfl, -, hnew1, hd1⟩ :=
      chunk_returns hA hroom h hbytes hn hkeep.1 hE hknown hsize hw w
    rw [hrun] at hrun'
    cases hrun'
    have hidle : Worker d' d' := ⟨rfl, rfl, rfl, hd1.alive.ready.cleartext⟩
    have hdel' := hrest d' w' hidle
    rw [hnew] at hdel'
    exact ⟨hw, ih hle (by rw [← List.drop_drop, hbytes, List.drop_left]) hkeep.2 hd1 hdel'⟩

end Chunks

section Host

variable (f : Nat → Option (Nat → UInt8))

private theorem arrived_malloc (ps : List Packet) (n : Nat) :
    arrived { E with malloc := f } ps n = arrived E ps n := by
  induction ps generalizing n with
  | nil => rfl
  | cons p ps ih =>
    show (if (p.frame E).length ≤ n then p :: arrived { E with malloc := f } ps
      (n - (p.frame E).length) else []) = _
    rw [ih]; rfl

private theorem waits_malloc (ps : List Packet) (n : Nat) :
    Waits { E with malloc := f } ps n = Waits E ps n := by
  induction ps generalizing n with
  | nil => rfl
  | cons p ps ih =>
    show (if (p.frame E).length ≤ n then Waits { E with malloc := f } ps (n - (p.frame E).length)
      else n ≤ 4 ∨ n < (4 + UInt32.ofNat (p.body E).length).toNat) = _
    rw [ih]; rfl

private theorem keepsCursor_malloc (ps : List Packet) :
    KeepsCursor { E with malloc := f } ps = KeepsCursor E ps := by
  funext n n'
  unfold KeepsCursor decoded
  rw [arrived_malloc]
  rfl

private theorem waits_malloc_along (ps : List Packet) :
    (fun _ => Waits { E with malloc := f } ps : Nat → Nat → Prop) = fun _ => Waits E ps := by
  funext _ n
  exact waits_malloc f ps n

end Host

/-- On a little-endian host, for packets of known types whose bodies are shorter than `2 ^ 32` bytes, which
fit into half of the range of `size_t`, and as long as no resize truncates the cursor: the chunks are
delivered, whatever fresh blocks contain, if and only if none of them ends where the test passes for a frame
that is not complete. -/
theorem delivered_iff (hE : E.littleEndian = true) {ps : List Packet} (hknown : ∀ p ∈ ps, ∃ t, p.Known t)
    (hsize : ∀ p ∈ ps, (p.body E).length < 2 ^ 32) (hroom : 2 * (frames E ps).length ≤ E.word)
    {chunks : List (List Bytes)} (hbytes : chunks.flatten.flatten = frames E ps)
    (hkeep : Along (KeepsCursor E ps) 0 chunks) :
    AlwaysDelivered E ps chunks ↔ Along (fun _ => Waits E ps) 0 chunks := by
  have hq : ([] : List (UInt32 × Message)) = (arrived E ps 0).map (described E) := by
    cases ps with
    | nil => rfl
    | cons p ps => rw [arrived, if_neg (by rw [p.length_frame]; omega)]; rfl
  constructor
  · intro h
    have hA : ({ E with malloc := fun _ => some fun _ => 0xFF } : Env).AllocSucceeds := fun _ => rfl
    obtain ⟨⟨d, w'⟩, hrun⟩ : ∃ r, connect { E with malloc := fun _ => some fun _ => 0xFF }
        ⟨Vector.replicate _ 0, Vector.replicate _ 0⟩ World.start = .ok r := ⟨_, rfl⟩
    have hdel := h _ hA _ _ d w' hrun
    rw [hq, ← arrived_malloc] at hdel
    have hw := waits_of_delivered (E := { E with malloc := fun _ => some fun _ => 0xFF }) hE hA hknown hsize hroom
      (by rintro k junk ⟨⟩ i; rfl) (Nat.zero_le _) hbytes.symm (by rw [keepsCursor_malloc]; exact hkeep)
      (connect_inStream hA ps hrun) hdel
    rwa [waits_malloc_along] at hw
  · intro hw f hA pair w d w' hrun
    rw [hq, ← arrived_malloc f]
    exact delivered_of_waits (E := { E with malloc := f }) hE hA hknown hsize hroom (Nat.zero_le _) hbytes.symm
      (by rw [keepsCursor_malloc]; exact hkeep) (by rw [waits_malloc_along]; exact hw)
        (connect_inStream hA ps hrun) w'

/-- An `OK` packet that arrives in two halves of four bytes. -/
theorem delivered_halves :
    AlwaysDelivered (Env.amd64 0) [⟨0, 1, 1, []⟩] [[[0, 0, 0, 0]], [[0, 1, 0, 1]]] := by
  have hkeep : Along (KeepsCursor (Env.amd64 0) [⟨0, 1, 1, []⟩]) 0 [[[0, 0, 0, 0]], [[0, 1, 0, 1]]] :=
    ⟨Or.inl (by decide), Or.inl (by decide), trivial⟩
  refine (delivered_iff rfl ?_ ?_ (by decide) rfl hkeep).2 ⟨Or.inl (by decide), trivial, trivial⟩
  · intro p hp
    obtain rfl := List.mem_singleton.1 hp
    exact ⟨.ok, rfl, rfl, by simp⟩
  · intro p hp
    obtain rfl := List.mem_singleton.1 hp
    decide

/-- A fresh block with a single one in it. -/
private def junkOne (i : Nat) : UInt8 := if i = 7 then 1 else 0

/-- A new connection on a host whose fresh blocks contain `junkOne`. -/
private def blank : ClientData :=
  { state := .prehandshake, keys := Encrypt.init ⟨Vector.replicate _ 0, Vector.replicate _ 0⟩, packets := [],
    mutex := .unlocked, disconnected := false,
    bufIn := ⟨16, 16, 0, 0, some ⟨0, (List.range 16).map junkOne⟩, false, true, .unlocked⟩,
    bufOut := ⟨16, 16, 0, 0, some ⟨1, (List.range 16).map junkOne⟩, false, true, .unlocked⟩ }

/-- An `OK` packet whose first five bytes arrive before the others: it is queued when the five have come. -/
theorem not_delivered_after_five_bytes :
    ¬ AlwaysDelivered (Env.amd64 0) [⟨0, 1, 1, []⟩] [[[0, 0, 0, 0, 0]], [[1, 0, 1]]] := by
  intro h
  have hdel := h (fun _ => some junkOne) (fun _ => rfl) ⟨Vector.replicate _ 0, Vector.replicate _ 0⟩
    World.start blank { World.start with allocs := 2 } rfl
  obtain ⟨r, w', hrun, d', new, rfl, hq, hnew, -⟩ := hdel
  have hone : (read { Env.amd64 0 with malloc := fun _ => some junkOne } blank [[0, 0, 0, 0, 0]] (.error EAGAIN)
      { World.start with allocs := 2 }).toOption.bind (fun r => r.1.map fun d => d.packets.length) = some 1 :=
        rfl
  rw [hrun] at hone
  have hlen : d'.packets.length = 1 := by simpa [Except.toOption] using hone
  have h1 := congrArg List.length hq
  have h2 := congrArg List.length hnew
  simp only [ClientData.queued, List.length_append, List.length_map, hlen] at h1 h2
  change 1 = 0 + new.length at h1
  change 0 + new.length = 0 at h2
  omega

end Server

end Excom
