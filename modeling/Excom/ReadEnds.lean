import Excom.Drain
import Excom.FrameContents
import Mathlib.Data.List.Forall2

/-!
# How a read loop ends

A loop over `read` ends with `EAGAIN`, with another error (a signal among them) or with the end of the file.
Whatever bytes are in the input buffer then, and whether they are encrypted or not, the server queues the frames
that are complete exactly when there are none, or the loop ended with `EAGAIN`, each frame can be decoded and each
but the last one is taken off the buffer as a whole; the client handles them exactly when there are none, or the
loop ended with `EAGAIN` and there is one, which can be decoded (`settles_iff`).  The other ends leave out
`check_packet`.
-/

namespace Excom

variable {E : Env}

/-! ### The bytes of an event -/

/-- The input buffer between two calls, with room for the bytes of an event. -/
structure Fillable (E : Env) (b : Buffer) (pieces : List Bytes) : Prop where
  buf : b.WF E
  pos_le : b.pos ≤ b.used
  mutable : b.unmutable = false
  room : 2 * (b.used + pieces.flatten.length) ≤ E.word

/-- Each of the frames denotes a packet, and the decoder takes each but the last one as a whole. -/
structure Decodable (E : Env) (keys : Encrypt) (fs : List Bytes) : Prop where
  denotes : ∀ f ∈ fs, ∃ n m, Denotes E keys f n m
  exact : ∀ f ∈ fs.dropLast, ∃ m, Denotes E keys f f.length m

/-- Keys that do not encrypt. -/
private def clearKeys : Encrypt := .init ⟨Vector.replicate _ 0, Vector.replicate _ 0⟩

private theorem Fillable.append_returns (hA : E.AllocSucceeds) {b : Buffer} {pieces : List Bytes}
    (h : Fillable E b pieces) (w : World) :
    Exec.Returns (appendPieces E b pieces) w fun b' _ => Ready E b' clearKeys ∧
      b'.unread = b.unreadAfter pieces.flatten := by
  have hroom := h.room
  have halive : Alive E b clearKeys := ⟨⟨h.buf, h.pos_le, by omega, rfl⟩, h.mutable⟩
  exact (halive.append_returns hA hroom w).mono fun _ _ hb => ⟨hb.1.ready, hb.2⟩

theorem Decodable.nil {keys : Encrypt} : Decodable E keys [] := ⟨by simp, by simp⟩

private theorem decodable_cons {keys : Encrypt} {f : Bytes} {fs : List Bytes} : Decodable E keys (f :: fs) ↔
    (∃ n m, Denotes E keys f n m ∧ (fs ≠ [] → n = f.length)) ∧ Decodable E keys fs := by
  constructor
  · intro h
    refine ⟨?_, fun g hg => h.denotes g (List.mem_cons_of_mem _ hg), ?_⟩
    · rcases fs with _ | ⟨g, fs⟩
      · obtain ⟨n, m, hden⟩ := h.denotes f (List.mem_cons_self ..)
        exact ⟨n, m, hden, fun hne => absurd rfl hne⟩
      · obtain ⟨m, hden⟩ := h.exact f (List.mem_cons_self ..)
        exact ⟨f.length, m, hden, fun _ => rfl⟩
    · intro g hg
      refine h.exact g ?_
      rw [List.dropLast_cons_of_ne_nil (by rintro rfl; simp at hg)]
      exact List.mem_cons_of_mem _ hg
  · intro ⟨⟨n, m, hden, hlast⟩, h⟩
    constructor
    · intro g hg
      rcases List.mem_cons.1 hg with rfl | hg
      · exact ⟨n, m, hden⟩
      · exact h.denotes g hg
    · intro g hg
      by_cases hnil : fs = []
      · rw [hnil] at hg
        simp at hg
      · rw [List.dropLast_cons_of_ne_nil hnil] at hg
        rcases List.mem_cons.1 hg with rfl | hg
        · obtain rfl := hlast hnil
          exact ⟨m, hden⟩
        · exact h.exact g hg

/-- The frame at the cursor denotes a packet, which the decoder gives while it has the mutex of the buffer. -/
private theorem Ready.readPacket_denotes (hA : E.AllocSucceeds) {b : Buffer} {keys₀ keys : Encrypt}
    (hb : Ready E b keys₀) {n : Nat} {m : UInt32 × Message} (h : Denotes E keys b.unread n m) (w : World) :
    Exec.Returns (protocolReadPacket E { b with mutex := .locked } (some keys)) w fun r _ => ∃ p keys',
      r = (0, p, { b with mutex := .locked, pos := b.pos + n }, some keys') ∧ (p.size, p.message) = m ∧
        (∀ s, Value.string s ∈ p.data → s.Valid) ∧ SameKeys E keys keys' := by
  have hlen := hb.buf.length_unread
  have hfits := hb.fits
  have hc : 8 + (frameSize E b.unread).toNat ≤ b.unread.length := h.complete
  have hroom : 2 * (frameSize E b.unread).toNat ≤ E.word := by omega
  have hblock : ({ b with mutex := .locked } : Buffer).used ≤ (blockBytes b.buf).length := hb.buf.block_used
  exact Excom.readPacket_denotes hA hblock hroom h w

/-! ### The server -/

namespace Server

/-- The loop of `check_packet` takes the frames off the input buffer, one turn for each, and queues what they
denote. -/
inductive Taken (E : Env) (keys : Encrypt) (tail : Bytes) : List Bytes → ClientData → World → Prop where
  | done {d : ClientData} {w : World} : Taken E keys tail [] d w
  | turn {f : Bytes} {fs : List Bytes} {d d' : ClientData} {w w' : World} {n : Nat} {m : UInt32 × Message}
      (front : d.bufIn.unread = (f :: fs).flatten ++ tail) (denotes : Denotes E keys f n m)
      (run : checkTurn E d w = .ok ((d', true), w')) (queued : d'.queued = d.queued ++ [m])
      (rest : Taken E keys tail fs d' w') : Taken E keys tail (f :: fs) d w

/-- When the read function returns, what the frames `fs` denote has been queued, and the connection was not
closed before if there are any; after `EAGAIN` they are taken one after the other; and the read function returns,
provided that all frames are taken as a whole and its test waits for the rest of `tail`. -/
structure Settled (E : Env) (d : ClientData) (pieces : List Bytes) (stop : ReadEnd) (fs : List Bytes)
    (tail : Bytes) (w : World) : Prop where
  queued : Exec.Ensures (read E d pieces stop) w fun r _ => fs = [] ∨ ∃ d' ms, r = some d' ∧
    List.Forall₂ (fun f m => ∃ n, Denotes E d.keys f n m) fs ms ∧ d.queued ++ ms <+: d'.queued
  taken : stop = .error EAGAIN → Exec.Returns (appendPieces E d.bufIn pieces) w fun b w' =>
    Taken E d.keys tail fs { d with bufIn := b, mutex := .locked } w'
  returns : ¬ Passes E tail → (∀ f ∈ fs, ∃ m, Denotes E d.keys f f.length m) →
    Exec.Returns (read E d pieces stop) w fun _ _ => True

private theorem checkTurn_takes (hA : E.AllocSucceeds) {d : ClientData} {keys : Encrypt}
    (hd : Ready E d.bufIn keys) {n : Nat} {m : UInt32 × Message} (h : Denotes E d.keys d.bufIn.unread n m)
    (w : World) :
    Exec.Returns (checkTurn E d) w fun r _ => ∃ p keys', (p.size, p.message) = m ∧ SameKeys E d.keys keys' ∧
      r = ({ d.advance n with packets := d.packets ++ [p], keys := keys' }, true) := by
  obtain ⟨w1, node, heq⟩ := checkTurn_pass hA hd h.complete.passes w
  obtain ⟨_, w2, hrun, p, keys', rfl, hp, -, hkeys⟩ := hd.readPacket_denotes hA h w1
  refine ⟨_, w2, ?_, p, keys', hp, hkeys, rfl⟩
  rw [heq, Exec.bind_of_ok hrun]
  rfl

/-- The frame at the cursor, when the bytes of several are there. -/
private theorem denotes_front {keys keys' : Encrypt} {f : Bytes} {fs : List Bytes} {tail bs : Bytes}
    (hun : bs = (f :: fs).flatten ++ tail) {n : Nat} {m : UInt32 × Message} (h : Denotes E keys f n m)
    (hk : SameKeys E keys keys') : Denotes E keys' bs n m := by
  rw [hun, List.flatten_cons, List.append_assoc]
  exact (h.congr hk).append _

/-- What follows the first frame, once it was taken as a whole. -/
private theorem unread_taken {d : ClientData} {f : Bytes} {fs : List Bytes} {tail : Bytes}
    (hun : d.bufIn.unread = (f :: fs).flatten ++ tail) :
    (d.advance f.length).bufIn.unread = fs.flatten ++ tail := by
  show ({ d.bufIn with pos := d.bufIn.pos + f.length } : Buffer).unread = _
  rw [Buffer.unread_advance, hun, List.flatten_cons, List.append_assoc, List.drop_left]

private theorem taken_of_decodable (hA : E.AllocSucceeds) {keys₀ keys : Encrypt} {tail : Bytes} {fs : List Bytes}
    (hdec : Decodable E keys fs) {d : ClientData} (hd : Ready E d.bufIn keys₀) (hk : SameKeys E keys d.keys)
    (hun : d.bufIn.unread = fs.flatten ++ tail) (w : World) : Taken E keys tail fs d w := by
  induction fs generalizing d w with
  | nil => exact .done
  | cons f fs ih =>
    obtain ⟨⟨n, m, hden, hlast⟩, hrest⟩ := decodable_cons.1 hdec
    have hfront := denotes_front hun hden hk
    obtain ⟨_, w1, hrun, p, keys', hp, hkeys, rfl⟩ := checkTurn_takes hA hd hfront w
    refine .turn hun hden hrun ?_ ?_
    · rw [ClientData.queued, ClientData.queued, List.map_append, List.map_singleton, hp]
    · by_cases hnil : fs = []
      · rw [hnil]
        exact .done
      · obtain rfl := hlast hnil
        exact ih (d := { d.advance f.length with packets := d.packets ++ [p], keys := keys' }) hrest
          (hd.advance hfront.le_length) (hk.trans hkeys) (unread_taken hun) w1

/-- Frames that are taken can be decoded: the next one is at the cursor only if the one before was taken as a
whole. -/
private theorem decodable_of_taken (hA : E.AllocSucceeds) {keys₀ keys : Encrypt} {tail : Bytes} {fs : List Bytes}
    {d : ClientData} {w : World} (h : Taken E keys tail fs d w) (hd : Ready E d.bufIn keys₀)
    (hk : SameKeys E keys d.keys) : Decodable E keys fs := by
  induction h with
  | done => exact .nil
  | @turn f fs d d' w w' n m front denotes run queued rest ih =>
    have hfront := denotes_front front denotes hk
    obtain ⟨_, w1, hrun, p, keys', -, hkeys, rfl⟩ := checkTurn_takes hA hd hfront w
    rw [run] at hrun
    cases hrun
    refine decodable_cons.2 ⟨⟨n, m, denotes, ?_⟩, ih (hd.advance hfront.le_length) (hk.trans hkeys)⟩
    intro hne
    cases rest with
    | done => exact absurd rfl hne
    | turn front' =>
      have hl := congrArg List.length front'
      have hle := hfront.le_length
      change ({ d.bufIn with pos := d.bufIn.pos + n } : Buffer).unread.length = _ at hl
      rw [Buffer.unread_advance, List.length_drop, front] at hl
      rw [front] at hle
      have hn := denotes.le_length
      simp only [List.flatten_cons, List.length_append] at hl hle hn
      omega

/-- A loop that takes the frames queues what they denote. -/
private theorem Taken.loop_queues {keys : Encrypt} {tail : Bytes} {fs : List Bytes} {d : ClientData} {w : World}
    (h : Taken E keys tail fs d w) (fuel : Nat) :
    Exec.Ensures (Exec.loop .diverges (checkTurn E) fuel d) w fun d' _ => ∃ ms,
      List.Forall₂ (fun f m => ∃ n, Denotes E keys f n m) fs ms ∧ d.queued ++ ms <+: d'.queued := by
  induction h generalizing fuel with
  | done =>
    refine (checkLoop_extends fuel _ _).mono ?_
    intro d' w' hext
    exact ⟨[], .nil, by rw [List.append_nil]; exact hext.map _⟩
  | @turn f fs d d' w w' n m front denotes run queued rest ih =>
    rcases fuel with _ | fuel
    · exact .fault
    intro d'' w'' hloop
    obtain ⟨ms, hms, hext⟩ := ih fuel d'' w'' ((Exec.loop_turn run).symm.trans hloop)
    rw [queued, List.append_assoc] at hext
    exact ⟨m :: ms, .cons ⟨n, denotes⟩ hms, hext⟩

/-- When all frames are taken as a whole and the test waits for the rest of `tail`, the loop ends there. -/
private theorem checkLoop_ends (hA : E.AllocSucceeds) {keys₀ keys : Encrypt} {tail : Bytes}
    (hwait : ¬ Passes E tail) {fs : List Bytes} (hfs : ∀ f ∈ fs, ∃ m, Denotes E keys f f.length m)
    {d : ClientData} (hd : Ready E d.bufIn keys₀) (hk : SameKeys E keys d.keys)
    (hun : d.bufIn.unread = fs.flatten ++ tail) {fuel : Nat} (hfuel : d.bufIn.unread.length < fuel) (w : World) :
    Exec.Returns (Exec.loop .diverges (checkTurn E) fuel d) w fun d' _ =>
      d'.bufIn.mutex ≠ .uninit ∧ d'.mutex = d.mutex := by
  induction fs generalizing d fuel w with
  | nil =>
    obtain ⟨fuel, rfl⟩ := Nat.exists_eq_succ_of_ne_zero (Nat.ne_of_gt (Nat.zero_lt_of_lt hfuel))
    obtain ⟨_, w1, hrun, mutex, hmx, rfl⟩ := checkTurn_stop hd (by rw [hun]; exact hwait) w
    exact .intro (Exec.loop_last hrun) ⟨hmx, rfl⟩
  | cons f fs ih =>
    obtain ⟨fuel, rfl⟩ := Nat.exists_eq_succ_of_ne_zero (Nat.ne_of_gt (Nat.zero_lt_of_lt hfuel))
    obtain ⟨m, hden⟩ := hfs f (List.mem_cons_self ..)
    have hfront := denotes_front hun hden hk
    have h8 := hfront.bounds.1
    obtain ⟨_, w1, hrun, p, keys', -, hkeys, rfl⟩ := checkTurn_takes hA hd hfront w
    have hun' := unread_taken hun
    have hlt : (d.advance f.length).bufIn.unread.length < fuel := by
      rw [hun', ← Nat.succ_lt_succ_iff]
      refine Nat.lt_of_le_of_lt ?_ hfuel
      rw [hun, List.flatten_cons, List.append_assoc, @List.length_append _ f]
      omega
    obtain ⟨d', w2, hrun', hmx, hm⟩ := ih
      (d := { d.advance f.length with packets := d.packets ++ [p], keys := keys' })
      (fun g hg => hfs g (List.mem_cons_of_mem _ hg)) (hd.advance hfront.le_length) (hk.trans hkeys) hun' hlt w1
    exact .intro ((Exec.loop_turn hrun).trans hrun') ⟨hmx, hm⟩

private theorem close_returns {d : ClientData} (hc : d.disconnected = false) (hm : d.mutex = .unlocked)
    (w : World) : Exec.Returns (close d) w fun r _ => r = none := by
  unfold close
  rw [if_neg (by rw [hc]; decide)]
  refine (Buffer.destroy_returns (fun _ => True) d.bufIn w).bind ?_
  intro _ w1 _
  refine (Buffer.destroy_returns (fun _ => True) d.bufOut w1).bind ?_
  intro _ w2 _
  rw [hm, mutexLock_unlocked, Exec.pure_bind, mutexUnlock_locked, Exec.pure_bind]
  exact .pure rfl

section

variable {d : ClientData} (hc : d.disconnected = false) {pieces : List Bytes} {b : Buffer} {w w₁ : World}
  (h : appendPieces E d.bufIn pieces w = .ok (b, w₁))

include hc h

private theorem read_eq (stop : ReadEnd) : read E d pieces stop w =
    (match stop with
      | .eof => close { d with bufIn := b }
      | .error errno =>
        if errno = EAGAIN then do
          let d ← checkPacket E { d with bufIn := b }
          return some d
        else return some { d with bufIn := b } : M (Option ClientData)) w₁ := by
  unfold read
  rw [if_neg (by rw [hc]; decide)]
  exact Exec.bind_of_ok h _

private theorem read_eof (hm : d.mutex = .unlocked) :
    Exec.Returns (read E d pieces .eof) w fun r _ => r = none := by
  obtain ⟨r, w2, hrun, hr⟩ := close_returns (d := { d with bufIn := b }) hc hm w₁
  exact .intro ((read_eq hc h .eof).trans hrun) hr

private theorem read_error {errno : Int} (hne : errno ≠ EAGAIN) :
    read E d pieces (.error errno) w = .ok (some { d with bufIn := b }, w₁) := by
  rw [read_eq hc h]
  dsimp only
  rw [if_neg hne]
  rfl

private theorem read_again : read E d pieces (.error EAGAIN) w = (do
    let d ← checkPacket E { d with bufIn := b }
    return some d : M (Option ClientData)) w₁ := by
  rw [read_eq hc h]
  dsimp only
  rw [if_pos rfl]

end

private theorem checkPacket_queues {keys : Encrypt} {tail : Bytes} {fs : List Bytes} {d : ClientData} {w : World}
    (hm : d.mutex = .unlocked) (h : Taken E keys tail fs { d with mutex := .locked } w) :
    Exec.Ensures (checkPacket E d) w fun d' _ => ∃ ms,
      List.Forall₂ (fun f m => ∃ n, Denotes E keys f n m) fs ms ∧ d.queued ++ ms <+: d'.queued := by
  unfold checkPacket
  rw [hm, mutexLock_unlocked, Exec.pure_bind]
  refine (h.loop_queues _).bind ?_
  intro d' w1 hq
  exact .seq fun _ w2 => .seq fun _ w3 => .pure hq

private theorem checkPacket_ends (hA : E.AllocSucceeds) {keys₀ : Encrypt} {tail : Bytes}
    (hwait : ¬ Passes E tail) {fs : List Bytes} {d : ClientData}
    (hfs : ∀ f ∈ fs, ∃ m, Denotes E d.keys f f.length m) (hd : Ready E d.bufIn keys₀) (hm : d.mutex = .unlocked)
    (hun : d.bufIn.unread = fs.flatten ++ tail) (w : World) :
    Exec.Returns (checkPacket E d) w fun _ _ => True := by
  unfold checkPacket
  rw [hm, mutexLock_unlocked, Exec.pure_bind]
  have hfuel : d.bufIn.unread.length < turnBound d := by
    rw [hd.buf.length_unread, turnBound]
    have := hd.buf.block_used
    omega
  obtain ⟨d', w1, hrun, hmx, hm'⟩ := checkLoop_ends (d := { d with mutex := .locked }) hA hwait hfs hd (.refl _)
    hun hfuel w
  obtain ⟨w2, hunlock⟩ : ∃ w2, mutexUnlock d'.bufIn.mutex w1 = .ok (.unlocked, w2) := by
    cases hmutex : d'.bufIn.mutex with
    | uninit => exact absurd hmutex hmx
    | unlocked | locked => exact ⟨_, rfl⟩
  have hlast : mutexUnlock d'.mutex w2 = .ok (.unlocked, w2) := by rw [hm']; rfl
  exact .intro ((Exec.bind_of_ok hrun _).trans ((Exec.bind_of_ok hunlock _).trans (Exec.bind_of_ok hlast _))) trivial

section Settled

variable (hA : E.AllocSucceeds) {d : ClientData} {pieces : List Bytes} {fs : List Bytes} {tail : Bytes}
  (hc : d.disconnected = false) (hm : d.mutex = .unlocked) (h : Fillable E d.bufIn pieces) (w : World)

include hA hc hm h

/-- After the other ends nothing is queued. -/
private theorem settled_else_iff {stop : ReadEnd} (hstop : stop ≠ .error EAGAIN) :
    Settled E d pieces stop fs tail w ↔ fs = [] := by
  obtain ⟨b, w1, happend, -⟩ := h.append_returns hA w
  have hskip : ∀ ms d', List.Forall₂ (fun f m => ∃ n, Denotes E d.keys f n m) fs ms →
      ({ d with bufIn := b } : ClientData) = d' → d.queued ++ ms <+: d'.queued → fs = [] := by
    rintro ms _ hms rfl hext
    have hle := hext.length_le
    change (d.queued ++ ms).length ≤ d.queued.length at hle
    rw [List.length_append, ← hms.length_eq] at hle
    exact List.length_eq_zero_iff.1 (by omega)
  obtain ⟨r, w2, hrun, hr⟩ : Exec.Returns (read E d pieces stop) w fun r _ =>
      r = none ∨ r = some { d with bufIn := b } := by
    rcases stop with errno | _
    · have hne : errno ≠ EAGAIN := fun he => hstop (by rw [he])
      exact .intro (read_error hc happend hne) (Or.inr rfl)
    · exact (read_eof hc happend hm).mono fun _ _ hr => Or.inl hr
  constructor
  · intro hset
    rcases hset.queued _ _ hrun with hnil | ⟨d', ms, rfl, hms, hext⟩
    · exact hnil
    · rcases hr with hr | hr
      · cases hr
      · exact hskip ms d' hms (Option.some.inj hr).symm hext
  · intro hnil
    exact ⟨fun _ _ _ => Or.inl hnil, fun hagain => absurd hagain hstop, fun _ _ => .intro hrun trivial⟩

variable (hs : Splits E (d.bufIn.unreadAfter pieces.flatten) fs tail)

include hs

/-- Frames that can be decoded are queued after `EAGAIN`. -/
private theorem settled_again_of (hdec : Decodable E d.keys fs) :
    Settled E d pieces (.error EAGAIN) fs tail w := by
  obtain ⟨b, w1, happend, hb, hun⟩ := h.append_returns hA w
  rw [hs.bytes] at hun
  have htaken : Taken E d.keys tail fs { d with bufIn := b, mutex := .locked } w1 :=
    taken_of_decodable (d := { d with bufIn := b, mutex := .locked }) hA hdec hb (.refl d.keys) hun w1
  constructor
  · intro r w' hrun
    rw [read_again hc happend] at hrun
    obtain ⟨d', w2, hcheck, hpure⟩ := Exec.bind_eq_ok.1 hrun
    cases hpure
    obtain ⟨ms, hms, hext⟩ := checkPacket_queues (d := { d with bufIn := b }) hm htaken d' _ hcheck
    exact Or.inr ⟨d', ms, rfl, hms, hext⟩
  · intro _
    exact .intro happend htaken
  · intro hwait hfs
    obtain ⟨d', w2, hcheck, -⟩ := checkPacket_ends (d := { d with bufIn := b }) hA hwait hfs hb hm hun w1
    refine ⟨some d', w2, ?_, trivial⟩
    rw [read_again hc happend, Exec.bind_of_ok hcheck]
    rfl

private theorem server_settled (stop : ReadEnd) : Settled E d pieces stop fs tail w ↔
    fs = [] ∨ stop = .error EAGAIN ∧ Decodable E d.keys fs := by
  by_cases hstop : stop = .error EAGAIN
  swap
  · rw [settled_else_iff hA hc hm h w hstop]
    constructor
    · exact Or.inl
    · rintro (hnil | ⟨hagain, -⟩)
      · exact hnil
      · exact absurd hagain hstop
  subst hstop
  constructor
  · intro hset
    obtain ⟨b, w1, happend, htaken⟩ := hset.taken rfl
    obtain ⟨_, _, happend', hb, -⟩ := h.append_returns hA w
    rw [happend] at happend'
    cases happend'
    exact Or.inr ⟨rfl, decodable_of_taken hA htaken hb (.refl d.keys)⟩
  · rintro (rfl | ⟨-, hdec⟩)
    · exact settled_again_of hA hc hm h w hs .nil
    · exact settled_again_of hA hc hm h w hs hdec

end Settled

end Server

/-! ### The client -/

namespace Client

/-- A handler that leaves the input buffer and the list of packets alone, and returns when it is called for a
packet that one of the frames `fs` denotes. -/
structure Attends (E : Env) (handler : Packet → ExcomClient → M ExcomClient) (c : ExcomClient)
    (fs : List Bytes) : Prop where
  keeps : Keeps handler
  returns : ∀ f ∈ fs, ∀ n p b keys w, Denotes E c.keys f n (p.size, p.message) →
    (∀ s, Value.string s ∈ p.data → s.Valid) → SameKeys E c.keys keys →
    Exec.Returns (handler p { c with bufIn := b, keys, packets := p :: c.packets }) w fun _ _ => True

/-- The read function returns, and the packets that the frames `fs` denote have been handled, before any other.
Where there are none its test must wait for the rest of `tail`. -/
def Settled (E : Env) (handler : Packet → ExcomClient → M ExcomClient) (c : ExcomClient) (pieces : List Bytes)
    (stop : ReadEnd) (fs : List Bytes) (tail : Bytes) (w : World) : Prop :=
  (fs = [] → ¬ Passes E tail) → Exec.Returns (read E handler c pieces stop) w fun c' _ => ∃ ps rest,
    Handled handler c (ps ++ rest) c' ∧
      List.Forall₂ (fun f (p : Packet) => ∃ n, Denotes E c.keys f n (p.size, p.message)) fs ps

/-- The other ends of the loop leave the client as it is. -/
private theorem read_else (handler : Packet → ExcomClient → M ExcomClient) {c : ExcomClient}
    (hc : c.disconnected = false) {pieces : List Bytes} {b : Buffer} {w w₁ : World}
    (h : appendPieces E c.bufIn pieces w = .ok (b, w₁)) {stop : ReadEnd} (hstop : stop ≠ .error EAGAIN) :
    read E handler c pieces stop w = .ok ({ c with bufIn := b }, w₁) := by
  unfold read
  rw [if_neg (by rw [hc]; decide), Exec.bind_of_ok h]
  cases stop with
  | eof => rfl
  | error errno =>
    have hne : errno ≠ EAGAIN := fun he => hstop (by rw [he])
    dsimp only
    rw [if_neg hne]
    rfl

/-- The packet that the frame at the cursor denotes goes to the handler. -/
private theorem checkPacket_takes (hA : E.AllocSucceeds) (handler : Packet → ExcomClient → M ExcomClient)
    {c : ExcomClient} {keys : Encrypt} (hc : Ready E c.bufIn keys) {n : Nat} {m : UInt32 × Message}
    (h : Denotes E c.keys c.bufIn.unread n m) (w : World) :
    ∃ p keys' w', (p.size, p.message) = m ∧ (∀ s, Value.string s ∈ p.data → s.Valid) ∧ SameKeys E c.keys keys' ∧
      checkPacket E handler c w =
        handler p { c.advance n with keys := keys', packets := p :: c.packets } w' := by
  obtain ⟨w1, node, heq⟩ := checkPacket_pass handler hc hA h.complete.passes.client w
  obtain ⟨_, w2, hrun, p, keys', rfl, hp, hvalid, hkeys⟩ := hc.readPacket_denotes hA h w1
  refine ⟨p, keys', w2, hp, hvalid, hkeys, ?_⟩
  rw [heq, Exec.bind_of_ok hrun]
  rfl

/-- No more than one packet is handled, whatever the bytes and the keys are. -/
private theorem checkPacket_atMost_one {handler : Packet → ExcomClient → M ExcomClient} (hh : Keeps handler)
    (c : ExcomClient) (w : World) :
    Exec.Ensures (checkPacket E handler c) w fun c' _ => c'.packets.length ≤ c.packets.length + 1 := by
  unfold checkPacket
  refine .seq fun mutex w1 => ?_
  dsimp only
  split
  · exact .seq fun _ _ => .pure (Nat.le_succ _)
  refine .seq fun src w2 => ?_
  split
  · exact .seq fun _ _ => .pure (Nat.le_succ _)
  refine .seq fun node w3 => ?_
  split
  · exact .fault
  refine .seq fun ⟨err, p, bufIn, enc⟩ w4 => .seq fun mutex' w5 => ?_
  dsimp only
  split
  · exact .seq fun _ _ => .pure (Nat.le_succ _)
  · refine (hh _ _ w5).mono ?_
    intro c' w6 h
    rw [h.2]
    exact Nat.le_refl _

section Settled

variable {handler : Packet → ExcomClient → M ExcomClient} {c : ExcomClient} {pieces fs : List Bytes} {tail : Bytes}

/-- What was handled is on the list of packets. -/
private theorem length_settled (hh : Keeps handler) {c' : ExcomClient} {ps rest : List Packet}
    (h : Handled handler c (ps ++ rest) c') {R : Bytes → Packet → Prop} (hfs : List.Forall₂ R fs ps) :
    fs.length + c.packets.length ≤ c'.packets.length := by
  have hl := congrArg List.length (h.packets hh)
  rw [List.length_append, List.length_reverse, List.length_append] at hl
  have := hfs.length_eq
  omega

private theorem client_settled (hA : E.AllocSucceeds) (hh : Attends E handler c fs) (hc : c.disconnected = false)
    (h : Fillable E c.bufIn pieces) (hs : Splits E (c.bufIn.unreadAfter pieces.flatten) fs tail) (stop : ReadEnd)
    (w : World) : Settled E handler c pieces stop fs tail w ↔
      fs = [] ∨ stop = .error EAGAIN ∧ fs.length = 1 ∧ Decodable E c.keys fs := by
  obtain ⟨b, w1, happend, hb, hun⟩ := h.append_returns hA w
  rw [hs.bytes] at hun
  by_cases hstop : stop = .error EAGAIN
  · subst hstop
    have heq := read_again handler hc happend
    constructor
    · intro hset
      by_cases hnil : fs = []
      · exact Or.inl hnil
      obtain ⟨c', w2, hrun, ps, rest, hhandled, hfs⟩ := hset fun h => absurd h hnil
      -- one packet is handled, so there is one frame
      have hone : c'.packets.length ≤ c.packets.length + 1 :=
        checkPacket_atMost_one hh.keeps { c with bufIn := b } w1 c' w2 (heq.symm.trans hrun)
      have hle := length_settled hh.keeps hhandled hfs
      have hpos := List.length_pos_of_ne_nil hnil
      obtain ⟨f, rfl⟩ := List.length_eq_one_iff.1 (show fs.length = 1 by omega)
      cases hfs with
      | cons hden _ =>
        obtain ⟨n, hden⟩ := hden
        exact Or.inr ⟨rfl, rfl, decodable_cons.2 ⟨⟨n, _, hden, fun h => absurd rfl h⟩, .nil⟩⟩
    · rintro (rfl | ⟨-, hone, hdec⟩)
      · intro hwait
        obtain ⟨c', w2, hrun, rfl⟩ := checkPacket_wait handler (c := { c with bufIn := b }) hb
          (by rw [hun]; exact hwait rfl) w1
        exact .intro (heq.trans hrun) ⟨[], [], .none rfl, .nil⟩
      · intro _
        obtain ⟨f, rfl⟩ := List.length_eq_one_iff.1 hone
        obtain ⟨⟨n, m, hden, -⟩, -⟩ := decodable_cons.1 hdec
        have hfront : Denotes E c.keys b.unread n m := by
          rw [hun, List.flatten_cons, List.append_assoc]
          exact hden.append _
        obtain ⟨p, keys', w2, rfl, hvalid, hkeys, hcheck⟩ := checkPacket_takes hA handler
          (c := { c with bufIn := b }) hb hfront w1
        obtain ⟨c', w3, hrun, -⟩ := hh.returns f (List.mem_singleton_self f) n p _ keys' w2 hden hvalid hkeys
        exact .intro (heq.trans (hcheck.trans hrun)) ⟨[p], [], .call (.none rfl) rfl hrun, .cons ⟨n, hden⟩ .nil⟩
  · -- after any other end no packet is handled
    have hrun := read_else handler hc happend hstop
    constructor
    · intro hset
      by_cases hnil : fs = []
      · exact Or.inl hnil
      obtain ⟨c', w2, hrun', ps, rest, hhandled, hfs⟩ := hset fun h => absurd h hnil
      rw [hrun] at hrun'
      cases hrun'
      have hle := length_settled hh.keeps hhandled hfs
      change fs.length + c.packets.length ≤ c.packets.length at hle
      exact Or.inl (List.length_eq_zero_iff.1 (by omega))
    · rintro (rfl | ⟨hagain, -⟩)
      · exact fun _ => .intro hrun ⟨[], [], .none rfl, .nil⟩
      · exact absurd hagain hstop

end Settled

end Client

/-- Whatever bytes are in the input buffer at the end of the loop, encrypted or not, let `fs` be the frames that
are complete and `tail` the rest.  What the frames denote has been queued when the server's read function returns,
frame by frame, exactly when there are none, or the loop ended with `EAGAIN`, each can be decoded and each but the
last one is taken as a whole.  It has been handled when the client's returns exactly when there are none, or the
loop ended with `EAGAIN` and there is one, which can be decoded. -/
theorem settles_iff (hA : E.AllocSucceeds) (pieces : List Bytes) (stop : ReadEnd) (fs : List Bytes) (tail : Bytes)
    (w : World) :
    (∀ d : Server.ClientData, d.disconnected = false → d.mutex = .unlocked → Fillable E d.bufIn pieces →
      Splits E (d.bufIn.unreadAfter pieces.flatten) fs tail →
      (Server.Settled E d pieces stop fs tail w ↔ fs = [] ∨ stop = .error EAGAIN ∧ Decodable E d.keys fs)) ∧
    ∀ (handler : Packet → Client.ExcomClient → M Client.ExcomClient) (c : Client.ExcomClient),
      Client.Attends E handler c fs → c.disconnected = false → Fillable E c.bufIn pieces →
      Splits E (c.bufIn.unreadAfter pieces.flatten) fs tail →
      (Client.Settled E handler c pieces stop fs tail w ↔
        fs = [] ∨ stop = .error EAGAIN ∧ fs.length = 1 ∧ Decodable E c.keys fs) :=
  ⟨fun _ hc hm h hs => Server.server_settled hA hc hm h w hs stop,
    fun _ _ hh hc h hs => Client.client_settled hA hh hc h hs stop w⟩

/-- A new connection of the server on a host whose fresh blocks are zero. -/
private def Server.idle : Server.ClientData :=
  { state := .prehandshake, keys := Encrypt.init ⟨Vector.replicate _ 0, Vector.replicate _ 0⟩, packets := [],
    mutex := .unlocked, disconnected := false,
    bufIn := ⟨16, 16, 0, 0, some ⟨0, List.replicate 16 0⟩, false, true, .unlocked⟩,
    bufOut := ⟨16, 16, 0, 0, some ⟨1, List.replicate 16 0⟩, false, true, .unlocked⟩ }

/-- The bytes of a `PING`. -/
private def pingFrame : Bytes := [0, 0, 0, 0, 0, 1, 0, 5]

private theorem denotes_ping (keys : Encrypt) :
    Denotes (Env.amd64 0) keys pingFrame 8 (0, (Packet.ping 1).message) := by
  have hbody : frameBody (Env.amd64 0) pingFrame = [] := by decide
  have hsays : Says (Env.amd64 0) keys ([] ++ []) (frameBody (Env.amd64 0) pingFrame) := by
    rw [hbody, Says, if_neg (fun h => h.2 rfl)]
    rfl
  have hden := Denotes.known (by decide) (t := .ping) (by decide) hsays .nil
  rw [hbody] at hden
  unfold overhead at hden
  rw [if_neg (fun h => h.2 rfl)] at hden
  exact hden

private theorem decodable_ping (keys : Encrypt) : Decodable (Env.amd64 0) keys [pingFrame] :=
  decodable_cons.2 ⟨⟨8, _, denotes_ping keys, fun h => absurd rfl h⟩, .nil⟩

private theorem splits_ping {b : Buffer} (hun : b.unreadAfter [pingFrame].flatten = pingFrame) :
    Splits (Env.amd64 0) (b.unreadAfter [pingFrame].flatten) [pingFrame] [] := by
  refine ⟨hun, ?_, by decide⟩
  intro f hf
  obtain rfl := List.mem_singleton.1 hf
  decide

private theorem Server.idle_fillable : Fillable (Env.amd64 0) Server.idle.bufIn [pingFrame] :=
  ⟨⟨rfl, rfl, by decide, by decide⟩, by decide, rfl, by decide⟩

private theorem Client.blank_fillable : Fillable (Env.amd64 0) Client.blank.bufIn [pingFrame] :=
  ⟨⟨rfl, rfl, by decide, by decide⟩, by decide, rfl, by decide⟩

private theorem Client.attends_ping :
    Client.Attends (Env.amd64 0) (Client.defaultHandler (Env.amd64 0)) Client.blank [pingFrame] := by
  refine ⟨fun p c w => Client.defaultHandler_keeps _ p c w, ?_⟩
  intro f hf n p b keys w hden _ _
  obtain rfl := List.mem_singleton.1 hf
  have htype : p.type = 5 := hden.type_eq
  unfold Client.defaultHandler
  rw [htype]
  exact .pure trivial

/-- A `PING` that arrives before `read` fails with `EAGAIN`. -/
theorem settled_again :
    Server.Settled (Env.amd64 0) Server.idle [pingFrame] (.error EAGAIN) [pingFrame] [] World.start ∧
      Client.Settled (Env.amd64 0) (Client.defaultHandler (Env.amd64 0)) Client.blank [pingFrame] (.error EAGAIN)
        [pingFrame] [] World.start := by
  obtain ⟨hserver, hclient⟩ := settles_iff (Env.amd64_allocSucceeds 0) [pingFrame] (.error EAGAIN) [pingFrame] []
    World.start
  constructor
  · exact (hserver Server.idle rfl rfl Server.idle_fillable (splits_ping (by decide))).2
      (Or.inr ⟨rfl, decodable_ping _⟩)
  · exact (hclient _ Client.blank Client.attends_ping rfl Client.blank_fillable (splits_ping (by decide))).2
      (Or.inr ⟨rfl, rfl, decodable_ping _⟩)

/-- A peer that sends a `PING` and closes the connection: it is neither queued nor handled. -/
theorem not_settled_eof :
    ¬ Server.Settled (Env.amd64 0) Server.idle [pingFrame] .eof [pingFrame] [] World.start ∧
      ¬ Client.Settled (Env.amd64 0) (Client.defaultHandler (Env.amd64 0)) Client.blank [pingFrame] .eof
        [pingFrame] [] World.start := by
  have hA := Env.amd64_allocSucceeds 0
  constructor
  · intro h
    rcases (Server.server_settled hA rfl rfl Server.idle_fillable _ (splits_ping (by decide)) _).1 h with
      hnil | ⟨hagain, -⟩
    · cases hnil
    · cases hagain
  · intro h
    rcases (Client.client_settled hA Client.attends_ping rfl Client.blank_fillable (splits_ping (by decide))
      _ _).1 h with hnil | ⟨hagain, -⟩
    · cases hnil
    · cases hagain

end Excom
