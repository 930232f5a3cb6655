import Excom.Receive
import Excom.Seal

/-!
# The locks of `check_packet`

The loop of the server's `check_packet` takes the mutex of the input buffer in each turn, and gives it back unless
it stops at a frame that has not arrived completely; behind the loop it is given back in any case.  `Disciplined`
says that no mutex is taken while it is held, none is given back while it is not, and both are free at the end.
A run that returns has that property exactly when each of its turns finds more than the four bytes of a size, and
no complete frame of type `INVALID` (`checkPacket_disciplined_iff`): for the content of the buffer this means that
it ends with a frame of which more than four bytes are there, but not all (`EndsCut`).
-/

namespace Excom

variable {E : Env}

/-! ### Calls that give back what they hold -/

/-- No mutex is unlocked that nobody holds. -/
def Balanced {α : Type} (x : M α) : Prop := ∀ w, Exec.Ensures x w fun _ w' => w'.unheld = w.unheld

section Balanced

variable {α β : Type}

theorem Balanced.pure (a : α) : Balanced (pure a) := fun _ => .pure rfl

theorem Balanced.fault (e : Fault) : Balanced (Exec.fault e : M α) := fun _ => .fault

theorem Balanced.bind {x : M α} {f : α → M β} (hx : Balanced x) (hf : ∀ a, Balanced (f a)) : Balanced (x >>= f) := by
  intro w
  refine (hx w).bind ?_
  intro a w1 h1
  refine (hf a w1).mono ?_
  intro b w2 h2
  exact h2.trans h1

private theorem malloc_balanced (size : Nat) : Balanced (malloc E size) := by
  intro w r w' hrun
  unfold malloc at hrun
  split at hrun <;> cases hrun <;> rfl

private theorem free_balanced (p : Option Block) : Balanced (free p) := by
  intro w r w' hrun
  rw [free_eq] at hrun
  cases hrun
  rfl

private theorem load_balanced (p : Option Block) (off len : Nat) : Balanced (load p off len) := by
  intro w
  unfold load
  split
  · exact .pure rfl
  · split
    · exact .fault
    · split
      · intro r w' hrun
        cases hrun
        rfl
      · exact .fault

private theorem store_balanced (p : Option Block) (off : Nat) (src : Bytes) : Balanced (store p off src) := by
  intro w
  refine (store_same p off src w).mono ?_
  intro p' w' h
  rw [h.1]

private theorem returnErrno_balanced : Balanced returnErrno := by
  intro w r w' hrun
  cases hrun
  rfl

private theorem readBytes_balanced (str : Bytes) (size : Nat) : Balanced (readBytes str size) := by
  unfold readBytes
  split
  · exact .pure _
  · exact .fault _

/-- A mutex that is locked is held until it is unlocked. -/
theorem mutexLock_ensures (m : Mutex) (w : World) :
    Exec.Ensures (mutexLock m) w fun m' w' => m = .unlocked ∧ m' = .locked ∧ w' = w := by
  cases m with
  | uninit | locked => exact .fault
  | unlocked => exact .pure ⟨rfl, rfl, rfl⟩

/-- Between a lock and the unlock nothing else is given back. -/
theorem Balanced.locked {m : Mutex} {f : Mutex → M β} (hf : Balanced (f .locked)) : Balanced (mutexLock m >>= f) := by
  intro w
  refine (mutexLock_ensures m w).bind ?_
  intro m' w1 ⟨_, hm', hw⟩
  subst hm' hw
  exact hf w1

theorem Balanced.unlocked {f : Mutex → M β} (hf : Balanced (f .unlocked)) : Balanced (mutexUnlock .locked >>= f) :=
  hf

end Balanced

namespace Buffer

private theorem init_balanced (start : Nat) : Balanced (Buffer.init E start) := by
  unfold Buffer.init
  refine (malloc_balanced start).bind ?_
  intro buf
  cases buf with
  | none => exact returnErrno_balanced.bind fun _ => .pure _
  | some _ => exact .pure _

private theorem destroy_balanced (b : Buffer) : Balanced b.destroy := by
  unfold destroy
  split
  · exact (free_balanced b.buf).bind fun _ => .pure _
  · exact .pure _

private theorem resize_balanced (b : Buffer) (toFit : Nat) : Balanced (b.resize E toFit) := by
  unfold resize
  dsimp only
  split
  · exact .fault _
  refine (malloc_balanced _).bind ?_
  intro newBuf
  cases newBuf with
  | none => exact returnErrno_balanced.bind fun _ => .pure _
  | some _ =>
    refine (load_balanced _ _ _).bind fun old => (store_balanced _ _ _).bind fun newBuf => ?_
    exact (free_balanced _).bind fun _ => .pure _

private theorem append_balanced (b : Buffer) (size : Nat) {src : M Bytes} (hsrc : Balanced src) :
    Balanced (b.append E size src) := by
  unfold append
  apply Balanced.locked
  have hreserve (w : World) : Exec.Ensures (({ b with mutex := .locked } : Buffer).reserve E size) w fun r w' =>
      r.2.mutex = .locked ∧ w'.unheld = w.unheld := by
    intro r w' hrun
    refine ⟨(reserve_frame _ size w r w' hrun).1, ?_⟩
    unfold reserve at hrun
    split at hrun
    · exact resize_balanced _ _ w r w' hrun
    · cases hrun
      rfl
  intro w
  refine (hreserve w).bind ?_
  intro ⟨chk, b1⟩ w1 ⟨hm, h1⟩
  dsimp only at hm ⊢
  rw [← h1]
  split
  · rw [hm]
    refine Balanced.bind returnErrno_balanced (fun err => ?_) w1
    exact Balanced.unlocked (.pure _)
  · unfold put
    rw [hm]
    refine Balanced.bind hsrc (fun bytes => ?_) w1
    refine (store_balanced _ _ _).bind fun buf => ?_
    exact Balanced.unlocked (.pure _)

private theorem cappend_balanced (b : Buffer) (str : Bytes) (size : Nat) : Balanced (b.cappend E str size) := by
  unfold cappend
  split
  · exact .pure _
  · exact append_balanced b size (readBytes_balanced str size)

private theorem bappendRemaining2_balanced (b src : Buffer) (s : Nat) : Balanced (b.bappendRemaining2 E src s) := by
  unfold bappendRemaining2
  split
  · exact .pure _
  · split
    · exact .pure _
    · exact append_balanced b s (load_balanced _ _ _)

end Buffer

private theorem dupfill_balanced (string : ExcomString) (size : UInt32) (p : Option Block) (off : Nat) :
    Balanced (ExcomString.dupfill E string size p off) := by
  unfold ExcomString.dupfill
  split
  · exact .pure _
  refine (malloc_balanced _).bind ?_
  intro buf
  cases buf with
  | none => exact .pure _
  | some _ =>
    refine (load_balanced _ _ _).bind fun bytes => (store_balanced _ _ _).bind fun buf => ?_
    exact (store_balanced _ _ _).bind fun _ => .pure _

private theorem pdecryptBuffer2_balanced (enc : Encrypt) (buf out : Buffer) (use : Nat) :
    Balanced (pdecryptBuffer2 E enc buf out use) := by
  unfold pdecryptBuffer2
  split
  · exact .pure _
  split
  · exact .pure _
  apply Balanced.locked
  refine (load_balanced _ _ _).bind fun nonce => (malloc_balanced _).bind fun crypt => ?_
  refine (malloc_balanced _).bind fun message => ?_
  dsimp only
  split
  · exact (free_balanced _).bind fun _ => (free_balanced _).bind fun _ => Balanced.unlocked (.pure _)
  refine (load_balanced _ _ _).bind fun bytes => (store_balanced _ _ _).bind fun crypt => ?_
  refine Balanced.unlocked ?_
  split
  · exact (free_balanced _).bind fun _ => (free_balanced _).bind fun _ => .pure _
  · refine (store_balanced _ _ _).bind fun message => (free_balanced _).bind fun _ => ?_
    exact (Buffer.cappend_balanced _ _ _).bind fun _ => (free_balanced _).bind fun _ => .pure _

private theorem fetchBody_balanced (input : Buffer) (enc : Option Encrypt) (buf : Buffer) (size : UInt32) :
    Balanced (fetchBody E input enc buf size) := by
  unfold fetchBody
  split
  · exact (pdecryptBuffer2_balanced _ _ _ _).bind fun _ => .pure _
  · exact (Buffer.bappendRemaining2_balanced _ _ _).bind fun _ => .pure _

private theorem readFields_balanced (buf : Buffer) (cur : UInt32) (fs : List Field) :
    Balanced (readFields E buf cur fs) := by
  induction fs generalizing cur with
  | nil => exact .pure _
  | cons f fs ih =>
    unfold readFields
    refine Balanced.bind ?_ fun r => (ih r.2).bind fun _ => .pure _
    cases f with
    | string =>
      refine (load_balanced _ _ _).bind fun src => ?_
      exact (dupfill_balanced _ _ _ _).bind fun _ => .pure _
    | number => exact (load_balanced _ _ _).bind fun _ => .pure _

private theorem parseBody_balanced (size : UInt32) (id type : UInt16) (input : Buffer) (enc : Option Encrypt)
    (buf : Buffer) : Balanced (parseBody E size id type input enc buf) := by
  unfold parseBody
  split
  · exact .pure _
  refine Balanced.bind ?_ fun r => (Buffer.destroy_balanced buf).bind fun _ => .pure _
  unfold readData
  split
  · exact readFields_balanced _ _ _
  · exact .pure _

/-- The decoder gives back what it holds, whatever the keys. -/
theorem readPacket_balanced (input : Buffer) (enc : Option Encrypt) : Balanced (protocolReadPacket E input enc) := by
  unfold protocolReadPacket
  refine (load_balanced _ _ _).bind fun _ => (load_balanced _ _ _).bind fun _ =>
    (load_balanced _ _ _).bind fun _ => ?_
  refine (Buffer.init_balanced 32).bind fun _ => (fetchBody_balanced _ _ _ _).bind fun _ => ?_
  exact parseBody_balanced _ _ _ _ _ _

/-! ### What the decoder does to the input buffer -/

private theorem fetchBody_input (input : Buffer) (enc : Option Encrypt) (buf : Buffer) (size : UInt32) (w : World) :
    Exec.Ensures (fetchBody E input enc buf size) w fun r _ => ∃ k, r.1 = { input with pos := input.pos + k } := by
  unfold fetchBody
  split
  · rename_i keys _
    refine Exec.Ensures.bind (Q := fun r _ => ∃ k, r.2.2.1 = { input with pos := input.pos + k }) ?_ ?_
    · by_cases h0 : size.toNat = 0
      · unfold pdecryptBuffer2
        rw [if_pos h0]
        exact .pure ⟨0, rfl⟩
      by_cases hm : buf.unmutable = true
      · unfold pdecryptBuffer2
        rw [if_neg h0, if_pos hm]
        exact .pure ⟨0, rfl⟩
      · refine (pdecryptBuffer2_cursor (by omega) (by simpa using hm) w).mono ?_
        intro r _ h
        exact ⟨_, h⟩
    · intro r w1 h
      exact .pure h
  · exact .seq fun _ _ => .pure ⟨0, rfl⟩

/-- The cursor moves over the header at least, and nothing else of the input buffer changes. -/
theorem readPacket_input (input : Buffer) (enc : Option Encrypt) (w : World) :
    Exec.Ensures (protocolReadPacket E input enc) w fun r _ =>
      ∃ k, r.2.2.1 = { input with pos := input.pos + 8 + k } := by
  unfold protocolReadPacket
  refine .seq fun _ w1 => .seq fun _ w2 => .seq fun _ w3 => .seq fun ⟨_, b⟩ w4 => ?_
  dsimp only
  refine (fetchBody_input _ enc b _ w4).bind ?_
  intro ⟨input', enc', buf⟩ w5 ⟨k, hk⟩
  dsimp only at hk
  subst hk
  unfold parseBody
  split
  · exact .pure ⟨k, rfl⟩
  · refine .seq fun ⟨data, cur⟩ w6 => .seq fun _ w7 => .pure ⟨k + cur.toNat, ?_⟩
    dsimp only
    rw [Nat.add_assoc]

namespace Server

/-! ### One turn -/

variable (E) in
/-- More than a size is there, and if the frame seems to be there completely, the decoder does not refuse it: its
type is not `INVALID`. -/
def TakesOrWaits (b : Buffer) : Prop :=
  4 < b.remaining E ∧ ((4 + frameSize E b.ahead).toNat ≤ b.remaining E → frameType E b.ahead ≠ packetInvalid)

/-- A turn that begins with the mutex of the input buffer free.  One that takes a frame leaves it free; one that
waits for the rest of a frame leaves it locked, and any other last turn leaves it free. -/
theorem checkTurn_cases {d : ClientData} (hin : d.bufIn.mutex = .unlocked) (w : World) :
    Exec.Ensures (checkTurn E d) w fun r w' => w'.unheld = w.unheld ∧ r.1.mutex = d.mutex ∧
      ((r.2 = true ∧ TakesOrWaits E d.bufIn ∧ 8 ≤ d.bufIn.ahead.length ∧
          ∃ k, r.1.bufIn = { d.bufIn with pos := d.bufIn.pos + 8 + k }) ∨
        (r.2 = false ∧ TakesOrWaits E d.bufIn ∧ r.1.bufIn.mutex = .locked) ∨
        (r.2 = false ∧ ¬ TakesOrWaits E d.bufIn ∧ r.1.bufIn.mutex = .unlocked)) := by
  unfold checkTurn
  by_cases h4 : d.bufIn.remaining E > 4
  swap
  · rw [if_neg h4]
    exact .pure ⟨rfl, rfl, .inr (.inr ⟨rfl, fun h => h4 h.1, hin⟩)⟩
  rw [if_pos h4, hin, mutexLock_unlocked, Exec.pure_bind]
  refine ((load_balanced _ _ 4 w).and (load_ensures _ _ 4 w)).bind ?_
  intro src w1 ⟨h1, hsrc, _⟩
  have hsize : unpackUint32 E src = frameSize E d.bufIn.ahead := by rw [hsrc]; rfl
  dsimp only
  rw [hsize]
  by_cases hlt : ({ d.bufIn with mutex := .locked } : Buffer).remaining E < (4 + frameSize E d.bufIn.ahead).toNat
  · rw [if_pos hlt]
    have hcut : d.bufIn.remaining E < (4 + frameSize E d.bufIn.ahead).toNat := hlt
    refine .pure ⟨h1, rfl, .inr (.inl ⟨rfl, ⟨h4, ?_⟩, rfl⟩)⟩
    intro hle
    omega
  rw [if_neg hlt]
  have hle : (4 + frameSize E d.bufIn.ahead).toNat ≤ d.bufIn.remaining E := Nat.not_lt.1 hlt
  refine (malloc_balanced sizeofPacket w1).bind ?_
  intro node w2 h2
  split
  · exact .fault
  -- the decoder is called with the mutex locked, and it is unlocked behind it
  have hframe := (readPacket_input (E := E) { d.bufIn with mutex := .locked } (some d.keys) w2).and
    (readPacket_balanced _ _ w2)
  have hresult := (readPacket_code (E := E) { d.bufIn with mutex := .locked } (some d.keys) w2).and
    (readPacket_header _ _ w2)
  refine (hframe.and hresult).bind ?_
  intro ⟨err, packet, bufIn, enc⟩ w3 ⟨⟨⟨k, hk⟩, h3⟩, herr, hlen⟩
  dsimp only at hk herr hlen ⊢
  subst hk herr
  have hunheld : w3.unheld = w.unheld := by omega
  rw [mutexUnlock_locked, Exec.pure_bind]
  have htype : frameType E ({ d.bufIn with mutex := .locked } : Buffer).ahead = frameType E d.bufIn.ahead := rfl
  rw [htype]
  by_cases hinv : frameType E d.bufIn.ahead = packetInvalid
  · rw [if_pos hinv, if_pos (by decide)]
    refine (free_balanced node w3).bind ?_
    intro _ w4 h4'
    refine .pure ⟨h4'.trans hunheld, rfl, .inr (.inr ⟨rfl, ?_, rfl⟩)⟩
    intro h
    exact h.2 hle hinv
  · rw [if_neg hinv, if_neg (by decide)]
    refine .pure ⟨hunheld, rfl, .inl ⟨rfl, ⟨h4, fun _ => hinv⟩, hlen, k, ?_⟩⟩
    show _ = { d.bufIn with pos := d.bufIn.pos + 8 + k }
    rw [← hin]

/-! ### The whole call -/

/-- The turns of the loop of a call. -/
def LoopTurns (E : Env) (d : ClientData) (w : World) (d' : ClientData) (w' : World) : Prop :=
  Exec.Turns (checkTurn E) { d with mutex := .locked } w d' w'

/-- The discipline of the two mutexes in a call that begins with both of them free: the mutex of the input buffer
is free where a turn takes it, that of the connection is held there, nothing that is not held is given back, and
both are free at the end. -/
structure Disciplined (E : Env) (d : ClientData) (w : World) : Prop where
  turns : ∀ d1 w1, LoopTurns E d w d1 w1 →
    d1.bufIn.mutex = .unlocked ∧ d1.mutex = .locked ∧ w1.unheld = w.unheld
  returns : Exec.Ensures (checkPacket E d) w fun d' w' =>
    w'.unheld = w.unheld ∧ d'.bufIn.mutex = .unlocked ∧ d'.mutex = .unlocked

/-- Up to the last turn the discipline is kept. -/
theorem loopTurns_locks {d d1 : ClientData} {w w1 : World} (hin : d.bufIn.mutex = .unlocked)
    (ht : LoopTurns E d w d1 w1) : d1.bufIn.mutex = .unlocked ∧ d1.mutex = .locked ∧ w1.unheld = w.unheld := by
  refine Exec.Turns.invariant
    (I := fun d' w' => d'.bufIn.mutex = .unlocked ∧ d'.mutex = .locked ∧ w'.unheld = w.unheld) ?_ ht ⟨hin, rfl, rfl⟩
  intro d' w' ⟨hin', hm', hw'⟩
  refine (checkTurn_cases hin' w').mono ?_
  intro r w2 ⟨h2, hm2, hcases⟩ hmore
  rcases hcases with ⟨_, _, _, k, hbuf⟩ | ⟨hlast, _⟩ | ⟨hlast, _⟩
  · exact ⟨by rw [hbuf]; exact hin', hm2.trans hm', h2.trans hw'⟩
  · rw [hlast] at hmore
    cases hmore
  · rw [hlast] at hmore
    cases hmore

/-- The bound on the number of turns is never met. -/
theorem checkLoop_bound {d : ClientData} (hin : d.bufIn.mutex = .unlocked) {n : Nat} (hn : turnBound d ≤ n)
    (w : World) : Exec.loop .diverges (checkTurn E) n d w = Exec.loop .diverges (checkTurn E) (turnBound d) d w := by
  refine Exec.loop_bound (I := fun d' _ => d'.bufIn.mutex = .unlocked ∧
    (blockBytes d'.bufIn.buf).length = (blockBytes d.bufIn.buf).length)
    (μ := fun d' => (blockBytes d.bufIn.buf).length - d'.bufIn.pos) ?_ ?_ ?_ ⟨hin, rfl⟩
  · intro d' w' ⟨hin', hlen⟩
    refine (checkTurn_cases hin' w').mono ?_
    intro r w2 ⟨_, _, hcases⟩ hmore
    rcases hcases with ⟨_, _, h8, k, hbuf⟩ | ⟨hlast, _⟩ | ⟨hlast, _⟩
    · rw [Buffer.ahead, List.length_drop, hlen] at h8
      rw [hbuf]
      refine ⟨⟨hin', hlen⟩, ?_⟩
      dsimp only
      omega
    · rw [hlast] at hmore
      cases hmore
    · rw [hlast] at hmore
      cases hmore
  · unfold turnBound at hn
    omega
  · unfold turnBound
    omega

/-- What a call that returns has done behind its loop. -/
theorem checkPacket_ok {d d' : ClientData} {w w' : World} (hm : d.mutex = .unlocked)
    (hrun : checkPacket E d w = .ok (d', w')) : ∃ d2 w2 inMutex w3 mutex,
      Exec.loop .diverges (checkTurn E) (turnBound d) { d with mutex := .locked } w = .ok (d2, w2) ∧
        mutexUnlock d2.bufIn.mutex w2 = .ok (inMutex, w3) ∧ mutexUnlock d2.mutex w3 = .ok (mutex, w') ∧
          d'.bufIn.mutex = inMutex ∧ d'.mutex = mutex := by
  unfold checkPacket at hrun
  rw [hm, mutexLock_unlocked, Exec.pure_bind] at hrun
  obtain ⟨d2, w2, hloop, hrun⟩ := Exec.bind_eq_ok.1 hrun
  obtain ⟨m, w3, hunlock, hrun⟩ := Exec.bind_eq_ok.1 hrun
  obtain ⟨m', w4, hunlock', hrun⟩ := Exec.bind_eq_ok.1 hrun
  cases hrun
  exact ⟨d2, w2, m, w3, m', hloop, hunlock, hunlock', rfl, rfl⟩

/-- A call that returns keeps the discipline exactly when each of its turns takes a frame or waits for the rest of
one; a call that does not return keeps it. -/
theorem disciplined_iff_turns {d : ClientData} {w : World} (hm : d.mutex = .unlocked)
    (hin : d.bufIn.mutex = .unlocked) : Disciplined E d w ↔
      ((∃ r, checkPacket E d w = .ok r) → ∀ d1 w1, LoopTurns E d w d1 w1 → TakesOrWaits E d1.bufIn) := by
  constructor
  · intro h ⟨⟨d', w'⟩, hrun⟩ d1 w1 ht
    by_contra hnot
    obtain ⟨hin1, hm1, hw1⟩ := h.turns d1 w1 ht
    obtain ⟨d2, w2, m, w3, m', hloop, hunlock, hunlock', _⟩ := checkPacket_ok hm hrun
    have hcases := checkTurn_cases (E := E) hin1 w1
    rcases ht.more_or_last hloop with ⟨d3, w4, hmore⟩ | hlast
    · obtain ⟨_, _, ⟨_, htakes, _⟩ | ⟨hfalse, _⟩ | ⟨hfalse, _⟩⟩ := hcases _ _ hmore
      · exact hnot htakes
      · cases hfalse
      · cases hfalse
    · obtain ⟨hw2, hm2, ⟨hfalse, _⟩ | ⟨_, htakes, _⟩ | ⟨_, _, hfree⟩⟩ := hcases _ _ hlast
      · cases hfalse
      · exact hnot htakes
      · -- the mutex of the input buffer is given back although it is free
        rw [show d2.bufIn.mutex = .unlocked from hfree] at hunlock
        cases hunlock
        rw [show d2.mutex = .locked from hm2.trans hm1] at hunlock'
        have hend := (h.returns d' w' hrun).1
        cases hunlock'
        simp only at hend hw2
        omega
  · intro h
    refine ⟨fun d1 w1 ht => loopTurns_locks hin ht, ?_⟩
    intro d' w' hrun
    obtain ⟨d2, w2, m, w3, m', hloop, hunlock, hunlock', hm1, hm2⟩ := checkPacket_ok hm hrun
    rw [hm1, hm2]
    clear hm1 hm2
    obtain ⟨d1, w1, ht, hlast⟩ := Exec.exists_last_turn hloop
    obtain ⟨hin1, hm1, hw1⟩ := loopTurns_locks hin ht
    obtain ⟨hw2, hm2, ⟨hfalse, _⟩ | ⟨_, _, hlocked⟩ | ⟨_, hnot, _⟩⟩ := checkTurn_cases hin1 w1 _ _ hlast
    · cases hfalse
    · rw [show d2.bufIn.mutex = .locked from hlocked] at hunlock
      cases hunlock
      rw [show d2.mutex = .locked from hm2.trans hm1] at hunlock'
      cases hunlock'
      exact ⟨hw2.trans hw1, rfl, rfl⟩
    · exact absurd (h ⟨_, hrun⟩ d1 w1 ht) hnot

/-! ### In terms of the bytes -/

variable (E) in
/-- Frames that the decoder takes, and behind them more than four bytes of a frame that is not there completely. -/
inductive EndsCut : Bytes → Prop where
  | cut {bs : Bytes} (h4 : 4 < bs.length) (h : ¬ Passes E bs) : EndsCut bs
  | accept {bs : Bytes} {n : Nat} {m : UInt32 × Message} (h : Decodes E bs n (some m)) (rest : EndsCut (bs.drop n)) :
      EndsCut bs

/-- A frame that the decoder takes does not stop the loop. -/
theorem takesOrWaits_accept {b : Buffer} {keys : Encrypt} (hb : Ready E b keys) {n : Nat} {m : UInt32 × Message}
    (h : Decodes E b.unread n (some m)) : TakesOrWaits E b := by
  obtain ⟨_, _, _, htype, _⟩ := h.complete.ahead hb.buf.block_used
  refine ⟨by rw [hb.remaining]; exact h.complete.passes.1, ?_⟩
  intro _
  rw [htype]
  cases h with
  | unknown _ hne _ => exact hne
  | known _ ht _ _ =>
    intro hinv
    rw [hinv] at ht
    cases ht

/-- A frame that the decoder refuses does. -/
theorem not_takesOrWaits_refuse {b : Buffer} {keys : Encrypt} (hb : Ready E b keys) {n : Nat}
    (h : Decodes E b.unread n none) : ¬ TakesOrWaits E b := by
  intro htakes
  have hpasses := h.complete.passes
  obtain ⟨_, hsize, _, htype, _⟩ := h.complete.ahead hb.buf.block_used
  refine htakes.2 ?_ ?_
  · rw [hb.remaining, hsize]
    exact hpasses.2
  · rw [htype]
    cases h with
    | invalid _ ht => exact ht

/-- Where every turn takes a frame or waits, the content ends with a frame that is cut. -/
theorem endsCut_of_turns (hA : E.AllocSucceeds) {bs rest : Bytes} {ms : List (UInt32 × Message)}
    (hscan : Scan E bs ms rest) {d : ClientData} (hd : Ready E d.bufIn d.keys) (hbs : d.bufIn.unread = bs) (w : World)
    (hturns : ∀ d1 w1, Exec.Turns (checkTurn E) d w d1 w1 → TakesOrWaits E d1.bufIn) : EndsCut E bs := by
  induction hscan generalizing d w with
  | stop h =>
    have h4 := (hturns d w .here).1
    rw [hd.remaining, hbs] at h4
    exact .cut h4 h
  | refuse h =>
    subst hbs
    exact absurd (hturns d w .here) (not_takesOrWaits_refuse hd h)
  | @accept bs rest n m ms h _ ih =>
    subst hbs
    obtain ⟨_, w1, hrun, p, _, _, rfl⟩ := checkTurn_accept hA hd h w
    refine .accept h (ih (d := { d.advance n with packets := d.packets ++ [p] }) ?_ ?_ w1 ?_)
    · exact hd.advance h.le_length
    · exact unread_advance d n _
    · exact fun d2 w2 ht => hturns d2 w2 (.next hrun ht)

/-- Along content that ends with a frame that is cut, every turn takes a frame or waits. -/
theorem EndsCut.turns (hA : E.AllocSucceeds) {bs : Bytes} (h : EndsCut E bs) {d : ClientData}
    (hd : Ready E d.bufIn d.keys) (hbs : d.bufIn.unread = bs) {w w1 : World} {d1 : ClientData}
    (ht : Exec.Turns (checkTurn E) d w d1 w1) : TakesOrWaits E d1.bufIn := by
  induction h generalizing d w with
  | cut h4 h =>
    subst hbs
    cases ht with
    | here =>
      refine ⟨by rw [hd.remaining]; exact h4, ?_⟩
      intro hle
      rw [hd.remaining, show frameSize E d1.bufIn.ahead = frameSize E d1.bufIn.unread from hd.size (by omega)] at hle
      exact absurd ⟨h4, hle⟩ h
    | next hrun _ =>
      obtain ⟨r, w2, hstop, _, _, rfl⟩ := checkTurn_stop hd h w
      rw [hstop] at hrun
      cases hrun
  | @accept bs n m h _ ih =>
    subst hbs
    cases ht with
    | here => exact takesOrWaits_accept hd h
    | next hrun hrest =>
      obtain ⟨r, w2, haccept, p, _, _, rfl⟩ := checkTurn_accept hA hd h w
      rw [haccept] at hrun
      cases hrun
      exact ih (hd.advance h.le_length) (unread_advance d n _) hrest

/-- `check_packet` keeps the discipline of its two mutexes, in a call that returns, exactly when each turn of its
loop takes a frame or waits for the rest of one.  Without encryption this is so exactly when the bytes of the
buffer, as far as they can be scanned, are frames that the decoder takes and more than four bytes of another one
that is not there completely. -/
theorem checkPacket_disciplined_iff {d : ClientData} {w : World} (hm : d.mutex = .unlocked)
    (hin : d.bufIn.mutex = .unlocked) :
    (Disciplined E d w ↔
      ((∃ r, checkPacket E d w = .ok r) → ∀ d1 w1, LoopTurns E d w d1 w1 → TakesOrWaits E d1.bufIn)) ∧
    (E.AllocSucceeds → Ready E d.bufIn d.keys → (∃ ms rest, Scan E d.bufIn.unread ms rest) →
      (Disciplined E d w ↔ EndsCut E d.bufIn.unread)) := by
  refine ⟨disciplined_iff_turns hm hin, ?_⟩
  intro hA hd ⟨ms, rest, hscan⟩
  rw [disciplined_iff_turns hm hin]
  constructor
  · intro h
    obtain ⟨d', w', hrun, _⟩ := checkPacket_returns hA hd hm hscan w
    exact endsCut_of_turns (d := { d with mutex := .locked }) hA hscan hd rfl w (h ⟨_, hrun⟩)
  · intro h _ d1 w1 ht
    exact h.turns (d := { d with mutex := .locked }) hA hd rfl ht

/-- A connection whose input buffer holds the given bytes. -/
def holding (bs : Bytes) : ClientData :=
  { state := .body, keys := .init ⟨Vector.replicate _ 0, Vector.replicate _ 0⟩, packets := [], mutex := .unlocked,
    disconnected := false, bufIn := .ofBytes bs, bufOut := .ofBytes [] }

/-- The first six bytes of a frame with a body of four -/
theorem checkPacket_disciplined_cut : Disciplined (Env.amd64 0) (holding [0, 0, 0, 4, 0, 1]) World.start := by
  refine ((checkPacket_disciplined_iff rfl rfl).2 (Env.amd64_allocSucceeds 0)
    ⟨Buffer.ofBytes_wf (by decide), by decide, by decide, rfl⟩ ⟨[], _, .stop (by decide)⟩).2 ?_
  exact .cut (by decide) (by decide)

/-- Without any bytes the mutex of the input buffer is given back although it was not taken, and the same happens
behind a frame of type `INVALID`. -/
theorem checkPacket_not_disciplined : ¬ Disciplined (Env.amd64 0) (holding []) World.start ∧
    ¬ Disciplined (Env.amd64 0) (holding [0, 0, 0, 0, 1, 0, 0, 0]) World.start := by
  constructor
  · intro h
    have hend := (h.returns _ _ rfl).1
    exact absurd hend (by decide)
  · intro h
    have hend := (h.returns _ _ rfl).1
    exact absurd hend (by decide)

end Server

end Excom
