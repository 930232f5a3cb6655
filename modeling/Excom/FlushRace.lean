import Excom.Lib.Transition
import Excom.Ownership
import Excom.Pending
import Mathlib.Logic.Relation

/-!
# An append beside a flush

One thread appends to a freeable buffer while another is in `excom_buffer_write`.  A section that runs under
the mutex of the buffer is one step, and so is every statement that does not.  A flush that drained the buffer
unlocks the mutex before `excom_buffer_destroy`, so the append may run between its statements.  Then its bytes
may be lost (`conserved_iff`), and the old block may be freed again; unless it does, every block is freed once
(`freed_once`).
-/

namespace Excom

/-- A call of `excom_buffer_cappend` or of `excom_buffer_sappend` -/
inductive AppendCall where
  | cappend (str : Bytes) (size : Nat)
  | sappend (body : Option Block) (size : UInt32)

namespace AppendCall

def size : AppendCall → Nat
  | cappend _ size => size
  | sappend _ size => size.toNat

/-- The source of the `memcpy` -/
def src : AppendCall → M Bytes
  | cappend str size => readBytes str size
  | sappend body size => load body 0 size.toNat

/-- The bytes that the call appends -/
def bytes : AppendCall → Bytes
  | cappend str size => str.take size
  | sappend body size => (blockBytes body).take size.toNat

/-- The section under the mutex -/
def locked (E : Env) (b : Buffer) : AppendCall → M (Int × Buffer)
  | cappend str size => b.append E size (readBytes str size)
  | sappend body size => do
    let mutex ← mutexLock b.mutex
    let (_, b) ← { b with mutex }.reserve E size.toNat
    b.put E size.toNat (load body 0 size.toNat)

def run (E : Env) (b : Buffer) : AppendCall → M (Int × Buffer)
  | cappend str size => b.cappend E str size
  | sappend body size => b.sappend E body size

end AppendCall

/-- Where the appending thread is. -/
inductive AppendPc where
  /-- `if(buffer->unmutable)` -/
  | test
  | lock
  | done (err : Int)
  deriving DecidableEq

/-- Where `excom_buffer_write` is. -/
inductive FlushPc where
  /-- `if(excom_buffer_remaining(buffer) != 0)` -/
  | test
  | lock
  /-- `excom_buffer_destroy`, before `excom_free` -/
  | free
  /-- `buffer->max = 0` -/
  | max
  /-- `buffer->used = 0` -/
  | used
  /-- `buffer->buf = buffer->pos = NULL` -/
  | buf
  /-- the `excom_mutex_lock` and `excom_mutex_unlock` at the end -/
  | relock
  | done (err : Int)
  deriving DecidableEq

/-- The buffer is drained, and not reset yet. -/
def FlushPc.Draining (pc : FlushPc) : Prop := pc = .free ∨ pc = .max ∨ pc = .used ∨ pc = .buf

instance (pc : FlushPc) : Decidable pc.Draining := inferInstanceAs (Decidable (_ ∨ _))

/-- The section of `excom_buffer_write` up to its first unlock: where the flush goes on, the buffer, and the
bytes that the socket took -/
def Buffer.flushLocked (E : Env) (b : Buffer) (outcome : Except Int Nat) : M (FlushPc × Buffer × Bytes) := do
  let mutex ← mutexLock b.mutex
  match outcome with
  | .error errno => do
    let mutex ← mutexUnlock mutex
    return (.done errno, { b with mutex }, [])
  | .ok n => do
    let written := min n (b.remaining E)
    let bytes ← load b.buf b.pos written
    let b := { b with pos := b.pos + written, mutex }
    let mutex ← mutexUnlock b.mutex
    return (if b.remaining E = 0 ∧ b.freeable then .free else .done 0, { b with mutex }, bytes)

/-- The buffer and the two threads.  `sent` is what the socket has taken, `appended` that and what was unread
at the start, with the bytes of the append once it has returned `0` -/
structure FlushRace where
  buffer : Buffer
  world : World
  appender : AppendPc
  flusher : FlushPc
  sent : Bytes
  appended : Bytes

namespace FlushRace

/-- A freeable buffer, with any contents, before both calls -/
structure Initial (E : Env) (s : FlushRace) : Prop where
  wf : s.buffer.WF E
  pos_le : s.buffer.pos ≤ s.buffer.used
  freeable : s.buffer.freeable = true
  appender : s.appender = .test
  flusher : s.flusher = .test
  sent : s.sent = []
  appended : s.appended = s.buffer.unread

/-- A step of one of the threads -/
inductive Step (E : Env) (call : AppendCall) : FlushRace → FlushRace → Prop where
  | unmutable {s : FlushRace} (hpc : s.appender = .test) (h : s.buffer.unmutable = true) :
      Step E call s { s with appender := .done EACCES }
  | enter {s : FlushRace} (hpc : s.appender = .test) (h : s.buffer.unmutable = false) :
      Step E call s { s with appender := .lock }
  | append {s : FlushRace} {err : Int} {b : Buffer} {w : World} (hpc : s.appender = .lock)
      (hrun : call.locked E s.buffer s.world = .ok ((err, b), w)) :
      Step E call s { s with
        buffer := b, world := w, appender := .done err
        appended := s.appended ++ if err = 0 then call.bytes else [] }
  | test {s : FlushRace} (hpc : s.flusher = .test) :
      Step E call s { s with flusher := if s.buffer.remaining E = 0 then .done 0 else .lock }
  | flush {s : FlushRace} {pc : FlushPc} {b : Buffer} {taken : Bytes} {w : World} (outcome : Except Int Nat)
      (hpc : s.flusher = .lock) (hrun : s.buffer.flushLocked E outcome s.world = .ok ((pc, b, taken), w)) :
      Step E call s { s with buffer := b, world := w, flusher := pc, sent := s.sent ++ taken }
  | free {s : FlushRace} {w : World} (hpc : s.flusher = .free)
      (hrun : (if s.buffer.freeable then Excom.free s.buffer.buf else pure ()) s.world = .ok ((), w)) :
      Step E call s { s with world := w, flusher := .max }
  | max {s : FlushRace} (hpc : s.flusher = .max) :
      Step E call s { s with buffer := { s.buffer with max := 0 }, flusher := .used }
  | used {s : FlushRace} (hpc : s.flusher = .used) :
      Step E call s { s with buffer := { s.buffer with used := 0 }, flusher := .buf }
  | buf {s : FlushRace} (hpc : s.flusher = .buf) :
      Step E call s { s with buffer := { s.buffer with buf := none, pos := 0 }, flusher := .relock }
  | relock {s : FlushRace} {mutex : Mutex} {w : World} (hpc : s.flusher = .relock)
      (hrun : (mutexLock s.buffer.mutex >>= mutexUnlock) s.world = .ok (mutex, w)) :
      Step E call s { s with buffer := { s.buffer with mutex }, world := w, flusher := .done 0 }

/-- Both calls have returned. -/
def Finished (s : FlushRace) : Prop := (∃ err, s.appender = .done err) ∧ ∃ err, s.flusher = .done err

/-- What was appended has been sent or is between the cursor and the end, in order. -/
def Conserved (s : FlushRace) : Prop := s.sent ++ s.buffer.unread = s.appended

/-- When the section of the append may run: not while the flush destroys the buffer, and with room for its
bytes, or with an allocation that succeeds and a cursor that fits the `uint32_t` of `excom_buffer_resize` -/
def Safe (E : Env) (call : AppendCall) (s : FlushRace) : Prop :=
  call.bytes = [] ∨ ¬ s.flusher.Draining ∧
    (s.buffer.used + call.size ≤ s.buffer.max ∨ s.buffer.pos < 2 ^ 32 ∧ (E.malloc s.world.allocs).isSome)

/-- A step whose append, if it is one, is safe -/
def SafeStep (E : Env) (call : AppendCall) (s s' : FlushRace) : Prop :=
  Step E call s s' ∧ (s.appender = .lock → s'.appender ≠ .lock → Safe E call s)

end FlushRace

variable {E : Env}

/-! ### The section of the append -/

namespace AppendCall

variable {call : AppendCall}

private theorem src_ensures (w : World) :
    Exec.Ensures call.src w fun bs _ => bs = call.bytes ∧ call.bytes.length = call.size := by
  cases call with
  | cappend str size =>
    intro bs w' hrun
    change readBytes str size w = _ at hrun
    unfold readBytes at hrun
    split at hrun
    · rename_i hle
      cases hrun
      exact ⟨rfl, List.length_take_of_le hle⟩
    · cases hrun
  | sappend body size =>
    intro bs w' hrun
    obtain ⟨hbs, hlen⟩ := load_ensures body 0 size.toNat w bs w' hrun
    refine ⟨hbs, List.length_take_of_le ?_⟩
    omega

private theorem src_returns (h : call.bytes.length = call.size) (w : World) :
    Exec.Returns call.src w fun bs w' => bs = call.bytes ∧ World.Reads (fun _ => True) w w' := by
  cases call with
  | cappend str size =>
    have hle : size ≤ str.length := by
      have hlen : (str.take size).length = size := h
      rw [List.length_take] at hlen
      omega
    show Exec.Returns (readBytes str size) w _
    unfold readBytes
    rw [if_pos hle]
    exact .pure ⟨rfl, .refl w⟩
  | sappend body size =>
    have hle : size.toNat ≤ (blockBytes body).length := by
      have hlen : ((blockBytes body).take size.toNat).length = size.toNat := h
      rw [List.length_take] at hlen
      omega
    exact load_returns body 0 size.toNat (by omega) (fun _ _ _ => trivial) w

/-- The section reserves room and fills it, or ends with the `errno` of the failed resize. -/
private theorem locked_cases {b b' : Buffer} (hm : b.mutex = .unlocked) {w w' : World} {err : Int}
    (hrun : call.locked E b w = .ok ((err, b'), w')) :
    ∃ chk b1 w1, ({ b with mutex := .locked } : Buffer).reserve E call.size w = .ok ((chk, b1), w1) ∧
      (b1.put E call.size call.src w1 = .ok ((err, b'), w') ∨
        (chk ≠ 0 ∧ err = w1.errno ∧ mutexUnlock b1.mutex { w1 with errno := 0 } = .ok (b'.mutex, w') ∧
          b' = { b1 with mutex := b'.mutex })) := by
  cases call with
  | cappend str size =>
    change b.append E size (readBytes str size) w = _ at hrun
    unfold Buffer.append at hrun
    rw [hm, mutexLock_unlocked, Exec.pure_bind] at hrun
    obtain ⟨⟨chk, b1⟩, w1, hreserve, hrun⟩ := Exec.bind_eq_ok.1 hrun
    refine ⟨chk, b1, w1, hreserve, ?_⟩
    dsimp only at hrun
    split at hrun
    · rename_i hchk
      right
      have hrun' : (mutexUnlock b1.mutex >>= fun mutex => pure (w1.errno, { b1 with mutex }))
        { w1 with errno := 0 } = .ok ((err, b'), w') := hrun
      obtain ⟨mutex, w2, hunlock, hpure⟩ := Exec.bind_eq_ok.1 hrun'
      cases hpure
      exact ⟨hchk, rfl, hunlock, rfl⟩
    · exact .inl hrun
  | sappend body size =>
    unfold locked at hrun
    dsimp only at hrun
    rw [hm, mutexLock_unlocked, Exec.pure_bind] at hrun
    obtain ⟨⟨chk, b1⟩, w1, hreserve, hrun⟩ := Exec.bind_eq_ok.1 hrun
    exact ⟨chk, b1, w1, hreserve, .inl hrun⟩

/-- Whatever the buffer, an append that returns from its section returns `0`: when the resize fails, `errno`
has been cleared before it is read. -/
theorem locked_ensures {b : Buffer} (hm : b.mutex = .unlocked) (w : World) :
    Exec.Ensures (call.locked E b) w fun r _ => r.1 = 0 ∧ r.2.mutex = .unlocked := by
  intro ⟨err, b'⟩ w' hrun
  obtain ⟨chk, b1, w1, hreserve, hput | ⟨hchk, herr, hunlock, -⟩⟩ := locked_cases hm hrun
  · obtain ⟨hmutex, -⟩ := Buffer.reserve_frame _ _ w _ _ hreserve
    exact Buffer.put_ensures hmutex _ _ w1 _ _ hput
  · obtain ⟨hmutex, herrno⟩ := Buffer.reserve_frame _ _ w _ _ hreserve
    have hlocked : b1.mutex = .locked := hmutex
    rw [hlocked, mutexUnlock_locked] at hunlock
    have hunlocked : Mutex.unlocked = b'.mutex := congrArg (·.map Prod.fst) hunlock |> Except.ok.inj
    exact ⟨herr.trans (herrno.resolve_left hchk), hunlocked.symm⟩

/-- On a buffer that is ready for use, the section appends the bytes, or a failed allocation leaves the buffer
as it is. -/
theorem locked_wf {b : Buffer} (hb : b.WF E) (w : World) :
    Exec.Ensures (call.locked E b) w fun r _ =>
      (E.malloc w.allocs = none ∧ ¬ b.used + call.size ≤ b.max ∧ r.2 = b) ∨
        ((b.used + call.size ≤ b.max ∨ (E.malloc w.allocs).isSome) ∧ call.bytes.length = call.size ∧
          Buffer.Appended E b call.bytes r.2) := by
  intro ⟨err, b'⟩ w' hrun
  have hunlocked : b'.mutex = .unlocked := (locked_ensures hb.mutex w _ _ hrun).2
  obtain ⟨chk, b1, w1, hreserve, hcase⟩ := locked_cases hb.mutex hrun
  have hres := Buffer.reserve_ensures (b := { b with mutex := .locked }) hb.block hb.used_le hb.max_lt w _
    _ hreserve
  dsimp only at hres
  rcases hres with ⟨hchk, hnone, hfull, rfl⟩ | ⟨hchk, hused, hlen, hres⟩
  · rcases hcase with hput | ⟨-, -, -, hb'⟩
    · -- `excom_buffer_sappend` goes on, and copies past the end of the block
      obtain ⟨-, hroom⟩ := Buffer.put_room src_ensures hput
      have hblock := hb.block
      have hle := hb.used_le
      dsimp only at hroom
      omega
    · left
      refine ⟨hnone, hfull, ?_⟩
      dsimp only
      rw [hb', hunlocked, ← hb.mutex]
  · rcases hcase with hput | ⟨hne, -⟩
    · right
      obtain ⟨hbytes, hroom⟩ := Buffer.put_room src_ensures hput
      have hused_lt := Nat.lt_of_le_of_lt hb.used_le hb.max_lt
      obtain ⟨hcan, hreserved⟩ := hres (by omega)
      exact ⟨hcan, hbytes, ((hreserved.put_returns hb call.src call.bytes hbytes
        (src_returns hbytes) w1).ensures _ _ hput).2.2.1⟩
    · exact absurd hchk hne

/-- Whatever the buffer, the section frees at most the block that the buffer holds. -/
theorem locked_owns (b : Buffer) (w : World) :
    Exec.Ensures (call.locked E b) w fun r w' => w.Owns E (heldBy b.buf) w' (heldBy r.2.buf) := by
  cases call with
  | cappend str size => exact Buffer.append_owns b size (readBytes_same str size) w
  | sappend body size => exact Buffer.reserve_put_owns b size.toNat (load_same body 0 size.toNat) w

end AppendCall

/-! ### The section of the flush -/

/-- What the socket takes comes from the front, and only a buffer without unread bytes is destroyed. -/
theorem Buffer.flushLocked_ensures {b : Buffer} (hb : b.WF E) (hpos : b.pos ≤ b.used) (outcome : Except Int Nat)
    (w : World) :
    Exec.Ensures (b.flushLocked E outcome) w fun r _ => r.2.1.WF E ∧ r.2.1.pos ≤ r.2.1.used ∧
      b.unread = r.2.2 ++ r.2.1.unread ∧ ((∃ err, r.1 = .done err) ∨ r.1 = .free ∧ r.2.1.unread = []) := by
  have hrem := Buffer.remaining_eq hb hpos
  have hlen := hb.length_unread
  unfold Buffer.flushLocked
  rw [hb.mutex, mutexLock_unlocked, Exec.pure_bind]
  rcases outcome with errno | n
  · dsimp only
    rw [mutexUnlock_locked, Exec.pure_bind]
    exact .pure ⟨⟨rfl, hb.block, hb.used_le, hb.max_lt⟩, hpos, rfl, .inl ⟨errno, rfl⟩⟩
  · dsimp only
    refine (load_ensures b.buf b.pos (min n (b.remaining E)) w).bind ?_
    intro bytes w1 ⟨hbytes, _⟩
    have htaken : bytes = b.unread.take (min n (b.used - b.pos)) := by
      rw [hbytes, hrem]
      change b.ahead.take _ = _
      rw [Buffer.ahead_eq hb.block_used hpos, List.take_append_of_le_length (by omega)]
    rw [mutexUnlock_locked, Exec.pure_bind, htaken, hrem]
    have hle : b.pos + min n (b.used - b.pos) ≤ b.used := by omega
    have hwf : ({ b with pos := b.pos + min n (b.used - b.pos), mutex := .unlocked } : Buffer).WF E :=
      ⟨rfl, hb.block, hb.used_le, hb.max_lt⟩
    refine .pure ⟨hwf, hle, ?_, ?_⟩
    · show b.unread = _ ++ b.contents.drop (b.pos + min n (b.used - b.pos))
      rw [← List.drop_drop]
      exact (List.take_append_drop _ b.unread).symm
    · dsimp only
      split
      · rename_i hzero
        right
        refine ⟨rfl, List.length_eq_zero_iff.1 ?_⟩
        have hlen' := hwf.length_unread
        have hrem' := (Buffer.remaining_eq hwf hle).symm.trans hzero.1
        exact hlen'.trans hrem'
      · exact .inl ⟨0, rfl⟩

private theorem Buffer.flushLocked_pc (b : Buffer) (outcome : Except Int Nat) (w : World) :
    Exec.Ensures (b.flushLocked E outcome) w fun r _ => (∃ err, r.1 = .done err) ∨ r.1 = .free := by
  unfold Buffer.flushLocked
  refine .seq fun mutex w1 => ?_
  rcases outcome with errno | n
  · exact .seq fun _ _ => .pure (.inl ⟨errno, rfl⟩)
  · refine .seq fun _ _ => .seq fun _ _ => .pure ?_
    dsimp only
    split
    · exact .inr rfl
    · exact .inl ⟨0, rfl⟩

private theorem Buffer.flushLocked_same (b : Buffer) (outcome : Except Int Nat) (w : World) :
    Exec.Ensures (b.flushLocked E outcome) w fun r w' => w.Same w' ∧ r.2.1.buf = b.buf := by
  unfold Buffer.flushLocked
  refine (mutexLock_same b.mutex w).bind ?_
  intro mutex w1 h1
  rw [h1]
  rcases outcome with errno | n
  · refine (mutexUnlock_same mutex w).bind ?_
    intro mutex' w2 h2
    exact .pure ⟨h2, rfl⟩
  · refine (load_same b.buf b.pos _ w).bind ?_
    intro bytes w2 h2
    refine (mutexUnlock_same mutex w2).bind ?_
    intro mutex' w3 h3
    exact .pure ⟨h2.trans h3, rfl⟩

namespace FlushRace

open Relation (ReflTransGen)

variable {call : AppendCall} {K : Bytes} {s s' : FlushRace}

/-! ### What is kept -/

/-- With the bytes that have been sent, the buffer makes up `K`; while it is being destroyed, everything has
been sent. An append that ran meanwhile leaves its bytes in a block that the flush drops. -/
inductive Holds (E : Env) (K : Bytes) (s : FlushRace) : Prop where
  | steady (hpc : ¬ s.flusher.Draining) (wf : s.buffer.WF E) (pos_le : s.buffer.pos ≤ s.buffer.used)
      (kept : s.sent ++ s.buffer.unread = K)
  | draining (hpc : s.flusher.Draining) (mutex : s.buffer.mutex = .unlocked) (word : 0 < E.word)
      (kept : s.sent = K) (max : s.flusher = .used ∨ s.flusher = .buf → s.buffer.max = 0)
      (used : s.flusher = .buf → s.buffer.used = 0)
  | dropped (hdone : ∃ err, s.appender = .done err) (mutex : s.buffer.mutex = .unlocked) (kept : s.sent = K)
      (hpc : s.flusher.Draining ∨ (s.flusher = .relock ∨ ∃ err, s.flusher = .done err) ∧ s.buffer.buf = none)

/-- Before both calls everything is in the buffer. -/
theorem Initial.holds (h : s.Initial E) : Holds E s.appended s := by
  refine .steady ?_ h.wf h.pos_le ?_
  · rw [h.flusher]
    decide
  · rw [h.sent, h.appended]
    rfl

private theorem Holds.flush (h : Holds E K s) {outcome : Except Int Nat} (hpc : s.flusher = .lock) {pc : FlushPc}
    {b : Buffer} {taken : Bytes} {w : World}
    (hrun : s.buffer.flushLocked E outcome s.world = .ok ((pc, b, taken), w)) :
    Holds E K { s with buffer := b, world := w, flusher := pc, sent := s.sent ++ taken } := by
  cases h with
  | steady _ wf hpos hkept =>
    obtain ⟨wf', hpos', hunread, hnext⟩ := Buffer.flushLocked_ensures wf hpos outcome _ _ _ hrun
    dsimp only at wf' hpos' hunread hnext
    rcases hnext with ⟨err, rfl⟩ | ⟨rfl, hnil⟩
    · refine .steady (by simp [FlushPc.Draining]) wf' hpos' ?_
      dsimp only
      rw [List.append_assoc, ← hunread, hkept]
    · rw [hnil, List.append_nil] at hunread
      refine .draining (.inl rfl) wf'.mutex wf'.word_pos ?_ (by simp) (by simp)
      dsimp only
      rw [← hunread, hkept]
  | draining hflusher => simp [hpc, FlushPc.Draining] at hflusher
  | dropped _ _ _ hflusher => simp [hpc, FlushPc.Draining] at hflusher

private theorem relock_unlocked {mutex mutex' : Mutex} {w w' : World} (hunlocked : mutex = .unlocked)
    (hrun : (mutexLock mutex >>= mutexUnlock) w = .ok (mutex', w')) : mutex' = .unlocked := by
  subst hunlocked
  cases hrun
  rfl

/-- Only the section of the append adds to what is kept. -/
theorem Holds.other (h : Holds E K s) (hstep : Step E call s s')
    (hother : s.appender = .lock → s'.appender = .lock) : s'.appended = s.appended ∧ Holds E K s' := by
  cases hstep with
  | unmutable hpc _ | enter hpc _ =>
    refine ⟨rfl, ?_⟩
    cases h with
    | steady hflusher wf hpos hkept => exact .steady hflusher wf hpos hkept
    | draining hflusher mutex word hkept hmax hused => exact .draining hflusher mutex word hkept hmax hused
    | dropped hdone => simp [hpc] at hdone
  -- the only step that appends is excluded
  | append hpc hrun => exact absurd (hother hpc) (by simp)
  | test hpc =>
    refine ⟨rfl, ?_⟩
    cases h with
    | steady _ wf hpos hkept =>
      -- whichever way the test goes, nothing is drained yet
      refine .steady ?_ wf hpos hkept
      dsimp only
      split <;> decide
    | draining hflusher => simp [hpc, FlushPc.Draining] at hflusher
    | dropped _ _ _ hflusher => simp [hpc, FlushPc.Draining] at hflusher
  | flush outcome hpc hrun => exact ⟨rfl, h.flush hpc hrun⟩
  | free hpc hrun =>
    refine ⟨rfl, ?_⟩
    cases h with
    | steady hflusher => exact absurd (.inl hpc) hflusher
    | draining _ mutex word hkept _ _ => exact .draining (.inr (.inl rfl)) mutex word hkept (by simp) (by simp)
    | dropped hdone mutex hkept _ => exact .dropped hdone mutex hkept (.inl (.inr (.inl rfl)))
  | max hpc =>
    refine ⟨rfl, ?_⟩
    cases h with
    | steady hflusher => exact absurd (.inr (.inl hpc)) hflusher
    | draining _ mutex word hkept _ _ =>
      exact .draining (.inr (.inr (.inl rfl))) mutex word hkept (fun _ => rfl) (by simp)
    | dropped hdone mutex hkept _ => exact .dropped hdone mutex hkept (.inl (.inr (.inr (.inl rfl))))
  | used hpc =>
    refine ⟨rfl, ?_⟩
    cases h with
    | steady hflusher => exact absurd (.inr (.inr (.inl hpc))) hflusher
    | draining _ mutex word hkept hmax _ =>
      exact .draining (.inr (.inr (.inr rfl))) mutex word hkept (fun _ => hmax (.inl hpc)) (fun _ => rfl)
    | dropped hdone mutex hkept _ => exact .dropped hdone mutex hkept (.inl (.inr (.inr (.inr rfl))))
  | buf hpc =>
    refine ⟨rfl, ?_⟩
    cases h with
    | steady hflusher => exact absurd (.inr (.inr (.inr hpc))) hflusher
    | draining _ mutex word hkept hmax hused =>
      -- the buffer is empty, and ready for use without a block
      have hmax := hmax (.inr hpc)
      have hused := hused hpc
      refine .steady (by simp [FlushPc.Draining]) ⟨mutex, ?_, ?_, ?_⟩ (Nat.zero_le _) ?_
      · exact hmax.symm
      · dsimp only
        omega
      · dsimp only
        omega
      · rw [← hkept]
        simp [Buffer.unread, Buffer.contents]
    | dropped hdone mutex hkept _ => exact .dropped hdone mutex hkept (.inr ⟨.inl rfl, rfl⟩)
  | relock hpc hrun =>
    refine ⟨rfl, ?_⟩
    cases h with
    | steady _ wf hpos hkept =>
      exact .steady (by simp [FlushPc.Draining]) ⟨relock_unlocked wf.mutex hrun, wf.block, wf.used_le, wf.max_lt⟩
        hpos hkept
    | draining hflusher => simp [hpc, FlushPc.Draining] at hflusher
    | dropped hdone mutex hkept hflusher =>
      have hbuf : s.buffer.buf = none := by simpa [hpc, FlushPc.Draining] using hflusher
      exact .dropped hdone (relock_unlocked mutex hrun) hkept (.inr ⟨.inr ⟨0, rfl⟩, hbuf⟩)

private theorem keeps_iff {xs ys : Bytes} : xs = xs ++ ys ↔ ys = [] := List.self_eq_append_right

/-- What was unread stays unread, with the appended bytes behind it, unless the cursor is cut to 32 bits:
then bytes that were sent are between it and the end again. -/
private theorem unread_of_appended {b b' : Buffer} {bs : Bytes} (hb : b.WF E) (hpos : b.pos ≤ b.used)
    (h : Buffer.Appended E b bs b') :
    b'.unread = b.unread ++ bs ↔ b.used + bs.length ≤ b.max ∨ b.pos < 2 ^ 32 := by
  have hcursor := h.pos
  constructor
  · intro heq
    by_contra hcut
    rw [not_or] at hcut
    rw [if_neg hcut.1] at hcursor
    have hmod := Nat.mod_lt b.pos (show 0 < 2 ^ 32 by decide)
    have hused := h.used
    have hlen := congrArg List.length heq
    rw [List.length_append, h.wf.length_unread, hb.length_unread] at hlen
    omega
  · intro hroom
    have hkept : b'.pos = b.pos := by
      rw [hcursor]
      rcases hroom with hroom | hroom
      · rw [if_pos hroom]
      · rw [Nat.mod_eq_of_lt hroom, ite_self]
    rw [Buffer.unread, h.contents, hkept, List.drop_append_of_le_length (by rw [hb.length_contents]; exact hpos)]
    rfl

/-- The section of the append keeps its bytes exactly when it is safe. -/
theorem Holds.append (h : Holds E K s) (hstep : Step E call s s') (hpc : s.appender = .lock)
    (hpc' : s'.appender ≠ .lock) :
    s'.appender = .done 0 ∧ s'.appended = s.appended ++ call.bytes ∧
      ∃ K', Holds E K' s' ∧ (K' = K ++ call.bytes ↔ Safe E call s) := by
  cases hstep with
  | @append err b w hpc hrun =>
    have hmutex : s.buffer.mutex = .unlocked := by
      cases h with
      | steady _ wf => exact wf.mutex
      | draining _ mutex => exact mutex
      | dropped _ mutex => exact mutex
    obtain ⟨herr, hmutex'⟩ := AppendCall.locked_ensures hmutex s.world _ _ hrun
    obtain rfl : err = 0 := herr
    refine ⟨rfl, by simp, ?_⟩
    cases h with
    | steady hflusher wf hpos hkept =>
      rcases AppendCall.locked_wf wf s.world _ _ hrun with ⟨hnone, hfull, hb⟩ | ⟨hcan, hlen, happ⟩
      · obtain rfl : b = s.buffer := hb
        refine ⟨K, .steady hflusher wf hpos hkept, ?_⟩
        rw [keeps_iff]
        simp [Safe, hnone, hfull]
      · dsimp only at happ
        have hle : b.pos ≤ b.used := by
          have hused := happ.used
          have hcursor := happ.pos
          have hmod := Nat.mod_le s.buffer.pos (2 ^ 32)
          split at hcursor <;> omega
        have hkeeps : s.sent ++ b.unread = K ++ call.bytes ↔
            s.buffer.used + call.size ≤ s.buffer.max ∨ s.buffer.pos < 2 ^ 32 := by
          rw [← hkept, List.append_assoc, List.append_cancel_left_eq, unread_of_appended wf hpos happ, hlen]
        refine ⟨_, .steady hflusher happ.wf hle rfl, hkeeps.trans ⟨fun hroom => .inr ⟨hflusher, ?_⟩, ?_⟩⟩
        · by_cases hfits : s.buffer.used + call.size ≤ s.buffer.max
          · exact .inl hfits
          · exact .inr ⟨hroom.resolve_left hfits, hcan.resolve_left hfits⟩
        · rintro (hnil | ⟨-, hfits | ⟨hshort, -⟩⟩)
          · have hused_le := wf.used_le
            rw [hnil, List.length_nil] at hlen
            exact .inl (by omega)
          · exact .inl hfits
          · exact .inr hshort
    | draining hflusher mutex word hkept _ _ =>
      refine ⟨K, .dropped ⟨0, rfl⟩ hmutex' hkept (.inl hflusher), ?_⟩
      rw [keeps_iff]
      simp [Safe, hflusher]
    | dropped hdone => simp [hpc] at hdone
  | unmutable h | enter h => simp [hpc] at h
  | test | flush | free | max | used | buf | relock => exact absurd hpc hpc'

private theorem step_done (hstep : Step E call s s') {err : Int} (hdone : s.appender = .done err) :
    s'.appender = .done err := by
  cases hstep with
  | unmutable h | enter h | append h => simp [hdone] at h
  | _ => exact hdone

/-- When both calls have returned, what is kept has been sent or is unread. -/
theorem Holds.finished (h : Holds E K s) (hfinished : s.Finished) : s.sent ++ s.buffer.unread = K := by
  obtain ⟨-, err, hpc⟩ := hfinished
  cases h with
  | steady _ _ _ hkept => exact hkept
  | draining hflusher => simp [hpc, FlushPc.Draining] at hflusher
  | dropped _ _ hkept hflusher =>
    have hbuf : s.buffer.buf = none := by simpa [hpc, FlushPc.Draining] using hflusher
    simp [Buffer.unread, Buffer.contents, hbuf, hkept]

/-! ### One call alone -/

/-- A call of an append function, taken apart into steps -/
theorem append_alone {err : Int} {b : Buffer} {w : World} (hpc : s.appender = .test)
    (hrun : call.run E s.buffer s.world = .ok ((err, b), w)) :
    ∃ s', ReflTransGen (Step E call) s s' ∧ s'.appender = .done err ∧ s'.buffer = b ∧ s'.world = w := by
  have hrun' : (if s.buffer.unmutable then pure (EACCES, s.buffer) else call.locked E s.buffer) s.world =
      .ok ((err, b), w) := by
    cases call <;> exact hrun
  by_cases hm : s.buffer.unmutable = true
  · rw [if_pos hm] at hrun'
    cases hrun'
    exact ⟨_, .single (.unmutable hpc hm), rfl, rfl, rfl⟩
  · rw [if_neg hm] at hrun'
    exact ⟨_, .tail (.single (.enter hpc (by simpa using hm))) (.append rfl hrun'), rfl, rfl, rfl⟩

private theorem destroy_eq (b : Buffer) :
    b.destroy = (if b.freeable then Excom.free b.buf else pure ()) >>= fun _ =>
      pure { b with max := 0, used := 0, buf := none, pos := 0 } := by
  unfold Buffer.destroy
  split <;> rfl

/-- After its first section `excom_buffer_write` either returns or destroys the buffer. -/
private theorem write_eq {b : Buffer} (hrem : b.remaining E ≠ 0) (outcome : Except Int Nat) :
    b.write E outcome = do
      let (pc, b, taken) ← b.flushLocked E outcome
      match pc with
      | .done err => return (err, b, taken)
      | _ => do
        let b ← b.destroy
        let mutex ← mutexLock b.mutex >>= mutexUnlock
        return (0, { b with mutex }, taken) := by
  unfold Buffer.write Buffer.flushLocked
  rw [if_neg hrem]
  cases hm : b.mutex with
  | uninit | locked => rfl
  | unlocked =>
    rw [mutexLock_unlocked, Exec.pure_bind, Exec.pure_bind]
    rcases outcome with errno | n
    · rfl
    dsimp only
    rw [Exec.bind_assoc]
    congr 1
    funext bytes
    unfold Buffer.drained
    rw [mutexUnlock_locked, Exec.pure_bind, Exec.pure_bind]
    by_cases hzero :
      ({ b with pos := b.pos + min n (b.remaining E), mutex := .locked } : Buffer).remaining E = 0 ∧
        b.freeable = true
    · rw [if_pos hzero, if_pos hzero, Exec.pure_bind]
      simp only [Exec.bind_assoc]
      rfl
    · rw [if_neg hzero, if_neg hzero]
      rfl

/-- A call of `excom_buffer_write`, taken apart into steps -/
theorem flush_alone {outcome : Except Int Nat} {err : Int} {b : Buffer} {taken : Bytes} {w : World}
    (hpc : s.flusher = .test) (hrun : s.buffer.write E outcome s.world = .ok ((err, b, taken), w)) :
    ∃ s', ReflTransGen (Step E call) s s' ∧ s'.flusher = .done err ∧ s'.buffer = b ∧ s'.world = w ∧
      s'.sent = s.sent ++ taken := by
  have htest : Step E call s _ := .test hpc
  by_cases hzero : s.buffer.remaining E = 0
  · unfold Buffer.write at hrun
    rw [if_pos hzero] at hrun htest
    cases hrun
    exact ⟨_, .single htest, rfl, rfl, rfl, (List.append_nil _).symm⟩
  rw [if_neg hzero] at htest
  rw [write_eq hzero] at hrun
  obtain ⟨⟨pc, b1, taken1⟩, w1, hflush, hrun⟩ := Exec.bind_eq_ok.1 hrun
  have h1 := Relation.ReflTransGen.tail (.single htest) (.flush outcome rfl hflush)
  have hpc1 := Buffer.flushLocked_pc s.buffer outcome s.world _ _ hflush
  dsimp only at hrun hpc1
  rcases hpc1 with ⟨err1, rfl⟩ | rfl
  · cases hrun
    exact ⟨_, h1, rfl, rfl, rfl, rfl⟩
  · dsimp only at hrun
    obtain ⟨b2, w2, hdestroy, hrun⟩ := Exec.bind_eq_ok.1 hrun
    obtain ⟨mutex, w3, hrelock, hrun⟩ := Exec.bind_eq_ok.1 hrun
    cases hrun
    rw [destroy_eq] at hdestroy
    obtain ⟨⟨⟩, w4, hfree, hdestroy⟩ := Exec.bind_eq_ok.1 hdestroy
    cases hdestroy
    have h2 := (((h1.tail (.free rfl hfree)).tail (.max rfl)).tail (.used rfl)).tail (.buf rfl)
    exact ⟨_, h2.tail (.relock rfl hrelock), rfl, rfl, rfl, rfl⟩

/-! ### Runs -/

/-- An append whose section runs while the flush destroys the buffer loses its bytes, and so does one whose
resize fails; in all other runs nothing is lost. -/
theorem conserved_iff :
    (∀ s, Reachable (Initial E) (SafeStep E call) s → s.Finished → s.Conserved) ∧
      ∀ s s' s'', Reachable (Initial E) (Step E call) s → Step E call s s' → s.appender = .lock →
        s'.appender ≠ .lock → ReflTransGen (Step E call) s' s'' → s''.Finished →
          (s''.Conserved ↔ Safe E call s) := by
  constructor
  · intro s hs hfinished
    have hholds : Holds E s.appended s := by
      refine hs.invariant (I := fun s => Holds E s.appended s) (fun s => Initial.holds) ?_
      intro s s' h ⟨hstep, hsafe⟩
      by_cases happend : s.appender = .lock ∧ s'.appender ≠ .lock
      · obtain ⟨hpc, hpc'⟩ := happend
        obtain ⟨_, happended, K', hK', hiff⟩ := h.append hstep hpc hpc'
        rw [happended, ← hiff.2 (hsafe hpc hpc')]
        exact hK'
      · obtain ⟨happended, hother⟩ := h.other hstep (fun hpc => by_contra fun hpc' => happend ⟨hpc, hpc'⟩)
        rw [happended]
        exact hother
    exact hholds.finished hfinished
  · intro s s' s'' hs hstep hpc hpc' hrun hfinished
    have hbefore : (∃ err, s.appender = .done err) ∨ Holds E s.appended s := by
      refine hs.invariant (I := fun s => (∃ err, s.appender = .done err) ∨ Holds E s.appended s) ?_ ?_
      · intro s h
        exact .inr h.holds
      · intro s s' h hstep
        rcases h with ⟨err, hdone⟩ | h
        · exact .inl ⟨err, step_done hstep hdone⟩
        · by_cases happend : s.appender = .lock ∧ s'.appender ≠ .lock
          · exact .inl ⟨0, (h.append hstep happend.1 happend.2).1⟩
          · obtain ⟨happended, hother⟩ := h.other hstep (fun hpc => by_contra fun hpc' => happend ⟨hpc, hpc'⟩)
            rw [happended]
            exact .inr hother
    have hnot : ¬ ∃ err, s.appender = .done err := by simp [hpc]
    obtain ⟨hdone, happended, K', hK', hiff⟩ := (hbefore.resolve_left hnot).append hstep hpc hpc'
    have hafter : s''.appender = .done 0 ∧ s''.appended = s'.appended ∧ Holds E K' s'' := by
      clear hfinished
      induction hrun with
      | refl => exact ⟨hdone, rfl, hK'⟩
      | tail _ h ih =>
        obtain ⟨hdone, hsame, hholds⟩ := ih
        obtain ⟨hsame', hholds'⟩ := hholds.other h (by simp [hdone])
        exact ⟨step_done h hdone, hsame'.trans hsame, hholds'⟩
    rw [Conserved, hafter.2.2.finished hfinished, hafter.2.1, happended]
    exact hiff

/-- A buffer of two bytes, one of them unread: the append comes between the unlock and the `excom_free` of the
flush. -/
theorem lost_in_window :
    ∃ s, Reachable (Initial (Env.amd64 0)) (Step (Env.amd64 0) (.cappend [7] 1)) s ∧ s.Finished ∧
      s.appender = .done 0 ∧ s.appended = [5, 7] ∧ s.sent = [5] ∧ s.buffer.unread = [] ∧ ¬ s.Conserved := by
  let b : Buffer := { Buffer.ofBytes [4, 5] with pos := 1 }
  let s₀ : FlushRace := ⟨b, World.start, .test, .test, [], [5]⟩
  have h₀ : Initial (Env.amd64 0) s₀ :=
    ⟨⟨rfl, rfl, by decide, by decide⟩, by decide, rfl, rfl, rfl, rfl, rfl⟩
  have r₀ : Reachable (Initial (Env.amd64 0)) (Step (Env.amd64 0) (.cappend [7] 1)) s₀ := .start h₀
  have h₁ := r₀.step (.enter rfl rfl)
  have h₂ := h₁.step (.test rfl)
  have h₃ := h₂.step (.flush (.ok 1) rfl rfl)
  have h₄ := h₃.step (.append rfl rfl)
  have h₅ := h₄.step (.free rfl rfl)
  have h₆ := ((h₅.step (.max rfl)).step (.used rfl)).step (.buf rfl)
  refine ⟨_, h₆.step (.relock rfl rfl), ⟨⟨0, rfl⟩, 0, rfl⟩, rfl, rfl, rfl, rfl, ?_⟩
  show ([5] : Bytes) ≠ [5, 7]
  decide

/-! ### Blocks -/

/-- The block that the buffer still holds: after `excom_free` only its address is left. -/
def held (s : FlushRace) : Multiset Nat :=
  if s.flusher = .max ∨ s.flusher = .used ∨ s.flusher = .buf then 0 else heldBy s.buffer.buf

private theorem held_of_not_draining (h : ¬ s.flusher.Draining) : s.held = heldBy s.buffer.buf := by
  refine if_neg ?_
  rintro (hpc | hpc | hpc) <;> simp [hpc, FlushPc.Draining] at h

/-- A step in which the append does not run while the flush destroys the buffer -/
def ApartStep (E : Env) (call : AppendCall) (s s' : FlushRace) : Prop :=
  Step E call s s' ∧ (s.appender = .lock → s'.appender ≠ .lock → ¬ s.flusher.Draining)

/-- A step frees at most the block that is held, and then it is not held any more. -/
theorem ApartStep.owns (h : ApartStep E call s s') : s.world.Owns E s.held s'.world s'.held := by
  obtain ⟨hstep, hapart⟩ := h
  cases hstep with
  | unmutable hpc _ | enter hpc _ => exact .refl _ _
  | append hpc hrun =>
    have hdraining := hapart hpc (by simp)
    rw [held_of_not_draining (s := s) hdraining]
    refine Eq.mpr ?_ (AppendCall.locked_owns s.buffer s.world _ _ hrun)
    exact congrArg _ (held_of_not_draining hdraining)
  | test hpc =>
    have hheld : s.held = heldBy s.buffer.buf := held_of_not_draining (by simp [hpc, FlushPc.Draining])
    rw [hheld, held_of_not_draining (by dsimp only; split <;> decide)]
    exact .refl _ _
  | @flush pc b taken w outcome hpc hrun =>
    obtain ⟨hsame, hbuf⟩ := Buffer.flushLocked_same s.buffer outcome s.world _ _ hrun
    have hheld : s.held = heldBy s.buffer.buf := held_of_not_draining (by simp [hpc, FlushPc.Draining])
    have hheld' : FlushRace.held { s with buffer := b, world := w, flusher := pc, sent := s.sent ++ taken } =
        heldBy s.buffer.buf := by
      rw [← hbuf]
      rcases Buffer.flushLocked_pc s.buffer outcome s.world _ _ hrun with ⟨err, hpc'⟩ | hpc' <;>
        exact if_neg (by simp [show pc = _ from hpc'])
    rw [hheld, hheld']
    exact hsame.owns _
  | free hpc hrun =>
    have hheld : s.held = heldBy s.buffer.buf := if_neg (by simp [hpc])
    rw [hheld, show FlushRace.held _ = 0 from if_pos (.inl rfl)]
    split at hrun
    · exact free_owns s.buffer.buf s.world _ _ hrun
    · cases hrun
      exact .abandon _ _
  | max hpc =>
    rw [show s.held = 0 from if_pos (.inl hpc), show FlushRace.held _ = 0 from if_pos (.inr (.inl rfl))]
    exact .refl _ _
  | used hpc =>
    rw [show s.held = 0 from if_pos (.inr (.inl hpc)), show FlushRace.held _ = 0 from if_pos (.inr (.inr rfl))]
    exact .refl _ _
  | buf hpc =>
    rw [show s.held = 0 from if_pos (.inr (.inr hpc))]
    exact .refl _ _
  | relock hpc hrun =>
    have hheld : s.held = heldBy s.buffer.buf := held_of_not_draining (by simp [hpc, FlushPc.Draining])
    rw [hheld]
    have hsame : Exec.Ensures (mutexLock s.buffer.mutex >>= mutexUnlock) s.world fun _ w => s.world.Same w := by
      refine (mutexLock_same s.buffer.mutex s.world).bind ?_
      intro mutex w1 h1
      rw [h1]
      exact mutexUnlock_same mutex s.world
    exact (hsame _ _ hrun).owns _

/-- In a run in which the append does not run while the flush destroys the buffer, no block is freed twice, and
the block that the buffer holds at the end is not freed. -/
theorem freed_once {s₀ : FlushRace} (hrun : ReflTransGen (ApartStep E call) s₀ s)
    (hfrees : s₀.world.frees = []) (hid : ∀ id ∈ s₀.held, id < s₀.world.allocs) (id : Nat) :
    s.world.frees.count id + s.held.count id ≤ 1 := by
  have howns : s₀.world.Owns E s₀.held s.world s.held := by
    induction hrun with
    | refl => exact .refl _ _
    | tail _ hstep ih => exact ih.trans hstep.owns
  have hblocks := howns.blocks id
  have hone : s₀.held.count id ≤ 1 := by
    unfold held
    split
    · exact Nat.zero_le 1
    · exact count_heldBy_le s₀.buffer.buf id
  rw [hfrees, List.count_nil] at hblocks
  unfold World.given at hblocks
  by_cases hmem : id ∈ s₀.held
  · have hlt := hid id hmem
    rw [if_neg (by omega)] at hblocks
    omega
  · rw [Multiset.count_eq_zero_of_notMem hmem] at hblocks
    split at hblocks <;> omega

end FlushRace

end Excom
