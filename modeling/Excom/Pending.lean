import Excom.BufferLemmas

/-!
# Buffers with bytes to be read

`Buffer.Pending` says which bytes of a buffer have been appended and not read, and bounds the bytes in it.
What is appended joins them at the end (`Buffer.Pending.append`), and `excom_buffer_write` takes some of them
from the front, whatever the outcome of `write` (`write_returns`).
-/

namespace Excom

/-- A buffer that can be appended to, with at most `n` bytes, of which `bs` have not been read. -/
structure Buffer.Pending (E : Env) (n : Nat) (bs : Bytes) (b : Buffer) : Prop where
  wf : b.WF E
  mutable : b.unmutable = false
  pos_le : b.pos ≤ b.used
  used_le : b.used ≤ n
  unread : b.unread = bs

variable {E : Env}

theorem Buffer.Empty.pending {start : Nat} {b : Buffer} (h : Buffer.Empty E start b) : b.Pending E 0 [] := by
  have hused := h.used
  have hpos := h.pos
  refine ⟨h.wf, h.unmutable, by omega, by omega, ?_⟩
  rw [Buffer.unread, h.contents, List.drop_nil]

namespace Buffer.Pending

variable {n : Nat} {bs : Bytes} {b : Buffer} (h : b.Pending E n bs)

include h

theorem length : b.used = b.pos + bs.length := by
  have hl := h.wf.length_unread
  have hp := h.pos_le
  rw [h.unread] at hl
  omega

theorem remaining : b.remaining E = bs.length := by
  have hl := h.length
  rw [Buffer.remaining_eq h.wf h.pos_le]
  omega

theorem append {b' : Buffer} {bs' : Bytes} (h' : Extends E b bs' b') (hn : n < 2 ^ 32) :
    b'.Pending E (n + bs'.length) (bs ++ bs') := by
  have hused := h'.used h.wf
  have hle := h.used_le
  have hpos_le := h.pos_le
  have hpos := h'.pos (by omega)
  refine ⟨h'.wf, h'.unmutable.trans h.mutable, by omega, by omega, ?_⟩
  rw [Buffer.unread, h'.contents, hpos, List.drop_append_of_le_length (by rw [h.wf.length_contents]; omega)]
  exact congrArg (· ++ bs') h.unread

/-- Moving the cursor over some of what has not been read. -/
theorem advance {k : Nat} (hk : k ≤ bs.length) :
    ({ b with pos := b.pos + k, mutex := .unlocked } : Buffer).Pending E n (bs.drop k) := by
  have hl := h.length
  refine ⟨⟨rfl, h.wf.block, h.wf.used_le, h.wf.max_lt⟩, h.mutable, ?_, h.used_le, ?_⟩
  · show b.pos + k ≤ b.used
    omega
  · rw [← h.unread, Buffer.unread, Buffer.unread, List.drop_drop]
    rfl

theorem advance_all : ({ b with pos := b.pos + bs.length, mutex := .unlocked } : Buffer).Pending E n [] := by
  have hadv := h.advance (Nat.le_refl bs.length)
  rw [List.drop_length] at hadv
  exact hadv

end Buffer.Pending

/-! ### Flushing -/

namespace Buffer

/-- How many bytes `write` takes of those that have not been read -/
def taken (b : Buffer) : Except Int Nat → Nat
  | .error _ => 0
  | .ok n => min n (b.used - b.pos)

private theorem taken_le (b : Buffer) (outcome : Except Int Nat) : b.taken outcome ≤ b.used - b.pos := by
  cases outcome with
  | error errno => exact Nat.zero_le _
  | ok n => exact Nat.min_le_right n _

/-- `write` takes all there is, and the buffer is destroyed. -/
def Drains (b : Buffer) (outcome : Except Int Nat) : Prop :=
  b.pos < b.used ∧ b.taken outcome = b.used - b.pos ∧ b.freeable = true

instance (b : Buffer) (outcome : Except Int Nat) : Decidable (b.Drains outcome) :=
  inferInstanceAs (Decidable (_ ∧ _))

/-- The error code of `excom_buffer_write` -/
def flushCode (b : Buffer) : Except Int Nat → Int
  | .error errno => if b.pos < b.used then errno else 0
  | .ok _ => 0

variable {b : Buffer} (hb : b.WF E) (hpos : b.pos ≤ b.used)

include hb hpos

private theorem load_unread {k : Nat} (hk : k ≤ b.used - b.pos) (w : World) :
    ∃ loads, load b.buf b.pos k w = .ok (b.unread.take k, { w with loads }) := by
  have hused := hb.block_used
  obtain ⟨loads, hload⟩ := load_eq (show b.pos + k ≤ (blockBytes b.buf).length by omega) w
  refine ⟨loads, hload.trans ?_⟩
  rw [Buffer.unread, Buffer.contents, List.take_drop, List.take_drop, List.take_take,
    Nat.min_eq_left (show b.pos + k ≤ b.used by omega)]

omit hpos in
private theorem remaining_moved {k : Nat} (hk : b.pos + k ≤ b.used) (mutex : Mutex) :
    ({ b with pos := b.pos + k, mutex } : Buffer).remaining E = b.used - (b.pos + k) :=
  Buffer.remaining_of_lt hk (Nat.lt_of_le_of_lt hb.used_le hb.max_lt)

/-- A flush that takes all of it frees the block and empties the buffer. -/
theorem write_drains {outcome : Except Int Nat} (h : b.Drains outcome) (w : World) :
    ∃ loads, b.write E outcome w = .ok ((0, { b with max := 0, used := 0, buf := none, pos := 0 }, b.unread),
      { w with loads, frees := (b.buf.map Block.id).toList ++ w.frees }) := by
  obtain ⟨hlt, htaken, hfree⟩ := h
  obtain ⟨loads, hload⟩ := load_unread hb hpos (Nat.le_refl _) w
  have hrem := Buffer.remaining_eq hb hpos
  refine ⟨loads, ?_⟩
  cases outcome with
  | error errno =>
    have h0 : 0 = b.used - b.pos := htaken
    omega
  | ok n =>
    have hmin : min n (b.used - b.pos) = b.used - b.pos := htaken
    have hdone : ({ b with pos := b.pos + (b.used - b.pos), mutex := .locked } : Buffer).remaining E = 0 := by
      rw [remaining_moved hb (by omega)]
      omega
    unfold Buffer.write
    rw [if_neg (by omega), hb.mutex, mutexLock_unlocked, Exec.pure_bind, hrem]
    dsimp only
    rw [hmin, Exec.bind_of_ok hload]
    unfold Buffer.drained Buffer.destroy
    rw [if_pos ⟨hdone, hfree⟩, mutexUnlock_locked, Exec.pure_bind]
    dsimp only
    rw [if_pos hfree, Exec.bind_assoc, Exec.bind_assoc, Exec.bind_of_ok (free_eq _ _)]
    have hlen := hb.length_unread
    rw [← hlen, List.take_length]
    rfl

/-- Any other flush moves the cursor at most. -/
theorem write_keeps {outcome : Except Int Nat} (h : ¬ b.Drains outcome) (w : World) :
    ∃ loads, b.write E outcome w = .ok ((b.flushCode outcome, { b with pos := b.pos + b.taken outcome },
      b.unread.take (b.taken outcome)), { w with loads }) := by
  have hrem := Buffer.remaining_eq hb hpos
  have hm := hb.mutex
  unfold Buffer.write
  by_cases hlt : b.pos < b.used
  · rw [if_neg (by omega), hm, mutexLock_unlocked, Exec.pure_bind, hrem]
    cases outcome with
    | error errno =>
      have hcode : b.flushCode (.error errno) = errno := if_pos hlt
      refine ⟨w.loads, ?_⟩
      rw [hcode]
      cases b
      subst hm
      rfl
    | ok n =>
      obtain ⟨loads, hload⟩ := load_unread hb hpos (Nat.min_le_right n (b.used - b.pos)) w
      refine ⟨loads, ?_⟩
      have hstays : ¬ (({ b with pos := b.pos + min n (b.used - b.pos), mutex := .locked } : Buffer).remaining E = 0 ∧
          b.freeable = true) := by
        rw [remaining_moved hb (by omega)]
        intro ⟨hzero, hfree⟩
        have hall : min n (b.used - b.pos) = b.used - b.pos := by omega
        exact h ⟨hlt, hall, hfree⟩
      dsimp only
      rw [Exec.bind_of_ok hload]
      unfold Buffer.drained
      rw [if_neg hstays]
      cases b
      subst hm
      rfl
  · have h0 : b.used - b.pos = 0 := by omega
    have htaken : b.taken outcome = 0 := by
      cases outcome with
      | error errno => rfl
      | ok n => show min n _ = 0; omega
    have hcode : b.flushCode outcome = 0 := by
      cases outcome with
      | error errno => exact if_neg hlt
      | ok n => rfl
    rw [if_pos (by omega), htaken, hcode]
    exact ⟨w.loads, rfl⟩

end Buffer

/-- What `excom_buffer_write` hands to the socket is taken from the front of the bytes that were not read. -/
theorem write_returns {n : Nat} {bs : Bytes} {b : Buffer} (h : b.Pending E n bs) (outcome : Except Int Nat)
    (w : World) :
    Exec.Returns (b.write E outcome) w fun r _ => ∃ rest, bs = r.2.2 ++ rest ∧ r.2.1.Pending E n rest ∧
      ∀ k, outcome = .ok k → bs.length ≤ k → rest = [] := by
  have hlen := h.length
  by_cases hdrains : b.Drains outcome
  · -- a freeable buffer is destroyed when it is drained, and starts again without a block
    obtain ⟨loads, hrun⟩ := Buffer.write_drains h.wf h.pos_le hdrains w
    refine .intro hrun ⟨[], by simp [h.unread], ?_, fun _ _ _ => rfl⟩
    exact ⟨⟨h.wf.mutex, rfl, Nat.le_refl _, h.wf.word_pos⟩, h.mutable, Nat.le_refl _, Nat.zero_le _, rfl⟩
  · obtain ⟨loads, hrun⟩ := Buffer.write_keeps h.wf h.pos_le hdrains w
    have htaken : b.taken outcome ≤ bs.length := by
      have hle := b.taken_le outcome
      omega
    have hadv := h.advance htaken
    rw [← h.wf.mutex] at hadv
    refine .intro hrun ⟨bs.drop (b.taken outcome), by rw [h.unread, List.take_append_drop], hadv, ?_⟩
    intro k hk hle
    subst hk
    show bs.drop (min k (b.used - b.pos)) = []
    rw [List.drop_eq_nil_iff]
    omega

/-- `excom_buffer_write` to a socket that takes everything. -/
theorem write_pending {n : Nat} {bs : Bytes} {b : Buffer} (h : b.Pending E n bs) (w : World) :
    Exec.Returns (b.write E (.ok bs.length)) w fun r _ => r.2.2 = bs ∧ r.2.1.Pending E n [] := by
  refine (write_returns h (.ok bs.length) w).mono ?_
  intro r w' ⟨rest, hbs, hpending, hrest⟩
  obtain rfl := hrest _ rfl (Nat.le_refl _)
  rw [List.append_nil] at hbs
  exact ⟨hbs.symm, hpending⟩

end Excom
