import Excom.Buffer

/-!
# Appending to a buffer

The doubling loop of `excom_buffer_resize` (`growLoop`) and what the append functions do when allocations
succeed: the bytes are added behind the contents (`Appended`), whether or not the block has to be replaced.
The only way an append can fail to return is a doubling loop that never ends.
-/

namespace Excom

namespace Buffer

/-! ### The doubling loop -/

/-- The loop of `excom_buffer_resize` ends with a capacity that is enough and that `size_t` can hold. -/
theorem growLoop_le {word toFit fuel n m : Nat} (hw : 0 < word) (h : growLoop word toFit fuel n = some m) :
    toFit ≤ m ∧ m < word := by
  induction fuel generalizing n with
  | zero => cases h
  | succ fuel ih =>
    simp only [growLoop] at h
    split at h
    · exact ih h
    · cases h
      exact ⟨by omega, Nat.mod_lt _ hw⟩

/-- The loop ends when one of the first `fuel` doublings, modulo `word`, is large enough. -/
theorem growLoop_ends_iff {word toFit fuel n : Nat} :
    (∃ m, growLoop word toFit fuel n = some m) ↔ ∃ k < fuel, toFit ≤ n * 2 ^ (k + 1) % word := by
  induction fuel generalizing n with
  | zero => simp [growLoop]
  | succ fuel ih =>
    simp only [growLoop]
    have hdouble (k : Nat) : n * 2 % word * 2 ^ (k + 1) % word = n * 2 ^ (k + 1 + 1) % word := by
      rw [Nat.mod_mul_mod, Nat.mul_assoc, ← Nat.pow_succ']
    by_cases hlt : n * 2 % word < toFit
    · rw [if_pos hlt, ih]
      constructor
      · intro ⟨k, hk, hle⟩
        exact ⟨k + 1, by omega, by rwa [← hdouble]⟩
      · intro ⟨k, hk, hle⟩
        rcases k with _ | k
        · simp only [Nat.zero_add, Nat.pow_one] at hle
          omega
        · exact ⟨k, by omega, by rwa [hdouble]⟩
    · rw [if_neg hlt]
      exact iff_of_true ⟨_, rfl⟩ ⟨0, by omega, by simpa using Nat.not_lt.1 hlt⟩

/-- Up to half of the range of `size_t` the loop ends, at less than twice the size asked for. -/
theorem growLoop_isSome (word toFit fuel n : Nat) (hfuel : 0 < fuel) (hn : 0 < n) (h : n * 2 < word)
    (h2 : 2 * toFit ≤ word) (hf : toFit ≤ n * 2 ^ fuel) :
    ∃ m, growLoop word toFit fuel n = some m ∧ (n < toFit → m < 2 * toFit) := by
  induction fuel generalizing n with
  | zero => omega
  | succ fuel ih =>
    simp only [growLoop, Nat.mod_eq_of_lt h]
    split
    · rename_i hlt
      have hf' : toFit ≤ n * 2 * 2 ^ fuel := by rwa [Nat.mul_assoc, ← Nat.pow_succ']
      have hpos : 0 < fuel := by
        rcases Nat.eq_zero_or_pos fuel with rfl | hp
        · simp at hf'; omega
        · exact hp
      obtain ⟨m, hm, hlt'⟩ := ih (n * 2) hpos (by omega) (by omega) hf'
      exact ⟨m, hm, fun _ => hlt' hlt⟩
    · exact ⟨_, rfl, fun _ => by omega⟩

/-- From a power of two the loop goes to the next power of two that is large enough. -/
theorem growLoop_pow {w toFit fuel i m : Nat} (hpos : 0 < toFit) (hi : 2 ^ i < toFit)
    (h : growLoop (2 ^ w) toFit fuel (2 ^ i) = some m) : ∃ j, i < j ∧ j < w ∧ m = 2 ^ j ∧ m < 2 * toFit := by
  induction fuel generalizing i with
  | zero => cases h
  | succ fuel ih =>
    simp only [growLoop] at h
    by_cases hw : i + 1 < w
    · have hmod : 2 ^ i * 2 % 2 ^ w = 2 ^ (i + 1) := by
        rw [← Nat.pow_succ]; exact Nat.mod_eq_of_lt (Nat.pow_lt_pow_right (by omega) hw)
      simp only [hmod] at h
      split at h
      · rename_i hlt
        obtain ⟨j, hij, hj⟩ := ih hlt h
        exact ⟨j, by omega, hj⟩
      · cases h
        exact ⟨i + 1, by omega, hw, rfl, by rw [Nat.pow_succ]; omega⟩
    · -- the size has wrapped around to zero, and stays there
      have hmod : 2 ^ i * 2 % 2 ^ w = 0 := by
        rw [← Nat.pow_succ]; exact Nat.mod_eq_zero_of_dvd (Nat.pow_dvd_pow 2 (by omega))
      simp only [hmod, hpos, if_true] at h
      exfalso
      clear ih
      induction fuel with
      | zero => cases h
      | succ fuel ih' =>
        simp only [growLoop, Nat.zero_mul, Nat.zero_mod, hpos, if_true] at h
        exact ih' h

variable {E : Env}

/-- A block that is too small for up to half of the range of `size_t` gets large enough. -/
theorem exists_growLoop {max toFit : Nat} (hlt : max < toFit) (h : 2 * toFit ≤ E.word) :
    ∃ m, growLoop E.word toFit (E.wordBits + 1) (if max = 0 then 1 else max) = some m ∧
      ((if max = 0 then 1 else max) < toFit → m < 2 * toFit) := by
  have h32 := E.le_word
  have hpow : 2 ^ (E.wordBits + 1) = 2 * E.word := by rw [Nat.pow_succ, Env.word]; omega
  refine growLoop_isSome E.word toFit (E.wordBits + 1) (if max = 0 then 1 else max) (by omega) (by split <;> omega)
    (by split <;> omega) h ?_
  rw [hpow]
  split
  · omega
  · calc toFit ≤ 1 * (2 * E.word) := by omega
      _ ≤ max * (2 * E.word) := Nat.mul_le_mul_right _ (by omega)

/-! ### Contents -/


theorem WF.block_used {b : Buffer} (hb : b.WF E) : b.used ≤ (blockBytes b.buf).length := by
  rw [hb.block]; exact hb.used_le

theorem WF.length_contents {b : Buffer} (hb : b.WF E) : b.contents.length = b.used := by
  simp [contents, hb.block_used]

theorem WF.word_pos {b : Buffer} (hb : b.WF E) : 0 < E.word := Nat.lt_of_le_of_lt (Nat.zero_le _) hb.max_lt

/-- An unlocked buffer is what its unlocking leaves. -/
theorem WF.unlocked {b : Buffer} (hb : b.WF E) : ({ b with mutex := .unlocked } : Buffer) = b := by
  rw [← hb.mutex]

theorem ofBytes_wf {bs : Bytes} (h : bs.length < E.word) : (ofBytes bs).WF E :=
  ⟨rfl, rfl, Nat.le_refl _, h⟩

/-- While the cursor is inside, `remaining` is the number of unread bytes. -/
theorem remaining_of_lt {b : Buffer} (hpos : b.pos ≤ b.used) (hlt : b.used < E.word) :
    b.remaining E = b.used - b.pos :=
  toNat_sub_emod hpos (by omega)

/-- With the cursor inside the contents, the difference does not wrap around. -/
theorem remaining_eq {b : Buffer} (hb : b.WF E) (hpos : b.pos ≤ b.used) : b.remaining E = b.used - b.pos :=
  remaining_of_lt hpos (Nat.lt_of_le_of_lt hb.used_le hb.max_lt)

theorem length_unread {b : Buffer} (hu : b.used ≤ (blockBytes b.buf).length) :
    b.unread.length = b.used - b.pos := by
  rw [unread, List.length_drop, contents, List.length_take, Nat.min_eq_left hu]

theorem WF.length_unread {b : Buffer} (hb : b.WF E) : b.unread.length = b.used - b.pos :=
  Buffer.length_unread hb.block_used

/-- While the cursor is inside, the unread bytes come first at the cursor. -/
theorem ahead_eq {b : Buffer} (hu : b.used ≤ (blockBytes b.buf).length) (hpos : b.pos ≤ b.used) :
    b.ahead = b.unread ++ b.slack := by
  rw [ahead, ← List.take_append_drop b.used (blockBytes b.buf),
    List.drop_append_of_le_length (by rw [List.length_take]; omega)]
  rfl

/-- The block of `b'` is that of `b`, or was made after `w`. -/
def FreshBlock (w : World) (b b' : Buffer) : Prop :=
  ∀ blk, b'.buf = some blk → b.buf.map Block.id = some blk.id ∨ w.allocs ≤ blk.id

theorem FreshBlock.refl (w : World) (b : Buffer) : FreshBlock w b b :=
  fun _ hblk => Or.inl (congrArg (Option.map Block.id) hblk)

/-- The size that the loop of `excom_buffer_resize` finds for `size` more bytes. -/
def GrowsTo (E : Env) (b : Buffer) (size m : Nat) : Prop :=
  growLoop E.word (b.used + size) (E.wordBits + 1) (if b.max = 0 then 1 else b.max) = some m

/-- `b'` is `b` with room for `size` more bytes. -/
structure Reserved (E : Env) (b : Buffer) (size : Nat) (b' : Buffer) : Prop where
  mutex : b'.mutex = b.mutex
  block : (blockBytes b'.buf).length = b'.max
  fits : b.used + size ≤ b'.max
  max_lt : b'.max < E.word
  used : b'.used = b.used
  contents : b'.contents = b.contents
  pos : b'.pos = if b.used + size ≤ b.max then b.pos else b.pos % 2 ^ 32
  max : if b.used + size ≤ b.max then b'.max = b.max else b.GrowsTo E size b'.max
  unmutable : b'.unmutable = b.unmutable
  freeable : b'.freeable = b.freeable
  slack : ∀ P, E.Junk P → (∀ x ∈ b.slack, P x) → ∀ x ∈ b'.slack, P x

/-- `b'` is `b` with `bs` added behind its contents. -/
structure Appended (E : Env) (b : Buffer) (bs : Bytes) (b' : Buffer) : Prop where
  wf : b'.WF E
  contents : b'.contents = b.contents ++ bs
  used : b'.used = b.used + bs.length
  pos : b'.pos = if b.used + bs.length ≤ b.max then b.pos else b.pos % 2 ^ 32
  max : if b.used + bs.length ≤ b.max then b'.max = b.max else b.GrowsTo E bs.length b'.max
  unmutable : b'.unmutable = b.unmutable
  freeable : b'.freeable = b.freeable
  slack : ∀ P, E.Junk P → (∀ x ∈ b.slack, P x) → ∀ x ∈ b'.slack, P x

theorem Appended.nil {b : Buffer} (hb : b.WF E) : Appended E b [] b := by
  have hle : b.used + ([] : Bytes).length ≤ b.max := hb.used_le
  exact ⟨hb, (List.append_nil _).symm, rfl, by rw [if_pos hle], by rw [if_pos hle], rfl, rfl, fun _ _ hs => hs⟩

/-- `b'` is `b` after some appends, which added `bs` in all. -/
structure Extends (E : Env) (b : Buffer) (bs : Bytes) (b' : Buffer) : Prop where
  wf : b'.WF E
  contents : b'.contents = b.contents ++ bs
  pos : b.pos < 2 ^ 32 → b'.pos = b.pos
  unmutable : b'.unmutable = b.unmutable
  slack : ∀ P, E.Junk P → (∀ x ∈ b.slack, P x) → ∀ x ∈ b'.slack, P x

/-- An append extends what is unread. -/
theorem Appended.extends {b b' : Buffer} {bs : Bytes} (h : Appended E b bs b') : Extends E b bs b' := by
  refine ⟨h.wf, h.contents, fun hp => ?_, h.unmutable, h.slack⟩
  rw [h.pos, Nat.mod_eq_of_lt hp, ite_self]

theorem Extends.refl {b : Buffer} (hb : b.WF E) : Extends E b [] b :=
  ⟨hb, (List.append_nil _).symm, fun _ => rfl, rfl, fun _ _ hs => hs⟩

/-- One append after the other extends by the bytes of both. -/
theorem Extends.trans {b b' b'' : Buffer} {bs bs' : Bytes} (h : Extends E b bs b') (h' : Extends E b' bs' b'') :
    Extends E b (bs ++ bs') b'' := by
  refine ⟨h'.wf, by rw [h'.contents, h.contents, List.append_assoc], fun hp => ?_,
    h'.unmutable.trans h.unmutable, fun P hP hs => h'.slack P hP (h.slack P hP hs)⟩
  have hp' := h.pos hp
  rw [h'.pos (by omega), hp']

theorem Extends.used {b b' : Buffer} {bs : Bytes} (h : Extends E b bs b') (hb : b.WF E) :
    b'.used = b.used + bs.length := by
  rw [← h.wf.length_contents, h.contents, List.length_append, hb.length_contents]

private theorem junk_range {P : UInt8 → Prop} {k : Nat} {junk : Nat → UInt8} (hP : E.Junk P)
    (hj : E.malloc k = some junk) (n : Nat) : ∀ x ∈ (List.range n).map junk, P x := by
  intro x hx
  obtain ⟨i, -, rfl⟩ := List.mem_map.1 hx
  exact hP k junk hj i

/-- A resize that finds a size succeeds, and keeps the bytes in use. -/
theorem resize_returns {w : World} (hA : (E.malloc w.allocs).isSome) {b : Buffer} {toFit m : Nat}
    (hu : b.used ≤ (blockBytes b.buf).length) (hm : b.used ≤ m)
    (hg : growLoop E.word toFit (E.wordBits + 1) (if b.max = 0 then 1 else b.max) = some m) {P : Load → Prop}
    (hP : b.used = 0 ∨ ∀ l, P l) :
    Exec.Returns (b.resize E toFit) w fun r w' => r.1 = 0 ∧ World.Reads P w w' ∧
    ∃ buf, r.2 = { b with buf := some buf, pos := b.pos % 2 ^ 32, max := m } ∧ w.allocs ≤ buf.id ∧
        buf.bytes.length = m ∧ buf.bytes.take b.used = b.contents ∧
        ∀ P, E.Junk P → ∀ x ∈ buf.bytes.drop b.used, P x := by
  unfold resize
  simp only [hg]
  refine (malloc_some hA m).bind ?_
  rintro _ _ ⟨junk, hj, rfl, rfl⟩
  refine (load_returns (P := P) b.buf 0 b.used (by simpa using hu) ?_ _).bind ?_
  · intro h
    rcases hP with h0 | hP
    · omega
    · exact fun _ _ => hP _
  rintro old w1 ⟨rfl, hr⟩
  have hlen : ((blockBytes b.buf).drop 0 |>.take b.used).length = b.used := by simp [hu]
  obtain ⟨buf, hst, hbytes, hid⟩ := store_eq (some ⟨w.allocs, (List.range m).map junk⟩) 0
    (((blockBytes b.buf).drop 0).take b.used) (by rw [hlen]; simpa using hm)
  simp only [hst, Exec.pure_bind]
  refine (free_returns P b.buf w1).bind ?_
  rintro - w2 hr2
  have hr0 : World.Reads P w { w with allocs := w.allocs + 1 } := .of_eq (Nat.le_succ _) rfl
  refine .pure ⟨rfl, hr0.trans (hr.trans hr2), ?_⟩
  rcases buf with _ | buf
  · simp at hid
  · rw [hlen] at hbytes
    simp only [blockBytes_some, List.take_zero, List.nil_append, List.drop_zero, Nat.zero_add] at hbytes
    refine ⟨buf, rfl, ?_, ?_, ?_, ?_⟩
    · simp at hid; omega
    · simp [hbytes, hu]; omega
    · rw [hbytes, List.take_append_of_le_length (by simp [hu]), List.take_take, Nat.min_self]; rfl
    · intro P hP x hx
      rw [hbytes, List.drop_append, List.drop_eq_nil_of_le (by rw [List.length_take]; omega), List.nil_append,
        List.drop_drop] at hx
      exact junk_range hP hj m x (List.mem_of_mem_drop hx)

/-- A loop without an end is all that a resize comes to. -/
theorem resize_diverges {b : Buffer} {toFit : Nat}
    (h : growLoop E.word toFit (E.wordBits + 1) (if b.max = 0 then 1 else b.max) = none) :
    b.resize E toFit = Exec.fault .diverges := by
  unfold resize
  simp only [h]

/-- A resize that is refused a block changes nothing but `errno`, which it returns. -/
theorem resize_refused {b : Buffer} {toFit m : Nat} {w : World} (hA : E.malloc w.allocs = none)
    (hg : growLoop E.word toFit (E.wordBits + 1) (if b.max = 0 then 1 else b.max) = some m) :
    b.resize E toFit w = .ok ((ENOMEM, b), { w with allocs := w.allocs + 1, errno := 0 }) := by
  unfold resize
  simp only [hg]
  rw [Exec.bind_of_ok (malloc_none hA m)]
  rfl

/-- What a resize to `m` bytes has done to the buffer `b`, and to the machine. -/
structure Resized (E : Env) (b : Buffer) (m : Nat) (w : World) (b' : Buffer) (w' : World) : Prop where
  buffer : b' = { b with buf := b'.buf, pos := b.pos % 2 ^ 32, max := m }
  given : (E.malloc w.allocs).isSome
  id : b'.buf.map Block.id = some w.allocs
  fits : b.used ≤ m
  length : (blockBytes b'.buf).length = m
  contents : b'.contents = b.contents
  allocs : w'.allocs = w.allocs + 1
  frees : w'.frees = (b.buf.map Block.id).toList ++ w.frees
  randoms : w'.randoms = w.randoms

/-- The ways in which a resize can return -/
theorem resize_ensures (b : Buffer) (toFit : Nat) (w : World) :
    Exec.Ensures (b.resize E toFit) w fun r w' => ∃ m,
      growLoop E.word toFit (E.wordBits + 1) (if b.max = 0 then 1 else b.max) = some m ∧
        ((E.malloc w.allocs = none ∧ r = (ENOMEM, b) ∧ w' = { w with allocs := w.allocs + 1, errno := 0 }) ∨
          (r.1 = 0 ∧ Resized E b m w r.2 w')) := by
  intro r w' hrun
  rcases hg : growLoop E.word toFit (E.wordBits + 1) (if b.max = 0 then 1 else b.max) with _ | m
  · rw [resize_diverges hg] at hrun
    cases hrun
  refine ⟨m, rfl, ?_⟩
  rcases hA : E.malloc w.allocs with _ | junk
  · rw [resize_refused hA hg] at hrun
    cases hrun
    exact .inl ⟨rfl, rfl, rfl⟩
  right
  have hsome : (E.malloc w.allocs).isSome := by rw [hA]; rfl
  obtain ⟨p, w1, hmalloc, junk', -, rfl, rfl⟩ := malloc_some hsome m
  unfold resize at hrun
  rw [hg] at hrun
  dsimp only at hrun
  rw [Exec.bind_of_ok hmalloc] at hrun
  dsimp only at hrun
  obtain ⟨old, w2, hload, hrun⟩ := Exec.bind_eq_ok.1 hrun
  obtain ⟨hold, hinside⟩ := load_ensures b.buf 0 b.used _ old w2 hload
  have hsame := load_same b.buf 0 b.used _ old w2 hload
  have hlen : old.length = b.used := by
    rw [hold, List.drop_zero, List.length_take]
    omega
  -- the copy was inside the new block
  have hfits : b.used ≤ m := by
    by_contra hlt
    have hroom : (blockBytes (some ⟨w.allocs, (List.range m).map junk'⟩)).length < 0 + old.length := by
      rw [blockBytes_some, List.length_map, List.length_range]
      omega
    obtain ⟨e, he⟩ := store_error (by omega) hroom
    rw [he] at hrun
    cases hrun
  obtain ⟨buf, hst, hbytes, hid⟩ := store_eq (some ⟨w.allocs, (List.range m).map junk'⟩) 0 old
    (by simp; omega)
  rw [hst, Exec.pure_bind, Exec.bind_of_ok (free_eq _ _)] at hrun
  cases hrun
  simp only [List.take_zero, List.nil_append, Nat.zero_add, hlen, blockBytes_some] at hbytes
  refine ⟨rfl, rfl, by rw [hA]; rfl, hid, hfits, ?_, ?_, hsame.allocs, ?_, hsame.randoms⟩
  · rw [hbytes]
    simp [hlen]
    omega
  · show (blockBytes buf).take b.used = b.contents
    rw [hbytes, List.take_left' hlen, hold, List.drop_zero]
    rfl
  · show _ ++ w2.frees = _
    rw [hsame.frees]

/-- The room for `size` more bytes is there, or is made. -/
theorem reserve_returns {w : World} {b : Buffer} {size : Nat}
    (hA : b.used + size ≤ b.max ∨ (E.malloc w.allocs).isSome)
    (hblock : (blockBytes b.buf).length = b.max) (hu : b.used ≤ b.max) (hmax : b.max < E.word)
    (hsum : b.used + size < E.word) (hg : b.max < b.used + size → ∃ m, b.GrowsTo E size m)
    {P : Load → Prop} (hP : b.used = 0 ∨ ∀ l, P l) :
    Exec.Returns (b.reserve E size) w fun r w' =>
      r.1 = 0 ∧ World.Reads P w w' ∧ FreshBlock w b r.2 ∧ Reserved E b size r.2 := by
  unfold reserve
  rw [Nat.mod_eq_of_lt hsum]
  by_cases h : b.used + size ≤ b.max
  · rw [if_neg (Nat.not_lt.2 h)]
    refine .pure ⟨rfl, .refl w, .refl w b, ?_⟩
    exact ⟨rfl, hblock, h, hmax, rfl, rfl, by rw [if_pos h], by rw [if_pos h], rfl, rfl, fun _ _ hs => hs⟩
  · rw [if_pos (Nat.not_le.1 h)]
    obtain ⟨m, hm⟩ := hg (Nat.not_le.1 h)
    obtain ⟨hle, hlt⟩ := growLoop_le (by omega) hm
    refine (resize_returns (hA.resolve_left h) (by omega) (by omega) hm hP).mono ?_
    rintro ⟨chk, b'⟩ w' ⟨hchk, hr, buf, rfl, hid, hlen, htake, hslack⟩
    refine ⟨hchk, hr, ?_, ?_⟩
    · rintro blk ⟨⟩; exact Or.inr hid
    · exact ⟨rfl, hlen, hle, hlt, rfl, htake, by rw [if_neg h], by rw [if_neg h]; exact hm, rfl, rfl,
        fun P hP _ => hslack P hP⟩

/-- Bytes for which there is room are copied behind those in use. -/
theorem put_returns {b : Buffer} {size : Nat} {src : M Bytes} {bytes : Bytes} (hm : b.mutex = .locked)
    (hblock : (blockBytes b.buf).length = b.max) (hfit : b.used + size ≤ b.max) (hmax : b.max < E.word)
    {P : Load → Prop} (hlen : bytes.length = size)
    (hsrc : ∀ w, Exec.Returns src w fun bs w' => bs = bytes ∧ World.Reads P w w') (w : World) :
    Exec.Returns (b.put E size src) w fun r w' => r.1 = 0 ∧ World.Reads P w w' ∧
      ∃ buf, r.2 = { b with buf, used := b.used + size, mutex := .unlocked } ∧
        blockBytes buf = b.contents ++ bytes ++ (blockBytes b.buf).drop (b.used + size) ∧
        buf.map Block.id = b.buf.map Block.id := by
  unfold put
  refine (hsrc w).bind ?_
  rintro bytes w1 ⟨rfl, hr⟩
  obtain ⟨buf, hst, hbytes, hid⟩ := store_eq b.buf b.used bytes (by omega)
  simp only [hst, Exec.pure_bind, hm, mutexUnlock_locked, Nat.mod_eq_of_lt
    (show b.used + size < E.word by omega)]
  refine .pure ⟨rfl, hr, buf, rfl, ?_, hid⟩
  rw [hbytes, hlen]; rfl

/-- Reserving room and filling it appends. -/
theorem Reserved.put_returns {b b1 : Buffer} (hb : b.WF E) {size : Nat}
    (h : Reserved E { b with mutex := .locked } size b1) (src : M Bytes) (bytes : Bytes) {P : Load → Prop}
    (hlen : bytes.length = size)
    (hsrc : ∀ w, Exec.Returns src w fun bs w' => bs = bytes ∧ World.Reads P w w') (w : World) :
    Exec.Returns (b1.put E size src) w fun r w' => r.1 = 0 ∧ World.Reads P w w' ∧ Appended E b bytes r.2 ∧
      r.2.buf.map Block.id = b1.buf.map Block.id := by
  have hused : b1.used = b.used := h.used
  have hfits : b.used + size ≤ b1.max := h.fits
  have hcont : b1.contents = b.contents := h.contents
  refine (Buffer.put_returns h.mutex h.block (by omega) h.max_lt hlen hsrc w).mono ?_
  rintro ⟨e, b2⟩ w2 ⟨he, hr, buf, rfl, hbytes, hid⟩
  refine ⟨he, hr, ?_, hid⟩
  rw [hcont, hused] at hbytes
  have hblen : (blockBytes buf).length = b1.max := by
    rw [hbytes]
    simp only [List.length_append, List.length_drop, hb.length_contents, h.block]
    omega
  have hc : (blockBytes buf).take (b.used + size) = b.contents ++ bytes := by
    rw [hbytes, List.take_left' (by rw [List.length_append, hlen, hb.length_contents])]
  refine ⟨⟨rfl, hblen, by rw [hused]; exact hfits, h.max_lt⟩, ?_, by rw [hused, hlen], ?_, ?_, h.unmutable,
    h.freeable, ?_⟩
  · rw [← hc, ← hused]; rfl
  · rw [hlen]; exact h.pos
  · rw [hlen]; exact h.max
  · intro Q hQ hs x hx
    refine h.slack Q hQ hs x ?_
    have hd : (blockBytes buf).drop (b.used + size) = (blockBytes b1.buf).drop (b.used + size) := by
      rw [hbytes, List.drop_left' (by rw [List.length_append, hlen, hb.length_contents])]
    unfold Buffer.slack at hx ⊢
    simp only [hused, hd] at hx
    rw [← List.drop_drop] at hx
    rw [hused]
    exact List.mem_of_mem_drop hx

/-! ### The append functions -/

/-- The doubling loop ends when `size` more bytes are asked for, if it is entered at all. -/
def CanGrow (E : Env) (b : Buffer) (size : Nat) : Prop :=
  b.used + size < E.word ∧ (b.max < b.used + size → ∃ m, b.GrowsTo E size m)

/-- Up to half of the range of `size_t`, every buffer can grow. -/
theorem canGrow_of_le {b : Buffer} {size : Nat} (h : 2 * (b.used + size) ≤ E.word) :
    b.CanGrow E size := by
  have h32 := E.le_word
  refine ⟨by omega, fun hlt => ?_⟩
  obtain ⟨m, hm, -⟩ := exists_growLoop hlt h
  exact ⟨m, hm⟩

/-- An append that needs more than the loop can get to does not return. -/
theorem append_diverges {b : Buffer} (hm : b.mutex = .unlocked) {size : Nat} {src : M Bytes}
    (hfull : b.max < (b.used + size) % E.word)
    (h : growLoop E.word ((b.used + size) % E.word) (E.wordBits + 1) (if b.max = 0 then 1 else b.max) = none) :
    b.append E size src = Exec.fault .diverges := by
  have hreserve : ({ b with mutex := .locked } : Buffer).reserve E size = Exec.fault .diverges := by
    unfold reserve
    rw [if_pos hfull]
    exact resize_diverges h
  unfold append
  rw [hm, mutexLock_unlocked, Exec.pure_bind, hreserve, Exec.fault_bind]

section Room

variable {b : Buffer} (hb : b.WF E) {P : Load → Prop} (hP : b.used = 0 ∨ ∀ l, P l)

include hb hP

/-- With room for the bytes, or an allocation that succeeds, the bytes are appended. -/
theorem append_returns {size : Nat} {src : M Bytes} {bytes : Bytes} {w : World}
    (hA : b.used + size ≤ b.max ∨ (E.malloc w.allocs).isSome) (hlen : bytes.length = size)
    (hsrc : ∀ w, Exec.Returns src w fun bs w' => bs = bytes ∧ World.Reads P w w') (hg : b.CanGrow E size) :
    Exec.Returns (b.append E size src) w fun r w' =>
      r.1 = 0 ∧ World.Reads P w w' ∧ FreshBlock w b r.2 ∧ Appended E b bytes r.2 := by
  unfold append
  simp only [hb.mutex, mutexLock_unlocked, Exec.pure_bind]
  refine (reserve_returns (b := { b with mutex := .locked }) hA hb.block hb.used_le
    hb.max_lt hg.1 hg.2 hP).bind ?_
  rintro ⟨chk, b1⟩ w1 ⟨hchk, hr1, hfresh, hres⟩
  obtain rfl : chk = 0 := hchk
  simp only [ne_eq, not_true_eq_false, if_false]
  refine (hres.put_returns hb src bytes hlen hsrc w1).mono ?_
  rintro ⟨e, b2⟩ w2 ⟨he, hr2, happ, hid⟩
  refine ⟨he, hr1.trans hr2, ?_, happ⟩
  intro blk hblk
  have h1 : b1.buf.map Block.id = some blk.id := by rw [← hid, show b2.buf = some blk from hblk]; rfl
  obtain ⟨blk1, hblk1, he1⟩ := Option.map_eq_some_iff.1 h1
  rw [← he1]
  exact hfresh blk1 hblk1

/-- The same for `excom_buffer_sappend` -/
theorem sappend_returns_of_room (hm : b.unmutable = false) {body : Option Block} {size : UInt32} {w : World}
    (hA : b.used + size.toNat ≤ b.max ∨ (E.malloc w.allocs).isSome)
    (hlen : size.toNat ≤ (blockBytes body).length) (hg : b.CanGrow E size.toNat)
    (hPb : ∀ blk, body = some blk → P ⟨blk.id, 0, size.toNat⟩) :
    Exec.Returns (b.sappend E body size) w fun r w' =>
      r.1 = 0 ∧ World.Reads P w w' ∧ Appended E b ((blockBytes body).take size.toNat) r.2 := by
  unfold sappend
  rw [if_neg (by rw [hm]; decide)]
  simp only [hb.mutex, mutexLock_unlocked, Exec.pure_bind]
  refine (reserve_returns (b := { b with mutex := .locked }) hA hb.block hb.used_le
    hb.max_lt hg.1 hg.2 hP).bind ?_
  rintro ⟨chk, b1⟩ w1 ⟨-, hr1, -, hres⟩
  refine (hres.put_returns (P := P) hb (load body 0 size.toNat) ((blockBytes body).take size.toNat)
    (by simp [hlen]) (fun w => ?_) w1).mono ?_
  · simpa using load_returns (P := P) body 0 size.toNat (by simpa using hlen) (fun _ => hPb) w
  · exact fun r w' h => ⟨h.1, hr1.trans h.2.1, h.2.2.1⟩

end Room

section Append

variable (hA : E.AllocSucceeds) {b : Buffer} (hb : b.WF E) {P : Load → Prop} (hP : b.used = 0 ∨ ∀ l, P l)

include hA hb hP

/-- `excom_buffer_cappend` appends. -/
theorem cappend_returns (hm : b.unmutable = false) {str : Bytes} {size : Nat} (hlen : size ≤ str.length)
    (hg : b.CanGrow E size) (w : World) :
    Exec.Returns (b.cappend E str size) w fun r w' =>
      r.1 = 0 ∧ World.Reads P w w' ∧ FreshBlock w b r.2 ∧ Appended E b (str.take size) r.2 := by
  unfold cappend
  simp only [hm, Bool.false_eq_true, if_false]
  refine append_returns hb hP (.inr (hA _)) (by simp [hlen]) (fun w => ?_) hg
  unfold readBytes
  rw [if_pos hlen]
  exact .pure ⟨rfl, .refl w⟩

/-- `excom_buffer_sappend` appends. -/
theorem sappend_returns (hm : b.unmutable = false) {body : Option Block} {size : UInt32}
    (hlen : size.toNat ≤ (blockBytes body).length) (hg : b.CanGrow E size.toNat)
    (hPb : ∀ blk, body = some blk → P ⟨blk.id, 0, size.toNat⟩) (w : World) :
    Exec.Returns (b.sappend E body size) w fun r w' =>
      r.1 = 0 ∧ World.Reads P w w' ∧ Appended E b ((blockBytes body).take size.toNat) r.2 :=
  sappend_returns_of_room hb hP hm (.inr (hA _)) hlen hg hPb

/-- `excom_buffer_bappend2` appends the first bytes of the source. -/
theorem bappend2_returns (hm : b.unmutable = false) (src : Buffer) {amount : Nat}
    (hlen : amount ≤ (blockBytes src.buf).length) (hg : b.CanGrow E amount)
    (hPs : ∀ blk, src.buf = some blk → P ⟨blk.id, 0, amount⟩) (w : World) :
    Exec.Returns (b.bappend2 E src amount) w fun r w' => r.1 = 0 ∧ World.Reads P w w' ∧ FreshBlock w b r.2 ∧
      Appended E b ((blockBytes src.buf).take amount) r.2 := by
  unfold bappend2
  simp only [hm, Bool.false_eq_true, if_false]
  by_cases h0 : amount = 0
  · simp only [h0, if_true]
    exact .pure ⟨rfl, .refl w, .refl w b, .nil hb⟩
  · simp only [h0, if_false]
    refine append_returns hb hP (.inr (hA _)) (by simp [hlen]) (fun w => ?_) hg
    simpa using load_returns (P := P) src.buf 0 amount (by simpa using hlen) (fun _ => hPs) w

/-- `excom_buffer_bappend_remaining2` appends the bytes at the cursor of the source. -/
theorem bappendRemaining2_returns (hm : b.unmutable = false) (src : Buffer) {s : Nat}
    (hlen : src.pos + s ≤ (blockBytes src.buf).length) (hg : b.CanGrow E s)
    (hPs : 0 < s → ∀ blk, src.buf = some blk → P ⟨blk.id, src.pos, s⟩) (w : World) :
    Exec.Returns (b.bappendRemaining2 E src s) w fun r w' => r.1 = 0 ∧ World.Reads P w w' ∧ FreshBlock w b r.2 ∧
      Appended E b (((blockBytes src.buf).drop src.pos).take s) r.2 := by
  unfold bappendRemaining2
  simp only [hm, Bool.false_eq_true, if_false]
  by_cases h0 : s = 0
  · simp only [h0, if_true]
    exact .pure ⟨rfl, .refl w, .refl w b, .nil hb⟩
  · simp only [h0, if_false]
    refine append_returns hb hP (.inr (hA _)) ?_ (fun w => load_returns src.buf src.pos s hlen hPs w) hg
    rw [List.length_take, List.length_drop]; omega

end Append

/-! ### Making and destroying buffers -/

/-- An empty buffer of `start` bytes. -/
structure Empty (E : Env) (start : Nat) (b : Buffer) : Prop where
  wf : b.WF E
  used : b.used = 0
  pos : b.pos = 0
  max : b.max = start
  unmutable : b.unmutable = false
  slack : ∀ P, E.Junk P → ∀ x ∈ b.slack, P x

/-- A new buffer holds nothing. -/
theorem Empty.contents {start : Nat} {b : Buffer} (h : Empty E start b) : b.contents = [] := by
  rw [Buffer.contents, h.used, List.take_zero]

/-- The buffers of a client are part of its record. -/
theorem Empty.unfreeable {start : Nat} {b : Buffer} (h : Empty E start b) :
    Empty E start { b with freeable := false } :=
  ⟨⟨h.wf.mutex, h.wf.block, h.wf.used_le, h.wf.max_lt⟩, h.used, h.pos, h.max, h.unmutable, h.slack⟩

/-- Where allocations succeed, `excom_buffer_init` gives an empty buffer with a block. -/
theorem init_returns (hA : E.AllocSucceeds) (start : Nat) (hs : start < E.word) (P : Load → Prop) (w : World) :
    Exec.Returns (Buffer.init E start) w fun r w' => r.1 = 0 ∧ World.Reads P w w' ∧ Empty E start r.2 ∧
      ∃ blk, r.2.buf = some blk ∧ w.allocs ≤ blk.id := by
  unfold Buffer.init
  refine (malloc_returns hA start w).bind ?_
  rintro _ _ ⟨junk, hj, rfl, rfl⟩
  refine .pure ⟨rfl, .of_eq (Nat.le_succ _) rfl, ?_, _, rfl, Nat.le_refl _⟩
  exact ⟨⟨rfl, by simp, Nat.zero_le _, hs⟩, rfl, rfl, rfl, rfl,
    fun P hP x hx => junk_range hP hj start x (List.mem_of_mem_drop hx)⟩

theorem destroy_returns (P : Load → Prop) (b : Buffer) (w : World) :
    Exec.Returns b.destroy w fun _ w' => World.Reads P w w' := by
  unfold destroy
  cases b.freeable
  · exact .pure (.refl w)
  · exact (free_returns P b.buf w).bind fun _ w1 h => .pure h

end Buffer

/-! ### Appends that return -/

variable {E : Env}

/-- What is asked of the buffer before the bytes are copied: room that is there, or a block that can be
allocated.  Without either the code is `0`, since `excom_return_errno` has cleared `errno` by the time it is
read. -/
theorem Buffer.reserve_ensures {b : Buffer} (hblock : (blockBytes b.buf).length = b.max) (hu : b.used ≤ b.max)
    (hmax : b.max < E.word) {size : Nat} (w : World) :
    Exec.Ensures (b.reserve E size) w fun r _ =>
      (r.1 ≠ 0 ∧ E.malloc w.allocs = none ∧ ¬ b.used + size ≤ b.max ∧ r.2 = b) ∨
        (r.1 = 0 ∧ r.2.used = b.used ∧ (blockBytes r.2.buf).length < E.word ∧ (b.used + size < E.word →
          (b.used + size ≤ b.max ∨ (E.malloc w.allocs).isSome) ∧ Buffer.Reserved E b size r.2)) := by
  intro r w' hrun
  have hmod := Nat.mod_le (b.used + size) E.word
  have hword : 0 < E.word := by omega
  by_cases hlt : (b.used + size) % E.word > b.max
  · have hnot : ¬ b.used + size ≤ b.max := by omega
    have hresize := hrun
    unfold Buffer.reserve at hresize
    rw [if_pos hlt] at hresize
    obtain ⟨m, hgrow, ⟨hA, hr, -⟩ | ⟨hchk, hresized⟩⟩ := Buffer.resize_ensures b _ w r w' hresize
    · left
      rw [hr]
      refine ⟨?_, hA, hnot, rfl⟩
      show ENOMEM ≠ 0
      decide
    · right
      have hm := (Buffer.growLoop_le hword hgrow).2
      refine ⟨hchk, by rw [hresized.buffer], by rwa [hresized.length], ?_⟩
      intro hsum
      rw [Nat.mod_eq_of_lt hsum] at hgrow
      exact ⟨.inr hresized.given,
        ((Buffer.reserve_returns (P := fun _ => True) (.inr hresized.given) hblock hu hmax hsum
        (fun _ => ⟨m, hgrow⟩) (.inr fun _ => trivial)).ensures _ _ hrun).2.2.2⟩
  · right
    have hpure := hrun
    unfold Buffer.reserve at hpure
    rw [if_neg hlt] at hpure
    cases hpure
    refine ⟨rfl, rfl, hblock ▸ hmax, ?_⟩
    intro hsum
    rw [Nat.mod_eq_of_lt hsum] at hlt
    have hle : b.used + size ≤ b.max := by omega
    exact ⟨.inl hle, ((Buffer.reserve_returns (P := fun _ => True) (.inl hle) hblock hu hmax hsum
      (fun h => absurd hle (Nat.not_le.2 h)) (.inr fun _ => trivial)).ensures _ _ hrun).2.2.2⟩

/-- Making room leaves the mutex alone, and after a failure `errno` is clear. -/
theorem Buffer.reserve_frame (b : Buffer) (size : Nat) (w : World) :
    Exec.Ensures (b.reserve E size) w fun r w' => r.2.mutex = b.mutex ∧ (r.1 = 0 ∨ w'.errno = 0) := by
  unfold Buffer.reserve
  split
  · refine (Buffer.resize_ensures b _ w).mono ?_
    intro r w' ⟨m, _, h⟩
    rcases h with ⟨-, hr, hw⟩ | ⟨hchk, hresized⟩
    · rw [hr, hw]
      exact ⟨rfl, .inr rfl⟩
    · rw [hresized.buffer]
      exact ⟨rfl, .inl hchk⟩
  · exact .pure ⟨rfl, .inl rfl⟩

/-- What is put into a buffer is put there with `0`, and the mutex is given back. -/
theorem Buffer.put_ensures {b : Buffer} (hm : b.mutex = .locked) (size : Nat) (src : M Bytes) (w : World) :
    Exec.Ensures (b.put E size src) w fun r _ => r.1 = 0 ∧ r.2.mutex = .unlocked := by
  unfold Buffer.put
  rw [hm, mutexUnlock_locked]
  exact .seq fun _ _ => .seq fun _ _ => .pure ⟨rfl, rfl⟩

/-- A copy that returns was inside the block. -/
theorem Buffer.put_room {b : Buffer} {size : Nat} {src : M Bytes} {bytes : Bytes} {w w' : World}
    {r : Int × Buffer} (hsrc : ∀ w, Exec.Ensures src w fun bs _ => bs = bytes ∧ bytes.length = size)
    (hrun : b.put E size src w = .ok (r, w')) :
    bytes.length = size ∧ (0 < size → b.used + size ≤ (blockBytes b.buf).length) := by
  unfold Buffer.put at hrun
  obtain ⟨bs, w1, hload, hrun⟩ := Exec.bind_eq_ok.1 hrun
  obtain ⟨rfl, hlen⟩ := hsrc w bs w1 hload
  refine ⟨hlen, ?_⟩
  intro hpos
  by_contra hroom
  rw [← hlen] at hpos hroom
  obtain ⟨e, he⟩ := store_error hpos (Nat.not_le.1 hroom)
  rw [he] at hrun
  cases hrun

end Excom
