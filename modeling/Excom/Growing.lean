import Excom.AppendFailure
import Excom.Lib.Doubling

/-!
# What a resize can be relied on for

`excom_buffer_resize` for every capacity and every request.  Its loop doubles a `size_t` that wraps around, and
ends exactly if one of the doublings is large enough, which can be told from the bits of the capacity
(`grows_enough_iff`).  The distance of the cursor goes through a `uint32_t`, so that a reader finds its place
again exactly below `2 ^ 32` (`resize_resumes_iff`).
-/

namespace Excom

namespace Buffer

/-- Some number of turns is enough for the loop, and what the function returns is an error or leaves room for
`toFit` bytes.  It does return, at least where `toFit` counts the bytes in use, which are copied. -/
structure GrowsEnough (E : Env) (b : Buffer) (toFit : Nat) (w : World) : Prop where
  ends : ∃ turns newSize, growLoop E.word toFit turns (if b.max = 0 then 1 else b.max) = some newSize
  enough : Exec.Ensures (b.resize E toFit) w fun r _ => r.1 ≠ 0 ∨ toFit ≤ r.2.max
  returns : b.used ≤ toFit → Exec.Returns (b.resize E toFit) w fun r _ => r.1 ≠ 0 ∨ toFit ≤ r.2.max

/-- What a reader of the buffer sees is the same in `b'` as in `b`. -/
structure Resumes (E : Env) (b b' : Buffer) : Prop where
  pos : b'.pos = b.pos
  remaining : b'.remaining E = b.remaining E
  unread : b'.unread = b.unread

variable {E : Env}

/-! ### The loop -/

private theorem loop_ends_iff {b : Buffer} {toFit : Nat} :
    (∃ turns newSize, growLoop E.word toFit turns (if b.max = 0 then 1 else b.max) = some newSize) ↔
      b.Reaches E toFit := by
  constructor
  · intro ⟨turns, hends⟩
    obtain ⟨k, -, hk⟩ := growLoop_ends_iff.1 hends
    exact ⟨k, hk⟩
  · intro ⟨k, hk⟩
    exact ⟨k + 1, growLoop_ends_iff.2 ⟨k, Nat.lt_succ_self k, hk⟩⟩

/-- The turns that the model allows are enough for a loop that ends. -/
theorem Reaches.growLoop {b : Buffer} {toFit : Nat} (h : b.Reaches E toFit) :
    ∃ m, growLoop E.word toFit (E.wordBits + 1) (if b.max = 0 then 1 else b.max) = some m := by
  obtain ⟨k, hk⟩ := h
  rw [growLoop_ends_iff]
  rcases Nat.eq_zero_or_pos toFit with h0 | hpos
  · exact ⟨0, Nat.succ_pos _, by rw [h0]; exact Nat.zero_le _⟩
  · have hlt := Doubling.lt_of_reached hpos hk
    exact ⟨k, by omega, hk⟩

private theorem reaches_iff_attains {b : Buffer} {toFit : Nat} (hmax : b.max < E.word) :
    b.Reaches E toFit ↔ Doubling.Attains E.wordBits (if b.max = 0 then 1 else b.max) toFit := by
  have h32 := E.le_word
  refine Doubling.doubles_iff ?_ ?_
  · split <;> omega
  · show (if b.max = 0 then 1 else b.max) < E.word
    split <;> omega

private theorem growsEnough_iff_reaches {b : Buffer} {toFit : Nat} {w : World}
    (hblock : (blockBytes b.buf).length = b.max) (hused : b.used ≤ b.max) :
    b.GrowsEnough E toFit w ↔ b.Reaches E toFit := by
  constructor
  · intro h
    exact loop_ends_iff.1 h.ends
  intro h
  have hword : 0 < E.word := by
    have := E.le_word
    omega
  have henough : Exec.Ensures (b.resize E toFit) w fun r _ => r.1 ≠ 0 ∨ toFit ≤ r.2.max := by
    intro r w' hrun
    obtain ⟨m, hg, ⟨-, hr, -⟩ | ⟨-, hresized⟩⟩ := resize_ensures b toFit w r w' hrun
    · left
      rw [hr]
      show ENOMEM ≠ 0
      decide
    · right
      rw [hresized.buffer]
      exact (growLoop_le hword hg).1
  refine ⟨loop_ends_iff.2 h, henough, ?_⟩
  intro hle
  obtain ⟨m, hg⟩ := h.growLoop
  rcases hA : E.malloc w.allocs with _ | junk
  · have hcode : ENOMEM ≠ 0 := by decide
    exact ⟨_, _, resize_refused hA hg, .inl hcode⟩
  · have hsome : (E.malloc w.allocs).isSome := by rw [hA]; rfl
    have hm := (growLoop_le hword hg).1
    obtain ⟨r, w', hrun, -⟩ := resize_returns (P := fun _ => True) hsome (by omega) (Nat.le_trans hle hm) hg
      (.inr fun _ => trivial)
    exact ⟨r, w', hrun, henough r w' hrun⟩

/-- `excom_buffer_resize` ends, with an error or with room for what was asked for, if and only if the doublings of
the capacity attain the request: up to half of the range of `size_t` all do except that of the highest bit alone,
and beyond that some of the lower bits of the capacity, moved up to the top, have to make `toFit` or more. -/
theorem grows_enough_iff {b : Buffer} {toFit : Nat} {w : World} (hblock : (blockBytes b.buf).length = b.max)
    (hused : b.used ≤ b.max) (hmax : b.max < E.word) :
    b.GrowsEnough E toFit w ↔ Doubling.Attains E.wordBits (if b.max = 0 then 1 else b.max) toFit :=
  (growsEnough_iff_reaches hblock hused).trans (reaches_iff_attains hmax)

/-- A buffer of four bytes on a 64-bit host, asked for 2^63 -/
theorem grows_enough_half : (ofBytes [1, 2, 3, 4]).GrowsEnough (Env.amd64 0) (2 ^ 63) World.start :=
  (grows_enough_iff rfl (by decide) (by decide)).2 (by decide)

/-- A buffer whose capacity is a power of two, as all are that start at one -/
theorem growsEnough_two_pow {b : Buffer} {toFit i : Nat} {w : World}
    (hblock : (blockBytes b.buf).length = b.max) (hused : b.used ≤ b.max) (hi : i < E.wordBits)
    (hmax : b.max = 2 ^ i) (hpos : 0 < toFit) :
    b.GrowsEnough E toFit w ↔ 2 * toFit ≤ E.word ∧ i + 1 < E.wordBits := by
  have hlt : b.max < E.word := by
    rw [hmax]
    exact Nat.pow_lt_pow_right (by decide) hi
  have hne : b.max ≠ 0 := by
    rw [hmax]
    exact Nat.ne_of_gt (Nat.two_pow_pos i)
  have hword : E.word = 2 * 2 ^ (E.wordBits - 1) := by
    rw [Env.word, ← Nat.pow_succ', Nat.succ_eq_add_one, Nat.sub_add_cancel (by omega)]
  rw [growsEnough_iff_reaches hblock hused, reaches_iff_attains hlt, if_neg hne, hmax,
    Doubling.attains_two_pow_iff hi hpos]
  omega

/-- The temporary buffer of a packet on a 32-bit host never gets 2^31 + 1 bytes. -/
theorem not_growsEnough_wire :
    ¬ (ofBytes (List.replicate 32 0)).GrowsEnough { Env.amd64 0 with wordBits := 32, wide := by decide }
      (2 ^ 31 + 1) World.start := by
  rw [growsEnough_two_pow (i := 5) rfl (by decide) (by decide) rfl (by decide)]
  decide

/-! ### The cursor -/

/-- What a resize with success does to the cursor and to the bytes -/
theorem resize_moves {b b' : Buffer} {toFit : Nat} {w w' : World}
    (hrun : b.resize E toFit w = .ok ((0, b'), w')) :
    b'.pos = b.pos % 2 ^ 32 ∧ b'.used = b.used ∧ b'.contents = b.contents := by
  obtain ⟨m, -, ⟨-, hr, -⟩ | ⟨-, hresized⟩⟩ := resize_ensures b toFit w _ w' hrun
  · cases hr
  · have hb : b' = { b with buf := b'.buf, pos := b.pos % 2 ^ 32, max := m } := hresized.buffer
    refine ⟨?_, ?_, hresized.contents⟩
    · rw [hb]
    · rw [hb]

private theorem Resumes.of_pos {b b' : Buffer} (hpos : b'.pos = b.pos) (hused : b'.used = b.used)
    (hcontents : b'.contents = b.contents) : Resumes E b b' := by
  refine ⟨hpos, ?_, ?_⟩
  · unfold Buffer.remaining
    rw [hpos, hused]
  · unfold Buffer.unread
    rw [hpos, hcontents]

/-- After a resize with success a reader finds its place again if and only if it was below `2 ^ 32`. -/
theorem resize_resumes_iff {b b' : Buffer} {toFit : Nat} {w w' : World}
    (hrun : b.resize E toFit w = .ok ((0, b'), w')) : Resumes E b b' ↔ b.pos < 2 ^ 32 := by
  obtain ⟨hpos, hused, hcontents⟩ := resize_moves hrun
  constructor
  · intro h
    rw [← h.pos, hpos]
    exact Nat.mod_lt _ (by decide)
  · intro hlt
    exact .of_pos (hpos.trans (Nat.mod_eq_of_lt hlt)) hused hcontents

/-- A buffer of four bytes, two of them read, that grows to eight -/
theorem resumes_at_two : ∃ b' w', ({ ofBytes [1, 2, 3, 4] with pos := 2 } : Buffer).resize (Env.amd64 0) 5
    World.start = .ok ((0, b'), w') ∧ Resumes (Env.amd64 0) { ofBytes [1, 2, 3, 4] with pos := 2 } b' := by
  have hrun : ∃ b' w', ({ ofBytes [1, 2, 3, 4] with pos := 2 } : Buffer).resize (Env.amd64 0) 5 World.start =
      .ok ((0, b'), w') := ⟨_, _, rfl⟩
  obtain ⟨b', w', hrun⟩ := hrun
  exact ⟨b', w', hrun, (resize_resumes_iff hrun).2 (by decide)⟩

/-- A cursor that stands 2^32 bytes into the buffer is back at the start after the next resize. -/
theorem not_resumes_at_four_gigabytes : ∃ b b' w', b.WF (Env.amd64 0) ∧ b.pos ≤ b.used ∧
    b.resize (Env.amd64 0) (b.used + 1) World.start = .ok ((0, b'), w') ∧ ¬ Resumes (Env.amd64 0) b b' := by
  have hlen : (List.replicate (2 ^ 32) (0 : UInt8)).length = 2 ^ 32 := List.length_replicate
  generalize List.replicate (2 ^ 32) (0 : UInt8) = bs at hlen
  have hword : (Env.amd64 0).word = 2 ^ 64 := rfl
  let b : Buffer := { ofBytes bs with pos := 2 ^ 32 }
  have hused : b.used = 2 ^ 32 := hlen
  have hmax : b.max = 2 ^ 32 := hlen
  have hb : b.WF (Env.amd64 0) := ⟨rfl, rfl, Nat.le_refl _, by rw [hmax, hword]; decide⟩
  have hlt : b.max < b.used + 1 := by omega
  have hfit : 2 * (b.used + 1) ≤ (Env.amd64 0).word := by omega
  obtain ⟨m, hg, -⟩ := exists_growLoop hlt hfit
  have hle := (growLoop_le (by decide) hg).1
  obtain ⟨⟨chk, b'⟩, w', hrun, hchk, -⟩ := resize_returns (P := fun _ => True) (w := World.start) rfl
    hb.block_used (by omega) hg (.inr fun _ => trivial)
  dsimp only at hchk
  subst hchk
  refine ⟨b, b', w', hb, Nat.le_of_eq hused.symm, hrun, ?_⟩
  intro h
  have hpos : 2 ^ 32 % 2 ^ 32 = 2 ^ 32 := (resize_moves hrun).1.symm.trans h.pos
  omega

end Buffer

end Excom
