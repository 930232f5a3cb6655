import Excom.BufferLemmas
import Mathlib.Data.Nat.Prime.Basic
import Mathlib.Order.Bounds.Defs

/-!
# The size after a resize

`excom_buffer_resize` is to leave a buffer alone that is large enough, and to double the size of any other just
often enough (`ResizesToFit`).  Its loop doubles before it compares, so it never leaves the size as it is:
`resize_fits_iff` says that it does what it is to do exactly for a buffer that is too small, and for an empty
block only when more than one byte is asked for.
-/

namespace Excom

namespace Buffer

/-- The sizes that doubling leads to: those of the form `max * 2 ^ k`, or `2 ^ k` for an empty block. -/
def sizes (b : Buffer) : Set Nat := { n | ∃ k, n = (if b.max = 0 then 1 else b.max) * 2 ^ k }

/-- A resize as its documentation has it: no change if `toFit` bytes fit, and otherwise the smallest size they
fit in, with the same bytes in use. -/
def ResizesToFit (E : Env) (b : Buffer) (toFit : Nat) (w : World) : Prop :=
  Exec.Returns (b.resize E toFit) w fun r _ => r.1 = 0 ∧
    if toFit ≤ b.max then r.2 = b
    else IsLeast { n | n ∈ b.sizes ∧ toFit ≤ n } r.2.max ∧ (blockBytes r.2.buf).length = r.2.max ∧
      r.2.used = b.used ∧ r.2.contents = b.contents

/-! ### The value of the loop -/

/-- Without a wrap the loop finds the first doubling that is large enough. -/
theorem growLoop_isLeast {word toFit fuel n m : Nat} (hn : n < toFit) (hword : 2 * toFit ≤ word)
    (h : growLoop word toFit fuel n = some m) : IsLeast { s | (∃ k, s = n * 2 ^ k) ∧ toFit ≤ s } m := by
  induction fuel generalizing n with
  | zero => cases h
  | succ fuel ih =>
    have hmod : n * 2 % word = n * 2 := Nat.mod_eq_of_lt (by omega)
    simp only [growLoop, hmod] at h
    by_cases hlt : n * 2 < toFit
    · rw [if_pos hlt] at h
      obtain ⟨⟨⟨k, hk⟩, hfit⟩, hleast⟩ := ih hlt h
      refine ⟨⟨⟨k + 1, by rw [hk, Nat.pow_succ', Nat.mul_assoc]⟩, hfit⟩, ?_⟩
      intro s hs
      obtain ⟨⟨j, hj⟩, hs⟩ := hs
      apply hleast
      refine ⟨?_, hs⟩
      rcases j with _ | j
      · simp only [Nat.pow_zero, Nat.mul_one] at hj
        omega
      · exact ⟨j, by rw [hj, Nat.pow_succ', Nat.mul_assoc]⟩
    · rw [if_neg hlt] at h
      cases h
      refine ⟨⟨⟨1, rfl⟩, by omega⟩, ?_⟩
      intro s hs
      obtain ⟨⟨j, hj⟩, hs⟩ := hs
      rcases j with _ | j
      · simp only [Nat.pow_zero, Nat.mul_one] at hj
        omega
      · have hpos : 0 < 2 ^ j := Nat.two_pow_pos j
        rw [hj, Nat.pow_succ', ← Nat.mul_assoc]
        exact Nat.le_mul_of_pos_right _ hpos

/-- What the loop finds is a doubling of what it started from, modulo `word`. -/
theorem growLoop_eq {word toFit fuel n m : Nat} (h : growLoop word toFit fuel n = some m) :
    ∃ k, m = n * 2 ^ (k + 1) % word := by
  induction fuel generalizing n with
  | zero => cases h
  | succ fuel ih =>
    simp only [growLoop] at h
    split at h
    · obtain ⟨k, hk⟩ := ih h
      refine ⟨k + 1, ?_⟩
      rw [hk, Nat.mod_mul_mod, Nat.mul_assoc, ← Nat.pow_succ']
    · cases h
      exact ⟨0, rfl⟩

/-- The loop never comes back to the size it started from. -/
theorem growLoop_ne {w toFit fuel n : Nat} (hpos : 0 < n) (hlt : n < 2 ^ w) :
    growLoop (2 ^ w) toFit fuel n ≠ some n := by
  intro h
  obtain ⟨k, hk⟩ := growLoop_eq h
  -- otherwise `2 ^ w` divides `n * (2 ^ (k + 1) - 1)`, whose second factor is odd
  have hle : n ≤ n * 2 ^ (k + 1) := Nat.le_mul_of_pos_right _ (Nat.two_pow_pos _)
  have hmod : (n * 2 ^ (k + 1)) % 2 ^ w = n % 2 ^ w := by rw [← hk, Nat.mod_eq_of_lt hlt]
  have hdvd : 2 ^ w ∣ n * (2 ^ (k + 1) - 1) := by
    rw [Nat.mul_sub, Nat.mul_one]
    exact Nat.dvd_of_mod_eq_zero (Nat.sub_mod_eq_zero_of_mod_eq hmod)
  have hodd : Nat.Coprime (2 ^ w) (2 ^ (k + 1) - 1) := by
    apply Nat.Coprime.pow_left
    rw [Nat.coprime_two_left, Nat.odd_iff]
    have := Nat.two_pow_pos k
    rw [Nat.pow_succ]
    omega
  exact absurd (Nat.le_of_dvd hpos (hodd.dvd_of_dvd_mul_right hdvd)) (Nat.not_le.2 hlt)

/-- The loop does not find the size zero for an empty block. -/
theorem growLoop_one_ne {w toFit fuel : Nat} (hw : 32 ≤ w) : growLoop (2 ^ w) toFit fuel 1 ≠ some 0 := by
  intro h
  have hle : toFit = 0 := by
    have := (growLoop_le (Nat.two_pow_pos w) h).1
    omega
  have h32 : 2 ^ 32 ≤ 2 ^ w := Nat.pow_le_pow_right (by decide) hw
  rcases fuel with _ | fuel
  · cases h
  · simp only [growLoop, hle, Nat.not_lt_zero, if_false, Nat.one_mul] at h
    rw [Nat.mod_eq_of_lt (by omega)] at h
    cases h

/-! ### The resize -/

variable {E : Env}

/-- A resize that is given a block makes it as large as the loop found. -/
theorem resize_grown {b : Buffer} {toFit : Nat} {w : World} (hA : (E.malloc w.allocs).isSome) :
    Exec.Ensures (b.resize E toFit) w fun r _ =>
      growLoop E.word toFit (E.wordBits + 1) (if b.max = 0 then 1 else b.max) = some r.2.max := by
  intro r w' hrun
  obtain ⟨m, hg, ⟨hnone, -⟩ | ⟨-, hresized⟩⟩ := resize_ensures b toFit w r w' hrun
  · rw [hnone] at hA
    cases hA
  · rw [hresized.buffer]
    exact hg

/-- The size that is found is never the one that was there. -/
theorem grown_ne {b : Buffer} {toFit fuel : Nat} (hmax : b.max < E.word) :
    growLoop E.word toFit fuel (if b.max = 0 then 1 else b.max) ≠ some b.max := by
  intro hg
  by_cases h0 : b.max = 0
  · rw [if_pos h0, h0] at hg
    exact growLoop_one_ne E.wide hg
  · rw [if_neg h0] at hg
    exact growLoop_ne (by omega) hmax hg

/-- A buffer that is too small gets the size asked for, unless a single byte is asked for in place of an empty
block. -/
theorem resize_fits {b : Buffer} {toFit : Nat} {w : World} (hblock : (blockBytes b.buf).length = b.max)
    (hused : b.used ≤ b.max) (hfit : 2 * toFit ≤ E.word) (hA : (E.malloc w.allocs).isSome)
    (hlt : b.max < toFit) (hone : ¬ (b.max = 0 ∧ toFit = 1)) : b.ResizesToFit E toFit w := by
  have hn : (if b.max = 0 then 1 else b.max) < toFit := by
    split <;> omega
  obtain ⟨m, hg, _⟩ := exists_growLoop hlt hfit
  have hleast := growLoop_isLeast hn hfit hg
  have hle : toFit ≤ m := hleast.1.2
  refine (resize_returns (P := fun _ => True) hA (by omega) (by omega) hg (.inr fun _ => trivial)).mono ?_
  intro r w' ⟨hchk, _, buf, hr, _, hlen, htake, _⟩
  rw [hr]
  refine ⟨hchk, ?_⟩
  rw [if_neg (by omega)]
  exact ⟨hleast, hlen, rfl, htake⟩

/-- A buffer that is large enough is resized all the same. -/
theorem resize_changes {b : Buffer} {toFit : Nat} {w : World} (hmax : b.max < E.word)
    (hA : (E.malloc w.allocs).isSome) (hle : toFit ≤ b.max) : ¬ b.ResizesToFit E toFit w := by
  intro ⟨r, w', hrun, _, h⟩
  have hg := resize_grown hA r w' hrun
  rw [if_pos hle] at h
  rw [h] at hg
  exact grown_ne hmax hg

/-- An empty block grows to two bytes when it is asked to hold one. -/
theorem resize_one {b : Buffer} {w : World} (hA : (E.malloc w.allocs).isSome) (h0 : b.max = 0) :
    ¬ b.ResizesToFit E 1 w := by
  intro ⟨r, w', hrun, _, h⟩
  have hg := resize_grown hA r w' hrun
  rw [if_neg (by omega)] at h
  -- `2 ^ 0` would be enough, and the loop finds an even size
  have hle : r.2.max ≤ 1 := h.1.2 ⟨⟨0, by rw [if_pos h0]; rfl⟩, Nat.le_refl 1⟩
  have hge : 1 ≤ r.2.max := h.1.1.2
  have heq : r.2.max = 1 := by omega
  rw [if_pos h0, heq] at hg
  exact growLoop_ne (by decide) (Nat.one_lt_two_pow (by have := E.wide; omega)) hg

/-- `excom_buffer_resize` does what its documentation says exactly when the buffer is too small for what is asked
for, and more than one byte is asked for in place of an empty block. -/
theorem resize_fits_iff {b : Buffer} {toFit : Nat} {w : World} (hblock : (blockBytes b.buf).length = b.max)
    (hused : b.used ≤ b.max) (hmax : b.max < E.word) (hfit : 2 * toFit ≤ E.word)
    (hA : (E.malloc w.allocs).isSome) :
    b.ResizesToFit E toFit w ↔ b.max < toFit ∧ ¬ (b.max = 0 ∧ toFit = 1) := by
  constructor
  · intro h
    constructor
    · by_contra hnot
      exact resize_changes hmax hA (Nat.not_lt.1 hnot) h
    · intro ⟨h0, h1⟩
      subst h1
      exact resize_one hA h0 h
  · intro ⟨hlt, hone⟩
    exact resize_fits hblock hused hfit hA hlt hone

/-- A buffer of four bytes grows to eight when it is asked to hold three. -/
theorem resize_fits_not : (ofBytes [1, 2, 3, 4]).WF (Env.amd64 0) ∧ 2 * 3 ≤ (Env.amd64 0).word ∧
    ¬ (ofBytes [1, 2, 3, 4]).ResizesToFit (Env.amd64 0) 3 World.start :=
  ⟨ofBytes_wf (by decide), by decide, resize_changes (by decide) rfl (by decide)⟩

/-- A buffer of four bytes that is asked to hold five -/
theorem resize_fits_iff_five : (ofBytes [1, 2, 3, 4]).ResizesToFit (Env.amd64 0) 5 World.start :=
  (resize_fits_iff rfl (by decide) (by decide) (by decide) rfl).2 (by decide)

end Buffer

end Excom
