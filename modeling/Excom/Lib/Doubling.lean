import Mathlib.Algebra.Ring.Nat
import Mathlib.Data.Nat.Log
import Mathlib.Tactic.Common

/-!
# Doubling in a word

A number below `2 ^ w` that is doubled modulo `2 ^ w` again and again.  Each doubling drops the highest bit and
moves the others up by one place, so after `w` of them nothing is left (`mul_two_pow_mod`).  `doubles_iff` says
which marks are reached on the way: up to half of the range any, unless the number is the highest bit alone, and
beyond that those that some of its lower bits make once they are moved up to the top.
-/

namespace Doubling

/-- The lowest `w - k` bits of `n`, moved up by `k` places -/
def raised (w n k : Nat) : Nat := n % 2 ^ (w - k) * 2 ^ k

/-- What is left of `n` after `k` doublings -/
theorem mul_two_pow_mod {w n k : Nat} (hk : k ≤ w) : n * 2 ^ k % 2 ^ w = raised w n k := by
  have hw : 2 ^ w = 2 ^ (w - k) * 2 ^ k := by rw [← Nat.pow_add, Nat.sub_add_cancel hk]
  rw [hw, Nat.mul_mod_mul_right, raised]

theorem mul_two_pow_mod_of_ge {w n k : Nat} (hk : w ≤ k) : n * 2 ^ k % 2 ^ w = 0 :=
  Nat.mod_eq_zero_of_dvd (Nat.dvd_mul_left_of_dvd (Nat.pow_dvd_pow 2 hk) n)

/-- The highest of the lower bits of `n` that is set can be moved to the top. -/
theorem exists_raised_ge {w n : Nat} (hpos : 0 < n) (hlt : n < 2 ^ w) (hne : n ≠ 2 ^ (w - 1)) :
    ∃ k < w, 0 < k ∧ 2 ^ (w - 1) ≤ raised w n k := by
  have hw : 0 < w := by
    rcases Nat.eq_zero_or_pos w with rfl | hw
    · simp at hlt
      omega
    · exact hw
  have hhalf : 2 ^ w = 2 * 2 ^ (w - 1) := by rw [← Nat.pow_succ', Nat.succ_eq_add_one, Nat.sub_add_cancel hw]
  -- without its top bit, `n` is not zero
  have hlow : n % 2 ^ (w - 1) ≠ 0 := by
    intro h0
    have hle : 2 ^ (w - 1) ≤ n := Nat.le_of_dvd hpos (Nat.dvd_of_mod_eq_zero h0)
    rw [Nat.mod_eq_sub_mod hle, Nat.mod_eq_of_lt (by omega)] at h0
    omega
  have hlowlt : n % 2 ^ (w - 1) < 2 ^ (w - 1) := Nat.mod_lt _ (Nat.two_pow_pos _)
  generalize hr : n % 2 ^ (w - 1) = r at hlow hlowlt
  -- the highest bit of the rest is the bit `a`
  have ha : Nat.log 2 r < w - 1 := Nat.log_lt_of_lt_pow hlow hlowlt
  have hle : 2 ^ Nat.log 2 r ≤ r := Nat.pow_log_le_self 2 hlow
  have hlt' : r < 2 ^ (Nat.log 2 r + 1) := Nat.lt_pow_succ_log_self (by decide) r
  generalize Nat.log 2 r = a at ha hle hlt'
  refine ⟨w - 1 - a, by omega, by omega, ?_⟩
  have hmod : n % 2 ^ (w - (w - 1 - a)) = r := by
    have hexp : w - (w - 1 - a) = a + 1 := by omega
    have hdvd : 2 ^ (a + 1) ∣ 2 ^ (w - 1) := Nat.pow_dvd_pow 2 (by omega)
    rw [hexp, ← Nat.mod_mod_of_dvd n hdvd, hr, Nat.mod_eq_of_lt hlt']
  calc 2 ^ (w - 1) = 2 ^ a * 2 ^ (w - 1 - a) := by rw [← Nat.pow_add]; congr 1; omega
    _ ≤ r * 2 ^ (w - 1 - a) := Nat.mul_le_mul_right _ hle
    _ = raised w n (w - 1 - a) := by rw [raised, hmod]

/-- The highest bit alone is dropped at once. -/
theorem raised_top {w k : Nat} (hpos : 0 < k) (hk : k < w) : raised w (2 ^ (w - 1)) k = 0 := by
  rw [raised, Nat.mod_eq_zero_of_dvd (Nat.pow_dvd_pow 2 (by omega)), Nat.zero_mul]

/-- A single bit gets no higher than the top. -/
theorem raised_two_pow_le {w i k : Nat} (hk : k < w) : raised w (2 ^ i) k ≤ 2 ^ (w - 1) := by
  by_cases hi : i < w - k
  · have hlt : 2 ^ i < 2 ^ (w - k) := Nat.pow_lt_pow_right (by decide) hi
    rw [raised, Nat.mod_eq_of_lt hlt, ← Nat.pow_add]
    exact Nat.pow_le_pow_right (by decide) (by omega)
  · rw [raised, Nat.mod_eq_zero_of_dvd (Nat.pow_dvd_pow 2 (Nat.not_lt.1 hi)), Nat.zero_mul]
    exact Nat.zero_le _

/-- The doublings of `n` reach the mark `t` at some time. -/
def Attains (w n t : Nat) : Prop :=
  t = 0 ∨ (t ≤ 2 ^ (w - 1) ∧ n ≠ 2 ^ (w - 1)) ∨ (2 ^ (w - 1) < t ∧ ∃ k < w, 0 < k ∧ t ≤ raised w n k)

instance (w n t : Nat) : Decidable (Attains w n t) := inferInstanceAs (Decidable (_ ∨ _ ∨ _))

/-- A number reaches the marks that the definition says, and no others. -/
theorem doubles_iff {w n t : Nat} (hpos : 0 < n) (hlt : n < 2 ^ w) :
    (∃ k, t ≤ n * 2 ^ (k + 1) % 2 ^ w) ↔ Attains w n t := by
  constructor
  · intro ⟨k, hk⟩
    by_cases ht : t = 0
    · exact .inl ht
    have hkw : k + 1 < w := by
      by_contra hge
      rw [mul_two_pow_mod_of_ge (Nat.not_lt.1 hge)] at hk
      omega
    rw [mul_two_pow_mod (Nat.le_of_lt hkw)] at hk
    by_cases hhalf : t ≤ 2 ^ (w - 1)
    · refine .inr (.inl ⟨hhalf, ?_⟩)
      rintro rfl
      rw [raised_top (Nat.succ_pos k) hkw] at hk
      omega
    · exact .inr (.inr ⟨Nat.not_le.1 hhalf, k + 1, hkw, Nat.succ_pos k, hk⟩)
  · rintro (rfl | ⟨hhalf, hne⟩ | ⟨-, k, hk, hk0, hle⟩)
    · exact ⟨0, Nat.zero_le _⟩
    · obtain ⟨k, hk, hk0, hle⟩ := exists_raised_ge hpos hlt hne
      refine ⟨k - 1, ?_⟩
      rw [Nat.sub_add_cancel hk0, mul_two_pow_mod (Nat.le_of_lt hk)]
      exact Nat.le_trans hhalf hle
    · refine ⟨k - 1, ?_⟩
      rwa [Nat.sub_add_cancel hk0, mul_two_pow_mod (Nat.le_of_lt hk)]

/-- A mark that is reached is reached within `w` doublings. -/
theorem lt_of_reached {w n t k : Nat} (ht : 0 < t) (h : t ≤ n * 2 ^ k % 2 ^ w) : k < w := by
  by_contra hge
  rw [mul_two_pow_mod_of_ge (Nat.not_lt.1 hge)] at h
  omega

/-- A single bit reaches the marks up to half of the range, if it is not on top already. -/
theorem attains_two_pow_iff {w i t : Nat} (hi : i < w) (ht : 0 < t) :
    Attains w (2 ^ i) t ↔ t ≤ 2 ^ (w - 1) ∧ i + 1 < w := by
  have htop : 2 ^ i ≠ 2 ^ (w - 1) ↔ i + 1 < w := by
    rw [Ne, Nat.pow_right_inj (by decide)]
    omega
  constructor
  · rintro (rfl | ⟨hhalf, hne⟩ | ⟨hhalf, k, hk, -, hle⟩)
    · omega
    · exact ⟨hhalf, htop.1 hne⟩
    · have := raised_two_pow_le (i := i) hk
      omega
  · intro ⟨hhalf, hlt⟩
    exact .inr (.inl ⟨hhalf, htop.2 hlt⟩)

end Doubling
