import Mathlib.Data.List.Perm.Basic
import Mathlib.Tactic.Common

/-!
# Ledgers

Resources that are handed out and given back: descriptors, blocks of memory.  A `Ledger` records both, and its
invariant is that nobody gets what is held already and that nothing is given back that is not held.  A ledger
is settled when what was given back is what was handed out (`settled_iff`: nothing is held).
-/

/-- What has been acquired and released so far, the last one first -/
structure Ledger (α : Type) [DecidableEq α] where
  acquired : List α
  released : List α
  released_le : ∀ a, released.count a ≤ acquired.count a
  acquired_le : ∀ a, acquired.count a ≤ released.count a + 1

namespace Ledger

variable {α : Type} [DecidableEq α]

/-- A ledger without entries -/
def empty : Ledger α := ⟨[], [], fun _ => Nat.le_refl _, fun _ => Nat.zero_le _⟩

/-- The resource is held. -/
def Live (l : Ledger α) (a : α) : Prop := l.released.count a < l.acquired.count a

instance (l : Ledger α) (a : α) : Decidable (l.Live a) := inferInstanceAs (Decidable (_ < _))

/-- All that was acquired has been released, equally often. -/
def Settled (l : Ledger α) : Prop := l.released.Perm l.acquired

/-- `none` when the resource is held already -/
def acquire (l : Ledger α) (a : α) : Option (Ledger α) :=
  if h : l.Live a then none
  else some
    { acquired := a :: l.acquired
      released := l.released
      released_le := by
        intro b
        have hb := l.released_le b
        rw [List.count_cons]
        omega
      acquired_le := by
        intro b
        have hb := l.acquired_le b
        have ha := Nat.not_lt.1 h
        rw [List.count_cons]
        split
        · rename_i hab
          obtain rfl : a = b := by simpa using hab
          omega
        · omega }

/-- `none` when the resource is not held -/
def release (l : Ledger α) (a : α) : Option (Ledger α) :=
  if h : l.Live a then
    some
      { acquired := l.acquired
        released := a :: l.released
        released_le := by
          intro b
          have hb := l.released_le b
          have ha : l.released.count a < l.acquired.count a := h
          rw [List.count_cons]
          split
          · rename_i hab
            obtain rfl : a = b := by simpa using hab
            omega
          · omega
        acquired_le := by
          intro b
          have hb := l.acquired_le b
          rw [List.count_cons]
          omega }
  else none

variable {l l' : Ledger α} {a b : α}

theorem acquire_isSome : (l.acquire a).isSome ↔ ¬ l.Live a := by
  unfold acquire
  split <;> simp [*]

theorem release_isSome : (l.release a).isSome ↔ l.Live a := by
  unfold release
  split <;> simp [*]

theorem live_of_acquire (h : l.acquire a = some l') : l'.Live b ↔ b = a ∨ l.Live b := by
  unfold acquire at h
  split at h
  · cases h
  · cases h
    have hb := l.released_le b
    unfold Live
    dsimp only
    rw [List.count_cons]
    split
    · rename_i hab
      obtain rfl : a = b := by simpa using hab
      simp
      omega
    · rename_i hab
      have hne : b ≠ a := by
        rintro rfl
        simp at hab
      simp [hne]

theorem live_of_release (h : l.release a = some l') : l'.Live b ↔ b ≠ a ∧ l.Live b := by
  unfold release at h
  split at h
  · cases h
    have hb := l.acquired_le b
    unfold Live
    dsimp only
    rw [List.count_cons]
    split
    · rename_i hab
      obtain rfl : a = b := by simpa using hab
      simp
      omega
    · rename_i hab
      have hne : b ≠ a := by
        rintro rfl
        simp at hab
      simp [hne]
  · cases h

/-- What is held can be released one by one. -/
theorem exists_releaseAll {l : Ledger α} {as : List α} (hnodup : as.Nodup) (hlive : ∀ a ∈ as, l.Live a) :
    ∃ l', as.foldlM release l = some l' ∧ ∀ b, l'.Live b ↔ l.Live b ∧ b ∉ as := by
  induction as generalizing l with
  | nil => exact ⟨l, rfl, by simp⟩
  | cons a as ih =>
    rw [List.nodup_cons] at hnodup
    have ha := hlive a (by simp)
    obtain ⟨l₁, hl₁⟩ := Option.isSome_iff_exists.1 (release_isSome.2 ha)
    have hrest : ∀ b ∈ as, l₁.Live b := by
      intro b hb
      rw [live_of_release hl₁]
      exact ⟨fun hba => hnodup.1 (hba ▸ hb), hlive b (by simp [hb])⟩
    obtain ⟨l', hrun, hiff⟩ := ih hnodup.2 hrest
    refine ⟨l', ?_, ?_⟩
    · rw [List.foldlM_cons, hl₁]
      exact hrun
    · intro b
      rw [hiff, live_of_release hl₁]
      simp only [List.mem_cons, not_or]
      tauto

theorem not_live_empty : ¬ (empty : Ledger α).Live a := Nat.lt_irrefl _

/-- A ledger is settled when nothing is held. -/
theorem settled_iff : l.Settled ↔ ∀ a, ¬ l.Live a := by
  unfold Settled Live
  rw [List.perm_iff_count]
  constructor
  · intro h a
    rw [h a]
    exact Nat.lt_irrefl _
  · intro h a
    exact Nat.le_antisymm (l.released_le a) (Nat.not_lt.1 (h a))

end Ledger
