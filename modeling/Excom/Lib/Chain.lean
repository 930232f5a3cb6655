import Mathlib.Logic.Function.Basic
import Mathlib.Tactic.Common

/-!
# Singly linked chains

Nodes that are linked by `next` from a head to the end.  A chain depends on the links of its nodes only
(`Chain.congr`), and can be extended at its end (`Chain.snoc`).
-/

variable {α : Type}

/-- From `head` on lie the nodes `l`, and no more. -/
def Chain (next : α → Option α) : Option α → List α → Prop
  | head, [] => head = none
  | head, a :: l => head = some a ∧ Chain next (next a) l

namespace Chain

variable {next next' : α → Option α} {head : Option α} {l l₁ l₂ : List α} {a : α}

theorem head_eq (h : Chain next head l) : head = l.head? := by
  cases l with
  | nil => exact h
  | cons a l => exact h.1

theorem eq_nil_iff (h : Chain next head l) : l = [] ↔ head = none := by
  rw [h.head_eq]
  cases l <;> simp

/-- A chain depends on the links of its nodes only. -/
theorem congr (h : Chain next head l) (hl : ∀ a ∈ l, next' a = next a) : Chain next' head l := by
  induction l generalizing head with
  | nil => exact h
  | cons a l ih =>
    obtain ⟨rfl, h⟩ := h
    refine ⟨rfl, ?_⟩
    rw [hl a (by simp)]
    refine ih h ?_
    intro b hb
    exact hl b (by simp [hb])

variable [DecidableEq α]

/-- The last node of a chain is linked to a new one. -/
theorem snoc (h : Chain next head (l ++ [a])) {b : α} (hnodup : (l ++ [a, b]).Nodup) :
    Chain (Function.update (Function.update next a (some b)) b none) head (l ++ [a, b]) := by
  induction l generalizing head with
  | nil =>
    have hab : a ≠ b := by
      rintro rfl
      simp at hnodup
    refine ⟨h.1, ?_, ?_⟩
    · rw [Function.update_of_ne hab, Function.update_self]
    · rw [Function.update_self]
      rfl
  | cons c l ih =>
    obtain ⟨rfl, h⟩ := h
    obtain ⟨hc, hnodup⟩ := List.nodup_cons.1 hnodup
    refine ⟨rfl, ?_⟩
    rw [Function.update_of_ne (by rintro rfl; simp at hc), Function.update_of_ne (by rintro rfl; simp at hc)]
    exact ih h hnodup

end Chain
