import Mathlib.Data.List.Basic

/-!
# Machines that answer

A machine that takes its inputs one at a time: each of them takes it from one state to the next, and is answered by
some outputs.  What is answered to the first inputs is the beginning of what is answered to all of them
(`Responder.answers_mono`).
-/

/-- A machine with states in `σ`, inputs in `ι` and outputs in `ο` -/
structure Responder (σ ι ο : Type*) where
  next : σ → ι → σ
  reply : σ → ι → List ο

namespace Responder

variable {σ ι ο : Type*} (m : Responder σ ι ο)

/-- The state after some inputs -/
def run (s : σ) (xs : List ι) : σ := xs.foldl m.next s

/-- What is answered to some inputs -/
def answers : σ → List ι → List ο
  | _, [] => []
  | s, x :: xs => m.reply s x ++ answers (m.next s x) xs

variable {m} {s : σ}

@[simp] theorem run_append (xs ys : List ι) : m.run s (xs ++ ys) = m.run (m.run s xs) ys :=
  List.foldl_append

theorem answers_append (xs ys : List ι) : m.answers s (xs ++ ys) = m.answers s xs ++ m.answers (m.run s xs) ys := by
  induction xs generalizing s with
  | nil => rfl
  | cons x xs ih =>
    rw [List.cons_append, answers, answers, ih, List.append_assoc]
    rfl

/-- One more input -/
theorem answers_snoc (xs : List ι) (x : ι) : m.answers s (xs ++ [x]) = m.answers s xs ++ m.reply (m.run s xs) x := by
  rw [answers_append, answers, answers, List.append_nil]

theorem answers_mono {xs ys : List ι} (h : xs <+: ys) : m.answers s xs <+: m.answers s ys := by
  obtain ⟨zs, rfl⟩ := h
  rw [answers_append]
  exact List.prefix_append _ _

/-- What every input keeps holds after all of them. -/
theorem run_invariant {I : σ → Prop} {xs : List ι} (hs : I s) (hstep : ∀ s x, x ∈ xs → I s → I (m.next s x)) :
    I (m.run s xs) := by
  induction xs generalizing s with
  | nil => exact hs
  | cons x xs ih =>
    refine ih (hstep s x (List.mem_cons_self ..) hs) ?_
    exact fun s y hy => hstep s y (List.mem_cons_of_mem _ hy)

end Responder
