import Mathlib.Logic.Function.Iterate
import Mathlib.Tactic.Common

/-!
# Transition systems

A system is given by its initial states and its steps.  `Reachable.invariant` is the induction over runs: what
holds at the start and is kept by every step holds in every reachable state.  `Exhaustive.halts` is the argument
for termination: a run whose steps decrease a measure comes to a state without steps.  `Exhaustive.attains` is the
one for progress: as long as the goal is not attained there is a step, and every step decreases the measure.
-/

/-- The states that runs from an initial state reach. -/
inductive Reachable {σ : Type} (init : σ → Prop) (step : σ → σ → Prop) : σ → Prop where
  | start {s : σ} (h : init s) : Reachable init step s
  | step {s s' : σ} (hs : Reachable init step s) (h : step s s') : Reachable init step s'

namespace Reachable

variable {σ : Type} {init : σ → Prop} {step : σ → σ → Prop} {s : σ}

theorem invariant {I : σ → Prop} (hinit : ∀ s, init s → I s) (hstep : ∀ s s', I s → step s s' → I s')
    (h : Reachable init step s) : I s := by
  induction h with
  | start h => exact hinit _ h
  | step _ h ih => exact hstep _ _ ih h

/-- A system with fewer initial states and fewer steps reaches fewer states. -/
theorem mono {init' : σ → Prop} {step' : σ → σ → Prop} (hinit : ∀ s, init s → init' s)
    (hstep : ∀ s s', step s s' → step' s s') (h : Reachable init step s) : Reachable init' step' s := by
  induction h with
  | start h => exact .start (hinit _ h)
  | step _ h ih => exact .step ih (hstep _ _ h)

/-- Where some step attains the goal or decreases the variant `n`, as long as the goal is not attained, it can be
attained. -/
theorem attains {I : Nat → σ → Prop} {D : σ → Prop}
    (hnext : ∀ n s, I n s → ¬ D s → ∃ s', step s s' ∧ (D s' ∨ ∃ m, m < n ∧ I m s')) {n : Nat} (hs : I n s)
    (h : Reachable init step s) : ∃ s', Reachable init step s' ∧ D s' := by
  induction n using Nat.strongRecOn generalizing s with
  | ind n ih =>
    by_cases hD : D s
    · exact ⟨s, h, hD⟩
    · obtain ⟨s', hstep, hD' | ⟨m, hlt, hs'⟩⟩ := hnext n s hs hD
      · exact ⟨s', .step h hstep, hD'⟩
      · exact ih m hlt hs' (.step h hstep)

end Reachable

/-! ### Runs that end -/

/-- A run that goes on as long as there is a step. -/
def Exhaustive {σ : Type} (step : σ → σ → Prop) (run : Nat → σ) : Prop :=
  ∀ k, step (run k) (run (k + 1)) ∨ ∀ s, ¬ step (run k) s

namespace Exhaustive

variable {σ : Type} {step : σ → σ → Prop} {run : Nat → σ}

theorem tail (h : Exhaustive step run) : Exhaustive step fun k => run (k + 1) := fun k => h (k + 1)

/-- A function that makes a step wherever there is one gives a run from every state. -/
theorem iterate {next : σ → σ} (h : ∀ s, step s (next s) ∨ ∀ s', ¬ step s s') (s : σ) :
    Exhaustive step fun k => next^[k] s := by
  intro k
  show step _ (next^[k + 1] s) ∨ _
  rw [Function.iterate_succ_apply']
  exact h (next^[k] s)

/-- From a state that satisfies an invariant under which every step decreases the measure `μ`, there are at most
`μ` steps. -/
theorem halts {I : σ → Prop} {μ : σ → Nat} (hstep : ∀ s s', I s → step s s' → I s' ∧ μ s' < μ s)
    (h : Exhaustive step run) (hstart : I (run 0)) :
    ∃ k, k ≤ μ (run 0) ∧ I (run k) ∧ ∀ s, ¬ step (run k) s := by
  generalize hn : μ (run 0) = n
  induction n using Nat.strongRecOn generalizing run with
  | ind n ih =>
    rcases h 0 with hnext | hend
    · obtain ⟨hinv, hlt⟩ := hstep _ _ hstart hnext
      rw [hn] at hlt
      obtain ⟨k, hk, hI, hend⟩ := ih _ hlt h.tail hinv rfl
      exact ⟨k + 1, Nat.lt_of_le_of_lt hk hlt, hI, hend⟩
    · exact ⟨0, Nat.zero_le n, hstart, hend⟩

/-- Where there is always a step as long as the variant `n` is positive, and every step attains the goal or decreases
the variant, the goal is attained within `n` steps. -/
theorem attains_within {I : Nat → σ → Prop} {D : σ → Prop} (hpos : ∀ n s, I n s → 0 < n)
    (hlive : ∀ n s, I n s → ∃ s', step s s') (hstep : ∀ n s s', I n s → step s s' → D s' ∨ ∃ m, m < n ∧ I m s')
    (h : Exhaustive step run) {n : Nat} (hstart : I n (run 0)) : ∃ k, k ≤ n ∧ D (run k) := by
  induction n using Nat.strongRecOn generalizing run with
  | ind n ih =>
    rcases h 0 with hnext | hend
    · rcases hstep n _ _ hstart hnext with hgoal | ⟨m, hlt, hinv⟩
      · exact ⟨1, hpos n _ hstart, hgoal⟩
      · obtain ⟨k, hk, hD⟩ := ih m hlt h.tail hinv
        exact ⟨k + 1, Nat.lt_of_le_of_lt hk hlt, hD⟩
    · obtain ⟨s', hs'⟩ := hlive n _ hstart
      exact absurd hs' (hend s')

/-- From a state that satisfies an invariant under which there is always a step, and every step attains the goal or
decreases the measure `μ`, the goal is attained within `μ` steps. -/
theorem attains {I D : σ → Prop} {μ : σ → Nat} (hpos : ∀ s, I s → 0 < μ s) (hlive : ∀ s, I s → ∃ s', step s s')
    (hstep : ∀ s s', I s → step s s' → D s' ∨ I s' ∧ μ s' < μ s) (h : Exhaustive step run) (hstart : I (run 0)) :
    ∃ k, k ≤ μ (run 0) ∧ D (run k) := by
  refine h.attains_within (I := fun n s => I s ∧ μ s = n) ?_ ?_ ?_ ⟨hstart, rfl⟩
  · rintro n s ⟨hs, rfl⟩
    exact hpos s hs
  · rintro n s ⟨hs, -⟩
    exact hlive s hs
  · rintro n s s' ⟨hs, rfl⟩ hnext
    exact (hstep s s' hs hnext).imp id fun ⟨hs', hlt⟩ => ⟨_, hlt, hs', rfl⟩

/-- There is a run from every state. -/
theorem exists_run (step : σ → σ → Prop) (s : σ) : ∃ run, Exhaustive step run ∧ run 0 = s := by
  have hnext : ∀ s, ∃ s', step s s' ∨ ∀ s', ¬ step s s' := by
    intro s
    by_cases h : ∃ s', step s s'
    · obtain ⟨s', hs'⟩ := h
      exact ⟨s', .inl hs'⟩
    · exact ⟨s, .inr fun s' hs' => h ⟨s', hs'⟩⟩
  choose next hnext using hnext
  exact ⟨_, iterate hnext s, rfl⟩

end Exhaustive
