import Excom.Lib.Exec
import Mathlib.Order.Monotone.Basic

/-!
# Computations that try

A computation that tries to raise a level to a mark, by steps each of which may be left out: it never gets above
the mark, and what it has when it gets there can be told beforehand, by a plan (`Exec.Tries`).  The plan of a
sequence is that of its parts, one after the other (`Tries.bind`), and of a run that reaches the mark all is known
(`Tries.returns`).
-/

namespace Exec

variable {σ ε α β μ ν : Type}

/-- `x` keeps `I` and gets no higher than `top`.  If it gets there, then `plan` has told what it has reached; and
if there is a plan, it gets there. -/
structure Tries (x : Exec σ ε α) (s : σ) (I : α → σ → Prop) (level : α → σ → Nat) (top : Nat)
    (reached : α → σ → μ) (plan : Option μ) : Prop where
  keeps : Ensures x s fun a s' => I a s' ∧ level a s' ≤ top
  whole : Ensures x s fun a s' => level a s' = top → plan = some (reached a s')
  made : plan.isSome → Returns x s fun a s' => level a s' = top

variable {x : Exec σ ε α} {s : σ} {I : α → σ → Prop} {level : α → σ → Nat} {top : Nat} {reached : α → σ → μ}
  {plan : Option μ}

/-- What is known when the plan is found. -/
theorem Tries.returns (h : Tries x s I level top reached plan) {m : μ} (hplan : plan = some m) :
    Returns x s fun a s' => I a s' ∧ level a s' = top ∧ reached a s' = m := by
  obtain ⟨a, s', hrun, htop⟩ := h.made (by rw [hplan]; rfl)
  have hreached := h.whole a s' hrun htop
  rw [hplan] at hreached
  exact ⟨a, s', hrun, (h.keeps a s' hrun).1, htop, (Option.some.inj hreached).symm⟩

theorem Tries.pure {a : α} (hI : I a s) (htop : level a s = top) (hplan : plan = some (reached a s)) :
    Tries (pure a : Exec σ ε α) s I level top reached plan :=
  ⟨.pure ⟨hI, Nat.le_of_eq htop⟩, .pure fun _ => hplan, fun _ => .pure htop⟩

/-- A run that stays below the mark -/
theorem Tries.below (h : Ensures x s fun a s' => I a s' ∧ level a s' < top) :
    Tries x s I level top reached none := by
  refine ⟨?_, ?_, ?_⟩
  · refine h.mono ?_
    intro a s' ⟨hI, hlt⟩
    exact ⟨hI, Nat.le_of_lt hlt⟩
  · refine h.mono ?_
    intro a s' ⟨_, hlt⟩ htop
    exact absurd htop (Nat.ne_of_lt hlt)
  · intro hplan
    cases hplan

/-- A first step that is known -/
theorem Tries.step {y : Exec σ ε β} {b : β} {s' : σ} {f : β → Exec σ ε α} (hy : y s = .ok (b, s'))
    (h : Tries (f b) s' I level top reached plan) : Tries (y >>= f) s I level top reached plan := by
  have hrun := bind_of_ok hy f
  refine ⟨?_, ?_, ?_⟩
  · intro a t ht
    exact h.keeps a t (hrun.symm.trans ht)
  · intro a t ht
    exact h.whole a t (hrun.symm.trans ht)
  · intro hplan
    obtain ⟨a, t, ht, htop⟩ := h.made hplan
    exact ⟨a, t, hrun.trans ht, htop⟩

/-- One try after another: the first one has to reach its mark for both to reach theirs.  What the second one can
reach is a strictly monotone function of what the first one has reached. -/
theorem Tries.bind {f : α → Exec σ ε β} {J : β → σ → Prop} {level' : β → σ → Nat} {g : Nat → Nat}
    (hg : StrictMono g) {reached' : β → σ → ν} {plan' : μ → Option ν} (hx : Tries x s I level top reached plan)
    (hf : ∀ a s', I a s' → Tries (f a) s' J level' (g (level a s')) reached' (plan' (reached a s'))) :
    Tries (x >>= f) s J level' (g top) reached' (plan.bind plan') := by
  refine ⟨?_, ?_, ?_⟩
  · refine hx.keeps.bind ?_
    intro a s' ⟨hI, hle⟩
    refine (hf a s' hI).keeps.mono ?_
    intro b s'' ⟨hJ, hle'⟩
    exact ⟨hJ, Nat.le_trans hle' (hg.monotone hle)⟩
  · intro b s'' hrun htop
    obtain ⟨a, s', hrunx, hrunf⟩ := bind_eq_ok.1 hrun
    obtain ⟨hI, hle⟩ := hx.keeps a s' hrunx
    have hle' := ((hf a s' hI).keeps b s'' hrunf).2
    have hlevel : level a s' = top := by
      rw [htop] at hle'
      exact Nat.le_antisymm hle (hg.le_iff_le.1 hle')
    rw [hx.whole a s' hrunx hlevel]
    exact (hf a s' hI).whole b s'' hrunf (by rw [hlevel]; exact htop)
  · intro hplan
    obtain ⟨n', hn'⟩ := Option.isSome_iff_exists.1 hplan
    obtain ⟨m, hm, hplan'⟩ := Option.bind_eq_some_iff.1 hn'
    obtain ⟨a, s', hrunx, hI, htop, hreached⟩ := hx.returns hm
    obtain ⟨b, s'', hrunf, htop'⟩ := (hf a s' hI).made (by rw [hreached, hplan']; rfl)
    rw [htop] at htop'
    refine ⟨b, s'', ?_, htop'⟩
    rw [bind_of_ok hrunx, hrunf]

/-- What is known of all runs is known of those that get there. -/
theorem Tries.and {J : α → σ → Prop} (h : Tries x s I level top reached plan) (hJ : Ensures x s J) :
    Tries x s (fun a s' => I a s' ∧ J a s') level top reached plan := by
  refine ⟨?_, h.whole, h.made⟩
  intro a s' hrun
  obtain ⟨hI, hle⟩ := h.keeps a s' hrun
  exact ⟨⟨hI, hJ a s' hrun⟩, hle⟩

/-- What follows returns at the same level, with what has been reached seen through `k`. -/
theorem Tries.followed {f : α → Exec σ ε β} {J : β → σ → Prop} {level' : β → σ → Nat} {reached' : β → σ → ν}
    {k : μ → ν} (h : Tries x s I level top reached plan)
    (hf : ∀ a s', Returns (f a) s' fun b s'' => (I a s' → J b s'') ∧ level' b s'' = level a s' ∧
      reached' b s'' = k (reached a s')) : Tries (x >>= f) s J level' top reached' (plan.map k) := by
  refine ⟨?_, ?_, ?_⟩
  · refine h.keeps.bind ?_
    intro a s' ⟨hI, hle⟩
    refine (hf a s').ensures.mono ?_
    intro b s'' ⟨hJ, hlevel, _⟩
    exact ⟨hJ hI, by rw [hlevel]; exact hle⟩
  · refine h.whole.bind ?_
    intro a s' hwhole
    refine (hf a s').ensures.mono ?_
    intro b s'' ⟨_, hlevel, hreached⟩ htop
    rw [hlevel] at htop
    rw [hwhole htop, hreached]
    rfl
  · intro hplan
    rw [Option.isSome_map] at hplan
    refine (h.made hplan).bind ?_
    intro a s' htop
    refine (hf a s').mono ?_
    intro b s'' ⟨_, hlevel, _⟩
    rw [hlevel]
    exact htop

end Exec
