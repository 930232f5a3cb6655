import Excom.Lib.Exec

/-!
# Loops

A loop whose body says whether to go on (`Exec.loop`), with a bound on the number of its turns; a run that
exceeds the bound stops with a fault.  `loop_returns` is the rule for total correctness (an invariant and a
measure that bounds the turns), `loop_ensures` the one for partial correctness.  `Turns` relates the states at
which the body is entered during one run.
-/

namespace Exec

variable {σ ε β : Type}

/-- Repeat `body` until it says `false`, at most `n` times. -/
def loop (overrun : ε) (body : β → Exec σ ε (β × Bool)) : Nat → β → Exec σ ε β
  | 0, _ => fault overrun
  | n + 1, b => do
    let (b, more) ← body b
    if more then loop overrun body n b else return b

variable {overrun : ε} {body : β → Exec σ ε (β × Bool)}

theorem loop_succ (n : Nat) (b : β) : loop overrun body (n + 1) b = (do
    let (b, more) ← body b
    if more then loop overrun body n b else return b) := rfl

/-- A turn that is the last one. -/
theorem loop_last {n : Nat} {b b' : β} {s s' : σ} (h : body b s = .ok ((b', false), s')) :
    loop overrun body (n + 1) b s = .ok (b', s') :=
  bind_of_ok h _

/-- A turn that is not the last one. -/
theorem loop_turn {n : Nat} {b b' : β} {s s' : σ} (h : body b s = .ok ((b', true), s')) :
    loop overrun body (n + 1) b s = loop overrun body n b' s' :=
  bind_of_ok h _

/-- A loop returns when its body keeps an invariant and decreases a measure. -/
theorem loop_returns {I : β → σ → Prop} {μ : β → Nat} {Q : β → σ → Prop}
    (hbody : ∀ b s, I b s → Returns (body b) s fun r s' =>
      if r.2 then I r.1 s' ∧ μ r.1 < μ b else Q r.1 s')
    {n : Nat} {b : β} (hn : μ b < n) {s : σ} (h : I b s) : Returns (loop overrun body n b) s Q := by
  induction n generalizing b s with
  | zero => omega
  | succ n ih =>
    obtain ⟨⟨b', more⟩, s', hrun, hr⟩ := hbody b s h
    cases more with
    | false => exact .intro (loop_last hrun) hr
    | true =>
      obtain ⟨hinv, hlt⟩ : I b' s' ∧ μ b' < μ b := hr
      obtain ⟨b'', s'', hrun', hQ⟩ := ih (by omega) hinv
      exact .intro ((loop_turn hrun).trans hrun') hQ

/-- What a loop ensures when its body keeps an invariant. -/
theorem loop_ensures {I : β → σ → Prop} {Q : β → σ → Prop}
    (hbody : ∀ b s, I b s → Ensures (body b) s fun r s' => if r.2 then I r.1 s' else Q r.1 s')
    {n : Nat} {b : β} {s : σ} (h : I b s) : Ensures (loop overrun body n b) s Q := by
  induction n generalizing b s with
  | zero => exact .fault
  | succ n ih =>
    rw [loop_succ]
    refine (hbody b s h).bind ?_
    rintro ⟨b', more⟩ s' hr
    cases more with
    | false => exact .pure hr
    | true => exact ih hr

/-- A preorder that holds along each turn holds along the loop. -/
theorem loop_rel {R : β → β → Prop} (hrefl : ∀ b, R b b) (htrans : ∀ {a b c}, R a b → R b c → R a c)
    (hbody : ∀ b s, Ensures (body b) s fun r _ => R b r.1) {n : Nat} {b : β} {s : σ} :
    Ensures (loop overrun body n b) s fun b' _ => R b b' := by
  refine loop_ensures (I := fun b' _ => R b b') ?_ (hrefl b)
  intro b' s' h
  refine (hbody b' s').mono ?_
  intro r s'' hr
  split
  · exact htrans h hr
  · exact htrans h hr

/-- The body of the loop is entered at `b'` and `s'` in a run from `b` and `s`. -/
inductive Turns (body : β → Exec σ ε (β × Bool)) : β → σ → β → σ → Prop where
  | here {b : β} {s : σ} : Turns body b s b s
  | next {b b' b'' : β} {s s' s'' : σ} (h : body b s = .ok ((b', true), s')) (rest : Turns body b' s' b'' s'') :
      Turns body b s b'' s''

/-- An invariant of the body holds wherever the body is entered. -/
theorem Turns.invariant {I : β → σ → Prop}
    (hbody : ∀ b s, I b s → Ensures (body b) s fun r s' => r.2 = true → I r.1 s') {b b' : β} {s s' : σ}
    (ht : Turns body b s b' s') (h : I b s) : I b' s' := by
  induction ht with
  | here => exact h
  | next hrun _ ih => exact ih (hbody _ _ h _ _ hrun rfl)

/-- A loop that returns does so from wherever its body is entered. -/
theorem Turns.loop_eq {n : Nat} {b b' c : β} {s s' t : σ} (ht : Turns body b s b' s')
    (h : loop overrun body n b s = .ok (c, t)) : ∃ m, loop overrun body m b' s' = .ok (c, t) := by
  induction ht generalizing n with
  | here => exact ⟨n, h⟩
  | next hrun _ ih =>
    cases n with
    | zero => cases h
    | succ n =>
      rw [loop_turn hrun] at h
      exact ih h

/-- A loop that returns does so by a last turn. -/
theorem exists_last_turn {n : Nat} {b c : β} {s t : σ} (h : loop overrun body n b s = .ok (c, t)) :
    ∃ b' s', Turns body b s b' s' ∧ body b' s' = .ok ((c, false), t) := by
  induction n generalizing b s with
  | zero => cases h
  | succ n ih =>
    rw [loop_succ] at h
    obtain ⟨⟨b1, more⟩, s1, hrun, hrest⟩ := bind_eq_ok.1 h
    cases more with
    | false =>
      cases hrest
      exact ⟨b, s, .here, hrun⟩
    | true =>
      obtain ⟨b', s', hturns, hlast⟩ := ih hrest
      exact ⟨b', s', .next hrun hturns, hlast⟩

/-- Where another turn follows, a loop that returns has not been at its last one. -/
theorem Turns.more_or_last {n : Nat} {b b' c : β} {s s' t : σ} (ht : Turns body b s b' s')
    (h : loop overrun body n b s = .ok (c, t)) :
    (∃ b1 s1, body b' s' = .ok ((b1, true), s1)) ∨ body b' s' = .ok ((c, false), t) := by
  obtain ⟨m, hm⟩ := ht.loop_eq h
  cases m with
  | zero => cases hm
  | succ m =>
    rw [loop_succ] at hm
    obtain ⟨⟨b1, more⟩, s1, hrun, hrest⟩ := bind_eq_ok.1 hm
    cases more with
    | false =>
      cases hrest
      exact .inr hrun
    | true => exact .inl ⟨b1, s1, hrun⟩

/-- Where the body decreases a measure, no bound above the measure is exceeded: any two of them lead to the same
run. -/
theorem loop_bound {I : β → σ → Prop} {μ : β → Nat}
    (hbody : ∀ b s, I b s → Ensures (body b) s fun r s' => r.2 = true → I r.1 s' ∧ μ r.1 < μ b) {m n : Nat} {b : β}
    (hm : μ b < m) (hn : μ b < n) {s : σ} (h : I b s) : loop overrun body m b s = loop overrun body n b s := by
  induction m generalizing n b s with
  | zero => omega
  | succ m ih =>
    cases n with
    | zero => omega
    | succ n =>
      rcases hrun : body b s with e | ⟨⟨b1, more⟩, s1⟩
      · rw [loop_succ, loop_succ, bind_of_error hrun, bind_of_error hrun]
      · cases more with
        | false => rw [loop_last hrun, loop_last hrun]
        | true =>
          rw [loop_turn hrun, loop_turn hrun]
          obtain ⟨hinv, hlt⟩ : I b1 s1 ∧ μ b1 < μ b := hbody b s h _ _ hrun rfl
          exact ih (by omega) (by omega) hinv

end Exec
