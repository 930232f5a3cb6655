import Mathlib.Tactic.Common

/-!
# Computations with a state and faults

`Exec σ ε α` is the type of computations over a state `σ` that return a value of `α` or stop with a fault of
`ε`.  Two judgements describe a run: `Returns` (total correctness: the run returns, and the value and the state
satisfy the postcondition) and `Ensures` (partial correctness: if the run returns, they do).  Both come with
one rule for each way computations are put together.
-/

/-- A computation over the state `σ`: it returns a value and the new state, or it stops with a fault. -/
def Exec (σ ε α : Type) : Type := σ → Except ε (α × σ)

namespace Exec

variable {σ ε α β : Type}

/-- Stop with the fault `e`. -/
def fault (e : ε) : Exec σ ε α := fun _ => .error e

/-- The current state. -/
def get : Exec σ ε σ := fun s => .ok (s, s)

/-- Change the state by `f`. -/
def modify (f : σ → σ) : Exec σ ε Unit := fun s => .ok ((), f s)

/-- Change the state by `f`, or stop with the fault `e` where `f` is undefined. -/
def attempt (f : σ → Option σ) (e : ε) : Exec σ ε Unit := fun s =>
  match f s with
  | some s' => .ok ((), s')
  | none => .error e

instance : Monad (Exec σ ε) where
  pure a := fun s => .ok (a, s)
  bind x f := fun s =>
    match x s with
    | .ok (a, s') => f a s'
    | .error e => .error e

@[simp] theorem pure_apply (a : α) (s : σ) : (pure a : Exec σ ε α) s = .ok (a, s) := rfl

@[simp] theorem fault_apply (e : ε) (s : σ) : (fault e : Exec σ ε α) s = .error e := rfl

@[simp] theorem get_apply (s : σ) : (get : Exec σ ε σ) s = .ok (s, s) := rfl

@[simp] theorem modify_apply (f : σ → σ) (s : σ) : (modify f : Exec σ ε Unit) s = .ok ((), f s) := rfl

theorem attempt_eq_ok {f : σ → Option σ} {e : ε} {s s' : σ} : attempt f e s = .ok ((), s') ↔ f s = some s' := by
  unfold attempt
  rcases f s with _ | t <;> simp

theorem bind_of_ok {x : Exec σ ε α} {s s' : σ} {a : α} (h : x s = .ok (a, s')) (f : α → Exec σ ε β) :
    (x >>= f) s = f a s' := by
  show (match x s with | .ok (a, s') => f a s' | .error e => .error e) = _
  rw [h]

theorem bind_of_error {x : Exec σ ε α} {s : σ} {e : ε} (h : x s = .error e) (f : α → Exec σ ε β) :
    (x >>= f) s = .error e := by
  show (match x s with | .ok (a, s') => f a s' | .error e => .error e) = _
  rw [h]

@[simp] theorem pure_bind (a : α) (f : α → Exec σ ε β) : (pure a >>= f) = f a := rfl

@[simp] theorem fault_bind (e : ε) (f : α → Exec σ ε β) : (fault e >>= f) = fault e := rfl

theorem bind_assoc {γ : Type} (x : Exec σ ε α) (f : α → Exec σ ε β) (g : β → Exec σ ε γ) :
    ((x >>= f) >>= g) = (x >>= fun a => f a >>= g) := by
  funext s
  rcases h : x s with e | ⟨a, s'⟩
  · rw [bind_of_error h, bind_of_error (bind_of_error h f)]
  · rw [bind_of_ok h]
    show (match (x >>= f) s with | .ok (a, s') => g a s' | .error e => .error e) = _
    rw [bind_of_ok h]; rfl

/-- A run of a sequence that returns splits at its first computation. -/
theorem bind_eq_ok {x : Exec σ ε α} {f : α → Exec σ ε β} {s s'' : σ} {b : β} :
    (x >>= f) s = .ok (b, s'') ↔ ∃ a s', x s = .ok (a, s') ∧ f a s' = .ok (b, s'') := by
  rcases h : x s with e | ⟨a, s'⟩
  · rw [bind_of_error h]; simp
  · rw [bind_of_ok h]
    constructor
    · exact fun hf => ⟨a, s', rfl, hf⟩
    · rintro ⟨a', t, he, hf⟩
      cases he; exact hf

/-- A computation on a part of the state -/
def zoom {τ δ : Type} (get : σ → τ) (set : τ → σ → σ) (wrap : δ → ε) (x : Exec τ δ α) : Exec σ ε α := fun s =>
  match x (get s) with
  | .ok (a, t) => .ok (a, set t s)
  | .error e => .error (wrap e)

theorem zoom_of_ok {τ δ : Type} {get : σ → τ} {set : τ → σ → σ} {wrap : δ → ε} {x : Exec τ δ α} {s : σ}
    {a : α} {t : τ} (h : x (get s) = .ok (a, t)) : zoom get set wrap x s = .ok (a, set t s) := by
  unfold zoom
  rw [h]

theorem zoom_of_error {τ δ : Type} {get : σ → τ} {set : τ → σ → σ} {wrap : δ → ε} {x : Exec τ δ α}
    {s : σ} {e : δ} (h : x (get s) = .error e) : zoom get set wrap x s = .error (wrap e) := by
  unfold zoom
  rw [h]

theorem zoom_eq_ok {τ δ : Type} {get : σ → τ} {set : τ → σ → σ} {wrap : δ → ε} {x : Exec τ δ α} {s s' : σ}
    {a : α} : zoom get set wrap x s = .ok (a, s') ↔ ∃ t, x (get s) = .ok (a, t) ∧ s' = set t s := by
  rcases h : x (get s) with e | ⟨b, t⟩
  · rw [zoom_of_error h]
    simp
  · rw [zoom_of_ok h]
    constructor
    · intro hs
      cases hs
      exact ⟨t, rfl, rfl⟩
    · rintro ⟨t', ht, rfl⟩
      cases ht
      rfl

/-! ### Total correctness -/

/-- The run of `x` from `s` returns, with a value and a state that satisfy `Q`. -/
def Returns (x : Exec σ ε α) (s : σ) (Q : α → σ → Prop) : Prop :=
  ∃ a s', x s = .ok (a, s') ∧ Q a s'

theorem Returns.intro {x : Exec σ ε α} {s s' : σ} {a : α} {Q : α → σ → Prop} (h : x s = .ok (a, s'))
    (hQ : Q a s') : Returns x s Q :=
  ⟨a, s', h, hQ⟩

theorem Returns.pure {a : α} {s : σ} {Q : α → σ → Prop} (h : Q a s) : Returns (pure a : Exec σ ε α) s Q :=
  ⟨a, s, rfl, h⟩

theorem Returns.bind {x : Exec σ ε α} {f : α → Exec σ ε β} {s : σ} {Q : α → σ → Prop} {R : β → σ → Prop}
    (hx : Returns x s Q) (hf : ∀ a s', Q a s' → Returns (f a) s' R) : Returns (x >>= f) s R := by
  obtain ⟨a, s', h, hQ⟩ := hx
  obtain ⟨b, s'', h', hR⟩ := hf a s' hQ
  exact ⟨b, s'', by rw [bind_of_ok h, h'], hR⟩

theorem Returns.mono {x : Exec σ ε α} {s : σ} {Q R : α → σ → Prop} (hx : Returns x s Q)
    (h : ∀ a s', Q a s' → R a s') : Returns x s R := by
  obtain ⟨a, s', hr, hQ⟩ := hx
  exact ⟨a, s', hr, h a s' hQ⟩

theorem Returns.map_iff {x : Exec σ ε α} {f : α → β} {s : σ} {R : β → σ → Prop} :
    Returns (x >>= fun a => Pure.pure (f a)) s R ↔ Returns x s fun a => R (f a) := by
  constructor
  · intro ⟨b, s'', h, hR⟩
    obtain ⟨a, s', hx, hpure⟩ := bind_eq_ok.1 h
    cases hpure
    exact ⟨a, _, hx, hR⟩
  · intro ⟨a, s', hx, hR⟩
    exact ⟨f a, s', bind_of_ok hx _, hR⟩

/-! ### Partial correctness -/

/-- If the run of `x` from `s` returns, then the value and the state satisfy `Q`. -/
def Ensures (x : Exec σ ε α) (s : σ) (Q : α → σ → Prop) : Prop :=
  ∀ a s', x s = .ok (a, s') → Q a s'

theorem Ensures.pure {a : α} {s : σ} {Q : α → σ → Prop} (h : Q a s) : Ensures (pure a : Exec σ ε α) s Q := by
  rintro b s' ⟨⟩; exact h

theorem Ensures.fault {e : ε} {s : σ} {Q : α → σ → Prop} : Ensures (fault e : Exec σ ε α) s Q := by
  rintro b s' ⟨⟩

theorem Ensures.get_bind {f : σ → Exec σ ε β} {s : σ} {R : β → σ → Prop} (h : Ensures (f s) s R) :
    Ensures (get >>= f) s R := h

theorem Ensures.modify {f : σ → σ} {s : σ} {Q : Unit → σ → Prop} (h : Q () (f s)) :
    Ensures (modify f : Exec σ ε Unit) s Q := by
  rintro a s' ⟨⟩; exact h

theorem Ensures.bind {x : Exec σ ε α} {f : α → Exec σ ε β} {s : σ} {Q : α → σ → Prop} {R : β → σ → Prop}
    (hx : Ensures x s Q) (hf : ∀ a s', Q a s' → Ensures (f a) s' R) : Ensures (x >>= f) s R := by
  intro b s'' h
  obtain ⟨a, s', h1, h2⟩ := bind_eq_ok.1 h
  exact hf a s' (hx a s' h1) b s'' h2

/-- A first computation of which nothing needs to be known. -/
theorem Ensures.seq {x : Exec σ ε α} {f : α → Exec σ ε β} {s : σ} {R : β → σ → Prop}
    (hf : ∀ a s', Ensures (f a) s' R) : Ensures (x >>= f) s R :=
  Ensures.bind (fun _ _ _ => trivial) fun a s' (_ : True) => hf a s'

theorem Ensures.mono {x : Exec σ ε α} {s : σ} {Q R : α → σ → Prop} (hx : Ensures x s Q)
    (h : ∀ a s', Q a s' → R a s') : Ensures x s R :=
  fun a s' hr => h a s' (hx a s' hr)

/-- Two things that are known of all runs that return. -/
theorem Ensures.and {x : Exec σ ε α} {s : σ} {Q R : α → σ → Prop} (h : Ensures x s Q) (h' : Ensures x s R) :
    Ensures x s fun a s' => Q a s' ∧ R a s' :=
  fun a s' hr => ⟨h a s' hr, h' a s' hr⟩

/-- A run that returns satisfies what is known of all runs that do. -/
theorem Returns.and_ensures {x : Exec σ ε α} {s : σ} {Q R : α → σ → Prop} (h : Returns x s Q)
    (h' : Ensures x s R) : Returns x s fun a s' => Q a s' ∧ R a s' := by
  obtain ⟨a, s', hr, hQ⟩ := h
  exact ⟨a, s', hr, hQ, h' a s' hr⟩

theorem Returns.ensures {x : Exec σ ε α} {s : σ} {Q : α → σ → Prop} (h : Returns x s Q) : Ensures x s Q := by
  obtain ⟨a, s', hr, hQ⟩ := h
  intro b t ht
  rw [hr] at ht
  cases ht; exact hQ

end Exec
