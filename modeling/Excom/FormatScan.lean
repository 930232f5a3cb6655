import Excom.Render

/-!
# The scan of a format

`excom_buffer_format` looks for the next percent sign, and goes on behind the byte that follows it, whatever that
byte is.  So the scan stays inside the format, in every run, exactly when no directive begins with the last byte of
the format (`scans_inside_iff`): the byte behind that one is the `NUL`, and the scan goes on behind the `NUL`.
-/

namespace Excom

/-- Every percent sign of the string that begins a directive is followed by another byte of the string. -/
def Closed : Bytes → Bool
  | [] => true
  | c :: s =>
    if c = percent then
      match s with
      | [] => false
      | _ :: s => Closed s
    else Closed s

/-- A string is a literal, or begins with one and then a directive. -/
theorem literal_or_directive {s : Bytes} (h0 : 0 ∉ s) :
    Literal s ∨ ∃ lit rest, Literal lit ∧ s = lit ++ percent :: rest := by
  induction s with
  | nil => exact .inl .nil
  | cons c s ih =>
    rw [List.mem_cons, not_or] at h0
    by_cases hc : c = percent
    · exact .inr ⟨[], s, .nil, by rw [hc]; rfl⟩
    · rcases ih h0.2 with h | ⟨lit, rest, hlit, rfl⟩
      · exact .inl (h.cons hc (Ne.symm h0.1))
      · exact .inr ⟨c :: lit, rest, hlit.cons hc (Ne.symm h0.1), rfl⟩

private theorem Literal.closed_append {lit : Bytes} (h : Literal lit) (s : Bytes) : Closed (lit ++ s) = Closed s := by
  induction lit with
  | nil => rfl
  | cons c lit ih =>
    rw [List.cons_append, Closed.eq_def]
    dsimp only
    rw [if_neg (h c (List.mem_cons_self ..)).1]
    exact ih fun d hd => h d (List.mem_cons_of_mem _ hd)

theorem Literal.closed {lit : Bytes} (h : Literal lit) : Closed lit = true := by
  have happ := h.closed_append []
  rw [List.append_nil] at happ
  exact happ

private theorem closed_directive (c : UInt8) (s : Bytes) : Closed (percent :: c :: s) = Closed s := rfl

/-! ### Where the scan goes -/

variable {E : Env}

namespace FormatState

/-- A turn that finds a percent sign goes on behind the byte that follows it. -/
theorem turn_cur {s : FormatState} {lit rest : Bytes} {c : UInt8} (hlit : Literal lit)
    (hcur : s.cur = lit ++ percent :: c :: rest) (w : World) :
    Exec.Ensures (turn E s) w fun r _ => r.2 = true → r.1.cur = rest := by
  rw [turn_eq hlit hcur]
  refine Exec.Ensures.bind (Q := fun s1 _ => s1.cur = s.cur) ?_ ?_
  · split
    · exact .pure rfl
    · exact (append_frame s _ w).mono fun _ _ h => h.1
  intro s1 w1 hcur1
  have hdrop : s1.cur.drop (lit.length + 1) = c :: rest := by
    rw [hcur1, hcur, ← List.drop_drop, List.drop_left, List.drop_one, List.tail_cons]
  unfold afterLiteral
  rw [hdrop]
  split
  · refine .pure ?_
    intro h
    cases h
  · refine .seq fun s2 w2 => ?_
    split
    · refine .pure ?_
      intro h
      cases h
    · exact .pure fun _ => rfl

end FormatState

/-- The states of `excom_buffer_format` at the turns of its loop. -/
def ScanTurns (E : Env) (out : Buffer) (format : Bytes) (va : List FormatArg) (w : World) (s : FormatState)
    (w' : World) : Prop :=
  Exec.Turns (FormatState.turn E) { out, cur := format, va, err := 0 } w s w'

/-- The scan of the format stays inside it, and ends: in every run the position that a turn begins at is that of a
byte of the format, its `NUL` included, and each turn that is not the last one moves it. -/
def ScansInside (format : Bytes) : Prop :=
  ∀ (E : Env) (out : Buffer) (va : List FormatArg) (w : World) (s : FormatState) (w' : World), out.unmutable = false →
    ScanTurns E out format va w s w' → (s.cur ≠ [] ∧ s.cur <:+ format) ∧
      Exec.Ensures (FormatState.turn E s) w' fun r _ => r.2 = true → r.1.cur.length < s.cur.length

/-- A turn from inside a string that is closed. -/
theorem FormatState.turn_closed {s : FormatState} {t : Bytes} (h0 : 0 ∉ t) (ht : Closed t = true)
    (hcur : s.cur = t ++ [0]) (w : World) : Exec.Ensures (turn E s) w fun r _ => r.2 = true →
      ∃ lit c t', t = lit ++ percent :: c :: t' ∧ Closed t' = true ∧ r.1.cur = t' ++ [0] := by
  rcases literal_or_directive h0 with hlit | ⟨lit, rest, hlit, rfl⟩
  · intro r w' hrun
    rw [turn_last hlit hcur] at hrun
    cases hrun
    intro h
    cases h
  · rw [hlit.closed_append] at ht
    cases rest with
    | nil => cases ht
    | cons c t' =>
      rw [closed_directive] at ht
      rw [List.append_assoc] at hcur
      have hcur' : s.cur = lit ++ percent :: c :: (t' ++ [0]) := hcur
      refine (turn_cur hlit hcur' w).mono ?_
      intro r w' hr hmore
      exact ⟨lit, c, t', rfl, ht, hr hmore⟩

/-- The scan of a closed string stays inside it. -/
theorem scansInside_of_closed {s : Bytes} (h0 : 0 ∉ s) (hs : Closed s = true) : ScansInside (s ++ [0]) := by
  intro E out va w s1 w1 _ hturns
  -- what is left of the string is closed
  have hinv : ∃ pre t, s = pre ++ t ∧ Closed t = true ∧ s1.cur = t ++ [0] := by
    refine hturns.invariant (I := fun s1 _ => ∃ pre t, s = pre ++ t ∧ Closed t = true ∧ s1.cur = t ++ [0]) ?_
      ⟨[], s, rfl, hs, rfl⟩
    intro s2 w2 ⟨pre, t, hst, ht, hcur⟩
    have h0t : 0 ∉ t := by
      rw [hst, List.mem_append, not_or] at h0
      exact h0.2
    refine (FormatState.turn_closed h0t ht hcur w2).mono ?_
    intro r w3 hr hmore
    obtain ⟨lit, c, t', rfl, ht', hcur'⟩ := hr hmore
    refine ⟨pre ++ (lit ++ [percent, c]), t', ?_, ht', hcur'⟩
    rw [hst]
    simp
  obtain ⟨pre, t, rfl, ht, hcur⟩ := hinv
  have h0t : 0 ∉ t := by
    rw [List.mem_append, not_or] at h0
    exact h0.2
  refine ⟨⟨by rw [hcur]; simp, by rw [hcur, List.append_assoc]; exact List.suffix_append _ _⟩, ?_⟩
  refine (FormatState.turn_closed h0t ht hcur w1).mono ?_
  intro r w2 hr hmore
  obtain ⟨lit, c, t', rfl, _, hcur'⟩ := hr hmore
  rw [hcur, hcur']
  simp
  omega

/-! ### A run that leaves the format -/

/-- Arguments for a directive that stand for no bytes -/
def emptyArgs (c : UInt8) : List FormatArg :=
  if c = 's'.toUInt8 then [.chars [0]]
  else if c = 'S'.toUInt8 then [.string none 0]
  else if c = 'b'.toUInt8 then [.number 0, .chars []]
  else []

/-- Arguments for all directives of a format that stand for no bytes -/
def allEmptyArgs : Bytes → List FormatArg
  | [] => []
  | c :: s =>
    if c = percent then
      match s with
      | [] => []
      | d :: s => emptyArgs d ++ allEmptyArgs s
    else allEmptyArgs s

private theorem Literal.allEmptyArgs_append {lit : Bytes} (h : Literal lit) (s : Bytes) :
    allEmptyArgs (lit ++ s) = allEmptyArgs s := by
  induction lit with
  | nil => rfl
  | cons c lit ih =>
    rw [List.cons_append, allEmptyArgs.eq_def]
    dsimp only
    rw [if_neg (h c (List.mem_cons_self ..)).1]
    exact ih fun d hd => h d (List.mem_cons_of_mem _ hd)

private theorem allEmptyArgs_directive (d : UInt8) (s : Bytes) :
    allEmptyArgs (percent :: d :: s) = emptyArgs d ++ allEmptyArgs s := rfl

/-- A directive that is known takes its arguments; another one does nothing. -/
theorem emptyArgs_cases (c : UInt8) :
    (∀ va, ∃ piece, piece.length ≤ 1 ∧ Directive c (emptyArgs c ++ va) piece va) ∨
      (emptyArgs c = [] ∧ ∀ (E : Env) (s : FormatState), s.directive E c = pure s) := by
  unfold emptyArgs
  by_cases hs : c = 's'.toUInt8
  · left
    intro va
    rw [if_pos hs, hs]
    exact ⟨[], by decide, .chars (List.not_mem_nil)⟩
  rw [if_neg hs]
  by_cases hS : c = 'S'.toUInt8
  · left
    intro va
    rw [if_pos hS, hS]
    exact ⟨[], by decide, .string (Nat.zero_le _)⟩
  rw [if_neg hS]
  by_cases hb : c = 'b'.toUInt8
  · left
    intro va
    rw [if_pos hb, hb]
    exact ⟨[], by decide, .bytes (Nat.zero_le _)⟩
  rw [if_neg hb]
  by_cases hp : c = percent
  · left
    intro va
    rw [hp]
    exact ⟨[percent], by decide, .percent⟩
  · right
    refine ⟨rfl, ?_⟩
    intro E s
    unfold FormatState.directive
    rw [if_neg hs, if_neg hS, if_neg hb]
    exact if_neg hp

namespace FormatState

/-- A turn over a directive, known or not, whose arguments stand for no bytes -/
theorem turn_empty (hA : E.AllocSucceeds) {s : FormatState} (hb : s.out.WF E) (hm : s.out.unmutable = false)
    {lit rest : Bytes} {c : UInt8} {va : List FormatArg} (hlit : Literal lit)
    (hcur : s.cur = lit ++ percent :: c :: rest) (hva : s.va = emptyArgs c ++ va) (herr : s.err = 0) (w : World) :
    ∃ pieces, pieces.flatten.length ≤ lit.length + 1 ∧ s.out.Adds E w (turn E s) (fun r => r.1.out)
      (fun r => r.2 = true ∧ r.1.cur = rest ∧ r.1.va = va ∧ r.1.err = 0) pieces := by
  rcases emptyArgs_cases c with hknown | ⟨hargs, hunknown⟩
  · obtain ⟨piece, hlen, hd⟩ := hknown va
    rw [← hva] at hd
    refine ⟨[lit, piece], ?_, turn_adds hA hb hm hlit hcur hd herr w⟩
    simp
    omega
  · rw [hargs, List.nil_append] at hva
    refine ⟨[lit], by simp, ?_⟩
    rw [turn_eq hlit hcur]
    apply (literal_adds hA hb hm hcur herr w).then
    intro s1 w1 ⟨hcur1, hva1, herr1⟩ hwf _
    have hdrop : s1.cur.drop (lit.length + 1) = c :: rest := by
      rw [hcur1, hcur, ← List.drop_drop, List.drop_left, List.drop_one, List.tail_cons]
    unfold afterLiteral
    rw [if_neg (not_not.2 herr1), hdrop]
    dsimp only
    rw [hunknown E s1, Exec.pure_bind, if_neg (not_not.2 herr1)]
    refine Buffer.Adds.nil hwf ?_ ?_ w1
    · rfl
    · exact ⟨rfl, rfl, hva1.trans hva, herr1⟩

/-- Where a directive begins with the last byte, a run gets behind the `NUL`. -/
theorem exists_turn_outside (hA : E.AllocSucceeds) {n : Nat} {t : Bytes} (hn : t.length = n) (h0 : 0 ∉ t)
    (ht : Closed t = false) {s : FormatState} (hb : s.out.WF E) (hm : s.out.unmutable = false)
    (hcur : s.cur = t ++ [0]) (hva : s.va = allEmptyArgs t) (herr : s.err = 0)
    (hfit : 2 * (s.out.used + t.length + 1) ≤ E.word) (w : World) :
    ∃ s' w', Exec.Turns (turn E) s w s' w' ∧ s'.cur = [] := by
  induction n using Nat.strong_induction_on generalizing t s w with
  | _ n ih =>
    rcases literal_or_directive h0 with hlit | ⟨lit, rest, hlit, rfl⟩
    · rw [hlit.closed] at ht
      cases ht
    rw [hlit.closed_append] at ht
    rw [hlit.allEmptyArgs_append] at hva
    rw [List.append_assoc] at hcur
    have hrun (c : UInt8) (rest' : Bytes) (va : List FormatArg) (hcur : s.cur = lit ++ percent :: c :: rest')
        (hva : s.va = emptyArgs c ++ va) : ∃ s1 w1, turn E s w = .ok ((s1, true), w1) ∧ s1.cur = rest' ∧
          s1.va = va ∧ s1.err = 0 ∧ s1.out.WF E ∧ s1.out.unmutable = false ∧
            s1.out.used ≤ s.out.used + (lit.length + 1) := by
      obtain ⟨pieces, hlen, hadds⟩ := turn_empty hA hb hm hlit hcur hva herr w
      have hplan : ((s.out.stock w).appendAll E pieces).isSome := by
        apply Stock.appendAll_isSome hA
        have hc : (s.out.stock w).contents.length = s.out.used := hb.length_contents
        rw [hc]
        simp only [List.length_append, List.length_cons] at hfit
        omega
      obtain ⟨⟨⟨s1, more⟩, w1⟩, hrun⟩ := hadds.returns hplan
      obtain ⟨⟨hmore, hcur1, hva1, herr1⟩, hext, _⟩ := hadds.ensures _ _ hrun
      dsimp only at hmore hcur1 hva1 herr1 hext
      subst hmore
      refine ⟨s1, w1, hrun, hcur1, hva1, herr1, hext.wf, hext.unmutable.trans hm, ?_⟩
      rw [hext.used hb]
      omega
    cases rest with
    | nil =>
      obtain ⟨s1, w1, hturn, hcur1, _⟩ := hrun 0 [] [] hcur hva
      exact ⟨s1, w1, .next hturn .here, hcur1⟩
    | cons c t' =>
      rw [closed_directive] at ht
      rw [allEmptyArgs_directive] at hva
      obtain ⟨s1, w1, hturn, hcur1, hva1, herr1, hb1, hm1, hused⟩ := hrun c (t' ++ [0]) _ (by rw [hcur]; rfl) hva
      simp only [List.length_append, List.length_cons] at hn hfit
      have h0' : 0 ∉ t' := by
        intro h
        exact h0 (by simp [h])
      obtain ⟨s2, w2, hturns, hcur2⟩ := ih t'.length (by omega) rfl h0' ht hb1 hm1 hcur1 hva1 herr1 (by omega) w1
      exact ⟨s2, w2, .next hturn hturns, hcur2⟩

end FormatState

/-- A host with so many more bits to a word than the 64 that are usual. -/
def Env.wider (n : Nat) : Env := { Env.amd64 0 with wordBits := 64 + n, wide := by omega }

/-- The scan of a string that is not closed leaves it. -/
theorem closed_of_scansInside {s : Bytes} (h0 : 0 ∉ s) (h : ScansInside (s ++ [0])) : Closed s = true := by
  by_contra hopen
  rw [Bool.not_eq_true] at hopen
  have hfit : 2 * (0 + s.length + 1) ≤ (Env.wider s.length).word := by
    have hlt : s.length < 2 ^ s.length := Nat.lt_two_pow_self
    show 2 * (0 + s.length + 1) ≤ 2 ^ (64 + s.length)
    rw [Nat.pow_add]
    omega
  have hwf : (Buffer.ofBytes []).WF (Env.wider s.length) := by
    apply Buffer.ofBytes_wf
    have h32 := (Env.wider s.length).le_word
    show 0 < _
    omega
  obtain ⟨s1, w1, hturns, hcur⟩ :=
    FormatState.exists_turn_outside (E := Env.wider s.length) (fun _ => rfl) rfl h0 hopen
    (s := ⟨.ofBytes [], s ++ [0], allEmptyArgs s, 0⟩) hwf rfl rfl rfl rfl hfit World.start
  exact (h _ _ _ _ _ _ rfl hturns).1.1 hcur

/-- The scan of a format stays inside it, whatever is formatted and whatever the arguments are, exactly when no
directive of the format begins with its last byte. -/
theorem scans_inside_iff {s : Bytes} (h0 : 0 ∉ s) : ScansInside (s ++ [0]) ↔ Closed s = true :=
  ⟨closed_of_scansInside h0, scansInside_of_closed h0⟩

/-- A format with a percent sign at its end that is written as `%%` -/
theorem scans_inside_escaped : ScansInside ([49, 37, 37] ++ [0]) := (scans_inside_iff (by decide)).2 (by decide)

/-- A format that is a single percent sign -/
theorem scans_outside : ¬ ScansInside ([37] ++ [0]) := by
  intro h
  exact absurd (closed_of_scansInside (by decide) h) (by decide)

end Excom
