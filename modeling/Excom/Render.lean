import Excom.Format
import Excom.Room

/-!
# What a format stands for

The meaning of a format with its arguments (`Renders`): runs of bytes that are copied, and between them directives,
each of which stands for the bytes of its arguments.  `excom_buffer_format` appends one piece after the other, and
finds room for them or grows the buffer; with successful allocations it does what the format says exactly when each
growing of the buffer ends (`format_renders_iff`).
-/

namespace Excom

/-- The percent sign -/
def percent : UInt8 := '%'.toUInt8

/-- A run of bytes without percent signs and without `NUL`. -/
def Literal (lit : Bytes) : Prop := ∀ c ∈ lit, c ≠ percent ∧ c ≠ 0

theorem Literal.nil : Literal [] := fun _ h => absurd h (List.not_mem_nil)

theorem Literal.cons {c : UInt8} {lit : Bytes} (hc : c ≠ percent) (h0 : c ≠ 0) (h : Literal lit) :
    Literal (c :: lit) := by
  intro d hd
  rcases List.mem_cons.1 hd with rfl | hd
  · exact ⟨hc, h0⟩
  · exact h d hd

/-- What the directive of the letter `c` stands for, and the arguments that are left. -/
inductive Directive : UInt8 → List FormatArg → Bytes → List FormatArg → Prop where
  | chars {str rest : Bytes} {va : List FormatArg} (h : 0 ∉ str) :
      Directive 's'.toUInt8 (.chars (str ++ 0 :: rest) :: va) str va
  | string {body : Option Block} {size : UInt32} {va : List FormatArg} (h : size.toNat ≤ (blockBytes body).length) :
      Directive 'S'.toUInt8 (.string body size :: va) ((blockBytes body).take size.toNat) va
  | bytes {n : UInt32} {mem : Bytes} {va : List FormatArg} (h : n.toNat ≤ mem.length) :
      Directive 'b'.toUInt8 (.number n :: .chars mem :: va) (mem.take n.toNat) va
  | percent {va : List FormatArg} : Directive percent va [percent] va

/-- The format stands for the pieces, one after the other, and takes all of the arguments. -/
inductive Renders : Bytes → List FormatArg → List Bytes → Prop where
  | last {lit : Bytes} (h : Literal lit) : Renders lit [] [lit]
  | directive {lit format piece : Bytes} {c : UInt8} {va va' : List FormatArg} {pieces : List Bytes} (h : Literal lit)
      (hd : Directive c va piece va') (rest : Renders format va' pieces) :
      Renders (lit ++ percent :: c :: format) va (lit :: piece :: pieces)

/-! ### The functions of the C library -/

private theorem strchr_percent {lit : Bytes} (h : Literal lit) (rest : Bytes) :
    strchr percent (lit ++ percent :: rest) = pure (some lit.length) := by
  induction lit with
  | nil =>
    unfold strchr
    exact if_pos rfl
  | cons c lit ih =>
    have hc := h c (List.mem_cons_self ..)
    rw [List.cons_append]
    unfold strchr
    rw [if_neg hc.1, if_neg hc.2, ih fun d hd => h d (List.mem_cons_of_mem _ hd), Exec.pure_bind]
    rfl

private theorem strchr_nul {lit : Bytes} (h : Literal lit) (rest : Bytes) :
    strchr percent (lit ++ 0 :: rest) = pure none := by
  induction lit with
  | nil =>
    unfold strchr
    rw [List.nil_append]
    dsimp only
    rw [if_neg (by decide), if_pos rfl]
  | cons c lit ih =>
    have hc := h c (List.mem_cons_self ..)
    rw [List.cons_append]
    unfold strchr
    rw [if_neg hc.1, if_neg hc.2, ih fun d hd => h d (List.mem_cons_of_mem _ hd), Exec.pure_bind]
    rfl

private theorem strlen_nul {str : Bytes} (h : 0 ∉ str) (rest : Bytes) :
    strlen (str ++ 0 :: rest) = pure str.length := by
  unfold strlen
  rw [if_pos (by simp), List.idxOf_append_of_notMem h, List.idxOf_cons_self, Nat.add_zero]

/-! ### Computations that append -/

variable {E : Env}

namespace Buffer

/-- With successful allocations, a computation that appends the pieces if the buffer can be grown for each of them,
and does not return otherwise.  `get` says where the buffer is in its result, and `good` what else is known. -/
structure Adds (E : Env) {α : Type} (b : Buffer) (w : World) (x : M α) (get : α → Buffer) (good : α → Prop)
    (pieces : List Bytes) : Prop where
  ensures : Exec.Ensures x w fun a w' => good a ∧ Extends E b pieces.flatten (get a) ∧
    (b.stock w).appendAll E pieces = some ((get a).stock w')
  returns : ((b.stock w).appendAll E pieces).isSome → ∃ r, x w = .ok r

theorem Adds.nil {α : Type} {b : Buffer} (hb : b.WF E) {a : α} {get : α → Buffer} {good : α → Prop} (hget : get a = b)
    (hgood : good a) (w : World) : Adds E b w (pure a) get good [] := by
  refine ⟨.pure ⟨hgood, ?_, ?_⟩, fun _ => ⟨_, rfl⟩⟩
  · rw [hget]
    exact .refl hb
  · rw [hget]
    rfl

/-- Nothing is appended for an empty piece. -/
theorem Adds.empty {α : Type} {b : Buffer} (hb : b.WF E) {a : α} {get : α → Buffer} {good : α → Prop} {piece : Bytes}
    (hget : get a = b) (hpiece : piece = []) (hgood : good a) (w : World) :
    Adds E b w (pure a) get good [piece] := by
  subst hpiece
  refine ⟨.pure ⟨hgood, ?_, ?_⟩, fun _ => ⟨_, rfl⟩⟩
  · rw [hget]
    exact .refl hb
  · rw [hget, Stock.appendAll_singleton, stock_append hb, if_pos (by exact hb.used_le), List.append_nil]
    rfl

/-- One append after the other adds the pieces of both. -/
theorem Adds.bind {α β : Type} {b : Buffer} {w : World} {x : M α} {get : α → Buffer} {good : α → Prop}
    {f : α → M β} {get' : β → Buffer} {good' : β → Prop} {pieces pieces' : List Bytes}
    (hx : Adds E b w x get good pieces)
    (hf : ∀ a w', good a → (get a).WF E → (get a).unmutable = b.unmutable →
      Adds E (get a) w' (f a) get' good' pieces') : Adds E b w (x >>= f) get' good' (pieces ++ pieces') := by
  constructor
  · refine hx.ensures.bind ?_
    intro a w1 ⟨hgood, hext, hstock⟩
    refine (hf a w1 hgood hext.wf hext.unmutable).ensures.mono ?_
    intro r w2 ⟨hgood', hext', hstock'⟩
    rw [List.flatten_append, Stock.appendAll_append, hstock]
    exact ⟨hgood', hext.trans hext', hstock'⟩
  · intro hplan
    rw [Stock.appendAll_append] at hplan
    obtain ⟨stock, hstock⟩ := Option.isSome_iff_exists.1 (Option.isSome_of_isSome_bind hplan)
    obtain ⟨⟨a, w1⟩, hrun⟩ := hx.returns (by rw [hstock]; rfl)
    obtain ⟨hgood, hext, hstock1⟩ := hx.ensures a w1 hrun
    rw [hstock1] at hplan
    obtain ⟨r, hrun'⟩ := (hf a w1 hgood hext.wf hext.unmutable).returns hplan
    exact ⟨r, by rw [Exec.bind_of_ok hrun, hrun']⟩

/-- What follows leaves the buffer alone. -/
theorem Adds.then {α β : Type} {b : Buffer} {w : World} {x : M α} {get : α → Buffer} {good : α → Prop}
    {f : α → M β} {get' : β → Buffer} {good' : β → Prop} {pieces : List Bytes} (hx : Adds E b w x get good pieces)
    (hf : ∀ a w', good a → (get a).WF E → (get a).unmutable = b.unmutable →
      Adds E (get a) w' (f a) get' good' []) : Adds E b w (x >>= f) get' good' pieces := by
  have h := hx.bind hf
  rw [List.append_nil] at h
  exact h

section Append

variable (hA : E.AllocSucceeds) {b : Buffer} (hb : b.WF E)

include hA hb

/-- An append that returns has been made. -/
theorem append_made {src : M Bytes} {bytes : Bytes}
    (hsrc : ∀ w, Exec.Returns src w fun bs w' => bs = bytes ∧ World.Reads (fun _ => True) w w' ∧ w.Same w')
    (w : World) : Exec.Ensures (b.append E bytes.length src) w fun r w' =>
      r.1 = 0 ∧ Appended E b bytes r.2 ∧ (b.stock w).append E bytes = some (r.2.stock w') := by
  intro r w' hrun
  unfold Buffer.append at hrun
  rw [hb.mutex, mutexLock_unlocked, Exec.pure_bind] at hrun
  obtain ⟨⟨chk, b1⟩, w1, hreserve, hrun⟩ := Exec.bind_eq_ok.1 hrun
  dsimp only at hrun
  have hchk : chk = 0 := by
    rcases reserve_ensures (b := { b with mutex := .locked }) hb.block hb.used_le hb.max_lt w _ _ hreserve with
      ⟨_, hnone, _⟩ | ⟨h0, _⟩
    · have hsome := hA w.allocs
      rw [hnone] at hsome
      cases hsome
    · exact h0
  rw [if_neg (not_not.2 hchk)] at hrun
  have hmutex := (reserve_frame _ _ w _ _ hreserve).1
  exact ⟨(put_ensures hmutex _ src w1 r w' hrun).1, appended_of_put hb hsrc hreserve hrun⟩

/-- Bytes are appended, or the buffer cannot be grown for them. -/
theorem append_adds {src : M Bytes} {bytes : Bytes}
    (hsrc : ∀ w, Exec.Returns src w fun bs w' => bs = bytes ∧ World.Reads (fun _ => True) w w' ∧ w.Same w')
    (w : World) : Adds E b w (b.append E bytes.length src) Prod.snd (fun r => r.1 = 0) [bytes] := by
  constructor
  · refine (append_made hA hb hsrc w).mono ?_
    intro r w' ⟨hcode, happ, hstock⟩
    rw [Stock.appendAll_singleton, List.flatten_singleton]
    exact ⟨hcode, happ.extends, hstock⟩
  · intro hplan
    rw [Stock.appendAll_singleton] at hplan
    obtain ⟨hgrow, hroom⟩ := stock_append_isSome hb hplan
    obtain ⟨r, w', hrun, _⟩ := append_returns (P := fun _ => True) hb (.inr fun _ => trivial) hroom rfl
      (fun w => (hsrc w).mono fun _ _ h => ⟨h.1, h.2.1⟩) hgrow
    exact ⟨_, hrun⟩

variable (hm : b.unmutable = false)

include hm

private theorem cappend_adds {str bytes : Bytes} {size : Nat} (hbytes : str.take size = bytes)
    (hlen : size ≤ str.length) (w : World) :
    Adds E b w (b.cappend E str size) Prod.snd (fun r => r.1 = 0) [bytes] := by
  have hl : bytes.length = size := by rw [← hbytes, List.length_take_of_le hlen]
  unfold cappend
  rw [if_neg (by rw [hm]; decide), ← hl]
  refine append_adds hA hb ?_ w
  intro w
  unfold readBytes
  rw [hl, if_pos hlen, hbytes]
  exact .pure ⟨rfl, .refl w, .refl w⟩

omit hA in
/-- `excom_buffer_sappend` does not look at the result of the resize. -/
theorem sappend_adds {body : Option Block} {size : UInt32} (hlen : size.toNat ≤ (blockBytes body).length)
    (w : World) :
    Adds E b w (b.sappend E body size) Prod.snd (fun r => r.1 = 0) [(blockBytes body).take size.toNat] := by
  have hl : ((blockBytes body).take size.toNat).length = size.toNat := List.length_take_of_le hlen
  constructor
  · intro r w' hrun
    unfold Buffer.sappend at hrun
    rw [if_neg (by rw [hm]; decide), hb.mutex, mutexLock_unlocked, Exec.pure_bind] at hrun
    obtain ⟨⟨chk, b1⟩, w1, hreserve, hput⟩ := Exec.bind_eq_ok.1 hrun
    dsimp only at hput
    have hmutex := (reserve_frame _ _ w _ _ hreserve).1
    have hcode := (put_ensures hmutex _ _ w1 r w' hput).1
    rw [← hl] at hreserve hput
    obtain ⟨happ, hstock⟩ := appended_of_put hb (fun w => by rw [hl]; exact load_front hlen w) hreserve hput
    rw [Stock.appendAll_singleton, List.flatten_singleton]
    exact ⟨hcode, happ.extends, hstock⟩
  · intro hplan
    rw [Stock.appendAll_singleton] at hplan
    obtain ⟨hgrow, hroom⟩ := stock_append_isSome hb hplan
    rw [hl] at hgrow hroom
    obtain ⟨r, w', hrun, _⟩ := sappend_returns_of_room hb (P := fun _ => True) (.inr fun _ => trivial) hm hroom hlen
      hgrow fun _ _ => trivial
    exact ⟨_, hrun⟩

end Append

end Buffer

/-! ### The turns of the loop -/

namespace FormatState

/-- A turn that finds no percent sign is the last one, and changes nothing. -/
theorem turn_last {s : FormatState} {lit : Bytes} (hlit : Literal lit) (hcur : s.cur = lit ++ [0]) (w : World) :
    turn E s w = .ok ((s, false), w) := by
  unfold turn
  rw [hcur]
  exact Exec.bind_of_ok (congrFun (strchr_nul hlit []) w) _

variable (E) in
/-- The part of a turn behind the literal: the directive whose percent sign is `pos` bytes ahead. -/
def afterLiteral (s : FormatState) (pos : Nat) : M (FormatState × Bool) :=
  if s.err ≠ 0 then return (s, false)
  else
    match s.cur.drop (pos + 1) with
    | [] => Exec.fault .bounds
    | c :: cur => do
      let s ← s.directive E c
      if s.err ≠ 0 then return (s, false) else return ({ s with cur }, true)

/-- A turn that finds a percent sign appends what is before it, and then what the directive stands for. -/
theorem turn_eq {s : FormatState} {lit rest : Bytes} (hlit : Literal lit) (hcur : s.cur = lit ++ percent :: rest) :
    turn E s = (if lit.length = 0 then pure s else s.append (s.out.cappend E s.cur lit.length)) >>= fun s1 =>
      s1.afterLiteral E lit.length := by
  have hstrchr : strchr '%'.toUInt8 s.cur = pure (some lit.length) := by
    rw [hcur]
    exact strchr_percent hlit rest
  unfold turn
  rw [hstrchr, Exec.pure_bind]
  dsimp only
  split <;> rfl

/-- An append leaves the position and the arguments alone. -/
theorem append_frame (s : FormatState) (x : M (Int × Buffer)) (w : World) :
    Exec.Ensures (s.append x) w fun s' _ => s'.cur = s.cur ∧ s'.va = s.va := by
  unfold append
  exact .seq fun _ _ => .pure ⟨rfl, rfl⟩

/-- What is appended goes to the output, and the code to `err`. -/
theorem append_adds {s : FormatState} {x : M (Int × Buffer)} {piece : Bytes} {w : World}
    (hx : s.out.Adds E w x Prod.snd (fun r => r.1 = 0) [piece]) :
    s.out.Adds E w (s.append x) FormatState.out (fun s' => s'.cur = s.cur ∧ s'.va = s.va ∧ s'.err = 0) [piece] := by
  unfold append
  apply hx.then
  intro ⟨err, out⟩ w' hcode hwf _
  refine Buffer.Adds.nil hwf ?_ ?_ w'
  · rfl
  · exact ⟨rfl, rfl, hcode⟩

section Turns

variable (hA : E.AllocSucceeds) {s : FormatState} (hb : s.out.WF E) (hm : s.out.unmutable = false)

include hA hb hm

/-- A directive appends what it stands for. -/
theorem directive_adds {c : UInt8} {piece : Bytes} {va' : List FormatArg} (hd : Directive c s.va piece va')
    (herr : s.err = 0) (w : World) : s.out.Adds E w (s.directive E c) FormatState.out
      (fun s' => s'.cur = s.cur ∧ s'.va = va' ∧ s'.err = 0) [piece] := by
  obtain ⟨out, cur, args, err⟩ := s
  dsimp only at hb hm hd herr ⊢
  cases hd with
  | @chars str rest args' h =>
    unfold directive
    rw [if_pos rfl]
    dsimp only
    rw [strlen_nul h, Exec.pure_bind]
    exact append_adds (s := ⟨out, cur, va', err⟩)
      (Buffer.cappend_adds hA hb hm (List.take_left' rfl) (by simp) w)
  | string h =>
    unfold directive
    rw [if_neg (by decide), if_pos rfl]
    exact append_adds (s := ⟨out, cur, va', err⟩) (Buffer.sappend_adds hb hm h w)
  | bytes h =>
    unfold directive
    rw [if_neg (by decide), if_neg (by decide), if_pos rfl]
    exact append_adds (s := ⟨out, cur, va', err⟩) (Buffer.cappend_adds hA hb hm rfl h w)
  | percent =>
    unfold directive
    rw [if_neg (by decide), if_neg (by decide), if_neg (by decide), if_pos (by rfl)]
    exact append_adds (s := ⟨out, cur, va', err⟩) (Buffer.cappend_adds hA hb hm rfl (Nat.le_refl 1) w)

/-- A literal is appended, unless it is empty. -/
theorem literal_adds {lit rest : Bytes} (hcur : s.cur = lit ++ rest) (herr : s.err = 0) (w : World) :
    s.out.Adds E w (if lit.length = 0 then pure s else s.append (s.out.cappend E s.cur lit.length)) FormatState.out
      (fun s' => s'.cur = s.cur ∧ s'.va = s.va ∧ s'.err = 0) [lit] := by
  by_cases h0 : lit.length = 0
  · rw [if_pos h0]
    exact .empty hb rfl (List.length_eq_zero_iff.1 h0) ⟨rfl, rfl, herr⟩ w
  · rw [if_neg h0]
    refine append_adds (Buffer.cappend_adds hA hb hm ?_ ?_ w)
    · rw [hcur, List.take_left' rfl]
    · rw [hcur, List.length_append]
      omega

/-- A turn appends a literal and what a directive stands for. -/
theorem turn_adds {lit rest piece : Bytes} {c : UInt8} {va' : List FormatArg} (hlit : Literal lit)
    (hcur : s.cur = lit ++ percent :: c :: rest) (hd : Directive c s.va piece va') (herr : s.err = 0) (w : World) :
    s.out.Adds E w (turn E s) (fun r => r.1.out)
      (fun r => r.2 = true ∧ r.1.cur = rest ∧ r.1.va = va' ∧ r.1.err = 0) [lit, piece] := by
  rw [turn_eq hlit hcur]
  refine (literal_adds hA hb hm hcur herr w).bind ?_
  intro s1 w1 ⟨hcur1, hva1, herr1⟩ hwf hunmutable
  have hdrop : s1.cur.drop (lit.length + 1) = c :: rest := by
    rw [hcur1, hcur, ← List.drop_drop, List.drop_left, List.drop_one, List.tail_cons]
  unfold afterLiteral
  rw [if_neg (not_not.2 herr1), hdrop]
  refine (directive_adds hA hwf (hunmutable.trans hm) (by rw [hva1]; exact hd) herr1 w1).then ?_
  intro s2 w2 ⟨_, hva2, herr2⟩ hwf2 _
  rw [if_neg (not_not.2 herr2)]
  refine Buffer.Adds.nil hwf2 ?_ ?_ w2
  · rfl
  · exact ⟨rfl, rfl, hva2, herr2⟩

/-- The last literal is appended, unless it is empty. -/
theorem finish_adds {lit : Bytes} (hlit : Literal lit) (hcur : s.cur = lit ++ [0]) (herr : s.err = 0) (w : World) :
    s.out.Adds E w (s.finish E) Prod.snd (fun r => r.1 = 0) [lit] := by
  unfold finish
  rw [if_neg (not_not.2 herr)]
  cases lit with
  | nil =>
    rw [hcur]
    refine Buffer.Adds.empty hb ?_ rfl ?_ w
    · rfl
    · rfl
  | cons c lit =>
    have h0 : (0 : UInt8) ∉ c :: lit := fun h => (hlit 0 h).2 rfl
    rw [hcur, List.cons_append]
    dsimp only
    rw [if_neg (hlit c (List.mem_cons_self ..)).2, ← List.cons_append, strlen_nul h0, Exec.pure_bind, ← hcur]
    refine (append_adds (Buffer.cappend_adds hA hb hm ?_ ?_ w)).then ?_
    · rw [hcur, List.take_left' rfl]
    · rw [hcur, List.length_append]
      omega
    · intro s' w' ⟨_, _, herr'⟩ hwf _
      refine Buffer.Adds.nil hwf ?_ ?_ w'
      · rfl
      · exact herr'

end Turns

/-- The loop appends all pieces but the last one, which is a literal, and takes all of the arguments. -/
theorem loop_adds (hA : E.AllocSucceeds) {format : Bytes} {va : List FormatArg} {pieces : List Bytes}
    (h : Renders format va pieces) : ∃ init lit, pieces = init ++ [lit] ∧ Literal lit ∧
      ∀ {s : FormatState}, s.out.WF E → s.out.unmutable = false → s.cur = format ++ [0] → s.va = va → s.err = 0 →
        ∀ {fuel : Nat}, format.length < fuel → ∀ w,
          s.out.Adds E w (Exec.loop .diverges (turn E) fuel s) FormatState.out
            (fun s' => s'.out.unmutable = false ∧ s'.cur = lit ++ [0] ∧ s'.va = [] ∧ s'.err = 0) init := by
  induction h with
  | @last lit hlit =>
    refine ⟨[], lit, rfl, hlit, ?_⟩
    intro s hb hm hcur hva herr fuel hfuel w
    cases fuel with
    | zero => omega
    | succ fuel =>
      have hloop : Exec.loop .diverges (turn E) (fuel + 1) s w = .ok (s, w) :=
        Exec.loop_last (turn_last hlit hcur w)
      refine ⟨?_, fun _ => ⟨_, hloop⟩⟩
      intro s' w' hrun
      rw [hloop] at hrun
      cases hrun
      exact ⟨⟨hm, hcur, hva, herr⟩, .refl hb, rfl⟩
  | @directive lit format piece c va va' pieces hlit hd _ ih =>
    obtain ⟨init, last, hpieces, hlast, ih⟩ := ih
    refine ⟨lit :: piece :: init, last, by rw [hpieces]; rfl, hlast, ?_⟩
    intro s hb hm hcur hva herr fuel hfuel w
    cases fuel with
    | zero => omega
    | succ fuel =>
      subst hva
      have hcur' : s.cur = lit ++ percent :: c :: (format ++ [0]) := by rw [hcur]; simp
      rw [Exec.loop_succ]
      refine (turn_adds hA hb hm hlit hcur' hd herr w).bind ?_
      intro ⟨s1, more⟩ w1 ⟨hmore, hcur1, hva1, herr1⟩ hwf hunmutable
      dsimp only at hmore hcur1 hva1 herr1 hwf hunmutable ⊢
      subst hmore
      rw [if_pos rfl]
      rw [List.length_append, List.length_cons, List.length_cons] at hfuel
      exact ih hwf (hunmutable.trans hm) hcur1 hva1 herr1 (by omega) w1

end FormatState

/-! ### The whole call -/

/-- A call of `excom_buffer_format` that returns `0` and has appended the bytes, and nothing else: the cursor is
where it was.  Its loop has taken all of the arguments. -/
structure FormatsTo (E : Env) (out : Buffer) (format : Bytes) (va : List FormatArg) (bytes : Bytes) (w : World) :
    Prop where
  returns : Exec.Returns (out.format E format va) w fun r _ =>
    r.1 = 0 ∧ r.2.contents = out.contents ++ bytes ∧ r.2.pos = out.pos
  takes : Exec.Ensures (Exec.loop .diverges (FormatState.turn E) (format.length + 1)
    { out, cur := format, va, err := 0 }) w fun s _ => s.va = []

/-- With successful allocations, pieces that come to no more than half of the range of `size_t` find room. -/
theorem Stock.appendAll_isSome (hA : E.AllocSucceeds) {s : Stock} {pieces : List Bytes}
    (h : 2 * (s.contents.length + pieces.flatten.length) ≤ E.word) : (s.appendAll E pieces).isSome := by
  have h32 := E.le_word
  induction pieces generalizing s with
  | nil => rfl
  | cons piece pieces ih =>
    rw [List.flatten_cons, List.length_append] at h
    rw [Stock.appendAll_cons]
    have happ : (s.append E piece).isSome := by
      unfold Stock.append
      by_cases hle : s.contents.length + piece.length ≤ s.max
      · rw [if_pos hle]
        rfl
      · rw [if_neg hle, if_pos ⟨by omega, hA _⟩, Option.isSome_map]
        obtain ⟨m, hm, _⟩ := Buffer.exists_growLoop (E := E) (Nat.not_le.1 hle) (by omega)
        rw [hm]
        rfl
    obtain ⟨s', hs'⟩ := Option.isSome_iff_exists.1 happ
    rw [hs']
    apply ih
    rw [Stock.append_contents hs', List.length_append]
    omega

/-- What a call appends, and that its loop takes all of the arguments. -/
theorem format_adds (hA : E.AllocSucceeds) {out : Buffer} (hb : out.WF E) (hm : out.unmutable = false)
    {format : Bytes} {va : List FormatArg} {pieces : List Bytes} (h : Renders format va pieces) (w : World) :
    out.Adds E w (out.format E (format ++ [0]) va) Prod.snd (fun r => r.1 = 0) pieces ∧
      Exec.Ensures (Exec.loop .diverges (FormatState.turn E) ((format ++ [0]).length + 1)
        { out, cur := format ++ [0], va, err := 0 }) w fun s _ => s.va = [] := by
  obtain ⟨init, lit, hpieces, hlit, hloop⟩ := FormatState.loop_adds hA h
  have hfuel : format.length < (format ++ [0]).length + 1 := by
    rw [List.length_append]
    omega
  have hadds := hloop (s := ⟨out, format ++ [0], va, 0⟩) hb hm rfl rfl rfl hfuel w
  refine ⟨?_, hadds.ensures.mono fun _ _ h => h.1.2.2.1⟩
  unfold Buffer.format
  rw [if_neg (by rw [hm]; decide), hpieces]
  apply hadds.bind
  intro s w1 ⟨hunmutable, hcur, _, herr⟩ hwf _
  exact FormatState.finish_adds hA hwf hunmutable hlit hcur herr w1

/-- `excom_buffer_format` appends what the format stands for exactly when the buffer can be grown for one piece
after the other.  It always can where `size_t` has more than 32 bits. -/
theorem format_renders_iff (hA : E.AllocSucceeds) {out : Buffer} (hb : out.WF E) (hm : out.unmutable = false)
    (hpos : out.pos ≤ out.used) {format : Bytes} {va : List FormatArg} {pieces : List Bytes}
    (h : Renders format va pieces) (hlt : out.used + pieces.flatten.length < 2 ^ 32) (w : World) :
    (FormatsTo E out (format ++ [0]) va pieces.flatten w ↔ ((out.stock w).appendAll E pieces).isSome) ∧
      (32 < E.wordBits → FormatsTo E out (format ++ [0]) va pieces.flatten w) := by
  obtain ⟨hadds, htakes⟩ := format_adds hA hb hm h w
  have hiff : FormatsTo E out (format ++ [0]) va pieces.flatten w ↔
      ((out.stock w).appendAll E pieces).isSome := by
    constructor
    · intro ⟨⟨r, w', hrun, _⟩, _⟩
      obtain ⟨_, _, hstock⟩ := hadds.ensures r w' hrun
      rw [hstock]
      rfl
    · intro hplan
      obtain ⟨⟨r, w'⟩, hrun⟩ := hadds.returns hplan
      obtain ⟨hcode, hext, _⟩ := hadds.ensures r w' hrun
      exact ⟨.intro hrun ⟨hcode, hext.contents, hext.pos (by omega)⟩, htakes⟩
  refine ⟨hiff, ?_⟩
  intro hwide
  apply hiff.2
  apply Stock.appendAll_isSome hA
  have hword : 2 ^ 33 ≤ E.word := Nat.pow_le_pow_right (by decide) hwide
  have hlen : (out.stock w).contents.length = out.used := hb.length_contents
  rw [hlen]
  omega

/-- `"hi %s"` with a string of four letters, for a buffer without a block. -/
theorem format_renders_hi : FormatsTo (Env.amd64 0) (.ofBytes []) [104, 105, 32, 37, 115, 0]
    [.chars [97, 110, 110, 97, 0]] [104, 105, 32, 97, 110, 110, 97] World.start := by
  have hlit : Literal [104, 105, 32] :=
    .cons (by decide) (by decide) (.cons (by decide) (by decide) (.cons (by decide) (by decide) .nil))
  have hname : (0 : UInt8) ∉ [97, 110, 110, 97] := by decide
  have hrenders : Renders [104, 105, 32, 37, 115] [.chars [97, 110, 110, 97, 0]]
      [[104, 105, 32], [97, 110, 110, 97], []] :=
    .directive hlit (.chars hname) (.last .nil)
  exact (format_renders_iff (Env.amd64_allocSucceeds 0) (Buffer.ofBytes_wf (by decide)) rfl (by decide) hrenders
    (by decide) World.start).2 (by decide)

/-- A host with 32-bit words -/
def Env.ia32 : Env := { Env.amd64 0 with wordBits := 32, wide := Nat.le_refl 32 }

/-- A buffer whose block of half the range of a 32-bit `size_t` is full. -/
def fullBuffer : Buffer := .ofBytes (List.replicate (2 ^ 31) 0)

/-- On a host with 32-bit words the block of a full buffer of half the range cannot be doubled, not even for the
single letter of a format without directives. -/
theorem format_renders_not : fullBuffer.WF Env.ia32 ∧ Renders [97] [] [[97]] ∧
    fullBuffer.used + [97].length < 2 ^ 32 ∧ ¬ FormatsTo Env.ia32 fullBuffer [97, 0] [] [97] World.start := by
  have hused : fullBuffer.used = 2 ^ 31 := List.length_replicate
  have hwf : fullBuffer.WF Env.ia32 := by
    apply Buffer.ofBytes_wf
    rw [List.length_replicate]
    decide
  have hlit : Literal [97] := .cons (by decide) (by decide) .nil
  refine ⟨hwf, .last hlit, by rw [hused]; decide, ?_⟩
  intro ⟨⟨r, w', hrun, _⟩, _⟩
  obtain ⟨hadds, _⟩ := format_adds (fun _ => rfl) hwf rfl (.last hlit) World.start
  obtain ⟨_, _, hstock⟩ := hadds.ensures r w' hrun
  have hmax : fullBuffer.max = 2 ^ 31 := List.length_replicate
  rw [Stock.appendAll_singleton, Buffer.stock_append hwf, hused, hmax, if_neg (by decide)] at hstock
  split at hstock
  · obtain ⟨m, hm, _⟩ := Option.map_eq_some_iff.1 hstock
    rw [if_neg (by decide)] at hm
    obtain ⟨j, hlo, hhi, _⟩ := Buffer.growLoop_pow (by decide) (Nat.lt_succ_self _) hm
    exact absurd hhi (Nat.not_lt.2 hlo)
  · cases hstock

end Excom
