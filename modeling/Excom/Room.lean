import Excom.BufferLemmas
import Excom.Lib.Tries

/-!
# Room for a sequence of appends

Whether an append is made depends on what the buffer holds, on its capacity and on the outcome of the next
allocation.  `Stock.append` tells it beforehand, and `Stock.appendAll` does for one append after the other.  The
append functions try to do what they tell (`append_tries`, `sappend_tries`).
-/

namespace Excom

variable {E : Env}

/-- What a resize does to the blocks: a new one is asked for, and takes the place of the old one if it is
given. -/
structure Replaces (E : Env) (b : Buffer) (w : World) (b' : Buffer) (w' : World) : Prop where
  randoms : w'.randoms = w.randoms
  allocs : w'.allocs = w.allocs + 1
  blocks : E.malloc w.allocs = none ∧ b'.buf = b.buf ∧ w'.frees = w.frees ∨
    (E.malloc w.allocs).isSome ∧ b'.buf.map Block.id = some w.allocs ∧
      w'.frees = (b.buf.map Block.id).toList ++ w.frees

private theorem resize_replaces (b : Buffer) (toFit : Nat) (w : World) :
    Exec.Ensures (b.resize E toFit) w fun r w' => Replaces E b w r.2 w' := by
  intro r w' hrun
  obtain ⟨m, -, ⟨hA, hr, hw⟩ | ⟨-, hresized⟩⟩ := Buffer.resize_ensures b toFit w r w' hrun
  · rw [hr, hw]
    exact ⟨rfl, rfl, .inl ⟨hA, rfl, rfl⟩⟩
  · exact ⟨hresized.randoms, hresized.allocs, .inr ⟨hresized.given, hresized.id, hresized.frees⟩⟩

/-- Room is made by a resize, or it is there. -/
theorem reserve_replaces (b : Buffer) (size : Nat) (w : World) :
    Exec.Ensures (b.reserve E size) w fun r w' =>
      if (b.used + size) % E.word > b.max then Replaces E b w r.2 w' else r.2 = b ∧ w.Same w' := by
  unfold Buffer.reserve
  split
  · exact resize_replaces b _ w
  · exact .pure ⟨rfl, .refl w⟩

/-- To fill the room neither allocates nor frees. -/
theorem put_same {b : Buffer} {size : Nat} {src : M Bytes}
    (hsrc : ∀ w, Exec.Ensures src w fun _ w' => w.Same w') (w : World) :
    Exec.Ensures (b.put E size src) w fun r w' => w.Same w' ∧ r.2.buf.map Block.id = b.buf.map Block.id := by
  unfold Buffer.put
  refine (hsrc w).bind ?_
  intro bytes w1 h1
  refine (store_same b.buf b.used bytes w1).bind ?_
  intro buf w2 ⟨h2, hid⟩
  rw [h2]
  refine (mutexUnlock_same b.mutex w1).bind ?_
  intro mutex w3 h3
  exact .pure ⟨h1.trans h3, hid⟩

/-! ### What is there for an append -/

/-- What decides about the next append: what the buffer holds, its capacity, and how many blocks and random
numbers have been asked for so far. -/
@[ext] structure Stock where
  contents : Bytes
  max : Nat
  allocs : Nat
  randoms : Nat

def Buffer.stock (b : Buffer) (w : World) : Stock := ⟨b.contents, b.max, w.allocs, w.randoms⟩

/-- `bs` is added, in the block that is there or in one that can be had; `none` if it finds no room. -/
def Stock.append (E : Env) (s : Stock) (bs : Bytes) : Option Stock :=
  if s.contents.length + bs.length ≤ s.max then some { s with contents := s.contents ++ bs }
  else if s.contents.length + bs.length < E.word ∧ (E.malloc s.allocs).isSome then
    (Buffer.growLoop E.word (s.contents.length + bs.length) (E.wordBits + 1) (if s.max = 0 then 1 else s.max)).map
      fun max => { s with contents := s.contents ++ bs, max, allocs := s.allocs + 1 }
  else none

/-- The pieces are added one after the other. -/
def Stock.appendAll (E : Env) (s : Stock) (pieces : List Bytes) : Option Stock := pieces.foldlM (Stock.append E) s

theorem Stock.appendAll_cons (s : Stock) (piece : Bytes) (pieces : List Bytes) :
    s.appendAll E (piece :: pieces) = (s.append E piece).bind fun s' => s'.appendAll E pieces := rfl

theorem Stock.appendAll_append (s : Stock) (pieces pieces' : List Bytes) :
    s.appendAll E (pieces ++ pieces') = (s.appendAll E pieces).bind fun s' => s'.appendAll E pieces' :=
  List.foldlM_append

theorem Stock.appendAll_singleton (s : Stock) (piece : Bytes) : s.appendAll E [piece] = s.append E piece := by
  show ((s.append E piece).bind fun s' => some s') = _
  cases s.append E piece <;> rfl

/-- An append that is made puts its bytes behind the contents. -/
theorem Stock.append_contents {s s' : Stock} {bs : Bytes} (h : s.append E bs = some s') :
    s'.contents = s.contents ++ bs := by
  unfold Stock.append at h
  split at h
  · cases h
    rfl
  · split at h
    · obtain ⟨max, -, rfl⟩ := Option.map_eq_some_iff.1 h
      rfl
    · cases h

/-- So do several of them. -/
theorem Stock.appendAll_contents {s s' : Stock} {pieces : List Bytes} (h : s.appendAll E pieces = some s') :
    s'.contents = s.contents ++ pieces.flatten := by
  induction pieces generalizing s with
  | nil =>
    cases h
    exact (List.append_nil _).symm
  | cons piece pieces ih =>
    obtain ⟨s1, h1, h2⟩ := Option.bind_eq_some_iff.1 h
    rw [ih h2, Stock.append_contents h1, List.append_assoc, List.flatten_cons]

namespace Buffer

/-- What `excom_buffer_init` makes: an empty buffer, which can be used if a block was given for it. -/
structure Begun (E : Env) (start : Nat) (w : World) (b : Buffer) (w' : World) : Prop where
  allocs : w'.allocs = w.allocs + 1
  frees : w'.frees = w.frees
  randoms : w'.randoms = w.randoms
  used : b.used = 0
  pos : b.pos = 0
  max : b.max = start
  unmutable : b.unmutable = false
  freeable : b.freeable = true
  given : (E.malloc w.allocs).isSome → b.WF E ∧ b.buf.map Block.id = some w.allocs
  denied : E.malloc w.allocs = none → b.buf = none ∧ b.mutex = .uninit

theorem init_begun {start : Nat} (hs : start < E.word) (w : World) :
    Exec.Returns (Buffer.init E start) w fun r w' => Begun E start w r.2 w' ∧
      r.1 = if (E.malloc w.allocs).isSome then 0 else ENOMEM := by
  unfold Buffer.init
  rcases hA : E.malloc w.allocs with _ | junk
  · refine .intro (Exec.bind_of_ok (malloc_none hA start) _) ⟨⟨rfl, rfl, rfl, rfl, rfl, rfl, rfl, rfl, ?_, ?_⟩, rfl⟩
    · rw [hA]
      intro h
      cases h
    · exact fun _ => ⟨rfl, rfl⟩
  · have hsome : (E.malloc w.allocs).isSome := by rw [hA]; rfl
    refine (malloc_some hsome start).bind ?_
    intro p w1 ⟨junk', _, hp, hw1⟩
    subst hp hw1
    refine .pure ⟨⟨rfl, rfl, rfl, rfl, rfl, rfl, rfl, rfl, ?_, ?_⟩, rfl⟩
    · exact fun _ => ⟨⟨rfl, by simp, Nat.zero_le _, hs⟩, rfl⟩
    · rw [hA]
      intro h
      cases h

theorem Begun.used_le {start : Nat} {w w' : World} {b : Buffer} (h : Begun E start w b w') :
    b.used ≤ (blockBytes b.buf).length := by
  rw [h.used]
  exact Nat.zero_le _

theorem Begun.contents {start : Nat} {w w' : World} {b : Buffer} (h : Begun E start w b w') : b.contents = [] := by
  rw [Buffer.contents, h.used, List.take_zero]

/-- `b'` is `b` after some appends, made or not. -/
structure Kept (E : Env) (b b' : Buffer) : Prop where
  wf : b'.WF E
  unmutable : b'.unmutable = b.unmutable
  freeable : b'.freeable = b.freeable
  pos : b.pos < 2 ^ 32 → b'.pos = b.pos

theorem Kept.refl {b : Buffer} (hb : b.WF E) : Kept E b b := ⟨hb, rfl, rfl, fun _ => rfl⟩

theorem Kept.trans {b b' b'' : Buffer} (h : Kept E b b') (h' : Kept E b' b'') : Kept E b b'' :=
  ⟨h'.wf, h'.unmutable.trans h.unmutable, h'.freeable.trans h.freeable, fun hpos => by
    have hpos' := h.pos hpos
    rw [h'.pos (by omega), hpos']⟩

theorem Appended.kept {b b' : Buffer} {bs : Bytes} (h : Appended E b bs b') : Kept E b b' :=
  ⟨h.wf, h.unmutable, h.freeable, fun hpos => by rw [h.pos, Nat.mod_eq_of_lt hpos, ite_self]⟩

/-- A computation that tries to append `bs` to `b`, piece by piece: `get` says where the buffer is in its result. -/
abbrev Tries (E : Env) {α : Type} (b : Buffer) (w : World) (x : M α) (get : α → Buffer) (n : Nat)
    (plan : Option Stock) : Prop :=
  Exec.Tries x w (fun a _ => Kept E b (get a)) (fun a _ => (get a).used) (b.used + n)
    (fun a w' => (get a).stock w') plan

/-- Appending to what has been appended to -/
theorem Tries.seq {α β : Type} {b : Buffer} {w : World} {x : M α} {get : α → Buffer} {f : α → M β}
    {get' : β → Buffer} {n n' : Nat} {plan : Option Stock} {plan' : Stock → Option Stock}
    (hx : b.Tries E w x get n plan)
    (hf : ∀ a w', Kept E b (get a) → (get a).Tries E w' (f a) get' n' (plan' ((get a).stock w'))) :
    b.Tries E w (x >>= f) get' (n + n') (plan.bind plan') := by
  have hmono : StrictMono fun level : Nat => level + n' := fun _ _ h => Nat.add_lt_add_right h n'
  unfold Buffer.Tries
  rw [← Nat.add_assoc]
  apply Exec.Tries.bind hmono hx
  intro a w' hkept
  have h := hf a w' hkept
  refine ⟨h.keeps.mono ?_, h.whole, h.made⟩
  intro r w'' ⟨hkept', hle⟩
  exact ⟨hkept.trans hkept', hle⟩

/-- What follows leaves the buffer as it is, and asks for no blocks and no random numbers. -/
theorem Tries.done {α β : Type} {b : Buffer} {w : World} {x : M α} {get : α → Buffer} {f : α → M β}
    {get' : β → Buffer} {n : Nat} {plan : Option Stock} (hx : b.Tries E w x get n plan)
    (hf : ∀ a w', Exec.Returns (f a) w' fun r w'' => get' r = get a ∧ w''.allocs = w'.allocs ∧
      w''.randoms = w'.randoms) : b.Tries E w (x >>= f) get' n plan := by
  have hid : plan = plan.map id := by rw [Option.map_id, id]
  rw [hid]
  apply Exec.Tries.followed hx
  intro a w'
  refine (hf a w').mono ?_
  intro r w'' ⟨hget, hallocs, hrandoms⟩
  rw [hget]
  refine ⟨id, rfl, ?_⟩
  unfold Buffer.stock
  rw [hallocs, hrandoms]
  rfl

variable {b : Buffer} (hb : b.WF E)

include hb

/-- What decides about an append, read off the buffer and the world. -/
theorem stock_append (w : World) (bs : Bytes) : (b.stock w).append E bs =
    if b.used + bs.length ≤ b.max then some ⟨b.contents ++ bs, b.max, w.allocs, w.randoms⟩
    else if b.used + bs.length < E.word ∧ (E.malloc w.allocs).isSome then
      (growLoop E.word (b.used + bs.length) (E.wordBits + 1) (if b.max = 0 then 1 else b.max)).map fun max =>
        ⟨b.contents ++ bs, max, w.allocs + 1, w.randoms⟩
    else none := by
  have hlen : (b.stock w).contents.length = b.used := hb.length_contents
  unfold Stock.append
  rw [hlen]
  rfl

/-- Where there is a stock after the append, room is found. -/
theorem stock_append_isSome {w : World} {bs : Bytes} (h : ((b.stock w).append E bs).isSome) :
    b.CanGrow E bs.length ∧ (b.used + bs.length ≤ b.max ∨ (E.malloc w.allocs).isSome) := by
  have hmax := hb.max_lt
  rw [stock_append hb] at h
  by_cases hle : b.used + bs.length ≤ b.max
  · exact ⟨⟨by omega, fun hlt => absurd hle (Nat.not_le.2 hlt)⟩, .inl hle⟩
  · rw [if_neg hle] at h
    by_cases hroom : b.used + bs.length < E.word ∧ (E.malloc w.allocs).isSome
    · rw [if_pos hroom, Option.isSome_map] at h
      exact ⟨⟨hroom.1, fun _ => Option.isSome_iff_exists.1 h⟩, .inr hroom.2⟩
    · rw [if_neg hroom] at h
      cases h

/-- What was appended is what the stock tells. -/
theorem Appended.stock {b' : Buffer} {bs : Bytes} (h : Appended E b bs b') {w w' : World}
    (hw : if b.used + bs.length ≤ b.max then w'.allocs = w.allocs
      else w'.allocs = w.allocs + 1 ∧ (E.malloc w.allocs).isSome) (hr : w'.randoms = w.randoms) :
    (b.stock w).append E bs = some (b'.stock w') := by
  have hmax := h.max
  rw [stock_append hb]
  by_cases hle : b.used + bs.length ≤ b.max
  · rw [if_pos hle] at hw hmax
    rw [if_pos hle]
    exact congrArg some (Stock.ext h.contents.symm hmax.symm hw.symm hr.symm)
  · rw [if_neg hle] at hw hmax
    have hlt : b.used + bs.length < E.word := by
      have hle' := h.wf.used_le
      rw [h.used] at hle'
      exact Nat.lt_of_le_of_lt hle' h.wf.max_lt
    unfold Buffer.GrowsTo at hmax
    rw [if_neg hle, if_pos ⟨hlt, hw.2⟩, hmax]
    exact congrArg some (Stock.ext h.contents.symm rfl hw.1.symm hr.symm)

omit hb in
/-- Reading the first bytes of a block -/
theorem load_front {p : Option Block} {len : Nat} (hlen : len ≤ (blockBytes p).length) (w : World) :
    Exec.Returns (load p 0 len) w fun bs w' =>
      bs = (blockBytes p).take len ∧ World.Reads (fun _ => True) w w' ∧ w.Same w' := by
  have hload := load_returns (P := fun _ => True) p 0 len (by rwa [Nat.zero_add]) (fun _ _ _ => trivial) w
  refine (hload.and_ensures (load_same _ _ _ w)).mono ?_
  intro bs w' h
  exact ⟨h.1.1, h.1.2, h.2⟩

/-- Bytes that were copied behind those of the buffer, after room was asked for. -/
theorem appended_of_put {b1 : Buffer} {chk : Int} {src : M Bytes} {bytes : Bytes} {r : Int × Buffer}
    {w w1 w' : World}
    (hsrc : ∀ w, Exec.Returns src w fun bs w' => bs = bytes ∧ World.Reads (fun _ => True) w w' ∧ w.Same w')
    (hreserve : ({ b with mutex := .locked } : Buffer).reserve E bytes.length w = .ok ((chk, b1), w1))
    (hput : b1.put E bytes.length src w1 = .ok (r, w')) :
    Appended E b bytes r.2 ∧ (b.stock w).append E bytes = some (r.2.stock w') := by
  have hused := hb.used_le
  have hmax := hb.max_lt
  have hblock := hb.block
  obtain ⟨-, hroom⟩ := put_room (fun w => (hsrc w).ensures.mono fun _ _ h => ⟨h.1, rfl⟩) hput
  have hres := reserve_ensures (b := { b with mutex := .locked }) hb.block hb.used_le hb.max_lt w _ _ hreserve
  have hrep := reserve_replaces { b with mutex := .locked } bytes.length w _ _ hreserve
  dsimp only at hres hrep
  rcases hres with ⟨-, -, hnot, rfl⟩ | ⟨-, hused1, hlen, hres⟩
  · -- the block is still the old one
    dsimp only at hroom
    omega
  · have hsum : b.used + bytes.length < E.word := by omega
    obtain ⟨hA, hreserved⟩ := hres hsum
    obtain ⟨-, -, happ, -⟩ := (hreserved.put_returns hb src bytes rfl
      (fun w => (hsrc w).mono fun _ _ h => ⟨h.1, h.2.1⟩) w1).ensures _ _ hput
    obtain ⟨hsame, -⟩ := put_same (fun w => (hsrc w).ensures.mono fun _ _ h => h.2.2) w1 _ _ hput
    rw [Nat.mod_eq_of_lt hsum] at hrep
    refine ⟨happ, happ.stock hb ?_ ?_⟩
    · by_cases hle : b.used + bytes.length ≤ b.max
      · rw [if_neg (Nat.not_lt.2 hle)] at hrep
        rw [if_pos hle, hsame.allocs, hrep.2.allocs]
      · rw [if_pos (Nat.not_le.1 hle)] at hrep
        rw [if_neg hle, hsame.allocs, hrep.allocs]
        exact ⟨rfl, hA.resolve_left hle⟩
    · rw [hsame.randoms]
      split at hrep
      · exact hrep.randoms
      · exact hrep.2.randoms

/-- `Buffer.append` tries to append. -/
theorem append_tries {src : M Bytes} {bytes : Bytes}
    (hsrc : ∀ w, Exec.Returns src w fun bs w' => bs = bytes ∧ World.Reads (fun _ => True) w w' ∧ w.Same w')
    (w : World) :
    b.Tries E w (b.append E bytes.length src) Prod.snd bytes.length ((b.stock w).append E bytes) := by
  have hcases : Exec.Ensures (b.append E bytes.length src) w fun r w' =>
      Appended E b bytes r.2 ∧ (b.stock w).append E bytes = some (r.2.stock w') ∨ r.2 = b ∧ 0 < bytes.length := by
    intro r w' hrun
    unfold Buffer.append at hrun
    rw [hb.mutex, mutexLock_unlocked, Exec.pure_bind] at hrun
    obtain ⟨⟨chk, b1⟩, w1, hreserve, hrun⟩ := Exec.bind_eq_ok.1 hrun
    dsimp only at hrun
    by_cases hchk : chk = 0
    · rw [if_neg (not_not.2 hchk)] at hrun
      exact .inl (appended_of_put hb hsrc hreserve hrun)
    · rw [if_pos hchk] at hrun
      have hres := reserve_ensures (b := { b with mutex := .locked }) hb.block hb.used_le hb.max_lt w _ _ hreserve
      have hused := hb.used_le
      dsimp only at hres
      rcases hres with ⟨-, -, hnot, rfl⟩ | ⟨h0, -⟩
      · obtain ⟨err, w2, -, hrun⟩ := Exec.bind_eq_ok.1 hrun
        rw [mutexUnlock_locked, Exec.pure_bind] at hrun
        cases hrun
        exact .inr ⟨hb.unlocked, by omega⟩
      · exact absurd h0 hchk
  refine ⟨hcases.mono ?_, hcases.mono ?_, ?_⟩
  · intro r w' h
    rcases h with ⟨happ, -⟩ | ⟨hsame, -⟩
    · exact ⟨happ.kept, Nat.le_of_eq happ.used⟩
    · rw [hsame]
      exact ⟨.refl hb, Nat.le_add_right _ _⟩
  · intro r w' h htop
    rcases h with ⟨-, hstock⟩ | ⟨hsame, hpos⟩
    · exact hstock
    · rw [hsame] at htop
      omega
  · intro hroom
    obtain ⟨hgrow, hA⟩ := stock_append_isSome hb hroom
    refine (append_returns (P := fun _ => True) hb (.inr fun _ => trivial) hA rfl
      (fun w => (hsrc w).mono fun _ _ h => ⟨h.1, h.2.1⟩) hgrow).mono ?_
    intro r w' h
    exact h.2.2.2.used

variable (hm : b.unmutable = false)

include hm

/-- `excom_buffer_cappend` tries to append. -/
theorem cappend_tries {str bytes : Bytes} {size : Nat} (hbytes : str.take size = bytes) (hlen : size ≤ str.length)
    (w : World) : b.Tries E w (b.cappend E str size) Prod.snd size ((b.stock w).append E bytes) := by
  have hl : bytes.length = size := by rw [← hbytes, List.length_take, Nat.min_eq_left hlen]
  unfold cappend
  rw [if_neg (by rw [hm]; decide), ← hl]
  refine append_tries hb ?_ w
  intro w
  unfold readBytes
  rw [hl, if_pos hlen, hbytes]
  exact .pure ⟨rfl, .refl w, .refl w⟩

/-- `excom_buffer_bappend2` tries to append. -/
theorem bappend2_tries {src : Buffer} {amount : Nat} (hlen : amount ≤ (blockBytes src.buf).length) (w : World) :
    b.Tries E w (b.bappend2 E src amount) Prod.snd amount
      ((b.stock w).append E ((blockBytes src.buf).take amount)) := by
  have hl : ((blockBytes src.buf).take amount).length = amount := List.length_take_of_le hlen
  unfold bappend2
  rw [if_neg (by rw [hm]; decide)]
  by_cases h0 : amount = 0
  · subst h0
    rw [if_pos rfl, List.take_zero]
    refine .pure (.refl hb) rfl ?_
    rw [stock_append hb, if_pos (by exact hb.used_le), List.append_nil]
    rfl
  · rw [if_neg h0]
    have h := append_tries hb (load_front hlen) w
    rw [hl] at h
    exact h

/-- `excom_buffer_sappend` tries to append. -/
theorem sappend_tries {body : Option Block} {size : UInt32} (hlen : size.toNat ≤ (blockBytes body).length)
    (w : World) :
    b.Tries E w (b.sappend E body size) Prod.snd size.toNat
      ((b.stock w).append E ((blockBytes body).take size.toNat)) := by
  have hl : ((blockBytes body).take size.toNat).length = size.toNat := List.length_take_of_le hlen
  have hsrc := load_front hlen
  have hadds : Exec.Ensures (b.sappend E body size) w fun r w' =>
      Appended E b ((blockBytes body).take size.toNat) r.2 ∧
        (b.stock w).append E ((blockBytes body).take size.toNat) = some (r.2.stock w') := by
    intro r w' hrun
    unfold Buffer.sappend at hrun
    rw [if_neg (by rw [hm]; decide), hb.mutex, mutexLock_unlocked, Exec.pure_bind] at hrun
    obtain ⟨⟨chk, b1⟩, w1, hreserve, hput⟩ := Exec.bind_eq_ok.1 hrun
    dsimp only at hput
    rw [← hl] at hreserve
    refine appended_of_put hb hsrc hreserve ?_
    rw [hl]
    exact hput
  refine ⟨hadds.mono ?_, hadds.mono ?_, ?_⟩
  · intro r w' ⟨happ, _⟩
    exact ⟨happ.kept, Nat.le_of_eq (by rw [happ.used, hl])⟩
  · intro r w' ⟨_, hstock⟩ _
    exact hstock
  · intro hroom
    obtain ⟨hgrow, hA⟩ := stock_append_isSome hb hroom
    rw [hl] at hgrow hA
    refine (sappend_returns_of_room hb (P := fun _ => True) (.inr fun _ => trivial) hm hA hlen hgrow
      fun _ _ => trivial).mono ?_
    intro r w' ⟨_, _, happ⟩
    rw [happ.used, hl]

end Buffer

end Excom
