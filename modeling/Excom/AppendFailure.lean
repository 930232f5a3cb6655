import Excom.BufferFifo

/-!
# Appends that fail

What the append functions do when the allocation of `excom_buffer_resize` fails.  The code that they return is
read from `errno`, which `excom_return_errno` has cleared by then: nothing is appended, and the code is `0`.
`excom_buffer_sappend` copies its bytes all the same.  So an append is clean exactly if it finds room
(`appendsCleanly_iff`).
-/

namespace Excom

/-- The doubling of `max`, or of `1` where that is `0`, comes to `toFit` or more in `size_t`. -/
def Buffer.Reaches (E : Env) (b : Buffer) (toFit : Nat) : Prop :=
  ∃ k, toFit ≤ (if b.max = 0 then 1 else b.max) * 2 ^ (k + 1) % E.word

/-- There is room for `size` more bytes, or it can be made. -/
def Buffer.FindsRoom (E : Env) (b : Buffer) (size : Nat) (w : World) : Prop :=
  b.used + size ≤ b.max ∨
    b.used + size < E.word ∧ b.Reaches E (b.used + size) ∧ (E.malloc w.allocs).isSome

/-- The code is `0` if and only if the bytes were appended within the block, and otherwise the buffer is as it was
before.  In both cases its mutex is free. -/
def AppendsCleanly (E : Env) (b : Buffer) (call : BufferCall) (w : World) : Prop :=
  Exec.Returns (call.run E b) w fun r _ =>
    (r.1 = 0 ↔ r.2.1.contents = b.contents ++ call.bytes ∧ r.2.1.WF E) ∧ (r.1 ≠ 0 → r.2.1 = b)

variable {E : Env} {b : Buffer}

private theorem Buffer.reaches_iff {size : Nat} : b.Reaches E (b.used + size) ↔ ∃ m, b.GrowsTo E size m := by
  unfold Buffer.Reaches Buffer.GrowsTo
  rw [Buffer.growLoop_ends_iff]
  constructor
  · intro ⟨k, hk⟩
    by_cases hlt : k < E.wordBits
    · exact ⟨k, by omega, hk⟩
    · -- the size has wrapped around to zero
      have hdvd : E.word ∣ 2 ^ (k + 1) := Nat.pow_dvd_pow 2 (by omega)
      rw [Nat.mod_eq_zero_of_dvd (Nat.dvd_mul_left_of_dvd hdvd _)] at hk
      exact ⟨0, by omega, by omega⟩
  · intro ⟨k, _, hk⟩
    exact ⟨k, hk⟩

namespace Buffer

variable (hb : b.WF E)

include hb

private theorem FindsRoom.canGrow {size : Nat} {w : World} (h : b.FindsRoom E size w) :
    b.CanGrow E size ∧ (b.used + size ≤ b.max ∨ (E.malloc w.allocs).isSome) := by
  rcases h with hle | ⟨hsum, hreaches, hA⟩
  · have hlt := hb.max_lt
    exact ⟨⟨by omega, fun h => absurd hle (Nat.not_le.2 h)⟩, .inl hle⟩
  · exact ⟨⟨hsum, fun _ => reaches_iff.1 hreaches⟩, .inr hA⟩

/-- Bytes that are copied without a fault have found room. -/
private theorem findsRoom_of_put {b1 : Buffer} {chk : Int} {size : Nat} {src : M Bytes} {bytes : Bytes}
    {r : Int × Buffer} {w w1 w' : World} (hsrc : ∀ w, Exec.Ensures src w fun bs _ => bs = bytes ∧ bytes.length = size)
    (hreserve : ({ b with mutex := .locked } : Buffer).reserve E size w = .ok ((chk, b1), w1))
    (hput : b1.put E size src w1 = .ok (r, w')) : b.FindsRoom E size w := by
  obtain ⟨-, hroom⟩ := put_room hsrc hput
  have hused := hb.used_le
  have hblock := hb.block
  by_cases hle : b.used + size ≤ b.max
  · exact .inl hle
  right
  have hres := reserve_ensures (b := { b with mutex := .locked }) hb.block hb.used_le hb.max_lt w _ _ hreserve
  dsimp only at hres
  rcases hres with ⟨-, -, -, rfl⟩ | ⟨-, hused1, hlen, hres⟩
  · -- the block is still the old one
    dsimp only at hroom
    omega
  · obtain ⟨hA, hreserved⟩ := hres (by omega)
    have hmax := hreserved.max
    rw [if_neg hle] at hmax
    exact ⟨by omega, reaches_iff.2 ⟨_, hmax⟩, hA.resolve_left hle⟩

end Buffer

/-- A clean append, without what the call hands out besides -/
private def Clean (E : Env) (b : Buffer) (bytes : Bytes) (x : M (Int × Buffer)) (w : World) : Prop :=
  Exec.Returns x w fun r _ =>
    (r.1 = 0 ↔ r.2.contents = b.contents ++ bytes ∧ r.2.WF E) ∧ (r.1 ≠ 0 → r.2 = b)

private theorem clean_of_appended {bytes : Bytes} {x : M (Int × Buffer)} {w : World}
    (h : Exec.Returns x w fun r _ => r.1 = 0 ∧ Buffer.Appended E b bytes r.2) : Clean E b bytes x w := by
  refine h.mono ?_
  intro r w' ⟨hcode, happ⟩
  exact ⟨⟨fun _ => ⟨happ.contents, happ.wf⟩, fun _ => hcode⟩, fun hne => absurd hcode hne⟩

/-- The code after a failed resize is `0`. -/
private theorem append_clean_iff (hb : b.WF E) {src : M Bytes} {bytes : Bytes}
    (hsrc : ∀ w, Exec.Returns src w fun bs w' => bs = bytes ∧ World.Reads (fun _ => True) w w') (w : World) :
    Clean E b bytes (b.append E bytes.length src) w ↔ b.FindsRoom E bytes.length w := by
  constructor
  · intro ⟨⟨err, b'⟩, w', hrun, hclean, _⟩
    unfold Buffer.append at hrun
    rw [hb.mutex, mutexLock_unlocked, Exec.pure_bind] at hrun
    obtain ⟨⟨chk, b1⟩, w1, hreserve, hrun⟩ := Exec.bind_eq_ok.1 hrun
    dsimp only at hrun
    by_cases hchk : chk = 0
    · rw [if_neg (not_not.2 hchk)] at hrun
      exact Buffer.findsRoom_of_put hb (fun w => (hsrc w).ensures.mono fun _ _ h => ⟨h.1, rfl⟩) hreserve hrun
    · have hres := Buffer.reserve_ensures (b := { b with mutex := .locked }) hb.block hb.used_le hb.max_lt w _ _
        hreserve
      obtain ⟨hmutex, herrno⟩ := Buffer.reserve_frame _ _ w _ _ hreserve
      dsimp only at hres hmutex herrno
      rcases hres with ⟨-, -, -, rfl⟩ | ⟨h0, -⟩
      · rw [if_pos hchk] at hrun
        have hrun' : (pure (w1.errno, ({ b with mutex := .unlocked } : Buffer)) : M (Int × Buffer))
          { w1 with errno := 0 } = .ok ((err, b'), w') := hrun
        cases hrun'
        have hcontents := (hclean.1 (herrno.resolve_left hchk)).1
        have hlen : b.contents.length = (b.contents ++ bytes).length := congrArg List.length hcontents
        rw [List.length_append] at hlen
        have hused := hb.used_le
        exact .inl (by omega)
      · exact absurd h0 hchk
  · intro hroom
    obtain ⟨hgrow, hA⟩ := hroom.canGrow hb
    exact clean_of_appended ((Buffer.append_returns hb (.inr fun _ => trivial) hA rfl hsrc hgrow).mono
      fun _ _ h => ⟨h.1, h.2.2.2⟩)

/-- `excom_buffer_sappend` copies to a block that is too small. -/
private theorem sappend_clean_iff (hb : b.WF E) (hm : b.unmutable = false) {body : Option Block} {size : UInt32}
    (hlen : size.toNat ≤ (blockBytes body).length) (w : World) :
    Clean E b ((blockBytes body).take size.toNat) (b.sappend E body size) w ↔ b.FindsRoom E size.toNat w := by
  constructor
  · intro ⟨r, w', hrun, _⟩
    unfold Buffer.sappend at hrun
    rw [if_neg (by rw [hm]; decide), hb.mutex, mutexLock_unlocked, Exec.pure_bind] at hrun
    obtain ⟨⟨chk, b1⟩, w1, hreserve, hput⟩ := Exec.bind_eq_ok.1 hrun
    have hsrc : ∀ w, Exec.Ensures (load body 0 size.toNat) w fun bs _ =>
        bs = (blockBytes body).take size.toNat ∧ ((blockBytes body).take size.toNat).length = size.toNat := by
      intro w
      refine (load_ensures body 0 size.toNat w).mono ?_
      intro bs w' ⟨hbs, _⟩
      exact ⟨hbs, List.length_take_of_le hlen⟩
    exact Buffer.findsRoom_of_put hb hsrc hreserve hput
  · intro hroom
    obtain ⟨hgrow, hA⟩ := hroom.canGrow hb
    exact clean_of_appended ((Buffer.sappend_returns_of_room hb (P := fun _ => True) (.inr fun _ => trivial) hm hA
      hlen hgrow fun _ _ => trivial).mono fun _ _ h => ⟨h.1, h.2.2⟩)

private theorem bappend_clean_iff (hb : b.WF E) (hm : b.unmutable = false) {p : Option Block} {off amount : Nat}
    (hlen : off + amount ≤ (blockBytes p).length) (w : World) :
    Clean E b (((blockBytes p).drop off).take amount) (if b.unmutable then pure (EACCES, b)
      else if amount = 0 then pure (0, b) else b.append E amount (load p off amount)) w ↔
        b.FindsRoom E amount w := by
  rw [if_neg (by rw [hm]; decide)]
  by_cases h0 : amount = 0
  · rw [if_pos h0, h0, List.take_zero]
    exact iff_of_true (clean_of_appended (.pure ⟨rfl, .nil hb⟩)) (.inl hb.used_le)
  · have hbytes : (((blockBytes p).drop off).take amount).length = amount := by
      rw [List.length_take, List.length_drop]
      omega
    have hclean := append_clean_iff hb (load_returns (P := fun _ => True) p off amount hlen fun _ _ _ => trivial) w
    rw [hbytes] at hclean
    rw [if_neg h0]
    exact hclean

/-- An append to a mutable buffer is clean if and only if there is room for the bytes, or the doubling comes to an
end and the allocation succeeds. -/
theorem appendsCleanly_iff (hb : b.WF E) (hm : b.unmutable = false) {call : BufferCall}
    (happend : ∀ outcome, call ≠ .write outcome) (hwithin : call.Within E) (w : World) :
    AppendsCleanly E b call w ↔ b.FindsRoom E call.bytes.length w := by
  rw [length_bytes hwithin]
  cases call with
  | cappend str size =>
    have hlen : (str.take size).length = size := length_bytes hwithin
    have hle : size ≤ str.length := hwithin
    have hsrc (w : World) : Exec.Returns (readBytes str size) w fun bs w' =>
        bs = str.take size ∧ World.Reads (fun _ => True) w w' := by
      unfold readBytes
      rw [if_pos hle]
      exact .pure ⟨rfl, .refl w⟩
    have hclean := append_clean_iff hb hsrc w
    rw [hlen] at hclean
    refine Exec.Returns.map_iff.trans ?_
    unfold Buffer.cappend
    rw [if_neg (by rw [hm]; decide)]
    exact hclean
  | sappend body size => exact Exec.Returns.map_iff.trans (sappend_clean_iff hb hm hwithin w)
  | bappend src =>
    have hle : 0 + src.used ≤ (blockBytes src.buf).length := by rw [Nat.zero_add]; exact hwithin
    exact Exec.Returns.map_iff.trans (bappend_clean_iff hb hm hle w)
  | bappend2 src amount =>
    have hle : 0 + amount ≤ (blockBytes src.buf).length := by rw [Nat.zero_add]; exact hwithin
    exact Exec.Returns.map_iff.trans (bappend_clean_iff hb hm hle w)
  | bappendRemaining src =>
    obtain ⟨hrem, htake⟩ := remaining_src hwithin
    obtain ⟨hpos, hused, _⟩ := hwithin
    have hle : src.pos + (src.used - src.pos) ≤ (blockBytes src.buf).length := by omega
    have hclean := bappend_clean_iff hb hm hle w
    rw [show ((blockBytes src.buf).drop src.pos).take (src.used - src.pos) = src.unread from htake, ← hrem] at hclean
    rw [amountOf, ← hrem]
    exact Exec.Returns.map_iff.trans hclean
  | bappendRemaining2 src amount => exact Exec.Returns.map_iff.trans (bappend_clean_iff hb hm hwithin w)
  | write outcome => exact absurd rfl (happend outcome)

/-- Two bytes for a full buffer of one byte, which grows. -/
theorem appendsCleanly_grown :
    AppendsCleanly (Env.amd64 0) (Buffer.ofBytes [1]) (.cappend [2, 3] 2) World.start := by
  have hwithin : (BufferCall.cappend [2, 3] 2).Within (Env.amd64 0) := Nat.le_refl 2
  refine (appendsCleanly_iff (Buffer.ofBytes_wf (by decide)) rfl (fun _ h => by cases h) hwithin _).2 ?_
  exact .inr ⟨by decide, ⟨1, by decide⟩, rfl⟩

/-- When the allocation fails, `excom_buffer_cappend` returns `0` and appends nothing, and `excom_buffer_sappend`
copies past the end of the block. -/
theorem not_appendsCleanly_exhausted :
    ¬ AppendsCleanly { Env.amd64 0 with malloc := fun _ => none } (Buffer.ofBytes [1]) (.cappend [2] 1)
        World.start ∧
      ¬ AppendsCleanly { Env.amd64 0 with malloc := fun _ => none } (Buffer.ofBytes [1])
        (.sappend (some ⟨1, [2]⟩) 1) World.start := by
  constructor
  · intro ⟨r, w, hrun, hclean, _⟩
    cases hrun
    exact absurd (hclean.1 rfl).1 (by decide)
  · intro ⟨r, w, hrun, _⟩
    cases hrun

end Excom
