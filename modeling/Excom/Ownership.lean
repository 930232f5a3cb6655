import Excom.AllOrNothing
import Mathlib.Algebra.Order.Group.Multiset

/-!
# Who holds which block

What a run may free: the blocks that it holds at its start and those that it is given on its way, each once.
`World.Owns` says that this was observed, and which blocks are held at the end.  The encoder observes it
(`writePacket_owns`), so the block that is held at the end has not been freed (`World.Owns.not_freed`).
-/

namespace Excom

variable {E : Env}

/-- The block that a pointer to its start holds -/
def heldBy (p : Option Block) : Multiset Nat := (p.map Block.id).elim 0 fun id => {id}

/-- How often the allocations from `w` to `w'` have given the block `id` -/
def World.given (E : Env) (w w' : World) (id : Nat) : Nat :=
  if w.allocs ≤ id ∧ id < w'.allocs ∧ (E.malloc id).isSome then 1 else 0

/-- The run from `w` to `w'` starts with the blocks `held` and ends with the blocks `held'`, and has freed no others
than those that it held or was given, and not while they are held. -/
structure World.Owns (E : Env) (w : World) (held : Multiset Nat) (w' : World) (held' : Multiset Nat) : Prop where
  allocs : w.allocs ≤ w'.allocs
  frees : ∀ id, w.frees.count id ≤ w'.frees.count id
  blocks : ∀ id, w'.frees.count id + held'.count id ≤ w.frees.count id + held.count id + w.given E w' id

namespace World

private theorem given_trans {w w' w'' : World} (h : w.allocs ≤ w'.allocs) (h' : w'.allocs ≤ w''.allocs) (id : Nat) :
    w.given E w'' id = w.given E w' id + w'.given E w'' id := by
  unfold World.given
  by_cases hA : (E.malloc id).isSome
  · simp only [hA, and_true]
    split <;> split <;> split <;> omega
  · simp [hA]

theorem Owns.refl (w : World) (held : Multiset Nat) : w.Owns E held w held :=
  ⟨Nat.le_refl _, fun _ => Nat.le_refl _, fun _ => Nat.le_add_right ..⟩

theorem Same.owns {w w' : World} (h : w.Same w') (held : Multiset Nat) : w.Owns E held w' held := by
  refine ⟨Nat.le_of_eq h.allocs.symm, ?_, ?_⟩
  · intro id
    rw [h.frees]
  · intro id
    rw [h.frees]
    exact Nat.le_add_right ..

/-- What follows may use a part of what is held. -/
theorem Owns.next {w w' w'' : World} {held used rest held' : Multiset Nat} (h : w.Owns E held w' (used + rest))
    (h' : w'.Owns E used w'' held') : w.Owns E held w'' (held' + rest) := by
  refine ⟨Nat.le_trans h.allocs h'.allocs, fun id => Nat.le_trans (h.frees id) (h'.frees id), ?_⟩
  intro id
  have hblocks := h.blocks id
  have hblocks' := h'.blocks id
  have hgiven := given_trans (E := E) h.allocs h'.allocs id
  rw [Multiset.count_add] at hblocks ⊢
  omega

/-- What is held at the end of one run is held at the start of the next. -/
theorem Owns.trans {w w' w'' : World} {held held' held'' : Multiset Nat} (h : w.Owns E held w' held')
    (h' : w'.Owns E held' w'' held'') : w.Owns E held w'' held'' := by
  rw [← add_zero held'] at h
  rw [← add_zero held'']
  exact h.next h'

/-- What follows is given a block. -/
theorem Owns.gain {w w' w'' : World} {held held' new : Multiset Nat} (h : w.Owns E held w' held')
    (h' : w'.Owns E 0 w'' new) : w.Owns E held w'' (new + held') := by
  rw [← zero_add held'] at h
  exact h.next h'

/-- What follows frees a part of what is held. -/
theorem Owns.release {w w' w'' : World} {held used rest : Multiset Nat} (h : w.Owns E held w' (used + rest))
    (h' : w'.Owns E used w'' 0) : w.Owns E held w'' rest := by
  rw [← zero_add rest]
  exact h.next h'

/-- Some blocks are left behind. -/
theorem Owns.forget {w w' : World} {held left rest : Multiset Nat} (h : w.Owns E held w' (left + rest)) :
    w.Owns E held w' rest := by
  refine ⟨h.allocs, h.frees, ?_⟩
  intro id
  have hblocks := h.blocks id
  rw [Multiset.count_add] at hblocks
  omega

/-- All blocks are left behind. -/
theorem Owns.abandon (w : World) (held : Multiset Nat) : w.Owns E held w 0 := by
  have h : w.Owns E held w (held + 0) := by
    rw [add_zero]
    exact .refl w held
  exact h.forget

/-- A block that is held at the end, but was not at the start, has not been freed. -/
theorem Owns.not_freed {w w' : World} {held : Multiset Nat} (h : w.Owns E 0 w' held) {id : Nat} (hid : id ∈ held) :
    w'.frees.count id = w.frees.count id := by
  have hblocks := h.blocks id
  have hfrees := h.frees id
  have hheld := Multiset.one_le_count_iff_mem.2 hid
  rw [Multiset.count_zero] at hblocks
  have hgiven : w.given E w' id ≤ 1 := by
    unfold World.given
    split <;> omega
  omega

end World

/-! ### Memory -/

private theorem heldBy_congr {p q : Option Block} (h : p.map Block.id = q.map Block.id) : heldBy p = heldBy q := by
  unfold heldBy
  rw [h]

theorem mem_heldBy (b : Block) : b.id ∈ heldBy (some b) := Multiset.mem_singleton_self b.id

private theorem count_heldBy (p : Option Block) (id : Nat) :
    (heldBy p).count id = (p.map Block.id).toList.count id := by
  cases p with
  | none => rfl
  | some b => exact (Multiset.coe_count id [b.id])

theorem count_heldBy_le (p : Option Block) (id : Nat) : (heldBy p).count id ≤ 1 := by
  cases p with
  | none => exact Nat.zero_le 1
  | some b =>
    unfold heldBy
    rw [Option.map_some, Option.elim_some, Multiset.count_singleton]
    split <;> omega

/-- The block that an allocation has given -/
theorem count_next_le {w w' : World} (hA : (E.malloc w.allocs).isSome) (hallocs : w'.allocs = w.allocs + 1)
    (id : Nat) : Multiset.count id {w.allocs} ≤ w.given E w' id := by
  unfold World.given
  rw [Multiset.count_singleton, hallocs]
  split
  · rename_i heq
    rw [heq, if_pos ⟨Nat.le_refl _, Nat.lt_succ_self _, hA⟩]
  · exact Nat.zero_le _

private theorem malloc_owns (size : Nat) (w : World) :
    Exec.Ensures (malloc E size) w fun p w' => w.Owns E 0 w' (heldBy p) := by
  obtain ⟨p, w', hrun, hallocs, hfrees, -, hid, -⟩ := malloc_eq E size w
  refine (Exec.Returns.intro hrun ?_).ensures
  refine ⟨by omega, fun id => by rw [hfrees], ?_⟩
  intro id
  unfold heldBy
  rw [hfrees, hid]
  rcases hA : E.malloc w.allocs with _ | junk
  · exact Nat.le_add_right ..
  · exact Nat.add_le_add_left (count_next_le (by rw [hA]; rfl) hallocs id) _

/-- The block that is freed is not held afterwards. -/
theorem free_owns (p : Option Block) (w : World) :
    Exec.Ensures (free p) w fun _ w' => w.Owns E (heldBy p) w' 0 := by
  refine (Exec.Returns.intro (free_eq p w) ?_).ensures
  refine ⟨Nat.le_refl _, ?_, ?_⟩
  · intro id
    rw [List.count_append]
    exact Nat.le_add_left ..
  · intro id
    rw [count_heldBy, List.count_append, Multiset.count_zero]
    omega

/-- A resize frees the old block if it is given a new one. -/
theorem Replaces.owns {b b' : Buffer} {w w' : World} (h : Replaces E b w b' w') :
    w.Owns E (heldBy b.buf) w' (heldBy b'.buf) := by
  have hallocs := h.allocs
  rcases h.blocks with ⟨-, hbuf, hfrees⟩ | ⟨hA, hid, hfrees⟩
  · refine ⟨by omega, fun id => by rw [hfrees], ?_⟩
    intro id
    rw [hfrees, hbuf]
    exact Nat.le_add_right ..
  · refine ⟨by omega, ?_, ?_⟩
    · intro id
      rw [hfrees, List.count_append]
      exact Nat.le_add_left ..
    · intro id
      have hnew := count_next_le hA hallocs id
      have hheld : heldBy b'.buf = {w.allocs} := by
        unfold heldBy
        rw [hid]
        rfl
      rw [hfrees, hheld, List.count_append, count_heldBy]
      omega

/-! ### Buffers -/

namespace Buffer

private theorem reserve_owns (b : Buffer) (size : Nat) (w : World) :
    Exec.Ensures (b.reserve E size) w fun r w' => w.Owns E (heldBy b.buf) w' (heldBy r.2.buf) := by
  refine (reserve_replaces b size w).mono ?_
  intro r w' h
  split at h
  · exact h.owns
  · rw [h.1]
    exact h.2.owns _

theorem Begun.owns {start : Nat} {b : Buffer} {w w' : World} (h : Begun E start w b w') :
    w.Owns E 0 w' (heldBy b.buf) := by
  have hallocs := h.allocs
  refine ⟨by omega, fun id => by rw [h.frees], ?_⟩
  intro id
  rw [h.frees]
  by_cases hA : (E.malloc w.allocs).isSome
  · unfold heldBy
    rw [(h.given hA).2]
    exact Nat.add_le_add_left (count_next_le hA hallocs id) _
  · rw [(h.denied (by simpa using hA)).1]
    exact Nat.le_add_right ..

/-- Whatever it is that is appended, and whether it is. -/
theorem append_owns (b : Buffer) (size : Nat) {src : M Bytes}
    (hsrc : ∀ w, Exec.Ensures src w fun _ w' => w.Same w') (w : World) :
    Exec.Ensures (b.append E size src) w fun r w' => w.Owns E (heldBy b.buf) w' (heldBy r.2.buf) := by
  unfold append
  refine (mutexLock_same b.mutex w).bind ?_
  intro mutex w1 h1
  rw [h1]
  refine (reserve_owns { b with mutex } size w).bind ?_
  intro ⟨chk, b'⟩ w2 h2
  dsimp only
  split
  · refine (returnErrno_same w2).bind ?_
    intro err w3 h3
    refine (mutexUnlock_same b'.mutex w3).bind ?_
    intro mutex' w4 h4
    exact .pure (h2.trans ((h3.trans h4).owns _))
  · refine (put_same hsrc w2).mono ?_
    intro r w3 ⟨h3, hid⟩
    rw [heldBy_congr hid]
    exact h2.trans (h3.owns _)

private theorem cappend_owns (b : Buffer) (str : Bytes) (size : Nat) (w : World) :
    Exec.Ensures (b.cappend E str size) w fun r w' => w.Owns E (heldBy b.buf) w' (heldBy r.2.buf) := by
  unfold cappend
  split
  · exact .pure (.refl w _)
  · exact append_owns b size (readBytes_same str size) w

private theorem bappend2_owns (b src : Buffer) (amount : Nat) (w : World) :
    Exec.Ensures (b.bappend2 E src amount) w fun r w' => w.Owns E (heldBy b.buf) w' (heldBy r.2.buf) := by
  unfold bappend2
  split
  · exact .pure (.refl w _)
  · split
    · exact .pure (.refl w _)
    · exact append_owns b amount (load_same src.buf 0 amount) w

/-- The same where nobody looks whether the resize failed. -/
theorem reserve_put_owns (b : Buffer) (size : Nat) {src : M Bytes}
    (hsrc : ∀ w, Exec.Ensures src w fun _ w' => w.Same w') (w : World) :
    Exec.Ensures (mutexLock b.mutex >>= fun mutex => ({ b with mutex } : Buffer).reserve E size >>= fun r =>
      r.2.put E size src) w fun r w' => w.Owns E (heldBy b.buf) w' (heldBy r.2.buf) := by
  refine (mutexLock_same b.mutex w).bind ?_
  intro mutex w1 h1
  rw [h1]
  refine (reserve_owns { b with mutex } size w).bind ?_
  intro ⟨_, b'⟩ w2 h2
  refine (put_same hsrc w2).mono ?_
  intro r w3 ⟨h3, hid⟩
  rw [heldBy_congr hid]
  exact h2.trans (h3.owns _)

private theorem sappend_owns (b : Buffer) (body : Option Block) (size : UInt32) (w : World) :
    Exec.Ensures (b.sappend E body size) w fun r w' => w.Owns E (heldBy b.buf) w' (heldBy r.2.buf) := by
  unfold sappend
  split
  · exact .pure (.refl w _)
  · exact reserve_put_owns b size.toNat (load_same body 0 size.toNat) w

/-- The block of a buffer that cannot be freed is left behind. -/
theorem destroy_owns (b : Buffer) (w : World) :
    Exec.Ensures b.destroy w fun _ w' => w.Owns E (heldBy b.buf) w' 0 := by
  unfold destroy
  split
  · refine (free_owns (E := E) b.buf w).bind ?_
    intro _ w1 h1
    exact .pure h1
  · exact .pure (.abandon w _)

end Buffer

/-! ### The encoder -/

private theorem writeField_owns (b : Buffer) (size : UInt32) (v : Value) (w : World) :
    Exec.Ensures (writeField E b size v) w fun r w' => w.Owns E (heldBy b.buf) w' (heldBy r.1.buf) := by
  cases v with
  | number n =>
    refine (Buffer.cappend_owns b _ _ w).bind ?_
    intro r w1 h1
    exact .pure h1
  | string s =>
    refine (Buffer.cappend_owns b _ 4 w).bind ?_
    intro r w1 h1
    refine (Buffer.sappend_owns r.2 s.body s.size w1).bind ?_
    intro r' w2 h2
    exact .pure (h1.trans h2)

private theorem writeFields_owns (b : Buffer) (size : UInt32) (vs : List Value) (w : World) :
    Exec.Ensures (writeFields E b size vs) w fun r w' => w.Owns E (heldBy b.buf) w' (heldBy r.1.buf) := by
  induction vs generalizing b size w with
  | nil => exact .pure (.refl w _)
  | cons v vs ih =>
    unfold writeFields
    refine (writeField_owns b size v w).bind ?_
    intro r w1 h1
    refine (ih r.1 r.2 w1).mono ?_
    intro r' w2 h2
    exact h1.trans h2

/-- The blocks that the encryption uses on the way are its own. -/
theorem pencryptBuffer_owns (keys : Encrypt) (buf out : Buffer) (w : World) :
    Exec.Ensures (pencryptBuffer E keys buf out) w fun r w' =>
      w.Owns E (heldBy out.buf) w' (heldBy r.2.2.buf) := by
  unfold pencryptBuffer pencryptBuffer2
  split
  · exact .pure (.refl w _)
  split
  · exact .pure (.refl w _)
  refine (mutexLock_same out.mutex w).bind ?_
  intro mutex w0 h0
  rw [h0]
  have hrandom : Exec.Ensures (randombytesBuf E) w fun _ w' => w.Owns E (heldBy out.buf) w' (heldBy out.buf) := by
    intro nonce w1 hrun
    cases hrun
    exact ⟨Nat.le_refl _, fun _ => Nat.le_refl _, fun _ => Nat.le_add_right ..⟩
  refine hrandom.bind ?_
  intro nonce w1 h1
  refine (malloc_owns _ w1).bind ?_
  intro message w2 h2
  refine (malloc_owns _ w2).bind ?_
  intro crypt w3 h3
  have hheld : w.Owns E (heldBy out.buf) w3 (heldBy message + (heldBy crypt + heldBy out.buf)) := by
    have h := (h1.gain h2).gain h3
    rwa [add_left_comm] at h
  dsimp only
  -- without both of the blocks each of them is freed
  split
  · refine (free_owns (E := E) message w3).bind ?_
    intro _ w4 h4
    have h := hheld.release h4
    refine (free_owns (E := E) crypt w4).bind ?_
    intro _ w5 h5
    have h := h.release h5
    refine (mutexUnlock_same mutex w5).bind ?_
    intro mutex' w6 h6
    exact .pure (h.trans (h6.owns _))
  refine (store_same message 0 _ w3).bind ?_
  intro message' w4 ⟨h4, hid⟩
  rw [h4]
  refine (load_same buf.buf buf.pos _ w3).bind ?_
  intro bytes w5 h5
  refine (store_same message' cryptoBoxZeroBytes bytes w5).bind ?_
  intro message'' w6 ⟨h6, hid'⟩
  rw [h6]
  refine (mutexUnlock_same mutex w5).bind ?_
  intro mutex' w7 h7
  rw [← heldBy_congr (hid'.trans hid)] at hheld
  have hheld := hheld.trans ((h5.trans h7).owns _)
  -- and so it is when the encryption fails; otherwise the second one is appended before it is freed
  split
  · refine (free_owns (E := E) message'' w7).bind ?_
    intro _ w8 h8
    have h := hheld.release h8
    refine (free_owns (E := E) crypt w8).bind ?_
    intro _ w9 h9
    have h := h.release h9
    exact .pure h
  · rename_i c _
    refine (store_same crypt 0 c w7).bind ?_
    intro crypt' w8 ⟨h8, hid8⟩
    rw [h8]
    rw [← heldBy_congr hid8] at hheld
    refine (free_owns (E := E) message'' w7).bind ?_
    intro _ w9 h9
    have h := hheld.release h9
    rw [add_comm] at h
    refine (Buffer.cappend_owns _ nonce.toList _ w9).bind ?_
    intro r w10 h10
    have h := h.next h10
    refine (Buffer.cappend_owns r.2 (blockBytes crypt') _ w10).bind ?_
    intro r' w11 h11
    have h := h.next h11
    rw [add_comm] at h
    refine (free_owns (E := E) crypt' w11).bind ?_
    intro _ w12 h12
    have h := h.release h12
    exact .pure h

private theorem writeHeader_owns (p : Packet) (out : Buffer) (w : World) :
    Exec.Ensures (writeHeader E p out) w fun out' w' => w.Owns E (heldBy out.buf) w' (heldBy out'.buf) := by
  unfold writeHeader
  refine (Buffer.cappend_owns out _ 4 w).bind ?_
  intro r1 w1 h1
  refine (Buffer.cappend_owns r1.2 _ 2 w1).bind ?_
  intro r2 w2 h2
  refine (Buffer.cappend_owns r2.2 _ 2 w2).bind ?_
  intro r3 w3 h3
  exact .pure ((h1.trans h2).trans h3)

private theorem writeBody_owns (buf out : Buffer) (enc : Option Encrypt) (w : World) :
    Exec.Ensures (writeBody E buf out enc) w fun r w' => w.Owns E (heldBy out.buf) w' (heldBy r.1.buf) := by
  unfold writeBody
  split
  · rename_i keys _
    refine (pencryptBuffer_owns keys buf out w).bind ?_
    intro r w1 h1
    exact .pure h1
  · refine (Buffer.bappend2_owns out buf buf.used w).bind ?_
    intro r w1 h1
    exact .pure h1

private theorem sealedSize_owns (buf buf2 : Buffer) (size : UInt32) (enc : Option Encrypt) (w : World) :
    Exec.Ensures (sealedSize E buf buf2 size enc) w fun r w' =>
      w.Owns E (heldBy buf2.buf) w' (heldBy r.2.1.buf) := by
  unfold sealedSize
  split
  · rename_i keys _
    refine (pencryptBuffer_owns keys buf buf2 w).bind ?_
    intro r w1 h1
    exact .pure h1
  · exact .pure (.refl w _)

/-- The blocks of the temporary buffers are not those of the output buffer. -/
theorem writePacket_owns (p : Packet) (o : Buffer) (enc : Option Encrypt) (w : World) :
    Exec.Ensures (protocolWritePacket E p o enc) w fun r w' =>
      w.Owns E (heldBy o.buf) w' (heldBy r.2.2.1.buf) := by
  have h32 := E.le_word
  unfold protocolWritePacket
  refine (Buffer.init_begun (E := E) (show 32 < E.word by omega) w).ensures.bind ?_
  intro ⟨_, buf⟩ w1 ⟨hbuf, _⟩
  refine (Buffer.init_begun (E := E) (show 32 < E.word by omega) w1).ensures.bind ?_
  intro ⟨_, buf2⟩ w2 ⟨hbuf2, _⟩
  have hheld := ((World.Owns.refl w (heldBy o.buf)).gain hbuf.owns).gain hbuf2.owns
  dsimp only at hheld ⊢
  rw [add_left_comm] at hheld
  split
  · refine (Buffer.destroy_owns (E := E) buf w2).bind ?_
    intro _ w3 h3
    exact .pure (hheld.next h3).forget.forget
  rw [writeData_eq]
  refine (writeFields_owns buf 0 p.values w2).bind ?_
  intro ⟨body, size⟩ w3 h3
  have h := hheld.next h3
  rw [add_left_comm] at h
  refine (sealedSize_owns body buf2 size enc w3).bind ?_
  intro ⟨size', buf2', enc'⟩ w4 h4
  have h := h.next h4
  rw [← add_assoc, add_comm] at h
  refine (writeHeader_owns { p with size := size' } o w4).bind ?_
  intro out w5 h5
  have h := h.next h5
  refine (writeBody_owns body out enc' w5).bind ?_
  intro ⟨out', enc''⟩ w6 h6
  have h := h.next h6
  dsimp only at h
  rw [add_comm, add_assoc, add_left_comm] at h
  refine (Buffer.destroy_owns (E := E) body w6).bind ?_
  intro _ w7 h7
  have h := h.release h7
  refine (Buffer.destroy_owns (E := E) buf2' w7).bind ?_
  intro _ w8 h8
  have h := h.release h8
  exact .pure h

/-! ### A buffer does not lose its block -/

namespace Buffer

private theorem isSome_of_id {p q : Option Block} (h : p.map Block.id = q.map Block.id) : p.isSome = q.isSome := by
  rw [← Option.isSome_map (f := Block.id), h, Option.isSome_map]

private theorem reserve_block {b : Buffer} (h : b.buf.isSome) (size : Nat) (w : World) :
    Exec.Ensures (b.reserve E size) w fun r _ => r.2.buf.isSome := by
  refine (reserve_replaces b size w).mono ?_
  intro r w' hres
  split at hres
  · rcases hres.blocks with ⟨-, hbuf, -⟩ | ⟨-, hid, -⟩
    · rw [hbuf]
      exact h
    · rw [← Option.isSome_map (f := Block.id), hid]
      rfl
  · rw [hres.1]
    exact h

private theorem append_block {b : Buffer} (h : b.buf.isSome) (size : Nat) {src : M Bytes}
    (hsrc : ∀ w, Exec.Ensures src w fun _ w' => w.Same w') (w : World) :
    Exec.Ensures (b.append E size src) w fun r _ => r.2.buf.isSome := by
  unfold append
  refine .seq fun mutex w1 => ?_
  refine (reserve_block (b := { b with mutex }) h size w1).bind ?_
  intro ⟨chk, b'⟩ w2 h2
  dsimp only
  split
  · exact .seq fun _ _ => .seq fun _ _ => .pure h2
  · refine (put_same hsrc w2).mono ?_
    intro r w3 ⟨_, hid⟩
    rw [isSome_of_id hid]
    exact h2

private theorem cappend_block {b : Buffer} (h : b.buf.isSome) (str : Bytes) (size : Nat) (w : World) :
    Exec.Ensures (b.cappend E str size) w fun r _ => r.2.buf.isSome := by
  unfold cappend
  split
  · exact .pure h
  · exact append_block h size (readBytes_same str size) w

end Buffer

private theorem pencryptBuffer_block (keys : Encrypt) (buf : Buffer) {out : Buffer} (h : out.buf.isSome) (w : World) :
    Exec.Ensures (pencryptBuffer E keys buf out) w fun r _ => r.2.2.buf.isSome := by
  unfold pencryptBuffer pencryptBuffer2
  split
  · exact .pure h
  split
  · exact .pure h
  refine .seq fun mutex w1 => .seq fun nonce w2 => .seq fun message w3 => .seq fun crypt w4 => ?_
  dsimp only
  split
  · exact .seq fun _ _ => .seq fun _ _ => .seq fun _ _ => .pure h
  refine .seq fun message w5 => .seq fun bytes w6 => .seq fun message w7 => .seq fun mutex w8 => ?_
  split
  · exact .seq fun _ _ => .seq fun _ _ => .pure h
  refine .seq fun crypt w9 => .seq fun _ w10 => ?_
  refine (Buffer.cappend_block (b := { out with mutex }) h _ _ w10).bind ?_
  intro r w11 h11
  refine (Buffer.cappend_block h11 _ _ w11).bind ?_
  intro r' w12 h12
  exact .seq fun _ _ => .pure h12

private theorem writeHeader_block (p : Packet) {out : Buffer} (h : out.buf.isSome) (w : World) :
    Exec.Ensures (writeHeader E p out) w fun out' _ => out'.buf.isSome := by
  unfold writeHeader
  refine (Buffer.cappend_block h _ 4 w).bind ?_
  intro r1 w1 h1
  refine (Buffer.cappend_block h1 _ 2 w1).bind ?_
  intro r2 w2 h2
  refine (Buffer.cappend_block h2 _ 2 w2).bind ?_
  intro r3 w3 h3
  exact .pure h3

private theorem writeBody_block (buf : Buffer) {out : Buffer} (h : out.buf.isSome) (enc : Option Encrypt)
    (w : World) :
    Exec.Ensures (writeBody E buf out enc) w fun r _ => r.1.buf.isSome := by
  unfold writeBody
  split
  · rename_i keys _
    refine (pencryptBuffer_block keys buf h w).bind ?_
    intro r w1 h1
    exact .pure h1
  · unfold Buffer.bappend Buffer.bappend2
    split
    · exact .pure h
    split
    · exact .pure h
    refine (Buffer.append_block h buf.used (load_same buf.buf 0 buf.used) w).bind ?_
    intro r w1 h1
    exact .pure h1

/-- The encoder does not leave a buffer without its block. -/
theorem writePacket_block (p : Packet) {o : Buffer} (h : o.buf.isSome) (enc : Option Encrypt) (w : World) :
    Exec.Ensures (protocolWritePacket E p o enc) w fun r _ => r.2.2.1.buf.isSome := by
  unfold protocolWritePacket
  refine .seq fun ⟨_, buf⟩ w1 => .seq fun ⟨_, buf2⟩ w2 => ?_
  dsimp only
  split
  · exact .seq fun _ _ => .pure h
  refine .seq fun ⟨body, size⟩ w3 => .seq fun ⟨size', buf2', enc'⟩ w4 => ?_
  refine (writeHeader_block { p with size := size' } h w4).bind ?_
  intro out w5 h5
  refine (writeBody_block body h5 enc' w5).bind ?_
  intro ⟨out', enc''⟩ w6 h6
  exact .seq fun _ _ => .seq fun _ _ => .pure h6

end Excom
