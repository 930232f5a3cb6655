import Excom.Packet

/-!
# Duplicating strings

The two functions of `excom/string.c` that copy a string.  Both ask for `size + 1` bytes, a sum in `uint32_t`: for
the largest size the block has none, and the copy leaves it.  For every other size they leave the bytes and a NUL in
a block of their own, which is freeable, and they agree (`duplicates_iff`).
-/

namespace Excom

namespace ExcomString

/-- `excom_string_dup` -/
def dup (E : Env) (string : ExcomString) : M (Int × ExcomString) := do
  Exec.modify fun w => { w with errno := 0 }
  let out := ExcomString.init
  if string.size = 0 then return (0, out)
  else
    -- the sum is a `uint32_t`
    let buf ← malloc E (string.size + 1).toNat
    match buf with
    | none => do
      let err ← returnErrno
      return (err, { out with size := 0, body := none })
    | some _ => do
      let bytes ← load string.body 0 string.size.toNat
      let buf ← store buf 0 bytes
      let buf ← store buf string.size.toNat [0]
      return (0, { out with freeable := true, size := string.size, body := buf })

/-- `excom_string_destroy` -/
def destroy (string : ExcomString) : M Unit := if string.freeable then free string.body else pure ()

/-- The string is a copy of `bytes`, made between `w` and `w'`: with a NUL behind them in the one block that was
allocated, or without a block if there are none. -/
structure DupOf (bytes : Bytes) (w : World) (string : ExcomString) (w' : World) : Prop where
  size : string.size.toNat = bytes.length
  body : blockBytes string.body = if bytes = [] then [] else bytes ++ [0]
  block : string.body.map Block.id = if bytes = [] then none else some w.allocs
  allocs : w'.allocs = if bytes = [] then w.allocs else w.allocs + 1
  freeable : string.freeable = true ↔ w.allocs < w'.allocs

/-- The call writes inside the block that it allocates, and when it returns `0` it has made a copy of `bytes`. -/
def DupsSafely (call : M (Int × ExcomString)) (bytes : Bytes) (w : World) : Prop :=
  Exec.Returns call w fun r w' => r.1 = 0 → DupOf bytes w r.2 w'

/-- Both functions copy the string safely, and agree whenever both return `0`. -/
structure Duplicates (E : Env) (string target : ExcomString) (p : Option Block) (off : Nat) (w w1 : World) :
    Prop where
  dup_safe : DupsSafely (dup E string) string.bytes w
  dupfill_safe : DupsSafely (dupfill E target string.size p off) string.bytes w1
  agree : ∀ r r1 w' w1', dup E string w = .ok (r, w') → dupfill E target string.size p off w1 = .ok (r1, w1') →
    r.1 = 0 → r1.1 = 0 → r.2.size = r1.2.size ∧ blockBytes r.2.body = blockBytes r1.2.body ∧
      (r.2.body.isSome ↔ r1.2.body.isSome) ∧ r.2.freeable = r1.2.freeable

variable {E : Env}

/-! ### The copy -/

section Copy

variable {α : Type} {p buf : Option Block} {off size : Nat} (hlen : off + size ≤ (blockBytes p).length)

include hlen

theorem length_copied : (((blockBytes p).drop off).take size).length = size := by
  rw [List.length_take, List.length_drop]
  omega

/-- A block with one byte more takes the bytes and the NUL. -/
theorem copy_returns (hbuf : (blockBytes buf).length = size + 1) (f : Option Block → α) {P : Load → Prop}
    (hP : 0 < size → ∀ b, p = some b → P ⟨b.id, off, size⟩) (w : World) :
    Exec.Returns (do
      let bytes ← load p off size
      let buf ← store buf 0 bytes
      let buf ← store buf size [0]
      return f buf : M α) w fun r w' => World.Reads P w w' ∧ w.Same w' ∧ ∃ buf', r = f buf' ∧
        blockBytes buf' = ((blockBytes p).drop off).take size ++ [0] ∧ buf'.map Block.id = buf.map Block.id := by
  have hn := length_copied hlen
  refine ((load_returns p off size hlen hP w).and_ensures (load_same p off size w)).bind ?_
  intro bytes w1 ⟨⟨hbytes, hreads⟩, hsame⟩
  rw [← hbytes] at hn ⊢
  obtain ⟨p1, hst1, hbytes1, hid1⟩ := store_eq buf 0 bytes (by omega)
  rw [List.take_zero, List.nil_append, Nat.zero_add, hn] at hbytes1
  have hl1 : (blockBytes p1).length = size + 1 := by
    rw [hbytes1, List.length_append, List.length_drop]
    omega
  obtain ⟨p2, hst2, hbytes2, hid2⟩ := store_eq p1 size [0] (Nat.le_of_eq hl1.symm)
  have htake : (blockBytes p1).take size = bytes := by rw [hbytes1, List.take_left' hn]
  have hdrop : (blockBytes p1).drop (size + [(0 : UInt8)].length) = [] :=
    List.drop_eq_nil_of_le (Nat.le_of_eq hl1)
  rw [htake, hdrop, List.append_nil] at hbytes2
  rw [hst1, Exec.pure_bind, hst2, Exec.pure_bind]
  exact .pure ⟨hreads, hsame, p2, rfl, hbytes2, hid2.trans hid1⟩

/-- A block without bytes does not take any. -/
theorem copy_fault (hbuf : (blockBytes buf).length = 0) (hsize : 0 < size) (f : Option Block → M α) (w : World) :
    ∃ e, (do
      let bytes ← load p off size
      let buf ← store buf 0 bytes
      f buf : M α) w = .error e := by
  obtain ⟨loads, hload⟩ := load_eq hlen w
  have hn := length_copied hlen
  have hroom : (blockBytes buf).length < 0 + (((blockBytes p).drop off).take size).length := by omega
  obtain ⟨e, he⟩ := store_error (by omega) hroom
  refine ⟨e, ?_⟩
  rw [Exec.bind_of_ok hload, he]
  rfl

end Copy

/-- The sum wraps around at the largest size only. -/
theorem toNat_succ (size : UInt32) :
    (size + 1).toNat = if size.toNat + 1 < 2 ^ 32 then size.toNat + 1 else 0 := by
  have hlt := size.toNat_lt
  rw [UInt32.toNat_add]
  show (size.toNat + 1) % 2 ^ 32 = _
  split
  · exact Nat.mod_eq_of_lt ‹_›
  · have heq : size.toNat + 1 = 2 ^ 32 := by omega
    rw [heq, Nat.mod_self]

/-- The string that was just initialized is the copy of no bytes. -/
theorem DupOf.nil {w w' : World} (h : w'.allocs = w.allocs) : DupOf [] w init w' := by
  refine ⟨rfl, rfl, rfl, h, ?_⟩
  rw [h]
  exact iff_of_false Bool.false_ne_true (Nat.lt_irrefl _)

/-- The bytes and a NUL in the one block that was allocated are the copy of some bytes. -/
theorem DupOf.of_block {bytes : Bytes} {size : UInt32} {buf : Option Block} {w w' : World} (hne : bytes ≠ [])
    (hsize : size.toNat = bytes.length) (hbytes : blockBytes buf = bytes ++ [0])
    (hid : buf.map Block.id = some w.allocs) (hallocs : w'.allocs = w.allocs + 1) :
    DupOf bytes w ⟨size, buf, true⟩ w' := by
  refine ⟨hsize, ?_, ?_, ?_, ?_⟩
  · rw [if_neg hne]
    exact hbytes
  · rw [if_neg hne]
    exact hid
  · rw [if_neg hne]
    exact hallocs
  · rw [hallocs]
    exact iff_of_true rfl (Nat.lt_succ_self _)

/-- Only the allocations matter of what was before. -/
theorem DupOf.of_allocs {bytes : Bytes} {s : ExcomString} {w w1 w' : World} (h : DupOf bytes w s w')
    (hw : w1.allocs = w.allocs) : DupOf bytes w1 s w' := by
  refine ⟨h.size, h.body, ?_, ?_, ?_⟩
  · rw [hw]
    exact h.block
  · rw [hw]
    exact h.allocs
  · rw [hw]
    exact h.freeable

/-- Two copies of the same bytes -/
theorem DupOf.agree {bytes : Bytes} {w w' w1 w1' : World} {s s1 : ExcomString} (h : DupOf bytes w s w')
    (h1 : DupOf bytes w1 s1 w1') : s.size = s1.size ∧ blockBytes s.body = blockBytes s1.body ∧
      (s.body.isSome ↔ s1.body.isSome) ∧ s.freeable = s1.freeable := by
  refine ⟨UInt32.toNat_inj.1 (h.size.trans h1.size.symm), h.body.trans h1.body.symm, ?_, ?_⟩
  · have hb := congrArg Option.isSome h.block
    have hb1 := congrArg Option.isSome h1.block
    rw [Option.isSome_map] at hb hb1
    rw [hb, hb1]
    split <;> rfl
  · have hf := h.freeable
    have hf1 := h1.freeable
    rw [h.allocs] at hf
    rw [h1.allocs] at hf1
    rw [Bool.eq_iff_iff, hf, hf1]
    split <;> omega

/-- What is left of the two functions when there is something to copy: a block is asked for, and if it is given the
bytes and a NUL are copied. -/
theorem copy_safely_iff {size : UInt32} {p : Option Block} {off : Nat} (hpos : 0 < size.toNat)
    (hlen : off + size.toNat ≤ (blockBytes p).length) {fail : M (Int × ExcomString)} {w : World}
    (hfail : E.malloc w.allocs = none → Exec.Returns fail { w with allocs := w.allocs + 1, errno := ENOMEM }
      fun r _ => r.1 ≠ 0) :
    DupsSafely (do
      let buf ← malloc E (size + 1).toNat
      match buf with
      | none => fail
      | some _ => do
        let bytes ← load p off size.toNat
        let buf ← store buf 0 bytes
        let buf ← store buf size.toNat [0]
        return (0, ⟨size, buf, true⟩)) (((blockBytes p).drop off).take size.toNat) w ↔
      size.toNat + 1 < 2 ^ 32 ∨ E.malloc w.allocs = none := by
  have hn := length_copied hlen
  have hne : ((blockBytes p).drop off).take size.toNat ≠ [] := by
    intro h
    rw [h] at hn
    exact Nat.ne_of_gt hpos hn.symm
  rcases hA : E.malloc w.allocs with _ | junk
  · refine iff_of_true ?_ (.inr rfl)
    obtain ⟨r, w', hrun, hcode⟩ := hfail hA
    refine ⟨r, w', ?_, fun h0 => absurd h0 hcode⟩
    rw [Exec.bind_of_ok (malloc_none hA _)]
    exact hrun
  · have hsome : (E.malloc w.allocs).isSome := by rw [hA]; rfl
    obtain ⟨buf, w1, hmalloc, junk', -, hbuf, hw1⟩ := malloc_some hsome (size + 1).toNat
    have hblock : (blockBytes buf).length = (size + 1).toNat := by
      rw [hbuf, blockBytes_some, List.length_map, List.length_range]
    rw [toNat_succ] at hblock
    by_cases hsize : size.toNat + 1 < 2 ^ 32
    · rw [if_pos hsize] at hblock
      obtain ⟨r, w2, hrun, -, hsame, buf', hr, hbytes, hid⟩ := copy_returns (P := fun _ => True) hlen hblock
        (fun buf => ((0 : Int), (⟨size, buf, true⟩ : ExcomString))) (fun _ _ _ => trivial) w1
      refine iff_of_true ⟨r, w2, ?_, fun _ => ?_⟩ (.inl hsize)
      · rw [Exec.bind_of_ok hmalloc, hbuf]
        rw [hbuf] at hrun
        exact hrun
      · have hallocs : w2.allocs = w.allocs + 1 := by rw [hsame.allocs, hw1]
        have hnew : buf'.map Block.id = some w.allocs := by
          rw [hid, hbuf]
          rfl
        rw [hr]
        exact .of_block hne hn.symm hbytes hnew hallocs
    · rw [if_neg hsize] at hblock
      refine iff_of_false ?_ ?_
      · intro ⟨r, w2, hrun, _⟩
        obtain ⟨e, he⟩ := copy_fault hlen hblock hpos
          (fun buf => do
            let buf ← store buf size.toNat [0]
            return ((0 : Int), (⟨size, buf, true⟩ : ExcomString))) w1
        rw [Exec.bind_of_ok hmalloc, hbuf] at hrun
        rw [hbuf] at he
        cases he.symm.trans hrun
      · rintro (h | h)
        · exact hsize h
        · cases h

theorem pos_of_ne_zero {size : UInt32} (h : size ≠ 0) : 0 < size.toNat := by
  rw [Nat.pos_iff_ne_zero]
  intro h0
  exact h (UInt32.toNat_inj.1 h0)

private theorem dup_safely_iff {string : ExcomString} (hvalid : string.Valid) (w : World) :
    DupsSafely (dup E string) string.bytes w ↔ string.size.toNat + 1 < 2 ^ 32 ∨ E.malloc w.allocs = none := by
  by_cases h0 : string.size = 0
  · have hbytes : string.bytes = [] := by rw [bytes, h0]; rfl
    refine iff_of_true ⟨(0, init), { w with errno := 0 }, ?_, fun _ => ?_⟩ (.inl (by rw [h0]; decide))
    · unfold dup
      rw [if_pos h0]
      rfl
    · rw [hbytes]
      exact .nil rfl
  · have hlen : 0 + string.size.toNat ≤ (blockBytes string.body).length := by
      rw [Nat.zero_add]
      exact hvalid
    have hfail (w : World) (herr : w.errno = ENOMEM) : Exec.Returns (do
        let err ← returnErrno
        return (err, { init with size := 0, body := none }) : M (Int × ExcomString)) w fun r _ => r.1 ≠ 0 := by
      refine ⟨_, _, rfl, ?_⟩
      show w.errno ≠ 0
      rw [herr]
      decide
    have hcopy := copy_safely_iff (E := E) (w := { w with errno := 0 }) (pos_of_ne_zero h0) hlen
      (fun _ => hfail _ rfl)
    rw [List.drop_zero] at hcopy
    refine Iff.trans ?_ hcopy
    unfold dup
    rw [if_neg h0]
    constructor
    · intro hdup
      obtain ⟨r, w', hrun, h⟩ := hdup
      exact ⟨r, w', hrun, fun hr => (h hr).of_allocs rfl⟩
    · intro hdup
      obtain ⟨r, w', hrun, h⟩ := hdup
      exact ⟨r, w', hrun, fun hr => (h hr).of_allocs rfl⟩

private theorem dupfill_safely_iff (target : ExcomString) {size : UInt32} {p : Option Block} {off : Nat}
    (hlen : off + size.toNat ≤ (blockBytes p).length) (w : World) :
    DupsSafely (dupfill E target size p off) (((blockBytes p).drop off).take size.toNat) w ↔
      size.toNat + 1 < 2 ^ 32 ∨ E.malloc w.allocs = none := by
  by_cases h0 : size = 0
  · subst h0
    exact iff_of_true ⟨(0, init), w, rfl, fun _ => .nil rfl⟩ (.inl (by decide))
  · unfold dupfill
    rw [if_neg h0]
    exact copy_safely_iff (pos_of_ne_zero h0) hlen fun _ => ⟨_, _, rfl, Int.one_ne_zero⟩

/-- What a copy has allocated is what `excom_string_destroy` frees. -/
theorem DupOf.destroy {bytes : Bytes} {s : ExcomString} {w w' : World} (h : DupOf bytes w s w') :
    s.destroy w' = .ok ((), { w' with frees := (if bytes = [] then [] else [w.allocs]) ++ w'.frees }) := by
  have hfree := h.freeable
  rw [h.allocs] at hfree
  unfold ExcomString.destroy
  by_cases hb : bytes = []
  · rw [if_pos hb] at hfree ⊢
    rw [if_neg (fun h => Nat.lt_irrefl _ (hfree.1 h))]
    rfl
  · rw [if_neg hb] at hfree ⊢
    rw [if_pos (hfree.2 (Nat.lt_succ_self _)), free_eq, h.block, if_neg hb]
    rfl

/-- The copies of a string are made safely, and agree, if and only if its size plus one is a `uint32_t`, or no block
is given to either function. -/
theorem duplicates_iff {string : ExcomString} (target : ExcomString) {p : Option Block} {off : Nat} {w w1 : World}
    (hvalid : string.Valid) (hlen : off + string.size.toNat ≤ (blockBytes p).length)
    (hsame : ((blockBytes p).drop off).take string.size.toNat = string.bytes) :
    Duplicates E string target p off w w1 ↔
      string.size.toNat + 1 < 2 ^ 32 ∨ (E.malloc w.allocs = none ∧ E.malloc w1.allocs = none) := by
  have hdup := dup_safely_iff (E := E) hvalid w
  have hfill := dupfill_safely_iff (E := E) target hlen w1
  rw [hsame] at hfill
  constructor
  · intro h
    rcases hdup.1 h.dup_safe with hsize | hnone
    · exact .inl hsize
    · exact (hfill.1 h.dupfill_safe).imp_right fun hnone1 => ⟨hnone, hnone1⟩
  · intro h
    have h1 : DupsSafely (dup E string) string.bytes w := hdup.2 (h.imp_right And.left)
    have h2 : DupsSafely (dupfill E target string.size p off) string.bytes w1 := hfill.2 (h.imp_right And.right)
    refine ⟨h1, h2, ?_⟩
    intro r r1 w' w1' hrun hrun1 hr hr1
    exact (h1.ensures r w' hrun hr).agree (h2.ensures r1 w1' hrun1 hr1)

/-- Two bytes, once as a string and once in the middle of a block -/
theorem duplicates_two :
    Duplicates (Env.amd64 0) ⟨2, some ⟨0, [104, 105]⟩, false⟩ init (some ⟨1, [0, 104, 105]⟩) 1 World.start
      World.start := by
  have hvalid : Valid ⟨2, some ⟨0, [104, 105]⟩, false⟩ := Nat.le_refl 2
  exact (duplicates_iff init hvalid (by decide) (by decide)).2 (.inl (by decide))

/-- The block for the largest string has no bytes. -/
theorem not_duplicates_largest : ∃ string : ExcomString, string.Valid ∧
    ¬ Duplicates (Env.amd64 0) string init string.body 0 World.start World.start := by
  have hbytes : (List.replicate (2 ^ 32 - 1) (0 : UInt8)).length = 2 ^ 32 - 1 := List.length_replicate
  generalize List.replicate (2 ^ 32 - 1) (0 : UInt8) = bs at hbytes
  have hsize : (0xffffffff : UInt32).toNat = 2 ^ 32 - 1 := rfl
  have hvalid : ExcomString.Valid ⟨0xffffffff, some ⟨0, bs⟩, false⟩ := Nat.le_of_eq (hsize.trans hbytes.symm)
  refine ⟨_, hvalid, ?_⟩
  intro h
  rcases (dup_safely_iff hvalid World.start).1 h.dup_safe with hlt | hnone
  · rw [hsize] at hlt
    omega
  · cases hnone

end ExcomString

end Excom
