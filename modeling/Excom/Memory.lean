import Excom.Lib.Exec
import Mathlib.Algebra.Ring.Nat
import Mathlib.Data.List.Basic

/-!
# The machine under the library

What the C code runs on: blocks of bytes handed out by `malloc`, `errno`, mutexes, the host's byte order and the
width of its `size_t`, and the functions of libsodium that the library calls.  The host and the outcomes it
chooses (which allocations fail, what a fresh block contains, which random bytes come out) are in `Env`; what a
run changes is in `World`.

Accesses outside a block, accesses through `NULL`, a lock that can never be granted and a loop that never ends
are faults.  To use a block or to free it after it was freed is no fault: `World` records the blocks that were
freed and the bytes that were read, and that no block is freed twice is proved about that record.
-/

namespace Excom

abbrev Bytes := List UInt8

/-! ### Constants of the host and of libsodium -/

def EAGAIN : Int := 11
def ENOMEM : Int := 12
def EACCES : Int := 13

def cryptoBoxPublicKeyBytes : Nat := 32
def cryptoBoxNonceBytes : Nat := 24
def cryptoBoxZeroBytes : Nat := 32

abbrev Key := Vector UInt8 cryptoBoxPublicKeyBytes
abbrev Nonce := Vector UInt8 cryptoBoxNonceBytes

inductive Fault where
  | null
  | bounds
  | mutex
  | diverges
  deriving DecidableEq, Repr

/-- A block of memory: the number of the allocation that made it, and its bytes. -/
structure Block where
  id : Nat
  bytes : Bytes
  deriving DecidableEq, Repr

/-- A read of `len` bytes at `off` of the block `block`. -/
structure Load where
  block : Nat
  off : Nat
  len : Nat
  deriving DecidableEq, Repr

structure World where
  errno : Int
  /-- The number of allocations so far. -/
  allocs : Nat
  /-- The number of `randombytes_buf` calls so far. -/
  randoms : Nat
  /-- The blocks freed so far. -/
  frees : List Nat
  /-- The reads so far, the last one first. -/
  loads : List Load
  /-- The number of unlocks of a mutex that was not locked. -/
  unheld : Nat
  deriving DecidableEq, Repr

abbrev M := Exec World Fault

/-- The functions of libsodium the library calls; `none` is a non-zero return code. -/
structure Sodium where
  cryptoBoxBeforenm : Key → Key → Key
  cryptoBoxAfternm : Bytes → Nonce → Key → Option Bytes
  cryptoBoxOpenAfternm : Bytes → Nonce → Key → Option Bytes

/-- The host: its byte order and word size, the outcome of the `k`-th allocation (`none` when it fails,
otherwise the bytes that the fresh block happens to hold), the `k`-th random nonce, and libsodium. -/
structure Env where
  littleEndian : Bool
  wordBits : Nat
  /-- `size_t` has at least 32 bits. -/
  wide : 32 ≤ wordBits
  malloc : Nat → Option (Nat → UInt8)
  randombytes : Nat → Nonce
  sodium : Sodium

/-- The number of values of `size_t`. -/
def Env.word (E : Env) : Nat := 2 ^ E.wordBits

theorem Env.le_word (E : Env) : 2 ^ 32 ≤ E.word := Nat.pow_le_pow_right (by decide) E.wide

/-- A difference of two numbers of type `size_t` that does not wrap around -/
theorem toNat_sub_emod {word m n : Nat} (hle : n ≤ m) (hlt : m - n < word) :
    (((m : Int) - n) % word).toNat = m - n := by
  rw [show (m : Int) - n = ((m - n : Nat) : Int) by omega, ← Int.natCast_emod, Int.toNat_natCast,
    Nat.mod_eq_of_lt hlt]

/-- Every allocation succeeds. -/
def Env.AllocSucceeds (E : Env) : Prop := ∀ k, (E.malloc k).isSome

/-- Every byte of a fresh block satisfies `P`. -/
def Env.Junk (E : Env) (P : UInt8 → Prop) : Prop := ∀ k junk, E.malloc k = some junk → ∀ i, P (junk i)

/-- A little-endian host with 64-bit words, all of whose allocations succeed and hold `junk`, and whose
`crypto_box` leaves messages as they are. -/
def Env.amd64 (junk : UInt8) : Env where
  littleEndian := true
  wordBits := 64
  wide := by decide
  malloc := fun _ => some fun _ => junk
  randombytes := fun _ => Vector.replicate _ 0
  sodium := ⟨fun pkey _ => pkey, fun m _ _ => some m, fun c _ _ => some c⟩

theorem Env.amd64_allocSucceeds (junk : UInt8) : (Env.amd64 junk).AllocSucceeds := fun _ => rfl

/-- The world before the first step. -/
def World.start : World := ⟨0, 0, 0, [], [], 0⟩

/-! ### Memory -/

/-- The bytes behind a pointer to the start of a block; there are none behind `NULL`. -/
def blockBytes : Option Block → Bytes
  | none => []
  | some b => b.bytes

@[simp] theorem blockBytes_none : blockBytes none = [] := rfl

@[simp] theorem blockBytes_some (b : Block) : blockBytes (some b) = b.bytes := rfl

def malloc (E : Env) (size : Nat) : M (Option Block) := fun w =>
  match E.malloc w.allocs with
  | none => .ok (none, { w with allocs := w.allocs + 1, errno := ENOMEM })
  | some junk => .ok (some ⟨w.allocs, (List.range size).map junk⟩, { w with allocs := w.allocs + 1 })

/-- A block may be freed again; it is recorded again then. -/
def free : Option Block → M Unit
  | none => pure ()
  | some b => Exec.modify fun w => { w with frees := b.id :: w.frees }

/-- Read `len` bytes at `off` of the block `p` points to. -/
def load (p : Option Block) (off len : Nat) : M Bytes :=
  if len = 0 then pure []
  else
    match p with
    | none => Exec.fault .null
    | some b =>
      if off + len ≤ b.bytes.length then do
        Exec.modify fun w => { w with loads := ⟨b.id, off, len⟩ :: w.loads }
        pure ((b.bytes.drop off).take len)
      else Exec.fault .bounds

/-- Write `src` at `off` of the block `p` points to. -/
def store (p : Option Block) (off : Nat) (src : Bytes) : M (Option Block) :=
  if src.length = 0 then pure p
  else
    match p with
    | none => Exec.fault .null
    | some b =>
      if off + src.length ≤ b.bytes.length then
        pure (some { b with bytes := b.bytes.take off ++ src ++ b.bytes.drop (off + src.length) })
      else Exec.fault .bounds

/-- Read the first `size` of the bytes `str` points to. -/
def readBytes (str : Bytes) (size : Nat) : M Bytes :=
  if size ≤ str.length then pure (str.take size) else Exec.fault .bounds

/-- `excom_return_errno`: the error code, and `errno` is cleared. -/
def returnErrno : M Int := do
  let w ← Exec.get
  Exec.modify fun w => { w with errno := 0 }
  return w.errno

/-! ### Mutexes -/

inductive Mutex where
  | uninit
  | unlocked
  | locked
  deriving DecidableEq, Repr

/-- Locking a mutex that is held never returns; a mutex must be initialized before it is used. -/
def mutexLock : Mutex → M Mutex
  | .unlocked => pure .locked
  | _ => Exec.fault .mutex

/-- An unlock frees the mutex, whoever holds it; one that nobody holds is counted. -/
def mutexUnlock : Mutex → M Mutex
  | .locked => pure .unlocked
  | .unlocked => do
    Exec.modify fun w => { w with unheld := w.unheld + 1 }
    pure .unlocked
  | .uninit => Exec.fault .mutex

/-! ### Reading and writing -/

@[simp] theorem mutexLock_unlocked : mutexLock .unlocked = pure .locked := rfl

@[simp] theorem mutexUnlock_locked : mutexUnlock .locked = pure .unlocked := rfl

/-- A write inside the block replaces the bytes there. -/
theorem store_eq (p : Option Block) (off : Nat) (src : Bytes) (h : off + src.length ≤ (blockBytes p).length) :
    ∃ p', store p off src = pure p' ∧
      blockBytes p' = (blockBytes p).take off ++ src ++ (blockBytes p).drop (off + src.length) ∧
      p'.map Block.id = p.map Block.id := by
  unfold store
  by_cases hs : src.length = 0
  · rw [List.length_eq_zero_iff] at hs
    subst hs
    exact ⟨p, by simp, by simp, rfl⟩
  · rcases p with _ | b
    · have h0 : off + src.length ≤ 0 := h
      omega
    · have hb : off + src.length ≤ b.bytes.length := h
      simp only [hs, hb, if_true, if_false]
      exact ⟨_, rfl, rfl, rfl⟩

/-- A write beyond the end of the block is a fault. -/
theorem store_error {p : Option Block} {off : Nat} {src : Bytes} (hs : 0 < src.length)
    (h : (blockBytes p).length < off + src.length) : ∃ e, store p off src = Exec.fault e := by
  unfold store
  rw [if_neg (Nat.pos_iff_ne_zero.1 hs)]
  rcases p with _ | b
  · exact ⟨_, rfl⟩
  · have hb : ¬ off + src.length ≤ b.bytes.length := Nat.not_le.2 h
    simp only [hb, if_false]
    exact ⟨_, rfl⟩

/-- The run from `w` to `w'` allocated blocks only after those of `w`, and all it read satisfies `P`. -/
structure World.Reads (P : Load → Prop) (w w' : World) : Prop where
  allocs : w.allocs ≤ w'.allocs
  loads : ∃ new, w'.loads = new ++ w.loads ∧ ∀ l ∈ new, P l

theorem World.Reads.of_eq {P : Load → Prop} {w w' : World} (ha : w.allocs ≤ w'.allocs)
    (h : w'.loads = w.loads) : World.Reads P w w' :=
  ⟨ha, [], by simp [h], by simp⟩

theorem World.Reads.refl {P : Load → Prop} (w : World) : World.Reads P w w := .of_eq (Nat.le_refl _) rfl

/-- One run after the other reads what either of them reads. -/
theorem World.Reads.trans {P : Load → Prop} {w w' w'' : World} (h : World.Reads P w w')
    (h' : World.Reads P w' w'') : World.Reads P w w'' := by
  obtain ⟨new, he, hP⟩ := h.loads
  obtain ⟨new', he', hP'⟩ := h'.loads
  refine ⟨Nat.le_trans h.allocs h'.allocs, new' ++ new, by rw [he', he, List.append_assoc], ?_⟩
  intro l hl
  rcases List.mem_append.1 hl with hl | hl
  · exact hP' l hl
  · exact hP l hl

/-- A successful allocation gives a block with a new number. -/
theorem malloc_some {E : Env} {w : World} (hA : (E.malloc w.allocs).isSome) (size : Nat) :
    Exec.Returns (malloc E size) w fun p w' => ∃ junk, E.malloc w.allocs = some junk ∧
      p = some ⟨w.allocs, (List.range size).map junk⟩ ∧ w' = { w with allocs := w.allocs + 1 } := by
  obtain ⟨junk, hj⟩ := Option.isSome_iff_exists.1 hA
  exact ⟨_, _, by simp only [malloc, hj], junk, hj, rfl, rfl⟩

/-- A failed allocation sets `errno`. -/
theorem malloc_none {E : Env} {w : World} (hA : E.malloc w.allocs = none) (size : Nat) :
    malloc E size w = .ok (none, { w with allocs := w.allocs + 1, errno := ENOMEM }) := by
  simp only [malloc, hA]

/-- An allocation, given or not -/
theorem malloc_eq (E : Env) (size : Nat) (w : World) : ∃ p w', malloc E size w = .ok (p, w') ∧
    w'.allocs = w.allocs + 1 ∧ w'.frees = w.frees ∧ w'.randoms = w.randoms ∧
      p.map Block.id = (E.malloc w.allocs).map (fun _ => w.allocs) ∧ (p.isSome → (blockBytes p).length = size) := by
  rcases hA : E.malloc w.allocs with _ | junk
  · refine ⟨none, _, malloc_none hA size, rfl, rfl, rfl, rfl, ?_⟩
    intro h
    cases h
  · have hsome : (E.malloc w.allocs).isSome := by rw [hA]; rfl
    obtain ⟨p, w', hrun, junk', -, rfl, rfl⟩ := malloc_some hsome size
    exact ⟨_, _, hrun, rfl, rfl, rfl, rfl, fun _ => by simp⟩

/-- Where allocations succeed, there is always a block. -/
theorem malloc_returns {E : Env} (hA : E.AllocSucceeds) (size : Nat) (w : World) :
    Exec.Returns (malloc E size) w fun p w' => ∃ junk, E.malloc w.allocs = some junk ∧
      p = some ⟨w.allocs, (List.range size).map junk⟩ ∧ w' = { w with allocs := w.allocs + 1 } :=
  malloc_some (hA _) size

theorem free_returns (P : Load → Prop) (p : Option Block) (w : World) :
    Exec.Returns (free p) w fun _ w' => World.Reads P w w' := by
  rcases p with _ | b
  · exact .pure (.refl w)
  · exact ⟨(), _, rfl, .of_eq (Nat.le_refl _) rfl⟩

/-- To free a block is to record its number. -/
theorem free_eq (p : Option Block) (w : World) :
    free p w = .ok ((), { w with frees := (p.map Block.id).toList ++ w.frees }) := by
  rcases p with _ | b <;> rfl

/-- A read inside the block changes nothing but the record of the reads. -/
theorem load_eq {p : Option Block} {off len : Nat} (h : off + len ≤ (blockBytes p).length) (w : World) :
    ∃ loads, load p off len w = .ok (((blockBytes p).drop off).take len, { w with loads }) := by
  unfold load
  by_cases h0 : len = 0
  · rw [if_pos h0, h0, List.take_zero]
    exact ⟨w.loads, rfl⟩
  · rw [if_neg h0]
    rcases p with _ | b
    · have hle : off + len ≤ 0 := h
      omega
    · have hle : off + len ≤ b.bytes.length := h
      simp only [hle, if_true]
      exact ⟨_, rfl⟩

/-- A read inside the block returns its bytes there. -/
theorem load_returns (p : Option Block) (off len : Nat) (h : off + len ≤ (blockBytes p).length)
    {P : Load → Prop} (hP : 0 < len → ∀ b, p = some b → P ⟨b.id, off, len⟩) (w : World) :
    Exec.Returns (load p off len) w fun bs w' =>
      bs = ((blockBytes p).drop off).take len ∧ World.Reads P w w' := by
  unfold load
  split
  · exact .pure ⟨by simp [*], .refl w⟩
  · rcases p with _ | b
    · have h0 : off + len ≤ 0 := h
      omega
    · have hb : off + len ≤ b.bytes.length := h
      simp only [hb, if_true]
      refine ⟨_, _, rfl, rfl, Nat.le_refl _, [⟨b.id, off, len⟩], rfl, ?_⟩
      intro l hl
      rw [List.mem_singleton.1 hl]
      exact hP (by omega) b rfl

/-- A read that returns is inside the block. -/
theorem load_ensures (p : Option Block) (off len : Nat) (w : World) :
    Exec.Ensures (load p off len) w fun bs _ =>
      bs = ((blockBytes p).drop off).take len ∧ (0 < len → off + len ≤ (blockBytes p).length) := by
  unfold load
  split
  · exact .pure ⟨by simp [*], by omega⟩
  · rcases p with _ | b
    · exact .fault
    · by_cases h : off + len ≤ b.bytes.length
      · simp only [h, if_true]
        rintro a s' ⟨⟩
        exact ⟨rfl, fun _ => h⟩
      · simp only [h, if_false]
        exact .fault

/-! ### What the calls leave alone -/

/-- No block was allocated or freed, and no random number was drawn. -/
structure World.Same (w w' : World) : Prop where
  allocs : w'.allocs = w.allocs
  frees : w'.frees = w.frees
  randoms : w'.randoms = w.randoms

theorem World.Same.refl (w : World) : w.Same w := ⟨rfl, rfl, rfl⟩

theorem World.Same.trans {w w' w'' : World} (h : w.Same w') (h' : w'.Same w'') : w.Same w'' :=
  ⟨h'.allocs.trans h.allocs, h'.frees.trans h.frees, h'.randoms.trans h.randoms⟩

theorem load_same (p : Option Block) (off len : Nat) (w : World) :
    Exec.Ensures (load p off len) w fun _ w' => w.Same w' := by
  unfold load
  split
  · exact .pure (.refl w)
  · split
    · exact .fault
    · split
      · refine .bind (.modify (Q := fun _ w' => w.Same w') ⟨rfl, rfl, rfl⟩) ?_
        intro _ w1 h
        exact .pure h
      · exact .fault

theorem store_same (p : Option Block) (off : Nat) (src : Bytes) (w : World) :
    Exec.Ensures (store p off src) w fun p' w' => w' = w ∧ p'.map Block.id = p.map Block.id := by
  unfold store
  split
  · exact .pure ⟨rfl, rfl⟩
  · split
    · exact .fault
    · split
      · exact .pure ⟨rfl, rfl⟩
      · exact .fault

theorem readBytes_same (str : Bytes) (size : Nat) (w : World) :
    Exec.Ensures (readBytes str size) w fun _ w' => w.Same w' := by
  unfold readBytes
  split
  · exact .pure (.refl w)
  · exact .fault

theorem mutexUnlock_same (m : Mutex) (w : World) : Exec.Ensures (mutexUnlock m) w fun _ w' => w.Same w' := by
  cases m with
  | uninit => exact .fault
  | locked => exact .pure (.refl w)
  | unlocked =>
    refine .bind (.modify (Q := fun _ w' => w.Same w') ⟨rfl, rfl, rfl⟩) ?_
    intro _ w1 h
    exact .pure h

theorem mutexLock_same (m : Mutex) (w : World) : Exec.Ensures (mutexLock m) w fun _ w' => w' = w := by
  cases m with
  | uninit | locked => exact .fault
  | unlocked => exact .pure rfl

theorem returnErrno_same (w : World) : Exec.Ensures returnErrno w fun _ w' => w.Same w' := by
  intro r w' hrun
  cases hrun
  exact ⟨rfl, rfl, rfl⟩

end Excom
