import Excom.BufferFifo
import Excom.Format

/-!
# Unmutable buffers

Any sequence of calls on a buffer whose flag is set.  The append functions and `excom_buffer_format` look at the
flag; `excom_buffer_reset` and `excom_buffer_resize` do not, and neither does `excom_buffer_write`, which destroys
a freeable buffer when it has sent the last byte.  Without these the buffer stays as it is (`intact_iff`).
-/

namespace Excom

/-- A call of a public function on a buffer, other than `excom_buffer_destroy` -/
inductive PublicCall where
  | reset
  | resize (toFit : Nat)
  | format (fmt : Bytes) (va : List FormatArg)
  | call (c : BufferCall)

namespace PublicCall

/-- What the call returns, and the buffer -/
def run (E : Env) (b : Buffer) : PublicCall → M (Int × Buffer)
  | reset => b.reset E
  | resize toFit => b.resize E toFit
  | format fmt va => b.format E fmt va
  | call c => do
    let (err, b, _) ← c.run E b
    return (err, b)

/-- Of all calls, only a flush may leave the buffer as it is. -/
def Modifies : PublicCall → Prop
  | call (.write _) => False
  | _ => True

end PublicCall

/-- Every call that would modify the buffer is refused, and the buffer stays as it is. -/
def Intact (E : Env) : List PublicCall → Buffer → World → Prop
  | [], _, _ => True
  | call :: calls, b, w => Exec.Returns (call.run E b) w fun r w' =>
      (call.Modifies → r.1 = EACCES) ∧
        (blockBytes r.2.buf = blockBytes b.buf ∧ r.2.used = b.used ∧ r.2.max = b.max ∧
          r.2.unmutable = b.unmutable) ∧
        Intact E calls r.2 w'

/-- There is no reset and no resize, and no flush takes the last bytes of a freeable buffer, or bytes behind the
end of the block, which it can only with the cursor behind the end of the contents. -/
def Spared (E : Env) : List PublicCall → Buffer → Prop
  | [], _ => True
  | .reset :: _, _ | .resize _ :: _, _ => False
  | .format _ _ :: calls, b => Spared E calls b
  | .call (.write (.ok n)) :: calls, b =>
    b.pos + min n (b.remaining E) ≤ b.max ∧ ¬ b.Drains (.ok n) ∧
      Spared E calls { b with pos := b.pos + min n (b.remaining E) }
  | .call _ :: calls, b => Spared E calls b

variable {E : Env}

/-! ### The calls -/

private theorem append_refused {b : Buffer} (hu : b.unmutable = true) {c : BufferCall}
    (h : ∀ outcome, c ≠ .write outcome) (w : World) :
    PublicCall.run E b (.call c) w = .ok ((EACCES, b), w) := by
  have hcap (str : Bytes) (size : Nat) : b.cappend E str size = pure (EACCES, b) := if_pos hu
  have hsap (body : Option Block) (size : UInt32) : b.sappend E body size = pure (EACCES, b) := if_pos hu
  have hbap (src : Buffer) (amount : Nat) : b.bappend2 E src amount = pure (EACCES, b) := if_pos hu
  have hrem (src : Buffer) (s : Nat) : b.bappendRemaining2 E src s = pure (EACCES, b) := if_pos hu
  cases c with
  | cappend str size => simp only [PublicCall.run, BufferCall.run, hcap]; rfl
  | sappend body size => simp only [PublicCall.run, BufferCall.run, hsap]; rfl
  | bappend src => simp only [PublicCall.run, BufferCall.run, Buffer.bappend, hbap]; rfl
  | bappend2 src amount => simp only [PublicCall.run, BufferCall.run, hbap]; rfl
  | bappendRemaining src => simp only [PublicCall.run, BufferCall.run, Buffer.bappendRemaining, hrem]; rfl
  | bappendRemaining2 src s => simp only [PublicCall.run, BufferCall.run, hrem]; rfl
  | write outcome => exact absurd rfl (h outcome)

private theorem format_refused {b : Buffer} (hu : b.unmutable = true) (fmt : Bytes) (va : List FormatArg)
    (w : World) : PublicCall.run E b (.format fmt va) w = .ok ((EACCES, b), w) := by
  have hrun : b.format E fmt va = pure (EACCES, b) := if_pos hu
  simp only [PublicCall.run, hrun]
  rfl

private theorem resize_code (b : Buffer) (toFit : Nat) (w : World) :
    Exec.Ensures (b.resize E toFit) w fun r _ => r.1 ≠ EACCES := by
  intro r w' hrun
  obtain ⟨m, -, ⟨-, hr, -⟩ | ⟨hchk, -⟩⟩ := Buffer.resize_ensures b toFit w r w' hrun
  · rw [hr]
    show ENOMEM ≠ EACCES
    decide
  · rw [hchk]
    decide

private theorem reset_mutable (b : Buffer) (w : World) :
    Exec.Ensures (b.reset E) w fun r _ => r.2.unmutable = false := by
  unfold Buffer.reset
  refine .seq fun _ _ => .seq fun _ _ => .seq fun buf _ => ?_
  cases buf with
  | none => exact .seq fun _ _ => .seq fun _ _ => .pure rfl
  | some blk => exact .seq fun _ _ => .pure rfl

/-- A flush that fails leaves the buffer as it is, wherever the cursor stands. -/
private theorem write_failed {b : Buffer} (hm : b.mutex = .unlocked) (errno : Int) (w : World) :
    ∃ err, b.write E (.error errno) w = .ok ((err, b, []), w) := by
  unfold Buffer.write
  split
  · exact ⟨0, rfl⟩
  · refine ⟨errno, ?_⟩
    rw [hm, mutexLock_unlocked, Exec.pure_bind]
    cases b
    subst hm
    rfl

section Behind

variable {b : Buffer} (hb : b.WF E) (hpos : b.used < b.pos)

include hb hpos

/-- With the cursor behind the end, `remaining` wraps around to more bytes than there are in the block. -/
private theorem remaining_behind {k : Nat} (hk : b.pos + k ≤ b.max) (mutex : Mutex) :
    ({ b with pos := b.pos + k, mutex } : Buffer).remaining E = E.word - (b.pos + k - b.used) := by
  have hlt := hb.max_lt
  unfold Buffer.remaining
  dsimp only
  rw [show (b.used : Int) - (b.pos + k : Nat) = ((E.word - (b.pos + k - b.used) : Nat) : Int) + E.word * (-1) by
      omega,
    Int.add_mul_emod_self_left, ← Int.natCast_emod, Int.toNat_natCast, Nat.mod_eq_of_lt (by omega)]

variable (hmax : b.pos ≤ b.max)

include hmax

private theorem remaining_behind_pos : b.remaining E ≠ 0 := by
  have hlt := hb.max_lt
  have hrem := remaining_behind hb hpos (k := 0) (by omega) b.mutex
  change b.remaining E = _ at hrem
  omega

private theorem write_behind {n : Nat} (hinside : b.pos + min n (b.remaining E) ≤ b.max) (w : World) :
    ∃ bytes w', b.write E (.ok n) w =
      .ok ((0, { b with pos := b.pos + min n (b.remaining E) }, bytes), w') := by
  have hlt := hb.max_lt
  have hblock := hb.block
  have hm := hb.mutex
  obtain ⟨loads, hload⟩ :=
    load_eq (show b.pos + min n (b.remaining E) ≤ (blockBytes b.buf).length by omega) w
  have hstays : ¬ (({ b with pos := b.pos + min n (b.remaining E), mutex := .locked } : Buffer).remaining E = 0 ∧
      b.freeable = true) := by
    rw [remaining_behind hb hpos hinside]
    omega
  refine ⟨((blockBytes b.buf).drop b.pos).take (min n (b.remaining E)), { w with loads }, ?_⟩
  unfold Buffer.write
  rw [if_neg (remaining_behind_pos hb hpos hmax), hm, mutexLock_unlocked, Exec.pure_bind]
  dsimp only
  rw [Exec.bind_of_ok hload]
  unfold Buffer.drained
  rw [if_neg hstays]
  cases b
  subst hm
  rfl

/-- The bytes that the socket takes are not in the block. -/
private theorem write_outside {n : Nat} (houtside : ¬ b.pos + min n (b.remaining E) ≤ b.max) (w : World) :
    ∃ e, b.write E (.ok n) w = .error e := by
  have hblock := hb.block
  have hload : ∃ e, load b.buf b.pos (min n (b.remaining E)) = Exec.fault e := by
    unfold load
    rw [if_neg (by omega)]
    cases hbuf : b.buf with
    | none => exact ⟨_, rfl⟩
    | some blk =>
      rw [hbuf, blockBytes_some] at hblock
      dsimp only
      rw [if_neg (by omega)]
      exact ⟨_, rfl⟩
  obtain ⟨e, he⟩ := hload
  refine ⟨e, ?_⟩
  unfold Buffer.write
  rw [if_neg (remaining_behind_pos hb hpos hmax), hb.mutex, mutexLock_unlocked, Exec.pure_bind]
  dsimp only
  rw [he, Exec.fault_bind]
  rfl

end Behind

/-! ### Sequences of calls -/

/-- The buffer is left alone by calls on it if and only if none of them is a reset, a resize, a flush of the last
bytes of a freeable buffer, or one of bytes behind the block. -/
theorem intact_iff {b : Buffer} (hb : b.WF E) (hu : b.unmutable = true) (hmax : b.pos ≤ b.max)
    (calls : List PublicCall) (w : World) : Intact E calls b w ↔ Spared E calls b := by
  induction calls generalizing b w with
  | nil => exact Iff.rfl
  | cons call calls ih =>
    -- a call that changes nothing but the cursor leaves the buffer to the calls behind it
    have hkept {call : PublicCall} {err : Int} {pos : Nat} {w' : World}
        (hrun : call.run E b w = .ok ((err, { b with pos }), w')) (hcode : call.Modifies → err = EACCES)
        (hpos : pos ≤ b.max) : Intact E (call :: calls) b w ↔ Spared E calls { b with pos } := by
      rw [← ih (b := { b with pos }) ⟨hb.mutex, hb.block, hb.used_le, hb.max_lt⟩ hu hpos w']
      constructor
      · intro ⟨r, w'', hrun', _, _, hrest⟩
        rw [hrun] at hrun'
        cases hrun'
        exact hrest
      · intro hrest
        exact .intro hrun ⟨hcode, ⟨rfl, rfl, rfl, rfl⟩, hrest⟩
    have hrefused {call : PublicCall} (hrun : call.run E b w = .ok ((EACCES, b), w)) :
        Intact E (call :: calls) b w ↔ Spared E calls b := hkept hrun (fun _ => rfl) hmax
    cases call with
    | reset =>
      refine iff_of_false ?_ id
      intro ⟨r, w', hrun, _, ⟨_, _, _, hflag⟩, _⟩
      have hcleared : r.2.unmutable = false := reset_mutable b w r w' hrun
      rw [hflag, hu] at hcleared
      cases hcleared
    | resize toFit =>
      refine iff_of_false ?_ id
      intro ⟨r, w', hrun, hcode, _⟩
      exact resize_code b toFit w r w' hrun (hcode trivial)
    | format fmt va => exact hrefused (format_refused hu fmt va w)
    | call c =>
      cases c with
      | write outcome =>
        have hpair {r : Int × Buffer × Bytes} {w' : World} (hrun : b.write E outcome w = .ok (r, w')) :
            PublicCall.run E b (.call (.write outcome)) w = .ok ((r.1, r.2.1), w') := Exec.bind_of_ok hrun _
        rcases outcome with errno | n
        · obtain ⟨err, hwrite⟩ := write_failed (E := E) hb.mutex errno w
          exact hkept (hpair hwrite) (fun h => absurd h id) hmax
        by_cases hpos : b.pos ≤ b.used
        · have hrem := Buffer.remaining_eq hb hpos
          have htaken : b.taken (.ok n) = min n (b.remaining E) := by rw [hrem]; rfl
          have hused := hb.used_le
          have hinside : b.pos + min n (b.remaining E) ≤ b.max := by omega
          by_cases hdrains : b.Drains (.ok n)
          · refine iff_of_false ?_ fun h => h.2.1 hdrains
            -- the flush frees the block
            intro ⟨r, w', hrun, _, ⟨_, hused, _⟩, _⟩
            obtain ⟨loads, hwrite⟩ := Buffer.write_drains hb hpos hdrains w
            rw [hpair hwrite] at hrun
            cases hrun
            have hlt := hdrains.1
            have h0 : 0 = b.used := hused
            omega
          · obtain ⟨loads, hwrite⟩ := Buffer.write_keeps hb hpos hdrains w
            rw [htaken] at hwrite
            rw [hkept (hpair hwrite) (fun h => absurd h id) hinside]
            exact ⟨fun hrest => ⟨hinside, hdrains, hrest⟩, fun h => h.2.2⟩
        · have hbehind : b.used < b.pos := by omega
          by_cases hinside : b.pos + min n (b.remaining E) ≤ b.max
          · have hstays : ¬ b.Drains (.ok n) := fun h => hpos (Nat.le_of_lt h.1)
            obtain ⟨bytes, w', hwrite⟩ := write_behind hb hbehind hmax hinside w
            rw [hkept (hpair hwrite) (fun h => absurd h id) hinside]
            exact ⟨fun hrest => ⟨hinside, hstays, hrest⟩, fun h => h.2.2⟩
          · refine iff_of_false ?_ fun h => hinside h.1
            intro ⟨r, w', hrun, _⟩
            obtain ⟨e, he⟩ := write_outside hb hbehind hmax hinside w
            have hfail : PublicCall.run E b (.call (.write (.ok n))) w = .error e := Exec.bind_of_error he _
            rw [hfail] at hrun
            cases hrun
      | cappend | sappend | bappend | bappend2 | bappendRemaining | bappendRemaining2 =>
        exact hrefused (append_refused hu (fun _ h => by cases h) w)

/-- Two bytes that cannot be freed: they are sent, and nothing can be added to them. -/
theorem intact_static :
    Intact (Env.amd64 0) [.call (.cappend [3] 1), .call (.write (.ok 2)), .format [0x61, 0] []]
      { Buffer.ofBytes [1, 2] with unmutable := true, freeable := false } World.start := by
  have hwf : (Buffer.ofBytes [1, 2]).WF (Env.amd64 0) := Buffer.ofBytes_wf (by decide)
  refine (intact_iff (b := { Buffer.ofBytes [1, 2] with unmutable := true, freeable := false })
    ⟨hwf.mutex, hwf.block, hwf.used_le, hwf.max_lt⟩ rfl (Nat.zero_le _) _ _).2 ?_
  exact ⟨by decide, by decide, trivial⟩

/-- A reset empties a buffer that is not mutable, a resize gives it another block, and a flush destroys it. -/
theorem not_intact : ¬ ∃ call ∈ [PublicCall.reset, .resize 3, .call (.write (.ok 2))],
    Intact (Env.amd64 0) [call] { Buffer.ofBytes [1, 2] with unmutable := true } World.start := by
  have hreset : ¬ Intact (Env.amd64 0) [.reset] { Buffer.ofBytes [1, 2] with unmutable := true } World.start := by
    intro ⟨r, w, hrun, hcode, _⟩
    cases hrun
    exact absurd (hcode trivial) (by decide)
  have hresize : ¬ Intact (Env.amd64 0) [.resize 3] { Buffer.ofBytes [1, 2] with unmutable := true }
      World.start := by
    intro ⟨r, w, hrun, hcode, _⟩
    cases hrun
    exact absurd (hcode trivial) (by decide)
  have hwrite : ¬ Intact (Env.amd64 0) [.call (.write (.ok 2))]
      { Buffer.ofBytes [1, 2] with unmutable := true } World.start := by
    intro ⟨r, w, hrun, _, ⟨_, hused, _⟩, _⟩
    cases hrun
    exact absurd hused (by decide)
  intro ⟨call, hcall, hintact⟩
  simp only [List.mem_cons, List.not_mem_nil, or_false] at hcall
  rcases hcall with rfl | rfl | rfl
  · exact hreset hintact
  · exact hresize hintact
  · exact hwrite hintact

end Excom
