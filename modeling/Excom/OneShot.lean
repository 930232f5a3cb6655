import Excom.Ownership
import Excom.Pending

/-!
# Sending a packet at once

`excom_protocol_write` puts a frame together in a buffer of its own and hands it to the socket once.  It destroys
the buffer at its end only, not where it gives up, and takes what the socket has taken for all there is.  So it
does what it should exactly when there is nothing to give up for and the socket takes the whole frame, or when
there was no buffer to begin with (`oneShot_iff`).
-/

namespace Excom

variable (E : Env)

/-- Where the code is `0`, the socket took a complete frame of the packet; and the block of the buffer that was made
for it, if one was made, has been freed once since. -/
def OneShot (p : Packet) (enc : Option Encrypt) (w : World) (r : Int × Packet × Option Encrypt × Bytes)
    (w' : World) : Prop :=
  (r.1 = 0 → IsFrame E p enc r.2.1.size r.2.2.2) ∧
    ∀ buffer w1, Buffer.init E 32 w = .ok ((0, buffer), w1) →
      ∀ written w2, protocolWritePacket E p buffer enc w1 = .ok (written, w2) →
        ∀ block, written.2.2.1.buf = some block → w'.frees.count block.id = w.frees.count block.id + 1

variable {E}

/-! ### Flushing a buffer once -/

/-- Nothing is sent and nothing is freed. -/
theorem write_error (b : Buffer) (errno : Int) (w : World) :
    Exec.Ensures (b.write E (.error errno)) w fun r w' =>
      r.2.2 = [] ∧ w'.frees = w.frees := by
  unfold Buffer.write
  split
  · exact .pure ⟨rfl, rfl⟩
  refine (mutexLock_same b.mutex w).bind ?_
  intro mutex w1 h1
  rw [h1]
  refine (mutexUnlock_same mutex w).bind ?_
  intro mutex' w2 h2
  exact .pure ⟨rfl, h2.frees⟩

/-- A socket that takes bytes is no reason for a code. -/
theorem write_ok (b : Buffer) (k : Nat) (w : World) : Exec.Ensures (b.write E (.ok k)) w fun r _ => r.1 = 0 := by
  unfold Buffer.write
  split
  · exact .pure rfl
  · exact .seq fun _ _ => .seq fun _ _ => .seq fun _ _ => .seq fun _ _ => .pure rfl

/-- It takes no more than it says, and no more than there are. -/
theorem write_sent {b : Buffer} (hb : b.WF E) (hpos : b.pos = 0) (k : Nat) (w : World) :
    Exec.Ensures (b.write E (.ok k)) w fun r _ => r.2.2.length ≤ k ∧ r.2.2.length ≤ b.used := by
  have hle : b.pos ≤ b.used := by omega
  have hlen := hb.length_unread
  by_cases hdrains : b.Drains (.ok k)
  · obtain ⟨loads, hrun⟩ := Buffer.write_drains hb hle hdrains w
    obtain ⟨-, htaken, -⟩ := hdrains
    refine (Exec.Returns.intro hrun ⟨?_, ?_⟩).ensures
    · have hmin : min k (b.used - b.pos) = b.used - b.pos := htaken
      dsimp only
      omega
    · dsimp only
      omega
  · obtain ⟨loads, hrun⟩ := Buffer.write_keeps hb hle hdrains w
    have htaken : b.taken (.ok k) = min k (b.used - b.pos) := rfl
    refine (Exec.Returns.intro hrun ⟨?_, ?_⟩).ensures
    · dsimp only
      rw [List.length_take]
      omega
    · dsimp only
      rw [List.length_take]
      omega

/-- The block that the buffer holds after it has been written to has not been freed. -/
private theorem writePacket_unfreed {p : Packet} {enc : Option Encrypt} {b : Buffer} {w w1 w2 : World}
    (hbegun : Buffer.Begun E 32 w b w1) {written : Int × Packet × Buffer × Option Encrypt}
    (hwrite : protocolWritePacket E p b enc w1 = .ok (written, w2)) {block : Block}
    (hblock : written.2.2.1.buf = some block) : w2.frees.count block.id = w.frees.count block.id := by
  have howns := hbegun.owns.trans (writePacket_owns p b enc w1 written w2 hwrite)
  rw [hblock] at howns
  exact howns.not_freed (mem_heldBy block)

section OneShot

variable (hS : E.sodium.KeepsLength) {p : Packet} (hp : ∀ s, Value.string s ∈ p.values → s.Valid)
  {enc : Option Encrypt} {outcome : Except Int Nat} {b : Buffer} {w w1 : World}
  (hinit : Buffer.init E 32 w = .ok ((0, b), w1)) (hbegun : Buffer.Begun E 32 w b w1) (hb : b.WF E)

include hbegun

theorem Buffer.Begun.stock : b.stock w1 = ⟨[], 32, w.allocs + 1, w.randoms⟩ :=
  Stock.ext hbegun.contents hbegun.max hbegun.allocs hbegun.randoms

include hb

private theorem Buffer.Begun.exists_block : ∃ block, b.buf = some block := by
  have hlen := hb.block
  rcases hbuf : b.buf with _ | block
  · rw [hbuf, hbegun.max] at hlen
    cases hlen
  · exact ⟨block, rfl⟩

include hS hp hinit

/-- With a code, the block is left behind; without one, the socket was handed less than the frame, or took less. -/
private theorem fits_of_oneShot :
    Exec.Ensures (protocolWrite E p enc outcome) w fun r w' => OneShot E p enc w r w' → p.type ≠ packetInvalid ∧
      sentLength (sealKey E enc) (p.plain E).length < 2 ^ 32 ∧ FindsRoom E p enc ⟨[], 32, w.allocs + 1, w.randoms⟩ ∧
      ∃ k, outcome = .ok k ∧ 8 + sentLength (sealKey E enc) (p.plain E).length ≤ k := by
  intro r w' hrun ⟨hsent, hfreed⟩
  unfold protocolWrite at hrun
  rw [Exec.bind_of_ok hinit] at hrun
  dsimp only at hrun
  rw [if_neg (by decide)] at hrun
  obtain ⟨⟨err, p', out, enc'⟩, w2, hwrite, hrun⟩ := Exec.bind_eq_ok.1 hrun
  have hunfreed : ∀ block, out.buf = some block → w2.frees.count block.id = w.frees.count block.id :=
    fun block hblock => writePacket_unfreed hbegun hwrite hblock
  have hfreed := hfreed b w1 hinit _ w2 hwrite
  dsimp only at hrun hfreed
  by_cases hne : p.type = packetInvalid
  · -- the buffer keeps its block
    exfalso
    have hresult := (writePacket_invalid hne b enc w1).ensures _ w2 hwrite
    cases hresult
    rw [if_pos (by decide)] at hrun
    cases hrun
    obtain ⟨block, hblock⟩ := hbegun.exists_block hb
    have hcount := hfreed block hblock
    have hsame := hunfreed block hblock
    omega
  have hcode := writePacket_code hne enc w1 _ w2 hwrite
  dsimp only at hcode
  rw [hcode, if_neg (by decide)] at hrun
  obtain ⟨⟨err', out', sent⟩, w3, hflush, hfinish⟩ := Exec.bind_eq_ok.1 hrun
  dsimp only at hfinish
  cases outcome with
  | error errno =>
    -- nothing was sent: without a code the frame is missing, and with one the block is left behind
    exfalso
    obtain ⟨hnil, hfrees⟩ := write_error out errno w2 _ w3 hflush
    dsimp only at hnil
    by_cases herr : err' = 0
    · rw [if_neg (not_not.2 herr)] at hfinish
      obtain ⟨_, w4, -, hfinish⟩ := Exec.bind_eq_ok.1 hfinish
      cases hfinish
      have hlen := ((hsent herr).length hS).2
      dsimp only at hlen
      rw [hnil, List.length_nil] at hlen
      omega
    · rw [if_pos herr] at hfinish
      cases hfinish
      obtain ⟨_, hheld⟩ := hbegun.exists_block hb
      have hkept := writePacket_block p (by rw [hheld]; rfl) enc w1 _ w2 hwrite
      obtain ⟨block, hblock⟩ := Option.isSome_iff_exists.1 hkept
      have hcount := hfreed block hblock
      have hsame := hunfreed block hblock
      rw [hfrees] at hcount
      omega
  | ok k =>
    -- what was sent is the frame, so the buffer had all of it and the socket took as much
    have herr : err' = 0 := write_ok out k w2 _ w3 hflush
    rw [if_neg (not_not.2 herr)] at hfinish
    obtain ⟨_, w4, -, hfinish⟩ := Exec.bind_eq_ok.1 hfinish
    cases hfinish
    obtain ⟨hsize, hlen⟩ := (hsent herr).length hS
    dsimp only at hsize hlen
    have hfit : sentLength (sealKey E enc) (p.plain E).length < 2 ^ 32 := by
      rw [← hsize]
      exact p'.size.toNat_lt
    obtain ⟨-, hkept, hle, hroom⟩ := writePacket_ensures hS hp hb hne hbegun.unmutable hfit w1 _ w2 hwrite
    have hpos : out.pos = 0 := by rw [hkept.pos (by rw [hbegun.pos]; decide), hbegun.pos]
    obtain ⟨hk, hused⟩ := write_sent hkept.wf hpos k w2 _ w3 hflush
    dsimp only at hk hused hle hroom
    rw [hbegun.used, Nat.zero_add] at hle hroom
    rw [hbegun.stock] at hroom
    exact ⟨hne, hfit, hroom (by omega) hsize, k, rfl, by omega⟩

/-- The flush frees the block, and the buffer that is destroyed has none. -/
private theorem oneShot_of_fits (hne : p.type ≠ packetInvalid)
    (hfit : sentLength (sealKey E enc) (p.plain E).length < 2 ^ 32)
    (hroom : FindsRoom E p enc ⟨[], 32, w.allocs + 1, w.randoms⟩) {k : Nat}
    (hk : 8 + sentLength (sealKey E enc) (p.plain E).length ≤ k) :
    Exec.Returns (protocolWrite E p enc (.ok k)) w fun r w' => OneShot E p enc w r w' := by
  rw [← hbegun.stock] at hroom
  obtain ⟨⟨err, p', out, enc'⟩, w2, hwrite, ⟨herr, f, hf, hcont⟩, -, hkept, -⟩ :=
    (writesAll_of_findsRoom hS hp hb hne hbegun.unmutable hfit hroom).and_ensures
      (writePacket_ensures hS hp hb hne hbegun.unmutable hfit w1)
  dsimp only at herr hf hcont hkept
  rw [hbegun.contents, List.nil_append] at hcont
  have hpos : out.pos = 0 := by rw [hkept.pos (by rw [hbegun.pos]; decide), hbegun.pos]
  have hused : out.used = 8 + sentLength (sealKey E enc) (p.plain E).length := by
    rw [← hkept.wf.length_contents, hcont]
    exact (hf.length hS).2
  have hunread : out.unread = f := by
    rw [Buffer.unread, hpos, List.drop_zero, hcont]
  have hfree : out.freeable = true := hkept.freeable.trans hbegun.freeable
  have htaken : out.taken (.ok k) = out.used - out.pos := Nat.min_eq_right (by omega)
  obtain ⟨loads, hflush⟩ := Buffer.write_drains hkept.wf (by omega) ⟨by omega, htaken, hfree⟩ w2
  have hrun : protocolWrite E p enc (.ok k) w = .ok ((0, p', enc', out.unread),
      { w2 with loads, frees := (out.buf.map Block.id).toList ++ w2.frees }) := by
    unfold protocolWrite
    rw [Exec.bind_of_ok hinit]
    dsimp only
    rw [if_neg (by decide), Exec.bind_of_ok hwrite]
    dsimp only
    rw [herr, if_neg (by decide), Exec.bind_of_ok hflush]
    dsimp only
    rw [if_neg (by decide)]
    unfold Buffer.destroy
    dsimp only
    rw [if_pos hfree]
    rfl
  refine .intro hrun ⟨?_, ?_⟩
  · intro _
    rw [hunread]
    exact hf
  · intro buffer w1' hinit' written w2' hwrite' block hblock
    rw [hinit] at hinit'
    cases hinit'
    have hunfreed := writePacket_unfreed hbegun hwrite' hblock
    rw [hwrite] at hwrite'
    cases hwrite'
    have hblock : out.buf = some block := hblock
    rw [hblock]
    show (block.id :: w2.frees).count block.id = _
    rw [List.count_cons_self, hunfreed]

end OneShot

/-- Where the block for the buffer is given -/
private theorem not_oneShot_of_short (hS : E.sodium.KeepsLength) {p : Packet}
    (hp : ∀ s, Value.string s ∈ p.values → s.Valid) {enc : Option Encrypt} {outcome : Except Int Nat} {w : World}
    (hA : (E.malloc w.allocs).isSome) (hshort : p.type = packetInvalid ∨ ∀ k, outcome = .ok k → k < 8) :
    ¬ Exec.Returns (protocolWrite E p enc outcome) w (fun r w' => OneShot E p enc w r w') := by
  have h32 := E.le_word
  intro ⟨r, w', hrun, hshot⟩
  obtain ⟨⟨code, b⟩, w1, hinit, hbegun, hcode⟩ := Buffer.init_begun (E := E) (show 32 < E.word by omega) w
  rw [if_pos hA] at hcode
  obtain rfl : code = 0 := hcode
  obtain ⟨hne, -, -, k, hk, hle⟩ := fits_of_oneShot hS hp hinit hbegun (hbegun.given hA).1 r w' hrun hshot
  rcases hshort with hinv | hshort
  · exact hne hinv
  · have hlt := hshort k hk
    omega

/-- A packet is sent as a whole, and the block of the buffer freed, exactly when there is no block, or when the frame
is put together and the socket takes all of it. -/
theorem oneShot_iff (hS : E.sodium.KeepsLength) {p : Packet} (hp : ∀ s, Value.string s ∈ p.values → s.Valid)
    (enc : Option Encrypt) (outcome : Except Int Nat) (w : World) :
    Exec.Returns (protocolWrite E p enc outcome) w (fun r w' => OneShot E p enc w r w') ↔
      E.malloc w.allocs = none ∨ p.type ≠ packetInvalid ∧ sentLength (sealKey E enc) (p.plain E).length < 2 ^ 32 ∧
        FindsRoom E p enc ⟨[], 32, w.allocs + 1, w.randoms⟩ ∧
        ∃ k, outcome = .ok k ∧ 8 + sentLength (sealKey E enc) (p.plain E).length ≤ k := by
  have h32 := E.le_word
  obtain ⟨⟨code, b⟩, w1, hinit, hbegun, hcode⟩ := Buffer.init_begun (E := E) (show 32 < E.word by omega) w
  dsimp only at hbegun hcode
  rcases hA : E.malloc w.allocs with _ | junk
  · rw [hA] at hcode
    have hcode : code = ENOMEM := hcode
    refine iff_of_true ?_ (.inl rfl)
    have hrun : protocolWrite E p enc outcome w = .ok ((code, p, enc, []), w1) := by
      unfold protocolWrite
      rw [Exec.bind_of_ok hinit]
      dsimp only
      rw [hcode, if_pos (by decide)]
      rfl
    refine .intro hrun ⟨?_, ?_⟩
    · intro hzero
      rw [hcode] at hzero
      cases hzero
    · intro buffer w1' hinit'
      rw [hinit, hcode] at hinit'
      cases hinit'
  · have hsome : (E.malloc w.allocs).isSome := by rw [hA]; rfl
    have hb := (hbegun.given hsome).1
    rw [if_pos hsome] at hcode
    subst hcode
    constructor
    · intro ⟨r, w', hrun, hshot⟩
      exact .inr (fits_of_oneShot hS hp hinit hbegun hb r w' hrun hshot)
    · intro h
      rcases h with h | ⟨hne, hfit, hroom, k, rfl, hk⟩
      · cases h
      · exact oneShot_of_fits hS hp hinit hbegun hb hne hfit hroom hk

/-- A `PONG` to a socket that takes a hundred bytes -/
theorem oneShot_pong :
    Exec.Returns (protocolWrite (Env.amd64 0) ⟨0, 1, 6, []⟩ none (.ok 100)) World.start
      (fun r w' => OneShot (Env.amd64 0) ⟨0, 1, 6, []⟩ none World.start r w') := by
  refine (oneShot_iff ?_ ?_ none (.ok 100) World.start).2
    (.inr ⟨by decide, by decide, by decide, 100, rfl, by decide⟩)
  · intro m n k c h
    cases h
    rfl
  · intro s hs
    have hs : Value.string s ∈ [] := hs
    simp at hs

/-- A packet of type `INVALID` and a socket that is not ready leave the block behind; and a socket that takes one
byte of a `PONG` is a success. -/
theorem not_oneShot : ¬ ∃ call ∈ [(packetInvalid, Except.ok 100), (6, .error EAGAIN), (6, .ok 1)],
    Exec.Returns (protocolWrite (Env.amd64 0) ⟨0, 1, call.1, []⟩ none call.2) World.start
      (fun r w' => OneShot (Env.amd64 0) ⟨0, 1, call.1, []⟩ none World.start r w') := by
  have hS : (Env.amd64 0).sodium.KeepsLength := by
    intro m n k c h
    cases h
    rfl
  have hp : ∀ type : UInt16, ∀ s, Value.string s ∈ (⟨0, 1, type, []⟩ : Packet).values → s.Valid := by
    intro type s hs
    unfold Packet.values at hs
    rw [ite_self] at hs
    simp at hs
  intro ⟨call, hcall, hreturns⟩
  refine not_oneShot_of_short hS (hp call.1) rfl ?_ hreturns
  simp only [List.mem_cons, List.not_mem_nil, or_false] at hcall
  rcases hcall with rfl | rfl | rfl
  · exact .inl rfl
  · right
    intro k hk
    cases hk
  · right
    intro k hk
    cases hk
    decide

end Excom
