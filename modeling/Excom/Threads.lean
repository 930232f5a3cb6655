import Excom.Lib.Ledger
import Excom.Lib.Transition
import Mathlib.Logic.Function.Basic

/-!
# Threads

`excom/thread.c` on POSIX, without mutexes and condition variables: threads that are created, return from their
functions or leave them by `excom_thread_exit`, and are joined, in any order.  Who joins a thread finds its own
result (`join_result`).  The block that `excom_thread_init` allocates is freed when the function returns, and not
when it calls `excom_thread_exit` or the thread could not be created: so the blocks are freed if and only if every
thread returned from its function (`blocks_settled_iff`).
-/

namespace Excom

/-- `excom_thread_status_t` -/
inductive ThreadStatus where
  | invalid
  | running
  | stopped
  deriving DecidableEq

/-- `excom_thread_t`, whose `thread` is the number of a thread if `pthread_create` succeeded.  A pointer is a number,
and `0` is `NULL`. -/
structure ExcomThread where
  thread : Option Nat
  ret : Nat
  status : ThreadStatus

/-- `excom_thread_data_t` -/
structure ExcomThreadData where
  arg : Nat
  proc : Nat
  thread : Nat

namespace Threads

/-- Where a thread is in `excom_thread_wrapper` with its block at `data`, or in `excom_thread_exit`, and what its
function came to.  A thread that could not be created has only its block. -/
inductive Pc where
  | start (data : Nat)
  | proc (data : Nat)
  | store (data ret : Nat)
  | clear (data ret : Nat)
  | free (data ret : Nat)
  | returned (ret : Nat)
  | exiting (data ret : Nat)
  | exited (data ret : Nat)
  | failed (data : Nat)

/-- A thread, with the value of `local_data` in it, the `excom_thread_t` that it was created with, and whether it is
still to be joined -/
structure Thread where
  pc : Pc
  localData : Option Nat
  handle : Nat
  joinable : Bool

/-- The threads, the records at the addresses of the callers, and the blocks with what is in them -/
structure State where
  threads : List Thread
  record : Nat → ExcomThread
  blocks : Ledger Nat
  data : Nat → ExcomThreadData

/-! ### What the functions do -/

/-- What is in a block that is not freed -/
def State.load (s : State) (d : Nat) : Option ExcomThreadData := if s.blocks.Live d then some (s.data d) else none

def State.put (s : State) (t : Nat) (th : Thread) : State := { s with threads := s.threads.set t th }

/-- `excom_thread_init`, where `excom_malloc` returns `d` and `pthread_create` returns `err` -/
def init (s : State) (p proc arg d : Nat) (err : Int) : Option (Int × State) := do
  let s := { s with record := Function.update s.record p { s.record p with ret := 0, status := .running } }
  let blocks ← s.blocks.acquire d
  let s := { s with blocks, data := Function.update s.data d ⟨arg, proc, p⟩ }
  if err = 0 then
    return (err,
      { s with
        threads := s.threads ++ [⟨.start d, none, p, true⟩]
        record := Function.update s.record p { s.record p with thread := some s.threads.length } })
  else
    return (err,
      { s with
        threads := s.threads ++ [⟨.failed d, none, p, false⟩]
        record := Function.update s.record p { s.record p with thread := none, status := .stopped } })

/-- The next statement of `excom_thread_wrapper`, or the end of `excom_thread_exit`.  What the function of the thread
does, and when it returns, is up to the function. -/
def advance (s : State) (t : Nat) (th : Thread) : Option State :=
  match th.pc with
  | .start d => do
    -- `data->proc` and `data->arg` are read for the call
    let _ ← s.load d
    return s.put t { th with pc := .proc d, localData := some d }
  | .store d ret => do
    let data ← s.load d
    return { s with record := Function.update s.record data.thread { s.record data.thread with ret } }.put t
      { th with pc := .clear d ret }
  | .clear d ret => some (s.put t { th with pc := .free d ret, localData := none })
  | .free d ret => do
    let blocks ← s.blocks.release d
    return { s with blocks }.put t { th with pc := .returned ret }
  | .exiting d ret => some (s.put t { th with pc := .exited d ret })
  | .proc _ | .returned _ | .exited _ _ | .failed _ => some s

/-- `excom_thread_exit`, up to `pthread_exit`, in a thread that is in its function with its block at `d` -/
def exit (s : State) (t : Nat) (th : Thread) (d retval : Nat) : Option State :=
  match th.localData with
  | none => some (s.put t { th with pc := .exiting d retval })
  | some p => do
    let data ← s.load p
    let r := { s.record data.thread with ret := retval, status := .stopped }
    return { s with record := Function.update s.record data.thread r }.put t { th with pc := .exiting d retval }

/-- What `excom_thread_join` returns and leaves in `*result` for a thread that is over -/
def joinResult (s : State) (p : Nat) : Int × Nat := (0, (s.record p).ret)

/-- `excom_thread_current` -/
def current (th : Thread) : Nat := th.localData.getD 0

/-! ### Runs -/

/-- The thread is over, and its function came to this. -/
def Pc.result : Pc → Option Nat
  | .returned ret | .exited _ ret => some ret
  | _ => none

/-- The record is not in use by a thread that is still to be joined. -/
def Unused (s : State) (p : Nat) : Prop :=
  ∀ t th, s.threads[t]? = some th → (s.record p).thread = some t → th.joinable = false

structure Initial (s : State) : Prop where
  threads : s.threads = []
  record : ∀ p, (s.record p).thread = none
  blocks : s.blocks = Ledger.empty

/-- Somebody creates a thread, a thread goes on, its function returns or exits, or somebody joins a thread that is
over. -/
inductive Step : State → State → Prop where
  | init {s s' : State} {p proc arg d : Nat} {err code : Int} (hunused : Unused s p)
      (h : Threads.init s p proc arg d err = some (code, s')) : Step s s'
  | advance {s s' : State} {t : Nat} {th : Thread} (hth : s.threads[t]? = some th)
      (h : Threads.advance s t th = some s') : Step s s'
  | finish {s : State} {t d : Nat} {th : Thread} (ret : Nat) (hth : s.threads[t]? = some th) (hpc : th.pc = .proc d) :
      Step s (s.put t { th with pc := .store d ret })
  | exit {s s' : State} {t d : Nat} {th : Thread} (retval : Nat) (hth : s.threads[t]? = some th)
      (hpc : th.pc = .proc d) (h : Threads.exit s t th d retval = some s') : Step s s'
  | join {s : State} {p t ret : Nat} {th : Thread} (hp : (s.record p).thread = some t)
      (hth : s.threads[t]? = some th) (hover : th.pc.result = some ret) (hjoinable : th.joinable = true) :
      Step s (s.put t { th with joinable := false })

/-- No thread comes to a block that is freed. -/
structure Faultless (s : State) : Prop where
  advance : ∀ t th, s.threads[t]? = some th → (Threads.advance s t th).isSome
  exit : ∀ t th d retval, s.threads[t]? = some th → th.pc = .proc d → (Threads.exit s t th d retval).isSome

/-! ### Threads, their blocks and their records -/

/-- The block that is not freed yet -/
def Pc.block : Pc → Option Nat
  | .start d | .proc d | .store d _ | .clear d _ | .free d _ | .exiting d _ | .exited d _ | .failed d => some d
  | .returned _ => none

def Pc.localData : Pc → Option Nat
  | .proc d | .store d _ | .clear d _ | .exiting d _ | .exited d _ => some d
  | .start _ | .free _ _ | .returned _ | .failed _ => none

/-- What `ret` is to be -/
def Pc.ret : Pc → Option Nat
  | .clear _ ret | .free _ ret | .returned ret | .exiting _ ret | .exited _ ret => some ret
  | .start _ | .proc _ | .store _ _ | .failed _ => none

/-- What `status` is to be -/
def Pc.status : Pc → ThreadStatus
  | .exiting _ _ | .exited _ _ | .failed _ => .stopped
  | _ => .running

def Pc.Over : Pc → Prop
  | .returned _ | .exited _ _ | .failed _ => True
  | _ => False

/-- The record of a thread, as long as it is to be joined -/
private structure Recorded (r : ExcomThread) (t : Nat) (pc : Pc) : Prop where
  thread : r.thread = some t
  status : r.status = pc.status
  ret : ∀ ret, pc.ret = some ret → r.ret = ret

private structure Fits (s : State) (t : Nat) (th : Thread) : Prop where
  localData : th.localData = th.pc.localData
  block : ∀ d, th.pc.block = some d → s.blocks.Live d ∧ (s.data d).thread = th.handle
  joined : th.joinable = false → th.pc.Over
  record : th.joinable = true → Recorded (s.record th.handle) t th.pc

/-- Every block has one thread, and every record that has a thread is the one of that thread. -/
private structure Sound (s : State) : Prop where
  fits (t : Nat) (th : Thread) (hth : s.threads[t]? = some th) : Fits s t th
  live (d : Nat) (hd : s.blocks.Live d) : ∃ (t : Nat) (th : Thread), s.threads[t]? = some th ∧ th.pc.block = some d
  apart (t t' : Nat) (th th' : Thread) (d : Nat) (hth : s.threads[t]? = some th) (hth' : s.threads[t']? = some th')
    (hd : th.pc.block = some d) (hd' : th'.pc.block = some d) : t = t'
  handle (p t : Nat) (hp : (s.record p).thread = some t) : ∃ th : Thread, s.threads[t]? = some th ∧ th.handle = p

variable {s s' : State} {t : Nat} {th th' : Thread}

private theorem Fits.load (h : Fits s t th) {d : Nat} (hd : th.pc.block = some d) : s.load d = some (s.data d) :=
  if_pos (h.block d hd).1

namespace Sound

private theorem handle_ne (h : Sound s) (hth : s.threads[t]? = some th) (hjoin : th.joinable = true) {t' : Nat}
    (hth' : s.threads[t']? = some th') (hjoin' : th'.joinable = true) (hne : t' ≠ t) : th'.handle ≠ th.handle := by
  intro heq
  have hthread := ((h.fits t th hth).record hjoin).thread
  have hthread' := ((h.fits t' th' hth').record hjoin').thread
  rw [heq, hthread] at hthread'
  exact hne (Option.some.inj hthread').symm

/-- A thread that goes on, gives up its block or not, and writes into no other record than its own. -/
private theorem put (h : Sound s) (hth : s.threads[t]? = some th) {record : Nat → ExcomThread} {blocks : Ledger Nat}
    (hhandle : th'.handle = th.handle) (hthread : ∀ p, (record p).thread = (s.record p).thread)
    (hrecord : ∀ p, p ≠ th.handle → record p = s.record p) (hown : th.joinable = false → record = s.record)
    (hblock : ∀ d, th'.pc.block = some d → th.pc.block = some d)
    (hblocks : ∀ d, blocks.Live d ↔ s.blocks.Live d ∧ (th.pc.block = some d → th'.pc.block = some d))
    (hfits : Fits ({ s with record, blocks }.put t th') t th') : Sound ({ s with record, blocks }.put t th') := by
  have hlt := (List.getElem?_eq_some_iff.1 hth).1
  have hself : (s.threads.set t th')[t]? = some th' := List.getElem?_set_self hlt
  -- where a thread was before
  have hold {t₁ : Nat} {th₁ : Thread} (h₁ : (s.threads.set t th')[t₁]? = some th₁) :
      t₁ = t ∧ th₁ = th' ∨ t₁ ≠ t ∧ s.threads[t₁]? = some th₁ := by
    by_cases heq : t₁ = t
    · rw [heq, hself] at h₁
      exact .inl ⟨heq, (Option.some.inj h₁).symm⟩
    · rw [List.getElem?_set_ne (Ne.symm heq)] at h₁
      exact .inr ⟨heq, h₁⟩
  exact
    { fits := by
        intro t₁ th₁ h₁
        rcases hold h₁ with ⟨rfl, rfl⟩ | ⟨hne, h₁⟩
        · exact hfits
        · have hfits₁ := h.fits t₁ th₁ h₁
          refine { hfits₁ with block := ?_, record := ?_ }
          · intro d hd
            obtain ⟨hlive, hdata⟩ := hfits₁.block d hd
            refine ⟨(hblocks d).2 ⟨hlive, ?_⟩, hdata⟩
            intro hd'
            exact absurd (h.apart _ _ _ _ d h₁ hth hd hd') hne
          · intro hjoin₁
            have hrec := hfits₁.record hjoin₁
            have hsame : record th₁.handle = s.record th₁.handle := by
              rcases hjoin : th.joinable with _ | _
              · rw [hown hjoin]
              · exact hrecord _ (h.handle_ne hth hjoin h₁ hjoin₁ hne)
            show Recorded (record th₁.handle) t₁ th₁.pc
            rwa [hsame]
      live := by
        intro d hd
        obtain ⟨hlive, hkeep⟩ := (hblocks d).1 hd
        obtain ⟨t₁, th₁, h₁, hd₁⟩ := h.live d hlive
        by_cases heq : t₁ = t
        · subst heq
          rw [hth] at h₁
          cases h₁
          exact ⟨t₁, th', hself, hkeep hd₁⟩
        · exact ⟨t₁, th₁, (List.getElem?_set_ne (Ne.symm heq)).trans h₁, hd₁⟩
      apart := by
        intro t₁ t₂ th₁ th₂ d h₁ h₂ hd₁ hd₂
        rcases hold h₁ with ⟨rfl, rfl⟩ | ⟨-, hold₁⟩ <;> rcases hold h₂ with ⟨rfl, rfl⟩ | ⟨-, hold₂⟩
        · rfl
        · exact h.apart _ _ _ _ d hth hold₂ (hblock d hd₁) hd₂
        · exact h.apart _ _ _ _ d hold₁ hth hd₁ (hblock d hd₂)
        · exact h.apart _ _ _ _ d hold₁ hold₂ hd₁ hd₂
      handle := by
        intro p t₁ hp
        obtain ⟨th₁, h₁, hp₁⟩ := h.handle p t₁ ((hthread p).symm.trans hp)
        by_cases heq : t₁ = t
        · subst heq
          rw [hth] at h₁
          cases h₁
          exact ⟨th', hself, hhandle.trans hp₁⟩
        · exact ⟨th₁, (List.getElem?_set_ne (Ne.symm heq)).trans h₁, hp₁⟩ }

private theorem joinable (h : Sound s) (hth : s.threads[t]? = some th) (hover : ¬ th.pc.Over) :
    th.joinable = true := by
  rcases hjoin : th.joinable with _ | _
  · exact absurd ((h.fits t th hth).joined hjoin) hover
  · rfl

variable {pc : Pc} {localData : Option Nat}

private theorem write (h : Sound s) (hth : s.threads[t]? = some th) (hover : ¬ th.pc.Over)
    (hblock : pc.block = th.pc.block) (hlocal : localData = pc.localData) {r : ExcomThread}
    (hrec : Recorded r t pc) :
    Sound ({ s with record := Function.update s.record th.handle r }.put t { th with pc, localData }) := by
  have hfits := h.fits t th hth
  have hjoinable := h.joinable hth hover
  have hthread := (hfits.record hjoinable).thread
  have hhandle : ({ th with pc, localData } : Thread).handle = th.handle := rfl
  refine h.put hth hhandle ?_ ?_ ?_ ?_ ?_ ?_
  · intro p
    by_cases hp : p = th.handle
    · rw [hp, Function.update_self, hthread]
      exact hrec.thread
    · rw [Function.update_of_ne hp]
  · intro p hp
    exact Function.update_of_ne hp r s.record
  · intro hnot
    rw [hjoinable] at hnot
    cases hnot
  · intro d hd
    rwa [← hblock]
  · intro d
    simp only [hblock, imp_self, and_true]
  · refine ⟨hlocal, fun d hd => hfits.block d (hblock ▸ hd), ?_, ?_⟩
    · intro hnot
      rw [show th.joinable = true from hjoinable] at hnot
      cases hnot
    · intro _
      show Recorded (Function.update s.record th.handle r th.handle) t pc
      rwa [Function.update_self]

private theorem move (h : Sound s) (hth : s.threads[t]? = some th) (hover : ¬ th.pc.Over)
    (hblock : pc.block = th.pc.block) (hlocal : localData = pc.localData) (hstatus : pc.status = th.pc.status)
    (hret : ∀ ret, pc.ret = some ret → th.pc.ret = some ret) : Sound (s.put t { th with pc, localData }) := by
  obtain ⟨hthread, hst, hr⟩ := (h.fits t th hth).record (h.joinable hth hover)
  have hwrite := h.write hth hover hblock hlocal
    ⟨hthread, hst.trans hstatus.symm, fun ret hret' => hr ret (hret ret hret')⟩
  rwa [Function.update_eq_self] at hwrite

private theorem release (h : Sound s) (hth : s.threads[t]? = some th) {d ret : Nat} (hpc : th.pc = .free d ret) :
    ∃ blocks, s.blocks.release d = some blocks ∧
      Sound ({ s with blocks }.put t { th with pc := .returned ret }) := by
  have hfits := h.fits t th hth
  have hblock : th.pc.block = some d := by rw [hpc]; rfl
  have hjoinable := h.joinable hth (by rw [hpc]; exact id)
  obtain ⟨blocks, hrelease⟩ := Option.isSome_iff_exists.1 (Ledger.release_isSome.2 (hfits.block d hblock).1)
  refine ⟨blocks, hrelease, ?_⟩
  have hhandle : ({ th with pc := .returned ret } : Thread).handle = th.handle := rfl
  apply h.put hth hhandle (fun _ => rfl) (fun _ _ => rfl) fun _ => rfl
  · intro d' hd'
    cases hd'
  · intro d'
    rw [Ledger.live_of_release hrelease, hblock, and_comm, Option.some_inj]
    simp [Pc.block, eq_comm]
  · have hlocal := hfits.localData
    have hrec := hfits.record hjoinable
    rw [hpc] at hlocal hrec
    refine ⟨hlocal, ?_, fun _ => trivial, fun _ => ⟨hrec.thread, hrec.status, hrec.ret⟩⟩
    intro d' hd'
    cases hd'

/-- The next statement of the wrapper can be executed, and all stays in order. -/
private theorem advance (h : Sound s) (hth : s.threads[t]? = some th) :
    ∃ s', Threads.advance s t th = some s' ∧ Sound s' := by
  have hfits := h.fits t th hth
  have hlocal := hfits.localData
  have hjoin := h.joinable hth
  unfold Threads.advance
  rcases hpc : th.pc with d | d | ⟨d, ret⟩ | ⟨d, ret⟩ | ⟨d, ret⟩ | ret | ⟨d, ret⟩ | ⟨d, ret⟩ | d <;>
    dsimp only <;> rw [hpc] at hlocal hjoin
  case start =>
    rw [hfits.load (by rw [hpc]; rfl)]
    refine ⟨_, rfl, h.move hth ?_ ?_ rfl ?_ ?_⟩ <;> simp [hpc, Pc.Over, Pc.block, Pc.status, Pc.ret]
  case store =>
    rw [hfits.load (by rw [hpc]; rfl)]
    refine ⟨_, rfl, ?_⟩
    have hrec := hfits.record (hjoin id)
    rw [hpc] at hrec
    have hrec' : Recorded { s.record th.handle with ret } t (.clear d ret) :=
      ⟨hrec.thread, hrec.status, fun _ hret => Option.some.inj hret⟩
    rw [(hfits.block d (by rw [hpc]; rfl)).2]
    refine h.write hth ?_ ?_ ?_ hrec' <;> simp [hpc, Pc.Over, Pc.block, Pc.localData, hlocal]
  case clear =>
    refine ⟨_, rfl, h.move hth ?_ ?_ rfl ?_ ?_⟩ <;> simp [hpc, Pc.Over, Pc.block, Pc.status, Pc.ret]
  case free =>
    obtain ⟨blocks, hrelease, h'⟩ := h.release hth hpc
    rw [hrelease]
    exact ⟨_, rfl, h'⟩
  case exiting =>
    refine ⟨_, rfl, h.move hth ?_ ?_ hlocal ?_ ?_⟩ <;> simp [hpc, Pc.Over, Pc.block, Pc.status, Pc.ret]
  all_goals exact ⟨s, rfl, h⟩

private theorem exit (h : Sound s) (hth : s.threads[t]? = some th) {d : Nat} (hpc : th.pc = .proc d) (retval : Nat) :
    ∃ s', Threads.exit s t th d retval = some s' ∧ Sound s' := by
  have hfits := h.fits t th hth
  have hlocal := hfits.localData
  have hrec := hfits.record (h.joinable hth (by rw [hpc]; exact id))
  rw [hpc] at hlocal hrec
  unfold Threads.exit
  rw [hlocal]
  simp only [Pc.localData]
  rw [hfits.load (by rw [hpc]; rfl)]
  refine ⟨_, rfl, ?_⟩
  have hrec' : Recorded { s.record th.handle with ret := retval, status := .stopped } t (.exiting d retval) :=
    ⟨hrec.thread, rfl, fun _ hret => Option.some.inj hret⟩
  rw [(hfits.block d (by rw [hpc]; rfl)).2]
  refine h.write hth ?_ ?_ ?_ hrec' <;> simp [hpc, Pc.Over, Pc.block, Pc.localData]

private theorem finish (h : Sound s) (hth : s.threads[t]? = some th) {d : Nat} (hpc : th.pc = .proc d) (ret : Nat) :
    Sound (s.put t { th with pc := .store d ret }) := by
  have hlocal := (h.fits t th hth).localData
  rw [hpc] at hlocal
  refine h.move hth ?_ ?_ hlocal ?_ ?_ <;> simp [hpc, Pc.Over, Pc.block, Pc.status, Pc.ret]

private theorem join (h : Sound s) (hth : s.threads[t]? = some th) {ret : Nat} (hover : th.pc.result = some ret) :
    Sound (s.put t { th with joinable := false }) := by
  have hfits := h.fits t th hth
  have hhandle : ({ th with joinable := false } : Thread).handle = th.handle := rfl
  apply h.put hth hhandle (fun _ => rfl) (fun _ _ => rfl) (fun _ => rfl) (fun _ hd => hd)
  · intro d
    simp
  · refine ⟨hfits.localData, hfits.block, ?_, fun hnot => absurd hnot Bool.false_ne_true⟩
    intro _
    show th.pc.Over
    revert hover
    cases th.pc <;> simp [Pc.result, Pc.Over]

end Sound

section Create

variable {p d : Nat} {data : ExcomThreadData} {blocks : Ledger Nat} {r : ExcomThread} {threads : List Thread}

/-- A thread that was there before keeps its block and its record where another one is created. -/
private theorem Fits.created (h : Fits s t th) (hth : s.threads[t]? = some th) (hunused : Unused s p)
    (hacquire : s.blocks.acquire d = some blocks) :
    Fits
      { threads
        record := Function.update s.record p r
        blocks
        data := Function.update s.data d data } t th := by
  have hnew : ¬ s.blocks.Live d := Ledger.acquire_isSome.1 (Option.isSome_iff_exists.2 ⟨blocks, hacquire⟩)
  refine { h with block := ?_, record := ?_ }
  · intro d' hd'
    obtain ⟨hlive, hdata⟩ := h.block d' hd'
    refine ⟨(Ledger.live_of_acquire hacquire).2 (.inr hlive), ?_⟩
    show (Function.update s.data d data d').thread = _
    rw [Function.update_of_ne]
    · exact hdata
    · intro heq
      rw [heq] at hlive
      exact hnew hlive
  · intro hjoin
    have hrec := h.record hjoin
    show Recorded (Function.update s.record p r th.handle) _ _
    rw [Function.update_of_ne]
    · exact hrec
    · intro hp
      rw [hp] at hrec
      have hnot := hunused t th hth hrec.thread
      rw [hjoin] at hnot
      cases hnot

/-- The thread that is created, or not, has the new block and the record. -/
private theorem fits_created (hacquire : s.blocks.acquire d = some blocks) (hdata : data.thread = p)
    (hhandle : th.handle = p) (hblock : th.pc.block = some d) (hlocal : th.localData = th.pc.localData)
    (hover : th.joinable = false → th.pc.Over) (hrec : th.joinable = true → Recorded r t th.pc) :
    Fits
      { threads
        record := Function.update s.record p r
        blocks
        data := Function.update s.data d data } t th := by
  refine ⟨hlocal, ?_, hover, ?_⟩
  · intro d' hd'
    obtain rfl := Option.some.inj (hd'.symm.trans hblock)
    refine ⟨(Ledger.live_of_acquire hacquire).2 (.inl rfl), ?_⟩
    show (Function.update s.data d' data d').thread = _
    rw [Function.update_self, hdata, hhandle]
  · intro hjoin
    show Recorded (Function.update s.record p r _) _ _
    rw [hhandle, Function.update_self]
    exact hrec hjoin

private theorem Sound.create (h : Sound s) (hunused : Unused s p)
    (hacquire : s.blocks.acquire d = some blocks) (hdata : data.thread = p)
    (hhandle : th.handle = p) (hblock : th.pc.block = some d) (hlocal : th.localData = th.pc.localData)
    (hover : th.joinable = false → th.pc.Over)
    (hrec : th.joinable = true → Recorded r s.threads.length th.pc)
    (hthread : ∀ t, r.thread = some t → t = s.threads.length) :
    Sound
      { threads := s.threads ++ [th]
        record := Function.update s.record p r
        blocks
        data := Function.update s.data d data } := by
  have hnew : ¬ s.blocks.Live d := Ledger.acquire_isSome.1 (Option.isSome_iff_exists.2 ⟨blocks, hacquire⟩)
  have hlive (d' : Nat) : blocks.Live d' ↔ d' = d ∨ s.blocks.Live d' := Ledger.live_of_acquire hacquire
  have hself : (s.threads ++ [th])[s.threads.length]? = some th := List.getElem?_concat_length
  have hkeep {t : Nat} {th₁ : Thread} (h₁ : s.threads[t]? = some th₁) : (s.threads ++ [th])[t]? = some th₁ :=
    (List.getElem?_append_left (List.getElem?_eq_some_iff.1 h₁).1).trans h₁
  have hold {t : Nat} {th₁ : Thread} (h₁ : (s.threads ++ [th])[t]? = some th₁) :
      t = s.threads.length ∧ th₁ = th ∨ s.threads[t]? = some th₁ := by
    by_cases hlt : t < s.threads.length
    · rw [List.getElem?_append_left hlt] at h₁
      exact .inr h₁
    · have hle := (List.getElem?_eq_some_iff.1 h₁).1
      rw [List.length_append, List.length_singleton] at hle
      obtain rfl : t = s.threads.length := by omega
      rw [hself] at h₁
      exact .inl ⟨rfl, (Option.some.inj h₁).symm⟩
  -- a block of a thread that was there before is another one
  have hother {t : Nat} {th₁ : Thread} (h₁ : s.threads[t]? = some th₁) : th₁.pc.block ≠ some d :=
    fun hd => hnew ((h.fits t th₁ h₁).block d hd).1
  exact
    { fits := by
        intro t₁ th₁ h₁
        rcases hold h₁ with ⟨rfl, rfl⟩ | h₁
        · exact fits_created hacquire hdata hhandle hblock hlocal hover hrec
        · exact (h.fits t₁ th₁ h₁).created h₁ hunused hacquire
      live := by
        intro d' hd'
        rcases (hlive d').1 hd' with rfl | hd'
        · exact ⟨_, th, hself, hblock⟩
        · obtain ⟨t₁, th₁, h₁, hd₁⟩ := h.live d' hd'
          exact ⟨t₁, th₁, hkeep h₁, hd₁⟩
      apart := by
        intro t₁ t₂ th₁ th₂ d' h₁ h₂ hd₁ hd₂
        rcases hold h₁ with ⟨rfl, rfl⟩ | hold₁ <;> rcases hold h₂ with ⟨rfl, rfl⟩ | hold₂
        · rfl
        · exact absurd (hd₂.trans (hd₁.symm.trans hblock)) (hother hold₂)
        · exact absurd (hd₁.trans (hd₂.symm.trans hblock)) (hother hold₁)
        · exact h.apart _ _ _ _ d' hold₁ hold₂ hd₁ hd₂
      handle := by
        intro q t₁ hq
        dsimp only at hq
        by_cases hqp : q = p
        · rw [hqp, Function.update_self] at hq
          rw [hthread t₁ hq, hqp]
          exact ⟨th, hself, hhandle⟩
        · rw [Function.update_of_ne hqp] at hq
          obtain ⟨th₁, h₁, hp₁⟩ := h.handle q t₁ hq
          exact ⟨th₁, hkeep h₁, hp₁⟩ }

end Create

private theorem Sound.init (h : Sound s) {p proc arg d : Nat} {err code : Int} (hunused : Unused s p)
    (hrun : Threads.init s p proc arg d err = some (code, s')) : Sound s' := by
  simp only [Threads.init, Option.bind_eq_bind, Option.bind_eq_some_iff] at hrun
  obtain ⟨blocks, hacquire, hrun⟩ := hrun
  simp only [Function.update_self, Function.update_idem] at hrun
  split at hrun
  · cases hrun
    apply h.create hunused hacquire rfl rfl rfl rfl
    · intro hnot
      cases hnot
    · exact fun _ => ⟨rfl, rfl, fun _ hret => absurd hret (by simp [Pc.ret])⟩
    · exact fun _ hthread => (Option.some.inj hthread).symm
  · cases hrun
    apply h.create hunused hacquire rfl rfl rfl rfl
    · exact fun _ => trivial
    · intro hnot
      cases hnot
    · intro _ hthread
      cases hthread

private theorem sound_of_initial (h : Initial s) : Sound s where
  fits t th hth := by
    rw [h.threads] at hth
    cases hth
  live d hd := by
    rw [h.blocks] at hd
    exact absurd hd Ledger.not_live_empty
  apart t t' th th' d hth := by
    rw [h.threads] at hth
    cases hth
  handle p t hp := by
    rw [h.record] at hp
    cases hp

private theorem sound_of_reachable (h : Reachable Initial Step s) : Sound s := by
  refine h.invariant (fun _ => sound_of_initial) ?_
  intro s s' hs hstep
  cases hstep with
  | init hunused hrun => exact hs.init hunused hrun
  | advance hth hrun =>
    obtain ⟨s₁, hrun₁, h₁⟩ := hs.advance hth
    rwa [← Option.some.inj (hrun₁.symm.trans hrun)]
  | finish ret hth hpc => exact hs.finish hth hpc ret
  | exit retval hth hpc hrun =>
    obtain ⟨s₁, hrun₁, h₁⟩ := hs.exit hth hpc retval
    rwa [← Option.some.inj (hrun₁.symm.trans hrun)]
  | join _ hth hover _ => exact hs.join hth hover

/-! ### What is found by those who join, and what is left -/

/-- Whatever the threads do, none of them comes to a block that is freed, and who joins one that is over finds its own
result.  Its status says that it was stopped if it called `excom_thread_exit`, and that it is running if its function
returned. -/
theorem join_result (h : Reachable Initial Step s) :
    Faultless s ∧ ∀ (p t ret : Nat) (th : Thread), (s.record p).thread = some t → s.threads[t]? = some th →
      th.joinable = true → th.pc.result = some ret →
      joinResult s p = (0, ret) ∧ ((s.record p).status = .stopped ↔ ∃ d, th.pc = .exited d ret) ∧
        ((s.record p).status = .running ↔ th.pc = .returned ret) := by
  have hsound := sound_of_reachable h
  refine ⟨⟨?_, ?_⟩, ?_⟩
  · intro t th hth
    obtain ⟨s', hrun, -⟩ := hsound.advance hth
    rw [hrun]
    rfl
  · intro t th d retval hth hpc
    obtain ⟨s', hrun, -⟩ := hsound.exit hth hpc retval
    rw [hrun]
    rfl
  · intro p t ret th hp hth hjoin hover
    obtain ⟨th', hth', rfl⟩ := hsound.handle p t hp
    obtain rfl := Option.some.inj (hth'.symm.trans hth)
    have hrec := (hsound.fits t th' hth).record hjoin
    have hret : (s.record th'.handle).ret = ret := by
      apply hrec.ret
      revert hover
      cases th'.pc <;> simp [Pc.result, Pc.ret]
    refine ⟨by rw [joinResult, hret], ?_, ?_⟩ <;> rw [hrec.status] <;> revert hover <;>
      cases th'.pc <;> simp [Pc.result, Pc.status]

/-- Two threads at the same time: one returns `8` from its function, the other one calls `excom_thread_exit` with
`7`. -/
private theorem exists_two : ∃ s : State, Reachable Initial Step s ∧ (s.record 100).thread = some 0 ∧
    (s.record 101).thread = some 1 ∧
      s.threads = [⟨.exited 200 7, some 200, 100, true⟩, ⟨.returned 8, none, 101, true⟩] := by
  let s₀ : State := ⟨[], fun _ => ⟨none, 0, .invalid⟩, Ledger.empty, fun _ => ⟨0, 0, 0⟩⟩
  have h₀ : Reachable Initial Step s₀ := .start ⟨rfl, fun _ => rfl, rfl⟩
  have h₁ := h₀.step (@Step.init _ _ 100 1 2 200 0 0 (fun _ _ hth => nomatch hth) rfl)
  have h₂ := h₁.step (.advance (t := 0) rfl rfl)
  have h₃ := h₂.step (@Step.init _ _ 101 3 4 201 0 0 (fun _ _ _ hthread => nomatch hthread) rfl)
  have h₄ := h₃.step (.advance (t := 1) rfl rfl)
  have h₅ := h₄.step (.finish (t := 1) 8 rfl rfl)
  have h₆ := h₅.step (.exit (t := 0) 7 rfl rfl rfl)
  have h₇ := h₆.step (.advance (t := 1) rfl rfl)
  have h₈ := h₇.step (.advance (t := 0) rfl rfl)
  have h₉ := h₈.step (.advance (t := 1) rfl rfl)
  have h₁₀ := h₉.step (.advance (t := 1) rfl rfl)
  exact ⟨_, h₁₀, rfl, rfl, rfl⟩
/-- Each of the two is joined with its own result. -/
theorem join_result_two : ∃ s : State,
    s.threads = [⟨.exited 200 7, some 200, 100, true⟩, ⟨.returned 8, none, 101, true⟩] ∧ Faultless s ∧
      joinResult s 100 = (0, 7) ∧ (s.record 100).status = .stopped ∧
        joinResult s 101 = (0, 8) ∧ (s.record 101).status = .running := by
  obtain ⟨s, h, hthread, hthread', hthreads⟩ := exists_two
  obtain ⟨hfaultless, hjoin⟩ := join_result h
  obtain ⟨hresult, hstatus, -⟩ := hjoin 100 0 7 _ hthread (by rw [hthreads]; rfl) rfl rfl
  obtain ⟨hresult', -, hstatus'⟩ := hjoin 101 1 8 _ hthread' (by rw [hthreads]; rfl) rfl rfl
  exact ⟨s, hthreads, hfaultless, hresult, hstatus.2 ⟨200, rfl⟩, hresult', hstatus'.2 rfl⟩

/-- In its function a thread finds its block where its record is meant. -/
theorem current_eq (h : Reachable Initial Step s) (hth : s.threads[t]? = some th) {d : Nat} (hpc : th.pc = .proc d) :
    current th = d ∧ (s.data d).thread = th.handle := by
  have hfits := (sound_of_reachable h).fits t th hth
  have hlocal := hfits.localData
  rw [hpc] at hlocal
  refine ⟨?_, (hfits.block d (by rw [hpc]; rfl)).2⟩
  rw [current, hlocal]
  rfl

/-- The blocks are freed if and only if every thread was created and returned from its function. -/
theorem blocks_settled_iff (h : Reachable Initial Step s) :
    s.blocks.Settled ↔ ∀ th ∈ s.threads, ∃ ret, th.pc = .returned ret := by
  have hsound := sound_of_reachable h
  rw [Ledger.settled_iff]
  constructor
  · intro hnone th hth
    obtain ⟨t, ht⟩ := List.getElem?_of_mem hth
    have hblock : th.pc.block = none := by
      rcases hb : th.pc.block with _ | d
      · rfl
      · exact absurd ((hsound.fits t th ht).block d hb).1 (hnone d)
    revert hblock
    cases th.pc <;> simp [Pc.block]
  · intro hall d hd
    obtain ⟨t, th, hth, hblock⟩ := hsound.live d hd
    obtain ⟨ret, hpc⟩ := hall th (List.mem_of_getElem? hth)
    rw [hpc] at hblock
    cases hblock

/-- The block of the one that called `excom_thread_exit` is left. -/
theorem blocks_not_settled_two : ∃ s : State,
    s.threads = [⟨.exited 200 7, some 200, 100, true⟩, ⟨.returned 8, none, 101, true⟩] ∧ ¬ s.blocks.Settled := by
  obtain ⟨s, h, -, -, hthreads⟩ := exists_two
  refine ⟨s, hthreads, ?_⟩
  rw [blocks_settled_iff h, hthreads]
  intro hall
  obtain ⟨ret, hpc⟩ := hall _ List.mem_cons_self
  cases hpc

end Threads

end Excom
