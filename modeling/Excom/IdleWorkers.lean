import Excom.Factory
import Mathlib.Logic.Relation

/-!
# Jobs beside idle workers, and a factory that is not destroyed

A job that is added while no worker waits wakes nobody, and a worker that is not in `excom_cond_wait` at the
broadcast waits behind it.  Without such steps there is never a job that everybody sleeps on, and the threads
are joined (`attends_iff`); after the first of them there may be.
-/

namespace Excom.Factory

open Relation

variable {n : Nat} {s s' : State n} {k : Nat}

private theorem Attended.not_stranded (hs : Attended s) : ¬ Stranded s := by
  rintro ⟨hidle, hjobs, hwaiting⟩
  rcases hs with hs | ⟨k, hs⟩ | hs
  · have hzero : tally WorkerPc.wakeUps s.worker = 0 :=
      tally_eq_zero.2 fun i => by rw [hwaiting i]; rfl
    have hlength := hs.jobs
    rw [hzero] at hlength
    exact hjobs (List.length_eq_zero_iff.1 hlength)
  · simp [hs.destroyer] at hidle
  · simpa [hidle] using hs.destroyer

theorem Attended.leaving (hs : Attended s) (hending : Ending s) : Leaving s := by
  rcases hs with hs | ⟨k, hs⟩ | hs
  · simp [Ending, hs.destroyer] at hending
  · simp [Ending, hs.destroyer] at hending
  · exact hs

/-- Where the jobs are attended to, no worker waits for ever. -/
theorem Attended.not_hangs (hs : Attended s) : ¬ Hangs s := by
  rintro ⟨hending, i, hwaiting⟩
  have hi := (hs.leaving hending).worker i
  simp [hwaiting, WorkerPc.Leaving] at hi

/-! ### The threads are joined -/

/-- The steps of a worker on its way out -/
def WorkerPc.stepsLeft : WorkerPc → Nat
  | .woken => 2
  | .test _ => 1
  | _ => 0

/-- The steps that `excom_factory_destroy` has still to make behind the broadcast -/
def DestroyPc.stepsLeft (n : Nat) : DestroyPc → Nat
  | .join i => n + 1 - i
  | _ => 0

def stepsLeft (s : State n) : Nat := tally WorkerPc.stepsLeft s.worker + s.destroyer.stepsLeft n

private theorem stepsLeft_move_lt (i : Fin n) {pc : WorkerPc} {jobs : List JobPtr}
    (hpc : pc.stepsLeft < (s.worker i).stepsLeft) :
    stepsLeft { s with jobs, worker := Function.update s.worker i pc } < stepsLeft s := by
  have htally := tally_update WorkerPc.stepsLeft s.worker i pc
  show tally WorkerPc.stepsLeft (Function.update s.worker i pc) + s.destroyer.stepsLeft n <
    tally WorkerPc.stepsLeft s.worker + s.destroyer.stepsLeft n
  omega

private theorem Leaving.stepsLeft_lt (hs : Leaving s) (h : Turn s s') : stepsLeft s' < stepsLeft s := by
  have hending := hs.destroyer
  cases h with
  | wait i hpc | finish i hpc =>
    have hi := hs.worker i
    simp [hpc, WorkerPc.Leaving] at hi
  | take i hpc | exit i hpc => exact stepsLeft_move_lt i (by simp [hpc, WorkerPc.stepsLeft])
  | skip i hpc hstatus | start i hpc hstatus => exact absurd (hs.status i) hstatus
  | destroy hpc | mark i hpc | broadcast hpc => simp [hpc] at hending
  | join i hpc hexited =>
    have hi := i.isLt
    simp only [stepsLeft, hpc, DestroyPc.stepsLeft]
    omega
  | free hpc =>
    simp only [stepsLeft, hpc, DestroyPc.stepsLeft]
    omega

/-- As long as the threads are not joined, one of them or the one that joins them can go on. -/
theorem Leaving.done_of_stuck (hs : Leaving s) (hstuck : ∀ s', ¬ Turn s s') : s.destroyer = .done := by
  rcases hs.destroyer with hdone | ⟨k, hk, hjoin⟩
  · exact hdone
  by_cases hkn : k = n
  · subst hkn
    exact absurd (.free hjoin) (hstuck _)
  have hlt : k < n := by omega
  have hi := hs.worker ⟨k, hlt⟩
  cases hw : s.worker ⟨k, hlt⟩ with
  | woken => exact absurd (.take _ hw) (hstuck _)
  | test job => exact absurd (.exit _ hw (hs.status _)) (hstuck _)
  | exited => exact absurd (.join ⟨k, hlt⟩ hjoin hw) (hstuck _)
  | top | waiting | run job => simp [hw, WorkerPc.Leaving] at hi

theorem Leaving.joins (hs : Leaving s) {run : Nat → State n} (hstart : run 0 = s) (hrun : Exhaustive Turn run) :
    ∃ k, (run k).destroyer = .done := by
  subst hstart
  obtain ⟨k, -, hleaving, hstuck⟩ := hrun.halts (fun _ _ hs h => ⟨hs.turn h, hs.stepsLeft_lt h⟩) hs
  exact ⟨k, hleaving.done_of_stuck hstuck⟩

/-! ### Steps that nobody hears -/

/-- The steps of a worker to `excom_cond_wait` -/
def WorkerPc.toWait : WorkerPc → Nat
  | .top => 1
  | .run _ => 2
  | .test _ => 3
  | .woken => 4
  | .waiting | .exited => 0

/-- A worker that does not wait yet gets closer to it. -/
private theorem Awaited.approach (hs : Awaited k s) {i : Fin n} (hi : s.worker i ≠ .waiting) :
    ∃ s', Turn s s' ∧ Awaited k s' ∧ tally WorkerPc.toWait s'.worker < tally WorkerPc.toWait s.worker := by
  have hmove {s' : State n} (h : Turn s s') (hidle : s'.destroyer = .idle) {pc : WorkerPc}
      (hworker : s'.worker = Function.update s.worker i pc) (hpc : pc.toWait < (s.worker i).toWait) :
      Turn s s' ∧ Awaited k s' ∧ tally WorkerPc.toWait s'.worker < tally WorkerPc.toWait s.worker := by
    have htally := tally_update WorkerPc.toWait s.worker i pc
    rw [← hworker] at htally
    refine ⟨h, ?_, by omega⟩
    rcases hs.turn h with hs' | hs'
    · exact hs'
    · simp [hs'.destroyer] at hidle
  cases hw : s.worker i with
  | top => exact ⟨_, hmove (.wait i hw) hs.destroyer rfl (by simp [hw, WorkerPc.toWait])⟩
  | waiting => exact absurd hw hi
  | woken => exact ⟨_, hmove (.take i hw) hs.destroyer rfl (by simp [hw, WorkerPc.toWait])⟩
  | test job =>
    cases job with
    | none => exact ⟨_, hmove (.skip i hw (hs.status i)) hs.destroyer rfl (by simp [hw, WorkerPc.toWait])⟩
    | some job => exact ⟨_, hmove (.start i hw (hs.status i)) hs.destroyer rfl (by simp [hw, WorkerPc.toWait])⟩
  | run job => exact ⟨_, hmove (.finish i hw) hs.destroyer rfl (by simp [hw, WorkerPc.toWait])⟩
  | exited => exact absurd hw (hs.worker i)

/-- When nothing else happens all workers go to sleep. -/
theorem Awaited.sleep (hs : Awaited k s) :
    ∃ s', ReflTransGen HeardStep s s' ∧ Awaited k s' ∧ ∀ i, s'.worker i = .waiting := by
  generalize hm : tally WorkerPc.toWait s.worker = m
  induction m using Nat.strongRecOn generalizing s with
  | ind m ih =>
    by_cases hall : ∀ i, s.worker i = .waiting
    · exact ⟨s, .refl, hs, hall⟩
    · obtain ⟨i, hi⟩ := not_forall.1 hall
      obtain ⟨s₁, hstep, hs₁, hlt⟩ := hs.approach hi
      obtain ⟨s', hrun, hs', hwaiting⟩ := ih _ (hm ▸ hlt) hs₁ rfl
      have hheard : HeardStep s s₁ := .turn hstep fun hmark => by simp [hs.destroyer] at hmark
      exact ⟨s', .head hheard hrun, hs', hwaiting⟩

private theorem Awaited.strands (hs : Awaited (k + 1) s) : ∃ s', ReflTransGen HeardStep s s' ∧ Stranded s' := by
  obtain ⟨s', hrun, hs', hwaiting⟩ := hs.sleep
  refine ⟨s', hrun, hs'.destroyer, ?_, hwaiting⟩
  intro hjobs
  have hlength := hs'.jobs
  rw [hjobs, List.length_nil] at hlength
  omega

/-- A worker that sleeps behind the broadcast sleeps for ever, unless a job is added to the factory that is being
destroyed. -/
theorem Hangs.turn (hs : Hangs s) (h : Turn s s') : Hangs s' := by
  obtain ⟨hending, i, hi⟩ := hs
  have hother {j : Fin n} {pc : WorkerPc} (hj : s.worker j ≠ .waiting) :
      Function.update s.worker j pc i = .waiting := by
    have hne : i ≠ j := by
      intro hij
      exact hj (hij ▸ hi)
    rw [Function.update_of_ne hne]
    exact hi
  cases h with
  | wait j hpc | take j hpc | exit j hpc | skip j hpc | start j hpc | finish j hpc =>
    exact ⟨hending, i, hother (by simp [hpc])⟩
  | destroy hpc | mark j hpc | broadcast hpc => simp [Ending, hpc] at hending
  | join j hpc hexited => exact ⟨.inr ⟨_, rfl⟩, i, hi⟩
  | free hpc => exact ⟨.inl rfl, i, hi⟩

private theorem hangs_of_top (hending : Ending s) {i : Fin n} (hpc : s.worker i = .top) :
    ∃ s', ReflTransGen HeardStep s s' ∧ Hangs s' := by
  have hheard : HeardStep s _ := .turn (.wait i hpc) fun hmark => by simp [Ending, hmark] at hending
  exact ⟨_, .single hheard, hending, i, by simp⟩

private theorem hangs_of_unaware (hending : Ending s) {i : Fin n} (hi : (s.worker i).Unaware) :
    ∃ s', ReflTransGen HeardStep s s' ∧ Hangs s' := by
  cases hw : s.worker i with
  | top => exact hangs_of_top hending hw
  | run job =>
    have hheard : HeardStep s _ := .turn (.finish i hw) fun hmark => by simp [Ending, hmark] at hending
    obtain ⟨s', hrun, hs'⟩ := hangs_of_top (s := { s with worker := Function.update s.worker i .top })
      hending (i := i) (by simp)
    exact ⟨s', .head hheard hrun, hs'⟩
  | waiting | woken | test job | exited => simp [hw, WorkerPc.Unaware] at hi

/-! ### Runs -/

/-- From here on no job waits for workers that all sleep, and no worker sleeps behind the broadcast. -/
def StaysAwake (s : State n) : Prop := ∀ s', ReflTransGen HeardStep s s' → ¬ Stranded s' ∧ ¬ Hangs s'

private theorem Attended.staysAwake (hs : Attended s) : StaysAwake s := by
  intro s' hrun
  have hs' : Attended s' := by
    induction hrun with
    | refl => exact hs
    | tail _ h ih => exact ih.step h
  exact ⟨hs'.not_stranded, hs'.not_hangs⟩

/-- In a run in which the jobs and the broadcast are heard, no job waits for workers that all sleep, no worker
sleeps behind the broadcast, and all the threads are joined.  A job that nobody hears may be left beside workers
that all sleep, and after a broadcast that a worker does not hear, it may sleep for ever. -/
theorem attends_iff (hs : Reachable (· = init n) HeardStep s) :
    (¬ Stranded s ∧ ¬ Hangs s ∧
      (Ending s → ∀ run : Nat → State n, run 0 = s → Exhaustive Turn run → ∃ k, (run k).destroyer = .done)) ∧
    (∀ s', AddJob s s' → s.destroyer = .idle → (StaysAwake s' ↔ ∃ i, s.worker i = .waiting)) ∧
    ∀ s', Turn s s' → s.destroyer = .mark n → s'.destroyer = .join 0 →
      (StaysAwake s' ↔ ∀ i, ¬ (s.worker i).Unaware) := by
  have hs := attended hs
  refine ⟨⟨hs.not_stranded, hs.not_hangs, ?_⟩, ?_, ?_⟩
  · intro hending run hstart hrun
    exact (hs.leaving hending).joins hstart hrun
  · intro s' h hidle
    constructor
    · intro hawake
      by_contra hnobody
      have hbefore : Awaited 0 s := by
        rcases hs with hs | ⟨k, hs⟩ | hs
        · exact hs
        · simp [hs.destroyer] at hidle
        · simpa [hidle] using hs.destroyer
      obtain ⟨s'', hrun, hstranded⟩ := (hbefore.addJob_nobody h hnobody).strands
      exact (hawake s'' hrun).1 hstranded
    · intro hwaiting
      exact (hs.step (.addJob h fun _ => hwaiting)).staysAwake
  · intro s' h hmark hjoin
    constructor
    · intro hawake i hi
      obtain ⟨s'', hrun, hhangs⟩ := hangs_of_unaware (s := s') (i := i) (.inr ⟨0, hjoin⟩) (by
        cases h with
        | broadcast hpc =>
          show ((s.worker i).wake).Unaware
          cases hw : s.worker i <;> simp_all [WorkerPc.wake, WorkerPc.Unaware]
        | wait | take | exit | skip | start | finish => simp [hmark] at hjoin
        | destroy | mark | join | free => simp_all)
      exact (hawake s'' hrun).2 hhangs
    · intro hheard
      exact (hs.step (.turn h fun _ _ => hheard)).staysAwake

/-- One worker, and a job that is added while it waits. -/
theorem attends_waiting :
    let waiting : State 1 := { init 1 with worker := Function.update (init 1).worker 0 .waiting }
    ¬ Stranded waiting ∧ ¬ Hangs waiting ∧ ∀ s', AddJob waiting s' → StaysAwake s' := by
  have hwait : Turn (init 1) _ := .wait 0 rfl
  have hheard : HeardStep (init 1) _ := .turn hwait fun hmark => by simp [init] at hmark
  have hstart : Reachable (· = init 1) HeardStep (init 1) := .start rfl
  obtain ⟨⟨hstranded, hhangs, -⟩, hadd, -⟩ := attends_iff (hstart.step hheard)
  exact ⟨hstranded, hhangs, fun s' h => (hadd s' h rfl).2 ⟨0, by simp⟩⟩

/-- One worker: a job that is added before it waits for the first time is left beside it, and so is the end of
the factory. -/
theorem unheard_before_first_wait :
    (∃ s : State 1, Reachable (· = init 1) Step s ∧ Stranded s) ∧
      ∃ s : State 1, Reachable (· = init 1) Step s ∧ Hangs s := by
  have h₀ : Reachable (· = init 1) Step (init 1) := .start rfl
  constructor
  · have h₁ := h₀.step (.addJob (.nobody 0 (by simp [init]) (by simp [init])))
    have h₂ := h₁.step (.turn (.wait 0 rfl))
    refine ⟨_, h₂, rfl, by simp, ?_⟩
    intro i
    obtain rfl : i = 0 := Subsingleton.elim _ _
    simp
  · have h₁ := h₀.step (.turn (.destroy rfl))
    have h₂ := h₁.step (.turn (.mark 0 rfl))
    have h₃ := h₂.step (.turn (.broadcast rfl))
    have h₄ := h₃.step (.turn (.wait 0 rfl))
    exact ⟨_, h₄, .inr ⟨0, rfl⟩, 0, by simp⟩

end Excom.Factory
