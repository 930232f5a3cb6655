import Excom.Lib.Tally
import Excom.Lib.Transition

/-!
# The workers of a factory

`excom/factory.c`: `excom_factory_add_job`, the loop of a worker, and `excom_factory_destroy`, with any number of
workers.  What runs under `job.mutex` is one step, and so is every statement that does not; a signal and a
broadcast wake those who wait already, and nobody else does.  A job is the address of its record.

A worker waits before it looks at the list or at its status, so it is only told of what happens while it waits.
The steps that tell somebody are those of `HeardStep`; as long as there are no others, every job has
a worker that was woken for it, and after the broadcast all workers are on their way out (`Attended`).
-/

namespace Excom.Factory

/-- The address of an `excom_factory_job_t`. -/
abbrev JobPtr := Nat

/-- `excom_factory_worker_status_t` -/
inductive WorkerStatus where
  | fail
  | work
  | term
  deriving DecidableEq, Repr

/-- Where a worker is in `excom_factory_work`. -/
inductive WorkerPc where
  /-- before `excom_mutex_lock` -/
  | top
  /-- in `excom_cond_wait` -/
  | waiting
  /-- woken, without the mutex -/
  | woken
  /-- before the test of its status, with the job that it took -/
  | test (job : Option JobPtr)
  /-- `(*job->runner)(job->data)` -/
  | run (job : JobPtr)
  | exited
  deriving DecidableEq, Repr

/-- Where the thread is that calls `excom_factory_destroy`. -/
inductive DestroyPc where
  /-- before the call -/
  | idle
  /-- before the assignment to the status of the worker `i`, or behind the loop -/
  | mark (i : Nat)
  /-- before `excom_thread_join` of the worker `i`, or behind the loop -/
  | join (i : Nat)
  | done
  deriving DecidableEq, Repr

/-- `excom_factory_t`, and where the threads are. -/
structure State (n : Nat) where
  jobs : List JobPtr
  worker : Fin n → WorkerPc
  status : Fin n → WorkerStatus
  destroyer : DestroyPc

/-- `excom_factory_init` -/
def init (n : Nat) : State n :=
  { jobs := [], worker := fun _ => .top, status := fun _ => .work, destroyer := .idle }

/-- `excom_cond_broadcast` -/
def WorkerPc.wake : WorkerPc → WorkerPc
  | .waiting => .woken
  | pc => pc

variable {n : Nat}

/-- `excom_factory_add_job`: one of those who wait is woken, if anybody waits. -/
inductive AddJob : State n → State n → Prop where
  | signal {s : State n} (job : JobPtr) (i : Fin n) (hopen : s.destroyer ≠ .done) (hpc : s.worker i = .waiting) :
      AddJob s { s with jobs := job :: s.jobs, worker := Function.update s.worker i .woken }
  | nobody {s : State n} (job : JobPtr) (hopen : s.destroyer ≠ .done) (hpc : ∀ i, s.worker i ≠ .waiting) :
      AddJob s { s with jobs := job :: s.jobs }

/-- A step of a worker, or of `excom_factory_destroy`. -/
inductive Turn : State n → State n → Prop where
  | wait {s : State n} (i : Fin n) (hpc : s.worker i = .top) :
      Turn s { s with worker := Function.update s.worker i .waiting }
  | take {s : State n} (i : Fin n) (hpc : s.worker i = .woken) :
      Turn s { s with jobs := s.jobs.tail, worker := Function.update s.worker i (.test s.jobs.head?) }
  | exit {s : State n} (i : Fin n) {job : Option JobPtr} (hpc : s.worker i = .test job)
      (hstatus : s.status i = .term) : Turn s { s with worker := Function.update s.worker i .exited }
  | skip {s : State n} (i : Fin n) (hpc : s.worker i = .test none) (hstatus : s.status i ≠ .term) :
      Turn s { s with worker := Function.update s.worker i .top }
  | start {s : State n} (i : Fin n) {job : JobPtr} (hpc : s.worker i = .test (some job))
      (hstatus : s.status i ≠ .term) : Turn s { s with worker := Function.update s.worker i (.run job) }
  | finish {s : State n} (i : Fin n) {job : JobPtr} (hpc : s.worker i = .run job) :
      Turn s { s with worker := Function.update s.worker i .top }
  | destroy {s : State n} (hpc : s.destroyer = .idle) : Turn s { s with destroyer := .mark 0 }
  | mark {s : State n} (i : Fin n) (hpc : s.destroyer = .mark i) :
      Turn s { s with status := Function.update s.status i .term, destroyer := .mark (i + 1) }
  | broadcast {s : State n} (hpc : s.destroyer = .mark n) :
      Turn s { s with jobs := [], worker := fun i => (s.worker i).wake, destroyer := .join 0 }
  | join {s : State n} (i : Fin n) (hpc : s.destroyer = .join i) (hexited : s.worker i = .exited) :
      Turn s { s with destroyer := .join (i + 1) }
  | free {s : State n} (hpc : s.destroyer = .join n) : Turn s { s with destroyer := .done }

inductive Step (s s' : State n) : Prop where
  | addJob (h : AddJob s s')
  | turn (h : Turn s s')

/-- There are jobs, and every worker sleeps. -/
def Stranded (s : State n) : Prop := s.destroyer = .idle ∧ s.jobs ≠ [] ∧ ∀ i, s.worker i = .waiting

/-- The broadcast is over. -/
def Ending (s : State n) : Prop := s.destroyer = .done ∨ ∃ i, s.destroyer = .join i

/-- The broadcast is over, and a worker sleeps. -/
def Hangs (s : State n) : Prop := Ending s ∧ ∃ i, s.worker i = .waiting

/-! ### Steps that are heard -/

/-- The worker waits before it looks at its status. -/
def WorkerPc.Unaware : WorkerPc → Prop
  | .top | .run _ => True
  | _ => False

/-- The worker looks at its status before it waits. -/
def WorkerPc.Leaving : WorkerPc → Prop
  | .woken | .test _ | .exited => True
  | _ => False

/-- A step of the program in which the jobs that are added before the end, and the broadcast, are heard: somebody
waits for the job, and nobody is about to wait behind the broadcast. -/
inductive HeardStep (s s' : State n) : Prop where
  | addJob (h : AddJob s s') (hheard : s.destroyer = .idle → ∃ i, s.worker i = .waiting)
  | turn (h : Turn s s')
      (hheard : s.destroyer = .mark n → s'.destroyer = .join 0 → ∀ i, ¬ (s.worker i).Unaware)

/-- How many jobs the worker was woken for and has not taken. -/
def WorkerPc.wakeUps : WorkerPc → Nat
  | .woken => 1
  | _ => 0

/-- Before the end, with `k` jobs for which nobody was woken. -/
structure Awaited (k : Nat) (s : State n) : Prop where
  destroyer : s.destroyer = .idle
  status : ∀ i, s.status i ≠ .term
  worker : ∀ i, s.worker i ≠ .exited
  jobs : s.jobs.length = tally WorkerPc.wakeUps s.worker + k

/-- In the loop that sets the status of the workers. -/
structure Marking (s : State n) (k : Nat) : Prop where
  destroyer : s.destroyer = .mark k
  le : k ≤ n
  status : ∀ i : Fin n, i < k → s.status i = .term

/-- After the broadcast, with all workers on their way out. -/
structure Leaving (s : State n) : Prop where
  destroyer : s.destroyer = .done ∨ ∃ k ≤ n, s.destroyer = .join k
  status : ∀ i, s.status i = .term
  worker : ∀ i, (s.worker i).Leaving

def Attended (s : State n) : Prop := Awaited 0 s ∨ (∃ k, Marking s k) ∨ Leaving s

private theorem awaited_init : Awaited 0 (init n) := by
  refine ⟨rfl, by simp [init], by simp [init], ?_⟩
  have h : tally WorkerPc.wakeUps (init n).worker = 0 := tally_eq_zero.2 fun _ => rfl
  rw [h]
  rfl

variable {s s' : State n} {k : Nat}

/-- A worker that goes somewhere and takes the jobs for which it was woken. -/
private theorem Awaited.move (hs : Awaited k s) (i : Fin n) {pc : WorkerPc} {jobs : List JobPtr}
    (hpc : pc ≠ .exited) (hjobs : jobs.length + (s.worker i).wakeUps = s.jobs.length + pc.wakeUps) :
    Awaited k { s with jobs, worker := Function.update s.worker i pc } := by
  refine ⟨hs.destroyer, hs.status, ?_, ?_⟩
  · intro j
    by_cases hj : j = i
    · subst hj
      simpa using hpc
    · simpa [hj] using hs.worker j
  · have htally := tally_update WorkerPc.wakeUps s.worker i pc
    have := hs.jobs
    show jobs.length = tally WorkerPc.wakeUps (Function.update s.worker i pc) + k
    omega

/-- A turn leaves no further job without a worker, or the end has begun. -/
theorem Awaited.turn (hs : Awaited k s) (h : Turn s s') : Awaited k s' ∨ Marking s' 0 := by
  cases h with
  | wait i hpc => exact .inl (hs.move i (by simp) (by simp [hpc, WorkerPc.wakeUps]))
  | take i hpc =>
    -- the worker was woken for a job
    have hle : 1 ≤ tally WorkerPc.wakeUps s.worker := by
      rw [Nat.one_le_iff_ne_zero, Ne, tally_eq_zero]
      intro hzero
      simpa [hpc, WorkerPc.wakeUps] using hzero i
    have hjobs := hs.jobs
    refine .inl (hs.move i (by simp) ?_)
    rw [hpc, List.length_tail]
    simp only [WorkerPc.wakeUps]
    omega
  | exit i hpc hstatus => exact absurd hstatus (hs.status i)
  | skip i hpc | start i hpc | finish i hpc => exact .inl (hs.move i (by simp) (by simp [hpc, WorkerPc.wakeUps]))
  | destroy hpc => exact .inr ⟨rfl, Nat.zero_le n, by simp⟩
  | mark i hpc | broadcast hpc | join i hpc | free hpc => simp [hs.destroyer] at hpc

/-- A job that is added wakes a worker, if one waits. -/
theorem Awaited.addJob (hs : Awaited k s) (h : AddJob s s') (hwaiting : ∃ i, s.worker i = .waiting) :
    Awaited k s' := by
  cases h with
  | signal job i hopen hpc => exact hs.move i (by simp) (by simp [hpc, WorkerPc.wakeUps])
  | nobody job hopen hpc =>
    obtain ⟨i, hi⟩ := hwaiting
    exact absurd hi (hpc i)

theorem Awaited.addJob_nobody (hs : Awaited k s) (h : AddJob s s') (hwaiting : ¬ ∃ i, s.worker i = .waiting) :
    Awaited (k + 1) s' := by
  cases h with
  | signal job i hopen hpc => exact absurd ⟨i, hpc⟩ hwaiting
  | nobody job hopen hpc =>
    have hjobs := hs.jobs
    refine ⟨hs.destroyer, hs.status, hs.worker, ?_⟩
    show (job :: s.jobs).length = tally WorkerPc.wakeUps s.worker + (k + 1)
    rw [List.length_cons]
    omega

/-- A turn goes on with the marking, or all workers are on their way out. -/
theorem Marking.turn (hs : Marking s k) (h : Turn s s')
    (hheard : s.destroyer = .mark n → s'.destroyer = .join 0 → ∀ i, ¬ (s.worker i).Unaware) :
    (∃ k, Marking s' k) ∨ Leaving s' := by
  have hmark := hs.destroyer
  cases h with
  | wait i hpc | take i hpc | exit i hpc | skip i hpc | start i hpc | finish i hpc =>
    exact .inl ⟨k, hs.destroyer, hs.le, hs.status⟩
  | mark i hpc =>
    obtain rfl : k = i := by simpa [hmark] using hpc
    refine .inl ⟨i + 1, rfl, i.isLt, ?_⟩
    intro j hj
    by_cases hji : j = i
    · simp [hji]
    · have hlt : (j : Nat) < i := by omega
      simpa [hji] using hs.status j hlt
  | broadcast hpc =>
    obtain rfl : k = n := by simpa [hmark] using hpc
    refine .inr ⟨.inr ⟨0, Nat.zero_le _, rfl⟩, fun i => hs.status i i.isLt, ?_⟩
    intro i
    have hi := hheard hpc rfl i
    show ((s.worker i).wake).Leaving
    cases hw : s.worker i <;> simp_all [WorkerPc.wake, WorkerPc.Leaving, WorkerPc.Unaware]
  | destroy hpc | join i hpc | free hpc => simp [hmark] at hpc

theorem Marking.addJob (hs : Marking s k) (h : AddJob s s') : Marking s' k := by
  cases h <;> exact ⟨hs.destroyer, hs.le, hs.status⟩

private theorem Leaving.move (hs : Leaving s) (i : Fin n) {pc : WorkerPc} {jobs : List JobPtr}
    (hpc : pc.Leaving) : Leaving { s with jobs, worker := Function.update s.worker i pc } := by
  refine ⟨hs.destroyer, hs.status, ?_⟩
  intro j
  by_cases hj : j = i
  · subst hj
    simpa using hpc
  · simpa [hj] using hs.worker j

/-- Workers on their way out stay on it. -/
theorem Leaving.turn (hs : Leaving s) (h : Turn s s') : Leaving s' := by
  have hending := hs.destroyer
  cases h with
  | wait i hpc | finish i hpc =>
    have hi := hs.worker i
    simp [hpc, WorkerPc.Leaving] at hi
  | take i hpc => exact hs.move i trivial
  | exit i hpc => exact hs.move i trivial
  | skip i hpc hstatus | start i hpc hstatus => exact absurd (hs.status i) hstatus
  | destroy hpc | mark i hpc | broadcast hpc => simp [hpc] at hending
  | join i hpc hexited => exact ⟨.inr ⟨i + 1, i.isLt, rfl⟩, hs.status, hs.worker⟩
  | free hpc => exact ⟨.inl rfl, hs.status, hs.worker⟩

theorem Leaving.addJob (hs : Leaving s) (h : AddJob s s') : Leaving s' := by
  cases h with
  | signal job i hopen hpc => exact hs.move i trivial
  | nobody job hopen hpc => exact ⟨hs.destroyer, hs.status, hs.worker⟩

/-- Every step of which the workers hear keeps the jobs attended to. -/
theorem Attended.step (hs : Attended s) (h : HeardStep s s') : Attended s' := by
  cases h with
  | addJob h hheard =>
    rcases hs with hs | ⟨k, hs⟩ | hs
    · exact .inl (hs.addJob h (hheard hs.destroyer))
    · exact .inr (.inl ⟨k, hs.addJob h⟩)
    · exact .inr (.inr (hs.addJob h))
  | turn h hheard =>
    rcases hs with hs | ⟨k, hs⟩ | hs
    · rcases hs.turn h with hs | hs
      · exact .inl hs
      · exact .inr (.inl ⟨0, hs⟩)
    · exact .inr (hs.turn h hheard)
    · exact .inr (.inr (hs.turn h))

/-- In every state that is reached a worker was woken for each job, or the end has begun. -/
theorem attended (hs : Reachable (· = init n) HeardStep s) : Attended s := by
  refine hs.invariant ?_ fun s s' => Attended.step
  intro s hs
  subst hs
  exact .inl awaited_init

end Excom.Factory
