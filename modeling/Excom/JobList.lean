import Excom.Lib.DList
import Excom.Lib.Exec

/-!
# The list of jobs of a factory

The doubly linked list of jobs as the macros `PUSH` and `POP` of `excom/factory.c` splice it.  Of a job the model
has the two links; the runner and its data are not looked at by the list.  Taking the head of a well-linked list is
right (`work_wellLinked`).  `PUSH` writes through the `next` of the new job, which is `NULL` when the list was empty,
and otherwise makes the old head its own predecessor; so the list stays well linked exactly as long as no job is
added (`intact_iff_no_push`).
-/

namespace Excom

/-- The address of an `excom_factory_job_t`. -/
abbrev JobPtr := Nat

/-- The jobs of an `excom_factory_t`, and the jobs that are allocated.  `added` and `handed` record what went through
`excom_factory_add_job` and to the workers. -/
structure JobList where
  jobs : Option JobPtr
  heap : JobPtr → Option (Links JobPtr)
  mallocs : Nat
  added : List JobPtr
  handed : List JobPtr

inductive JobFault where
  | null
  | freed
  deriving DecidableEq, Repr

abbrev JobM := Exec JobList JobFault

namespace JobList

/-- A factory without jobs -/
def init : JobList := ⟨none, fun _ => none, 0, [], []⟩

/-- `excom_malloc(sizeof(excom_factory_job_t))`; the links it happens to hold are overwritten at once. -/
def malloc : JobM JobPtr := fun s =>
  .ok (s.mallocs, { s with mallocs := s.mallocs + 1, heap := Function.update s.heap s.mallocs (some ⟨none, none⟩) })

/-- A read of a job. -/
def fetch (job : JobPtr) : JobM (Links JobPtr) := do
  let s ← Exec.get
  match s.heap job with
  | some x => return x
  | none => Exec.fault .freed

/-- A write to a job. -/
def assign (job : JobPtr) (f : Links JobPtr → Links JobPtr) : JobM Unit := do
  let x ← fetch job
  Exec.modify fun s => { s with heap := Function.update s.heap job (some (f x)) }

/-- A write through a pointer. -/
def assignThrough (job : Option JobPtr) (f : Links JobPtr → Links JobPtr) : JobM Unit :=
  match job with
  | none => Exec.fault .null
  | some job => assign job f

/-- A write behind a test of the pointer. -/
def assignIf (job : Option JobPtr) (f : Links JobPtr → Links JobPtr) : JobM Unit :=
  match job with
  | none => pure ()
  | some job => assign job f

/-- `PUSH(item, factory->jobs)` -/
def push (item : JobPtr) : JobM Unit := do
  let s ← Exec.get
  assign item fun x => { x with prev := none }
  assign item fun x => { x with next := s.jobs }
  let x ← fetch item
  assignThrough x.next fun y => { y with prev := s.jobs }
  Exec.modify fun s => { s with jobs := some item }

/-- `POP(item, factory->jobs)` -/
def pop (item : JobPtr) : JobM Unit := do
  let x ← fetch item
  assignIf x.prev fun y => { y with next := x.next }
  let x ← fetch item
  assignIf x.next fun y => { y with prev := x.prev }
  let x ← fetch item
  Exec.modify fun s => { s with jobs := if s.jobs = some item then x.next else s.jobs }
  assign item fun _ => ⟨none, none⟩

/-- `excom_factory_add_job`, as far as the list is concerned -/
def addJob : JobM Unit := do
  let job ← malloc
  push job
  Exec.modify fun s => { s with added := s.added ++ [job] }

/-- The part of a turn of `excom_factory_work` under the mutex: the job that the worker is given. -/
def work : JobM (Option JobPtr) := do
  let s ← Exec.get
  match s.jobs with
  | none => return none
  | some job =>
    pop job
    Exec.modify fun s => { s with handed := s.handed ++ [job] }
    return some job

/-- What happens to the list. -/
inductive Op where
  | push
  | pop
  deriving DecidableEq, Repr

def Op.run : Op → JobM Unit
  | .push => addJob
  | .pop => do
    let _ ← work

/-! ### What is to hold of the list -/

/-- The walk along `next` visits the jobs that were added and not handed out, each once, and ends; `prev` leads back
along it.  No job was handed out twice. -/
structure WellLinked (s : JobList) : Prop where
  walk : ∃ l last, Segment s.heap none s.jobs l last none ∧ l.Nodup ∧ ∀ job, job ∈ l ↔ job ∈ s.added ∧ job ∉ s.handed
  handed : s.handed.Nodup ∧ ∀ job ∈ s.handed, job ∈ s.added
  /-- What `malloc` gives next is not in use. -/
  fresh : ∀ job, s.mallocs ≤ job → s.heap job = none

/-- No step faults, and the list is well linked before the first step and after each one. -/
def Intact : JobList → List Op → Prop
  | s, [] => s.WellLinked
  | s, op :: ops => s.WellLinked ∧ ∃ s', op.run s = .ok ((), s') ∧ Intact s' ops

theorem init_wellLinked : init.WellLinked := by
  refine ⟨⟨[], none, ⟨rfl, rfl⟩, List.nodup_nil, ?_⟩, ⟨List.nodup_nil, ?_⟩, fun _ _ => rfl⟩
  · simp [init]
  · simp [init]

private theorem Intact.wellLinked {s : JobList} {ops : List Op} (h : Intact s ops) : s.WellLinked := by
  cases ops with
  | nil => exact h
  | cons op ops => exact h.1

/-! ### Reads and writes of jobs -/

variable {s : JobList} {job : JobPtr} {x : Links JobPtr}

theorem fetch_eq (h : s.heap job = some x) : fetch job s = .ok (x, s) := by
  unfold fetch
  refine (Exec.bind_of_ok (Exec.get_apply s) _).trans ?_
  rw [h]
  rfl

theorem assign_eq (h : s.heap job = some x) (f : Links JobPtr → Links JobPtr) :
    assign job f s = .ok ((), { s with heap := relink f (some job) s.heap }) := by
  have hrelink : relink f (some job) s.heap = Function.update s.heap job (some (f x)) := by
    show Function.update s.heap job ((s.heap job).map f) = _
    rw [h, Option.map_some]
  rw [hrelink]
  exact Exec.bind_of_ok (fetch_eq h) _

private theorem assignIf_eq {a : Option JobPtr} (ha : ∀ b, a = some b → (s.heap b).isSome)
    (f : Links JobPtr → Links JobPtr) : assignIf a f s = .ok ((), { s with heap := relink f a s.heap }) := by
  cases a with
  | none => rfl
  | some a =>
    obtain ⟨x, hx⟩ := Option.isSome_iff_exists.1 (ha a rfl)
    exact assign_eq hx f

/-! ### `POP` of the head -/

/-- Nodes of a segment are allocated. -/
theorem isSome_of_mem {links : JobPtr → Option (Links JobPtr)} {prev head last stop : Option JobPtr} {l : List JobPtr}
    (h : Segment links prev head l last stop) (hjob : job ∈ l) : (links job).isSome := by
  induction l generalizing prev head with
  | nil => cases hjob
  | cons a l ih =>
    obtain ⟨_, next, hlinks, h⟩ := h
    rcases List.mem_cons.1 hjob with rfl | hjob
    · rw [hlinks]
      rfl
    · exact ih h hjob

/-- The head of a well-linked list is taken out. -/
theorem pop_head {l : List JobPtr} {last : Option JobPtr} (h : Segment s.heap none s.jobs (job :: l) last none)
    (hl : (job :: l).Nodup) : ∃ heap last', pop job s = .ok ((), { s with jobs := l.head?, heap }) ∧
      Segment heap none l.head? l last' none ∧ ∀ a, (heap a).isSome = (s.heap a).isSome := by
  obtain ⟨hjob, hnodup⟩ := List.nodup_cons.1 hl
  obtain ⟨hjobs, next, hlinks, hrest⟩ := h
  have hnext : next = l.head? := by rw [hrest.head_eq, Option.or_none]
  have hmem (b : JobPtr) (hb : next = some b) : b ∈ l := List.mem_of_head? (hnext.symm.trans hb)
  have hne : next ≠ some job := fun hb => hjob (hmem job hb)
  obtain ⟨last', hwalk⟩ := hrest.setPrev hnodup none
  -- the second job, if there is one, becomes the head
  have hsome (b : JobPtr) (hb : next = some b) : (s.heap b).isSome := isSome_of_mem hrest (hmem b hb)
  have hassign := assignIf_eq (s := s) hsome fun y => { y with prev := none }
  have hlinks' : relink (fun y => { y with prev := none }) next s.heap job = some ⟨none, next⟩ := by
    rw [relink_of_ne hne]
    exact hlinks
  rw [hnext] at hwalk hlinks hlinks' hassign
  refine ⟨relink (fun _ => ⟨none, none⟩) (some job) (relink (fun y => { y with prev := none }) l.head? s.heap), last',
    ?_, hwalk.congr ?_, ?_⟩
  · unfold pop
    refine (Exec.bind_of_ok (fetch_eq hlinks) _).trans ?_
    refine (Exec.bind_of_ok (assignIf_eq (by simp) _) _).trans ?_
    refine (Exec.bind_of_ok (fetch_eq hlinks) _).trans ?_
    refine (Exec.bind_of_ok hassign _).trans ?_
    refine (Exec.bind_of_ok (fetch_eq hlinks') _).trans ?_
    refine (Exec.bind_of_ok (Exec.modify_apply _ _) _).trans ?_
    rw [hjobs, if_pos rfl]
    exact assign_eq hlinks' _
  · intro a ha
    refine relink_of_ne ?_
    intro heq
    cases heq
    exact hjob ha
  · intro a
    rw [relink_isSome, relink_isSome]

/-- A worker takes the head of a well-linked list, or finds none. -/
theorem work_wellLinked (h : s.WellLinked) : ∃ r s', work s = .ok (r, s') ∧ s'.WellLinked := by
  obtain ⟨l, last, hwalk, hl, hmem⟩ := h.walk
  cases l with
  | nil =>
    have hjobs : s.jobs = none := hwalk.2
    refine ⟨none, s, ?_, h⟩
    unfold work
    refine (Exec.bind_of_ok (Exec.get_apply s) _).trans ?_
    rw [hjobs]
    rfl
  | cons job l =>
    have hjobs : s.jobs = some job := hwalk.1
    obtain ⟨heap, last', hpop, hwalk', hsome⟩ := pop_head hwalk hl
    obtain ⟨hjob, hnodup⟩ := List.nodup_cons.1 hl
    obtain ⟨hadded, hnew⟩ := (hmem job).1 (by simp)
    refine ⟨some job, { s with jobs := l.head?, heap, handed := s.handed ++ [job] }, ?_, ?_, ?_, ?_⟩
    · unfold work
      refine (Exec.bind_of_ok (Exec.get_apply s) _).trans ?_
      rw [hjobs]
      exact (Exec.bind_of_ok hpop _).trans rfl
    · refine ⟨l, last', hwalk', hnodup, ?_⟩
      intro a
      have ha := hmem a
      rw [List.mem_cons] at ha
      rw [List.mem_append, List.mem_singleton, not_or, ← and_assoc, ← ha]
      constructor
      · intro hal
        exact ⟨.inr hal, fun heq => hjob (heq ▸ hal)⟩
      · intro ⟨hal, hne⟩
        exact hal.resolve_left hne
    · constructor
      · refine List.nodup_append.2 ⟨h.handed.1, by simp, ?_⟩
        intro a ha b hb heq
        rw [List.mem_singleton.1 hb] at heq
        exact hnew (heq ▸ ha)
      · intro a ha
        rcases List.mem_append.1 ha with ha | ha
        · exact h.handed.2 a ha
        · rw [List.mem_singleton.1 ha]
          exact hadded
    · intro a ha
      have hnone : (heap a).isSome = false := by
        rw [hsome, h.fresh a ha]
        rfl
      exact Option.not_isSome_iff_eq_none.1 (by rw [hnone]; decide)

/-! ### `PUSH` -/

/-- `PUSH` up to the write to the old head: the new job is linked to it. -/
theorem push_eq (h : s.heap job = some x) : push job s = (do
    assignThrough s.jobs fun y => { y with prev := s.jobs }
    Exec.modify fun s => { s with jobs := some job } : JobM Unit)
      { s with heap := Function.update s.heap job (some ⟨none, s.jobs⟩) } := by
  have h1 : (relink (fun x => { x with prev := none }) (some job) s.heap) job = some { x with prev := none } := by
    rw [relink_self, h]
    rfl
  have h2 : relink (fun x => { x with next := s.jobs }) (some job)
      (relink (fun x => { x with prev := none }) (some job) s.heap) =
        Function.update s.heap job (some ⟨none, s.jobs⟩) := by
    funext a
    by_cases ha : a = job
    · rw [ha, relink_self, h1, Function.update_self]
      rfl
    · have hne : some job ≠ some a := fun heq => ha (Option.some.inj heq).symm
      rw [relink_of_ne hne, relink_of_ne hne, Function.update_of_ne ha]
  unfold push
  refine (Exec.bind_of_ok (Exec.get_apply s) _).trans ?_
  refine (Exec.bind_of_ok (assign_eq h _) _).trans ?_
  refine (Exec.bind_of_ok (assign_eq h1 _) _).trans ?_
  rw [h2]
  have hfetch : fetch job { s with heap := Function.update s.heap job (some ⟨none, s.jobs⟩) } =
      .ok (⟨none, s.jobs⟩, { s with heap := Function.update s.heap job (some ⟨none, s.jobs⟩) }) := by
    apply fetch_eq
    exact Function.update_self ..
  exact Exec.bind_of_ok hfetch _

/-- In front of another job: the old head becomes its own predecessor. -/
theorem push_head {head : JobPtr} {y : Links JobPtr} (h : s.heap job = some x) (hjobs : s.jobs = some head)
    (hhead : s.heap head = some y) (hne : head ≠ job) : push job s = .ok ((), { s with
      jobs := some job
      heap := relink (fun y => { y with prev := some head }) (some head)
        (Function.update s.heap job (some ⟨none, some head⟩)) }) := by
  rw [push_eq h, hjobs]
  have hold : (Function.update s.heap job (some ⟨none, some head⟩)) head = some y := by
    rw [Function.update_of_ne hne]
    exact hhead
  exact (Exec.bind_of_ok (assign_eq hold _) _).trans rfl

/-- The state after `excom_malloc` -/
def malloced (s : JobList) : JobList :=
  { s with mallocs := s.mallocs + 1, heap := Function.update s.heap s.mallocs (some ⟨none, none⟩) }

private theorem malloced_heap_self (s : JobList) : s.malloced.heap s.mallocs = some ⟨none, none⟩ :=
  Function.update_self ..

/-- The second node of a segment has the first one for its predecessor. -/
theorem prev_second {links : JobPtr → Option (Links JobPtr)} {a b : JobPtr} {y : Links JobPtr} {l : List JobPtr}
    {last : Option JobPtr} (h : Segment links none (some a) l last none) (ha : links a = some ⟨none, some b⟩)
    (hb : links b = some y) : y.prev = some a := by
  cases l with
  | nil => cases h.2
  | cons c l =>
    obtain ⟨hc, next, hnext, hrest⟩ := h
    cases hc
    rw [ha] at hnext
    cases hnext
    cases l with
    | nil => cases hrest.2
    | cons d l =>
      obtain ⟨hd, next', hnext', _⟩ := hrest
      cases hd
      rw [hb] at hnext'
      cases hnext'
      rfl

/-- An addition to a list that is not empty. -/
theorem addJob_head {head : JobPtr} (hjobs : s.jobs = some head) (hhead : s.heap head = some x)
    (hne : head ≠ s.mallocs) : ∃ s', addJob s = .ok ((), s') ∧ s'.jobs = some s.mallocs ∧
      s'.heap s.mallocs = some ⟨none, some head⟩ ∧ s'.heap head = some { x with prev := some head } := by
  have hmalloc : malloc s = .ok (s.mallocs, s.malloced) := rfl
  have hhead1 : s.malloced.heap head = some x := (Function.update_of_ne hne ..).trans hhead
  have hpush := push_head s.malloced_heap_self hjobs hhead1 hne
  refine ⟨_, (Exec.bind_of_ok hmalloc _).trans (Exec.bind_of_ok hpush _), rfl, ?_, ?_⟩
  · have hsome : some head ≠ some s.mallocs := fun heq => hne (Option.some.inj heq)
    exact (relink_of_ne hsome).trans (Function.update_self ..)
  · refine (relink_self head).trans ?_
    rw [Function.update_of_ne hne, hhead1]
    rfl

/-- After an addition the list is not well linked: if it was empty, `PUSH` has written through `NULL`, and otherwise
the old head has become its own predecessor. -/
theorem addJob_breaks (h : s.WellLinked) {s' : JobList} (hrun : addJob s = .ok ((), s')) : ¬ s'.WellLinked := by
  obtain ⟨l, last, hwalk, _⟩ := h.walk
  cases l with
  | nil =>
    have hmalloc : malloc s = .ok (s.mallocs, s.malloced) := rfl
    have hjobs : s.malloced.jobs = none := hwalk.2
    unfold addJob at hrun
    rw [Exec.bind_of_ok hmalloc] at hrun
    obtain ⟨_, s2, hpush, _⟩ := Exec.bind_eq_ok.1 hrun
    rw [push_eq s.malloced_heap_self, hjobs] at hpush
    cases hpush
  | cons head l =>
    obtain ⟨hjobs, next, hhead, _⟩ := hwalk
    have hne : head ≠ s.mallocs := by
      intro heq
      rw [heq, h.fresh s.mallocs (Nat.le_refl _)] at hhead
      cases hhead
    obtain ⟨s2, hrun2, hjobs2, hnew, hold⟩ := addJob_head hjobs hhead hne
    rw [hrun2] at hrun
    cases hrun
    intro hlinked
    obtain ⟨l', last', hwalk', _⟩ := hlinked.walk
    rw [hjobs2] at hwalk'
    exact hne (Option.some.inj (prev_second hwalk' hnew hold))

/-! ### Sequences of additions and of turns of workers -/

/-- Without additions every well-linked list stays well linked. -/
theorem intact_of_pops {s : JobList} (h : s.WellLinked) {ops : List Op} (hops : Op.push ∉ ops) : Intact s ops := by
  induction ops generalizing s with
  | nil => exact h
  | cons op ops ih =>
    rw [List.mem_cons, not_or] at hops
    cases op with
    | push => exact absurd rfl hops.1
    | pop =>
      obtain ⟨r, s', hrun, h'⟩ := work_wellLinked h
      exact ⟨h, s', Exec.bind_of_ok hrun _, ih h' hops.2⟩

/-- A list that stays well linked has had no additions. -/
theorem Intact.no_push {s : JobList} {ops : List Op} (h : Intact s ops) : Op.push ∉ ops := by
  induction ops generalizing s with
  | nil => exact List.not_mem_nil
  | cons op ops ih =>
    obtain ⟨hs, s', hrun, hrest⟩ := h
    cases op with
    | push => exact absurd hrest.wellLinked (addJob_breaks hs hrun)
    | pop =>
      intro hmem
      rcases List.mem_cons.1 hmem with hop | hmem
      · cases hop
      · exact ih hrest hmem

/-- From a well-linked list on, the empty one of a new factory in particular, the list keeps its integrity exactly as
long as no job is added. -/
theorem intact_iff_no_push {s : JobList} (h : s.WellLinked) (ops : List Op) : Intact s ops ↔ Op.push ∉ ops :=
  ⟨Intact.no_push, intact_of_pops h⟩

/-- Two jobs in a list as it should be, the first of three having been handed out -/
private def two : JobList where
  jobs := some 1
  heap := fun job => if job = 1 then some ⟨none, some 2⟩ else if job = 2 then some ⟨some 1, none⟩ else none
  mallocs := 3
  added := [0, 1, 2]
  handed := [0]

private theorem two_wellLinked : two.WellLinked := by
  refine ⟨⟨[1, 2], some 2, ?_, by decide, ?_⟩, ⟨by decide, by decide⟩, ?_⟩
  · exact ⟨rfl, some 2, rfl, rfl, none, rfl, rfl, rfl⟩
  · intro job
    simp only [two, List.mem_cons, List.not_mem_nil, or_false]
    constructor
    · rintro (rfl | rfl) <;> decide
    · rintro ⟨rfl | h, hnot⟩
      · exact absurd rfl hnot
      · exact h
  · intro job hjob
    have hne : ∀ n : Nat, n < 3 → job ≠ n := fun n hn heq => absurd (heq ▸ hjob : 3 ≤ n) (Nat.not_le.2 hn)
    simp only [two]
    rw [if_neg (hne 1 (by decide)), if_neg (hne 2 (by decide))]

/-- Three turns of workers, of which two take a job and one finds none, and a turn in a new factory -/
theorem intact_two_jobs : Intact two [.pop, .pop, .pop] ∧ Intact init [.pop] :=
  ⟨(intact_iff_no_push two_wellLinked _).2 (by decide), (intact_iff_no_push init_wellLinked _).2 (by decide)⟩

/-- The first job that is added writes through `NULL`. -/
theorem not_intact_first : ¬ Intact init [.push] := by
  intro h
  exact h.no_push (by decide)

end JobList

end Excom
