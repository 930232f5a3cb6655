import Excom.Worker
import Mathlib.Data.List.Basic

/-!
# Closing a connection whose worker does not wait yet

`excom_server_client_close` sets `disconnected` and broadcasts, but the worker looks at `disconnected` only
behind `excom_cond_wait`, and waits whenever the queue is empty.  If the broadcast comes before the wait, then
nobody wakes the worker, and `excom_thread_join` does not return.  This can happen unless the worker sleeps
already or is about to look at a queue that is not empty (`Wakes`, `never_hangs_iff`).

The close can always come to its broadcast: a link that was written leads to a packet that was queued later
(`Linked`), and so the loop that frees the packets ends.
-/

namespace Excom.Worker

open Relation

/-- The worker sleeps, and the broadcast is over. -/
def Hangs (s : State) : Prop :=
  s.disconnected = true ∧ (s.reader = .unlock ∨ s.reader = .join ∨ s.reader = .closed) ∧ s.worker = .waiting

/-- Whatever comes next, the worker finds out that the connection is closed. -/
def Wakes (s : State) : Prop :=
  s.worker = .waiting ∨ s.worker = .woken ∨ ((s.worker = .top ∨ s.worker = .test none) ∧ s.packets ≠ none)

/-- A step by which no close takes the mutex that the worker can miss. -/
def WakingStep (s s' : State) : Prop := Step s s' ∧ (s.reader = .lock → s'.reader = .load → Wakes s)

/-! ### A close that the worker does not miss -/

/-- The section of the close, which the worker does not miss. -/
private structure Ending (s : State) : Prop where
  closing : s.reader.isOpen = false
  worker : s.worker = .woken ∨ s.worker = .exited ∨ ((s.worker = .top ∨ s.worker = .test none) ∧ s.packets ≠ none) ∨
    (s.worker = .waiting ∧ s.reader.locked = true ∧ s.reader ≠ .unlock)

private theorem Ending.not_hangs {s : State} (hs : Ending s) : ¬ Hangs s := by
  rintro ⟨-, hreader, hwaiting⟩
  have h := hs.worker
  simp only [hwaiting, reduceCtorEq, false_or, false_and, true_and] at h
  rcases hreader with hr | hr | hr <;> simp [hr] at h

/-- A close has the mutex until it waits for the worker. -/
private theorem Ending.take {s : State} (hs : Ending s) (hlocated : Located s) (hfree : s.reader.locked = false) :
    s.take = .exited := by
  have hd : s.disconnected = true := by
    rw [hlocated.disconnected]
    have hclosing := hs.closing
    cases hr : s.reader <;> simp [hr] at hclosing hfree ⊢
  exact if_pos hd

private theorem Ending.step {s s' : State} (hs : Ending s) (hlocated : Located s) (h : Step s s') : Ending s' := by
  have htake := hs.take hlocated
  obtain ⟨hclosing, hworker⟩ := hs
  cases h with
  | check hpc | read hpc | leave hpc | chooseFirst hpc | chooseLink hpc | first hpc | link hpc | setLast hpc
  | finish hpc | signal hpc | close hpc | destroyIn hpc | destroyOut hpc | lockClose hpc => simp [hpc] at hclosing
  | load hpc | walkDone hpc | walk hpc | free hpc | disconnect hpc => exact ⟨rfl, by simpa [hpc] using hworker⟩
  | broadcast hpc =>
    refine ⟨rfl, ?_⟩
    rcases hworker with hw | hw | ⟨hw | hw, hpackets⟩ | ⟨hw, -⟩ <;> simp [hw, WorkerPc.wake]
    · exact hpackets
    · exact hpackets
  | unlock hpc => exact ⟨rfl, by simpa [hpc] using hworker⟩
  | join hpc hw => exact ⟨rfl, .inr (.inl hw)⟩
  | wait hpc hfree hempty => simp [hpc, hempty] at hworker
  | lock hpc hfree hsome | woken hpc hfree => exact ⟨hclosing, .inr (.inl (htake hfree))⟩
  | done hpc =>
    have hpackets : s.packets ≠ none := by simpa [hpc] using hworker
    exact ⟨hclosing, .inr (.inr (.inl ⟨.inl rfl, hpackets⟩))⟩
  | test hpc | pop hpc | checkNone hpc | checkSome hpc | reset hpc | dispatch hpc | handle replies hpc | reply hpc
  | next hpc => simp [hpc] at hworker

/-- Only the thread of the events moves when a close takes the mutex. -/
private theorem Step.eq_of_lockClose {s s' : State} (h : Step s s') (hpc : s.reader = .lock)
    (hpc' : s'.reader = .load) : s' = { s with reader := .load } := by
  cases h with
  | lockClose => rfl
  | wait | lock | woken | done | test | pop | checkNone | checkSome | reset | dispatch | handle | reply | next =>
    simp [hpc] at hpc'
  | check h | read h | leave h | chooseFirst h | chooseLink h | first h | link h | setLast h | finish h | signal h
  | close h | destroyIn h | destroyOut h | load h | walkDone h | walk h | free h | disconnect h | broadcast h
  | unlock h | join h => simp [hpc] at h

private theorem Ending.of_wakes {s : State} (hwakes : Wakes s) : Ending { s with reader := .load } := by
  refine ⟨rfl, ?_⟩
  rcases hwakes with hw | hw | hw
  · exact .inr (.inr (.inr ⟨hw, rfl, by simp⟩))
  · exact .inl hw
  · exact .inr (.inr (.inl hw))

/-! ### The links -/

/-- A link that was written leads to a packet that was queued later. -/
structure Linked (s : State) : Prop where
  fresh : ∀ packet, s.reader = .choose packet ∨ s.reader = .first packet ∨ s.reader = .link packet →
    packet ∉ s.enqueued
  unset : ∀ packet, s.reader.unset = some packet → packet ∈ s.enqueued
  last : ∀ packet, s.last = some packet → packet ∈ s.enqueued
  forward : ∀ packet packet', packet ∈ s.enqueued → s.reader.unset ≠ some packet → s.next packet = some packet' →
    packet' ∈ s.enqueued ∧ s.enqueued.idxOf packet < s.enqueued.idxOf packet'

private theorem Linked.connect : Linked connect := by
  constructor <;> simp [Worker.connect]

private theorem Linked.move {s : State} (hs : Linked s) {pc : ReaderPc}
    (hfresh : ∀ packet, pc = .choose packet ∨ pc = .first packet ∨ pc = .link packet → packet ∉ s.enqueued)
    (hunset : pc.unset = s.reader.unset) : Linked { s with reader := pc } := by
  refine ⟨hfresh, ?_, hs.last, ?_⟩
  · simp only [hunset]
    exact hs.unset
  · simp only [hunset]
    exact hs.forward

/-- A packet that is put at the end of the queue comes behind all others. -/
private theorem idxOf_append_lt {l : List PacketPtr} {packet packet' : PacketPtr} (hmem : packet ∈ l)
    (hfresh : packet' ∉ l) : (l ++ [packet']).idxOf packet < (l ++ [packet']).idxOf packet' := by
  rw [List.idxOf_append_of_mem hmem, List.idxOf_append_of_notMem hfresh]
  have h := List.idxOf_lt_length_of_mem hmem
  omega

private theorem Linked.step {s s' : State} (hs : Linked s) (h : Step s s') : Linked s' := by
  cases h with
  | read hpc hfresh => exact hs.move (by simpa using hfresh) (by simp [hpc])
  | chooseFirst hpc | chooseLink hpc =>
    refine hs.move ?_ (by simp [hpc])
    have hfresh := hs.fresh _ (.inl hpc)
    simpa using hfresh
  | @first packet hpc =>
    have hfresh : packet ∉ s.enqueued := hs.fresh _ (.inr (.inl hpc))
    refine ⟨by simp, by simp, by simp, ?_⟩
    intro a b ha hunset hnext
    have ha' : a ∈ s.enqueued := by
      have hne : ¬ packet = a := by simpa using hunset
      simpa [Ne.symm hne] using ha
    obtain ⟨hb, hlt⟩ := hs.forward a b ha' (by simp [hpc]) hnext
    refine ⟨List.mem_append_left _ hb, ?_⟩
    rwa [List.idxOf_append_of_mem ha', List.idxOf_append_of_mem hb]
  | @link packet last hpc hlast =>
    have hfresh : packet ∉ s.enqueued := hs.fresh _ (.inr (.inr hpc))
    refine ⟨by simp, by simp, fun a ha => List.mem_append_left _ (hs.last a ha), ?_⟩
    intro a b ha hunset hnext
    have ha' : a ∈ s.enqueued := by
      have hne : ¬ packet = a := by simpa using hunset
      simpa [Ne.symm hne] using ha
    by_cases hal : a = last
    · -- the new link leads to the new packet
      subst hal
      obtain rfl : packet = b := by simpa using hnext
      exact ⟨by simp, idxOf_append_lt ha' hfresh⟩
    · simp only [Function.update_of_ne hal] at hnext
      obtain ⟨hb, hlt⟩ := hs.forward a b ha' (by simp [hpc]) hnext
      refine ⟨List.mem_append_left _ hb, ?_⟩
      rwa [List.idxOf_append_of_mem ha', List.idxOf_append_of_mem hb]
  | @setLast packet hpc =>
    have hmem : packet ∈ s.enqueued := hs.unset _ (by simp [hpc])
    refine ⟨by simp, by simpa using hmem, by simpa using hmem, ?_⟩
    simpa [hpc] using hs.forward
  | @finish packet hpc =>
    refine ⟨by simp, by simp, hs.last, ?_⟩
    intro a b ha _ hnext
    have hne : a ≠ packet := by
      rintro rfl
      simp at hnext
    simp only [Function.update_of_ne hne] at hnext
    exact hs.forward a b ha (by simpa [hpc] using Ne.symm hne) hnext
  | check hpc | leave hpc | close hpc | destroyIn hpc | lockClose hpc | load hpc | walkDone hpc | walk hpc
  | unlock hpc | join hpc => exact hs.move (by simp) (by simp [hpc])
  | signal hpc | destroyOut hpc | free hpc | disconnect hpc | broadcast hpc =>
    exact ⟨by simp, by simp, hs.last, by simpa [hpc] using hs.forward⟩
  | reset hpc => exact ⟨hs.fresh, hs.unset, by simp, hs.forward⟩
  | wait hpc | lock hpc | woken hpc | done hpc | test hpc | pop hpc | checkNone hpc | checkSome hpc | dispatch hpc
  | handle replies hpc | reply hpc | next hpc => exact ⟨hs.fresh, hs.unset, hs.last, hs.forward⟩

private theorem linked {s : State} (h : Reachable (· = connect) Step s) : Linked s := by
  refine h.invariant ?_ fun s s' => Linked.step
  rintro s rfl
  exact .connect

/-! ### The section of the close -/

/-- The loop that frees the packets ends: every link leads on, and a packet that was freed may have `NULL` for its
`_next`. -/
private theorem walk_runs {s : State} (hs : Linked s) {packet : Option PacketPtr} (hpc : s.reader = .walk packet) :
    ∃ l, (∀ packet', packet = some packet' → packet' ∈ l) ∧
      ReflTransGen Step s { s with freed := s.freed ++ l, reader := .walk none } := by
  cases packet with
  | none => exact ⟨[], by simp, by simpa [← hpc] using ReflTransGen.refl⟩
  | some packet =>
    generalize hn : s.enqueued.length - s.enqueued.idxOf packet = n
    induction n using Nat.strongRecOn generalizing s packet with
    | ind n ih =>
      by_cases hwhole : packet ∈ s.enqueued ∧ packet ∉ s.freed ∧ s.next packet ≠ none
      · obtain ⟨hmem, hlive, hsome⟩ := hwhole
        obtain ⟨packet', hnext⟩ := Option.ne_none_iff_exists'.1 hsome
        obtain ⟨hmem', hlt⟩ := hs.forward packet packet' hmem (by simp [hpc]) hnext
        have hwalk : Step s { s with reader := .free packet (some packet') } := .walk hpc fun _ => hnext.symm
        have hfree : Step { s with reader := .free packet (some packet') }
          { s with freed := s.freed ++ [packet], reader := .walk (some packet') } := .free rfl
        have hlength := List.idxOf_lt_length_of_mem hmem'
        have hless : s.enqueued.length - s.enqueued.idxOf packet' < n := by omega
        obtain ⟨l, -, hrun⟩ := ih _ hless ((hs.step hwalk).step hfree) _ rfl rfl
        refine ⟨packet :: l, by simp, .head hwalk (.head hfree ?_)⟩
        simpa using hrun
      · -- the loop can end here
        have hload : s.Loads packet none := by
          rintro ⟨hmem, hlive, -⟩
          by_contra hne
          exact hwhole ⟨hmem, hlive, Ne.symm hne⟩
        exact ⟨[packet], by simp, .head (.walk hpc hload) (.head (.free rfl) .refl)⟩

/-- The close comes to the end of its section while the worker rests. -/
private theorem close_runs {s : State} (hs : Linked s) (hpc : s.reader = .load) (hwaiting : s.worker ≠ .waiting) :
    ∃ l, (∀ packet, s.packets = some packet → packet ∈ l) ∧
      ReflTransGen Step s { s with freed := s.freed ++ l, disconnected := true, reader := .join } := by
  have hload : Step s { s with reader := .walk s.packets } := .load hpc
  obtain ⟨l, hl, hrun⟩ := walk_runs (hs.step hload) rfl
  have hwake : s.worker.wake = s.worker := by
    cases hw : s.worker with
    | waiting => exact absurd hw hwaiting
    | _ => rfl
  refine ⟨l, hl, .head hload (hrun.trans ?_)⟩
  refine .head (.walkDone rfl) (.head (.disconnect rfl) (.head (.broadcast rfl) (.head (.unlock rfl) ?_)))
  simp only [hwake]
  exact .refl

/-! ### A broadcast that is missed -/

/-- Some run from here hangs. -/
private def Doomed (s : State) : Prop := ∃ s', ReflTransGen Step s s' ∧ Hangs s'

private theorem Doomed.head {s s' : State} (h : Step s s') : Doomed s' → Doomed s := by
  rintro ⟨s'', hrun, hhangs⟩
  exact ⟨s'', .head h hrun, hhangs⟩

section Missed

variable {s : State} (hd : s.disconnected = true) (hreader : s.reader = .join)

include hd hreader

private theorem doomed_top_none (hpc : s.worker = .top) (hnone : s.packets = none) : Doomed s := by
  have hfree : s.reader.locked = false := by rw [hreader]; rfl
  exact .head (.wait hpc hfree hnone) ⟨_, .refl, hd, .inr (.inl hreader), rfl⟩

private theorem doomed_test_none (hpc : s.worker = .test none) (hnone : s.packets = none) : Doomed s :=
  .head (.done hpc) (doomed_top_none hd hreader rfl hnone)

private theorem doomed_next_none (hpc : s.worker = .next) (hnone : s.packets = none) : Doomed s := by
  refine .head (.next hpc) (doomed_test_none hd hreader ?_ hnone)
  show WorkerPc.test s.packets = _
  rw [hnone]

/-- A packet that was freed may have `NULL` for its `_next`. -/
private theorem doomed_pop {packet : PacketPtr} (hpc : s.worker = .pop packet) (hfreed : packet ∈ s.freed) :
    Doomed s := by
  have hload : s.Loads packet none := fun hwhole => absurd hfreed hwhole.2.1
  exact .head (.pop hpc hload) (.head (.checkNone rfl rfl) (.head (.reset rfl) (.head (.dispatch rfl)
    (.head (.handle false rfl) (doomed_next_none hd hreader rfl rfl)))))

private theorem doomed_test {packet : PacketPtr} (hpc : s.worker = .test (some packet))
    (hfreed : packet ∈ s.freed) : Doomed s :=
  .head (.test hpc) (doomed_pop hd hreader rfl hfreed)

variable (hfreed : ∀ packet, s.packets = some packet → packet ∈ s.freed)

include hfreed

private theorem doomed_next (hpc : s.worker = .next) : Doomed s := by
  cases hpackets : s.packets with
  | none => exact doomed_next_none hd hreader hpc hpackets
  | some packet =>
    refine .head (.next hpc) (doomed_test hd hreader ?_ (hfreed packet hpackets))
    show WorkerPc.test s.packets = _
    rw [hpackets]

private theorem doomed_dispatch {packet : PacketPtr} (hpc : s.worker = .dispatch packet) : Doomed s :=
  .head (.dispatch hpc) (.head (.handle false rfl) (doomed_next hd hreader hfreed rfl))

/-- The worker finds the end of the queue, one way or the other. -/
private theorem doomed_of_missed (hlocated : Located s) (hopen : s.worker ≠ .exited) (hwakes : ¬ Wakes s) :
    Doomed s := by
  simp only [Wakes, not_or, not_and, not_not] at hwakes
  obtain ⟨hwaiting, hwoken, hnone⟩ := hwakes
  cases hw : s.worker with
  | waiting => exact absurd hw hwaiting
  | woken => exact absurd hw hwoken
  | exited => exact absurd hw hopen
  | top => exact doomed_top_none hd hreader hw (hnone (.inl hw))
  | test packet =>
    cases packet with
    | none => exact doomed_test_none hd hreader hw (hnone (.inr hw))
    | some packet => exact doomed_test hd hreader hw (hfreed packet (hlocated.current packet (.inl hw)))
  | pop packet => exact doomed_pop hd hreader hw (hfreed packet (hlocated.current packet (.inr hw)))
  | check packet =>
    cases hpackets : s.packets with
    | none =>
      refine .head (.checkNone hw hpackets) (.head (.reset rfl) ?_)
      exact doomed_dispatch hd hreader hfreed rfl
    | some packet' =>
      refine .head (.checkSome hw hpackets) ?_
      exact doomed_dispatch hd hreader hfreed rfl
  | reset packet =>
    refine .head (.reset hw) ?_
    exact doomed_dispatch hd hreader hfreed rfl
  | dispatch packet => exact doomed_dispatch hd hreader hfreed hw
  | handle packet =>
    refine .head (.handle false hw) ?_
    exact doomed_next hd hreader hfreed rfl
  | reply packet =>
    refine .head (.reply hw) ?_
    exact doomed_next hd hreader hfreed rfl
  | next => exact doomed_next hd hreader hfreed hw

end Missed

/-- A broadcast that the worker can miss may leave it asleep. -/
private theorem doomed_of_not_wakes {s : State} (hlocated : Located s) (hlinked : Linked s)
    (hpc : s.reader = .load) (hwakes : ¬ Wakes s) : Doomed s := by
  have hwaiting : s.worker ≠ .waiting := fun h => hwakes (.inl h)
  have hopen : s.worker ≠ .exited := by
    intro h
    have h := hlocated.exited h
    simp [hpc] at h
  obtain ⟨l, hl, hrun⟩ := close_runs hlinked hpc hwaiting
  have hlocated' : Located { s with freed := s.freed ++ l, disconnected := true, reader := .join } := by
    refine hrun.rec hlocated ?_
    intro s₁ s₂ _ hstep ih
    exact ih.step hstep
  obtain ⟨s', hrun', hhangs⟩ : Doomed { s with freed := s.freed ++ l, disconnected := true, reader := .join } :=
    doomed_of_missed rfl rfl (fun packet h => List.mem_append_right _ (hl packet h)) hlocated' hopen hwakes
  exact ⟨s', hrun.trans hrun', hhangs⟩

/-! ### Runs -/

/-- In a run whose close does not take the mutex too early the worker never hangs; and a close that does may
leave it hanging. -/
theorem never_hangs_iff (s : State) :
    (Reachable (· = connect) WakingStep s → ¬ Hangs s) ∧
      ∀ s', Reachable (· = connect) Step s → Step s s' → s.reader = .lock → s'.reader = .load →
        ((∀ s'', ReflTransGen Step s' s'' → ¬ Hangs s'') ↔ Wakes s) := by
  constructor
  · intro hs
    have hinv : Located s ∧ (s.reader.isOpen = true ∨ Ending s) := by
      refine hs.invariant (I := fun s => Located s ∧ (s.reader.isOpen = true ∨ Ending s)) ?_ ?_
      · rintro s rfl
        exact ⟨.connect, .inl rfl⟩
      · rintro s s' ⟨hlocated, hbefore⟩ ⟨hstep, hwakes⟩
        refine ⟨hlocated.step hstep, ?_⟩
        rcases hbefore with hopen | hending
        swap
        · exact .inr (hending.step hlocated hstep)
        cases hopen' : s'.reader.isOpen with
        | true => exact .inl rfl
        | false =>
          -- only the section of a close ends the connection
          have hpc : s.reader = .lock ∧ s'.reader = .load := by
            cases hstep with
            | lockClose hpc => exact ⟨hpc, rfl⟩
            | load hpc | walkDone hpc | walk hpc | free hpc | disconnect hpc | broadcast hpc | unlock hpc
            | join hpc => simp [hpc] at hopen
            | check | read | leave | chooseFirst | chooseLink | first | link | setLast | finish | signal | close
            | destroyIn | destroyOut => simp at hopen'
            | _ => cases hopen.symm.trans hopen'
          rw [hstep.eq_of_lockClose hpc.1 hpc.2]
          exact .inr (.of_wakes (hwakes hpc.1 hpc.2))
    rintro hhangs
    rcases hinv.2 with hopen | hending
    · rcases hhangs.2.1 with hr | hr | hr <;> simp [hr] at hopen
    · exact hending.not_hangs hhangs
  · intro s' hs hstep hpc hpc'
    obtain rfl := hstep.eq_of_lockClose hpc hpc'
    constructor
    · intro hnever
      by_contra hwakes
      have hs' := hs.step hstep
      obtain ⟨s'', hrun, hhangs⟩ := doomed_of_not_wakes (located hs') (linked hs') rfl hwakes
      exact hnever s'' hrun hhangs
    · intro hwakes s'' hrun
      have hending : Located s'' ∧ Ending s'' := by
        induction hrun with
        | refl => exact ⟨located (hs.step hstep), .of_wakes hwakes⟩
        | tail _ h ih => exact ⟨ih.1.step h, ih.2.step ih.1 h⟩
      exact hending.2.not_hangs

/-- A client that disconnects before the worker has taken the mutex for the first time. -/
theorem hangs_after_connect : ∃ s, Reachable (· = connect) Step s ∧ Hangs s := by
  have h₀ : Reachable (· = connect) Step connect := .start rfl
  have h₁ := h₀.step (.close rfl)
  have h₂ := h₁.step (.destroyIn rfl)
  have h₃ := h₂.step (.destroyOut rfl)
  have h₄ := h₃.step (.lockClose rfl (by decide))
  have h₅ := h₄.step (.load rfl)
  have h₆ := h₅.step (.walkDone rfl)
  have h₇ := h₆.step (.disconnect rfl)
  have h₈ := h₇.step (.broadcast rfl)
  have h₉ := h₈.step (.unlock rfl)
  exact ⟨_, h₉.step (.wait rfl rfl rfl), rfl, .inr (.inl rfl), rfl⟩

end Excom.Worker
