import Excom.SelectRegistry
import Mathlib.Data.Finset.Card

/-!
# One iteration of the `select` loop

`excom_event_select_loop`, from one call of `select` to the next.  Its first argument is the largest of three
numbers of events, where it should be above the largest descriptor, and the variable `in` stays set once an
event was ready, so that the runner is called for all events up to the last one that is ready.  So an
iteration is exact if all descriptors that are watched are below the largest of those numbers, and no event
that is not ready is between two that are (`select_exact_iff`).
-/

namespace Excom

namespace EventBaseSelect

/-- `EXCOM_EVENT_READ`, and so on -/
def eventRead : UInt32 := 2
def eventWrite : UInt32 := 4
def eventError : UInt32 := 8
def eventClose : UInt32 := 16

/-- Three `fd_set`s -/
structure FdSets where
  readfds : Finset Int
  writefds : Finset Int
  errorfds : Finset Int

/-! ### Filling the sets -/

/-- The tests of the first loop -/
def wantsRead (ev : ExcomEvent) : Bool := ev.flags &&& eventRead ≠ 0 || ev.flags &&& eventClose ≠ 0

def wantsWrite (ev : ExcomEvent) : Bool := ev.flags &&& eventWrite ≠ 0

def wantsError (ev : ExcomEvent) : Bool := ev.flags &&& eventError ≠ 0

/-- An `fd_set` with the number of the events that went into it: `readfds` and `rnum`, and so on -/
structure Watched where
  fds : Finset Int
  num : Nat

/-- `FD_SET` and the count, for an event that passes the test -/
def Watched.put (wants : ExcomEvent → Bool) (ev : ExcomEvent) (w : Watched) : Watched :=
  if wants ev then ⟨insert ev.fd w.fds, w.num + 1⟩ else w

structure Watch where
  read : Watched
  write : Watched
  error : Watched

/-- After `FD_ZERO` -/
def Watch.zero : Watch := ⟨⟨∅, 0⟩, ⟨∅, 0⟩, ⟨∅, 0⟩⟩

/-- One turn of the first loop -/
def fillTurn (event : Nat → ExcomEvent) (w : Watch) (p : Nat) : Watch where
  read := w.read.put wantsRead (event p)
  write := w.write.put wantsWrite (event p)
  error := w.error.put wantsError (event p)

/-- `lnum` -/
def Watch.lnum (w : Watch) : Nat :=
  if w.read.num > w.write.num ∧ w.read.num > w.error.num then w.read.num
  else if w.write.num > w.error.num then w.write.num
  else w.error.num

/-! ### `select` -/

/-- What `select` leaves in a set: of the descriptors below its first argument those that are ready for it.  It
does not look at the others, of which it may leave any. -/
def examined (fds available left : Finset Int) (lnum : Nat) : Finset Int :=
  fds.filter fun fd => fd ∈ if fd < lnum then available else left

/-- What `select` leaves in the three sets -/
def select (available left : FdSets) (lnum : Nat) (w : Watch) : FdSets where
  readfds := examined w.read.fds available.readfds left.readfds lnum
  writefds := examined w.write.fds available.writefds left.writefds lnum
  errorfds := examined w.error.fds available.errorfds left.errorfds lnum

/-- The descriptors that `select` looks at -/
def FdSets.below (ready : FdSets) (lnum : Nat) : FdSets where
  readfds := ready.readfds.filter fun fd => fd < lnum
  writefds := ready.writefds.filter fun fd => fd < lnum
  errorfds := ready.errorfds.filter fun fd => fd < lnum

/-- How many bits are set in three sets.  `select` returns it for the descriptors below its first argument. -/
def FdSets.diff (ready : FdSets) : Nat := ready.readfds.card + ready.writefds.card + ready.errorfds.card

/-! ### Dispatching -/

/-- The runner is called with an event that has `root`, `fd` and `flags`. -/
structure Call where
  root : Nat
  fd : Int
  flags : UInt32
  deriving DecidableEq

/-- The variables `event.flags`, `in` and `e`, and the calls of the runner so far -/
structure Dispatch where
  flags : UInt32
  marked : Bool
  e : Nat
  calls : List Call

/-- `if(FD_ISSET(ev->fd, ..))` -/
def Dispatch.check (fds : Finset Int) (flag : UInt32) (fd : Int) (d : Dispatch) : Dispatch :=
  if fd ∈ fds then { d with flags := d.flags ||| flag, marked := true, e := d.e + 1 } else d

/-- One turn of the second loop.  Nothing sets `in` back to `0`. -/
def dispatchTurn (ready : FdSets) (event : Nat → ExcomEvent) (d : Dispatch) (p : Nat) : Dispatch :=
  let ev := event p
  let d := { d with flags := 0 }
  let d := d.check ready.readfds eventRead ev.fd
  let d := d.check ready.writefds eventWrite ev.fd
  let d := d.check ready.errorfds eventError ev.fd
  if d.marked then { d with calls := d.calls ++ [⟨p, ev.fd, d.flags⟩] } else d

/-- What one iteration does: the arguments of `select`, the sets that it leaves unless it fails, and the calls
of the runner -/
structure Iteration where
  lnum : Nat
  watch : Watch
  ready : Option FdSets
  calls : List Call

/-- One iteration of `excom_event_select_loop`, where `available` are the descriptors that are ready, or `select`
fails, and `left` are those that it leaves above its first argument.  The runner leaves the registry as it is. -/
def iterate (s : State) (available : Option FdSets) (left : FdSets) : Option Iteration := do
  let s ← lock s
  let w ← s.base.events.walk (fun _ => true) (fillTurn s.event) 0 s.base.nfds .zero
  let s := unlock s
  match available with
  | none => return ⟨w.lnum, w, none, []⟩
  | some available =>
    let ready := select available left w.lnum w
    let diff := (ready.below w.lnum).diff
    let s ← lock s
    let d ← s.base.events.walk (fun d => d.e < diff) (dispatchTurn ready s.event) 0 s.base.nfds ⟨0, false, 0, []⟩
    return ⟨w.lnum, w, some ready, d.calls⟩

/-! ### What an iteration is for -/

/-- In how many of the sets the descriptors of the events are, all together -/
def FdSets.bits (ready : FdSets) (event : Nat → ExcomEvent) (reg : List Nat) : Nat :=
  (reg.countP fun p => (event p).fd ∈ ready.readfds) + (reg.countP fun p => (event p).fd ∈ ready.writefds) +
    reg.countP fun p => (event p).fd ∈ ready.errorfds

/-- The descriptor is in one of the sets. -/
def FdSets.Has (ready : FdSets) (fd : Int) : Prop :=
  fd ∈ ready.readfds ∨ fd ∈ ready.writefds ∨ fd ∈ ready.errorfds

instance (ready : FdSets) (fd : Int) : Decidable (ready.Has fd) := inferInstanceAs (Decidable (_ ∨ _ ∨ _))

/-- The flags of the sets in which the descriptor is -/
def FdSets.flags (ready : FdSets) (fd : Int) : UInt32 :=
  (if fd ∈ ready.readfds then eventRead else 0) ||| (if fd ∈ ready.writefds then eventWrite else 0) |||
    (if fd ∈ ready.errorfds then eventError else 0)

/-- The call for the event at `p` -/
def FdSets.call (ready : FdSets) (event : Nat → ExcomEvent) (p : Nat) : Call :=
  ⟨p, (event p).fd, ready.flags (event p).fd⟩

/-- The first argument of `select` is above all descriptors in the sets, and the runner is called once for every
registered event that is ready, with its flags, and for no other. -/
structure Iteration.Exact (it : Iteration) (event : Nat → ExcomEvent) (reg : List Nat) : Prop where
  below : ∀ fd, fd ∈ it.watch.read.fds ∨ fd ∈ it.watch.write.fds ∨ fd ∈ it.watch.error.fds → fd < it.lnum
  calls : ∀ ready, it.ready = some ready →
    it.calls.Perm ((reg.filter fun p => ready.Has (event p).fd).map (ready.call event))
  no_calls : it.ready = none → it.calls = []

/-! ### When it is exact -/

/-- How many events watch for the same: the largest of three numbers -/
def mostWatched (event : Nat → ExcomEvent) (reg : List Nat) : Nat :=
  Max.max (reg.countP fun p => wantsRead (event p))
    (Max.max (reg.countP fun p => wantsWrite (event p)) (reg.countP fun p => wantsError (event p)))

/-- The descriptor of every event that watches for anything is below that number. -/
def Bounded (event : Nat → ExcomEvent) (reg : List Nat) : Prop :=
  ∀ p ∈ reg, (wantsRead (event p) ∨ wantsWrite (event p) ∨ wantsError (event p)) →
    (event p).fd < mostWatched event reg

/-- The descriptors of the events that watch for something -/
def watchers (wants : ExcomEvent → Bool) (event : Nat → ExcomEvent) (reg : List Nat) : Finset Int :=
  ((reg.filter fun p => wants (event p)).map fun p => (event p).fd).toFinset

/-- Those among the descriptors that are watched that are ready -/
def readySets (event : Nat → ExcomEvent) (reg : List Nat) (available : FdSets) : FdSets where
  readfds := watchers wantsRead event reg ∩ available.readfds
  writefds := watchers wantsWrite event reg ∩ available.writefds
  errorfds := watchers wantsError event reg ∩ available.errorfds

/-- The events that are ready follow each other in the registry.  Where several have the same descriptor, not
all that is ready has been seen before the last one. -/
def InOneRun (ready : FdSets) (event : Nat → ExcomEvent) (reg : List Nat) : Prop :=
  ∃ before run after, reg = before ++ run ++ after ∧ (∀ p ∈ before ++ after, ¬ ready.Has (event p).fd) ∧
    (∀ p ∈ run, ready.Has (event p).fd) ∧ ∀ seen last, run = seen ++ [last] → ready.bits event seen < ready.diff

/-! ### The first loop -/

variable {event : Nat → ExcomEvent} {reg : List Nat} {ready : FdSets}

private theorem foldl_fillTurn (w : Watch) : (reg.foldl (fillTurn event) w) =
    ⟨reg.foldl (fun v p => v.put wantsRead (event p)) w.read,
      reg.foldl (fun v p => v.put wantsWrite (event p)) w.write,
      reg.foldl (fun v p => v.put wantsError (event p)) w.error⟩ := by
  induction reg generalizing w with
  | nil => rfl
  | cons p reg ih => exact ih (fillTurn event w p)

private theorem foldl_put (wants : ExcomEvent → Bool) (v : Watched) :
    (reg.foldl (fun v p => v.put wants (event p)) v) =
      ⟨v.fds ∪ watchers wants event reg, v.num + reg.countP fun p => wants (event p)⟩ := by
  induction reg generalizing v with
  | nil => simp [watchers]
  | cons p reg ih =>
    rw [List.foldl_cons, ih]
    unfold Watched.put watchers
    by_cases hwants : wants (event p) = true
    · simp [hwants, Finset.insert_union, Finset.union_insert]
      omega
    · simp [hwants]

/-- What the first loop makes of the registered events -/
theorem filled_eq : reg.foldl (fillTurn event) .zero =
    ⟨⟨watchers wantsRead event reg, reg.countP fun p => wantsRead (event p)⟩,
      ⟨watchers wantsWrite event reg, reg.countP fun p => wantsWrite (event p)⟩,
      ⟨watchers wantsError event reg, reg.countP fun p => wantsError (event p)⟩⟩ := by
  rw [foldl_fillTurn, foldl_put, foldl_put, foldl_put]
  simp [Watch.zero]

private theorem lnum_eq (w : Watch) : w.lnum = Max.max w.read.num (Max.max w.write.num w.error.num) := by
  unfold Watch.lnum
  split
  · omega
  · split <;> omega

private theorem mem_watchers {wants : ExcomEvent → Bool} {fd : Int} :
    fd ∈ watchers wants event reg ↔ ∃ p ∈ reg, wants (event p) = true ∧ (event p).fd = fd := by
  simp [watchers, and_assoc]

/-! ### Bits -/

private theorem FdSets.bits_append (ready : FdSets) (reg reg' : List Nat) :
    ready.bits event (reg ++ reg') = ready.bits event reg + ready.bits event reg' := by
  unfold FdSets.bits
  rw [List.countP_append, List.countP_append, List.countP_append]
  omega

private theorem FdSets.bits_cons (ready : FdSets) (p : Nat) (reg : List Nat) :
    ready.bits event (p :: reg) = ready.bits event [p] + ready.bits event reg := ready.bits_append [p] reg

@[simp] theorem FdSets.bits_nil (ready : FdSets) : ready.bits event [] = 0 := rfl

private theorem FdSets.bits_eq_zero (h : ∀ p ∈ reg, ¬ ready.Has (event p).fd) : ready.bits event reg = 0 := by
  unfold FdSets.bits
  simp only [FdSets.Has, not_or] at h
  rw [List.countP_eq_zero.2, List.countP_eq_zero.2, List.countP_eq_zero.2]
  · intro p hp
    simpa using (h p hp).2.2
  · intro p hp
    simpa using (h p hp).2.1
  · intro p hp
    simpa using (h p hp).1

private theorem FdSets.bits_pos {p : Nat} (h : ready.Has (event p).fd) : 0 < ready.bits event [p] := by
  unfold FdSets.bits
  rcases h with h | h | h <;> simp only [List.countP_singleton, h, decide_true, if_true] <;> omega

/-- A set whose descriptors all belong to events has not more of them than there are such events. -/
private theorem card_le_countP {fds : Finset Int} (h : ∀ fd ∈ fds, ∃ p ∈ reg, (event p).fd = fd) :
    fds.card ≤ reg.countP fun p => (event p).fd ∈ fds := by
  have hsub : fds ⊆ ((reg.filter fun p => (event p).fd ∈ fds).map fun p => (event p).fd).toFinset := by
    intro fd hfd
    obtain ⟨p, hp, rfl⟩ := h fd hfd
    simp only [List.mem_toFinset, List.mem_map, List.mem_filter]
    exact ⟨p, ⟨hp, by simpa using hfd⟩, rfl⟩
  calc fds.card ≤ _ := Finset.card_le_card hsub
    _ ≤ ((reg.filter fun p => (event p).fd ∈ fds).map fun p => (event p).fd).length := List.toFinset_card_le _
    _ = reg.countP fun p => (event p).fd ∈ fds := by rw [List.length_map, List.countP_eq_length_filter]

/-- `select` does not count more bits than the events have. -/
theorem diff_le_bits (available : FdSets) :
    (readySets event reg available).diff ≤ (readySets event reg available).bits event reg := by
  have hset (wants : ExcomEvent → Bool) (fds : Finset Int) :
      ∀ fd ∈ watchers wants event reg ∩ fds, ∃ p ∈ reg, (event p).fd = fd := by
    intro fd hfd
    obtain ⟨p, hp, -, hpfd⟩ := mem_watchers.1 (Finset.mem_inter.1 hfd).1
    exact ⟨p, hp, hpfd⟩
  have hread := card_le_countP (hset wantsRead available.readfds)
  have hwrite := card_le_countP (hset wantsWrite available.writefds)
  have herror := card_le_countP (hset wantsError available.errorfds)
  exact Nat.add_le_add (Nat.add_le_add hread hwrite) herror

/-- Events with different descriptors are not more than the descriptors of a set. -/
private theorem countP_le_card {fds : Finset Int} (h : (reg.map fun p => (event p).fd).Nodup) :
    (reg.countP fun p => (event p).fd ∈ fds) ≤ fds.card := by
  have hsub : ((reg.filter fun p => (event p).fd ∈ fds).map fun p => (event p).fd).toFinset ⊆ fds := by
    intro fd hfd
    simp only [List.mem_toFinset, List.mem_map, List.mem_filter] at hfd
    obtain ⟨p, ⟨-, hp⟩, rfl⟩ := hfd
    exact of_decide_eq_true hp
  have hnodup : ((reg.filter fun p => (event p).fd ∈ fds).map fun p => (event p).fd).Nodup :=
    h.sublist (List.filter_sublist.map _)
  calc (reg.countP fun p => (event p).fd ∈ fds)
      = ((reg.filter fun p => (event p).fd ∈ fds).map fun p => (event p).fd).length := by
        rw [List.length_map, List.countP_eq_length_filter]
    _ = _ := (List.toFinset_card_of_nodup hnodup).symm
    _ ≤ fds.card := Finset.card_le_card hsub

/-- With different descriptors all that matters is that no event that is not ready comes between two that are. -/
theorem inOneRun_of_distinct (h : (reg.map fun p => (event p).fd).Nodup) (before run after : List Nat)
    (hreg : reg = before ++ run ++ after) (hnone : ∀ p ∈ before ++ after, ¬ ready.Has (event p).fd)
    (hready : ∀ p ∈ run, ready.Has (event p).fd) : InOneRun ready event reg := by
  refine ⟨before, run, after, hreg, hnone, hready, ?_⟩
  rintro seen last rfl
  have hlast := FdSets.bits_pos (hready last (by simp))
  have hbits : ready.bits event reg ≤ ready.diff :=
    Nat.add_le_add (Nat.add_le_add (countP_le_card h) (countP_le_card h)) (countP_le_card h)
  rw [hreg, FdSets.bits_append, FdSets.bits_append, FdSets.bits_append] at hbits
  omega

/-! ### The second loop -/

/-- A turn calls the runner if its event is ready, and also if one before it was. -/
private theorem dispatchTurn_eq (ready : FdSets) (event : Nat → ExcomEvent) (d : Dispatch) (p : Nat) :
    dispatchTurn ready event d p =
    { flags := ready.flags (event p).fd
      marked := d.marked || decide (ready.Has (event p).fd)
      e := d.e + ready.bits event [p]
      calls :=
        if d.marked || decide (ready.Has (event p).fd) then d.calls ++ [ready.call event p]
        else d.calls } := by
  unfold dispatchTurn Dispatch.check FdSets.call FdSets.flags FdSets.bits FdSets.Has
  by_cases hmarked : d.marked = true <;> by_cases hread : (event p).fd ∈ ready.readfds <;>
    by_cases hwrite : (event p).fd ∈ ready.writefds <;> by_cases herror : (event p).fd ∈ ready.errorfds <;>
    simp [hmarked, hread, hwrite, herror]

/-- The loop, from the state `d` on -/
private def dispatch (ready : FdSets) (event : Nat → ExcomEvent) (d : Dispatch) (reg : List Nat) : Dispatch :=
  Slots.foldWhile (fun d => decide (d.e < ready.diff)) (dispatchTurn ready event) d reg

private theorem dispatch_cons {d : Dispatch} (h : d.e < ready.diff) (p : Nat) (reg : List Nat) :
    dispatch ready event d (p :: reg) = dispatch ready event (dispatchTurn ready event d p) reg :=
  if_pos (decide_eq_true h)

private theorem dispatch_of_le {d : Dispatch} (h : ready.diff ≤ d.e) (reg : List Nat) :
    dispatch ready event d reg = d := by
  unfold dispatch
  refine Slots.foldWhile_of_not ?_ reg
  exact decide_eq_false (Nat.not_lt.2 h)

/-- Once an event was ready, the runner is called for all events until the bits are used up. -/
private theorem dispatch_marked (reg : List Nat) {d : Dispatch} (hmarked : d.marked = true) :
    ∃ run after, reg = run ++ after ∧ (dispatch ready event d reg).calls = d.calls ++ run.map (ready.call event) ∧
    ∀ seen last, run = seen ++ [last] → d.e + ready.bits event seen < ready.diff := by
  induction reg generalizing d with
  | nil => exact ⟨[], [], rfl, by simp [dispatch, Slots.foldWhile], by simp⟩
  | cons p reg ih =>
    by_cases hlt : d.e < ready.diff
    · have hturn := dispatchTurn_eq ready event d p
      obtain ⟨run, after, rfl, hcalls, hbits⟩ := ih (d := dispatchTurn ready event d p) (by simp [hturn, hmarked])
      refine ⟨p :: run, after, rfl, ?_, ?_⟩
      · rw [dispatch_cons hlt, hcalls, hturn]
        simp [hmarked]
      · intro seen last hrun
        cases seen with
        | nil => simpa using hlt
        | cons q seen =>
          obtain ⟨rfl, hrest⟩ := List.cons.inj hrun
          have hseen := hbits seen last hrest
          simp only [hturn] at hseen
          rw [FdSets.bits_cons]
          omega
    · refine ⟨[], p :: reg, rfl, ?_, by simp⟩
      rw [dispatch_of_le (Nat.not_lt.1 hlt)]
      simp

/-- The runner is called for a run of events, from the first one that is ready. -/
private theorem dispatch_calls (reg : List Nat) {d : Dispatch} (hmarked : d.marked = false) (he : d.e = 0) :
    ∃ before run after, reg = before ++ run ++ after ∧ (∀ p ∈ before, ¬ ready.Has (event p).fd) ∧
      (dispatch ready event d reg).calls = d.calls ++ run.map (ready.call event) ∧
      ∀ seen last, run = seen ++ [last] → ready.bits event seen < ready.diff := by
  induction reg generalizing d with
  | nil => exact ⟨[], [], [], rfl, by simp, by simp [dispatch, Slots.foldWhile], by simp⟩
  | cons p reg ih =>
    by_cases hlt : d.e < ready.diff
    swap
    · refine ⟨[], [], p :: reg, rfl, by simp, ?_, by simp⟩
      rw [dispatch_of_le (Nat.not_lt.1 hlt)]
      simp
    have hturn := dispatchTurn_eq ready event d p
    by_cases hready : ready.Has (event p).fd
    · obtain ⟨run, after, rfl, hcalls, hbits⟩ :=
        dispatch_marked reg (d := dispatchTurn ready event d p) (by simp [hturn, hready])
      refine ⟨[], p :: run, after, rfl, by simp, ?_, ?_⟩
      · rw [dispatch_cons hlt, hcalls, hturn]
        simp [hready]
      · intro seen last hrun
        cases seen with
        | nil =>
          rw [FdSets.bits_nil]
          omega
        | cons q seen =>
          obtain ⟨rfl, hrest⟩ := List.cons.inj hrun
          have hseen := hbits seen last hrest
          simp only [hturn] at hseen
          rw [FdSets.bits_cons]
          omega
    · have hbits : ready.bits event [p] = 0 := FdSets.bits_eq_zero (by simpa using hready)
      obtain ⟨before, run, after, rfl, hbefore, hcalls, hrun⟩ := ih (d := dispatchTurn ready event d p)
        (by simp [hturn, hmarked, hready]) (by simp [hturn, he, hbits])
      refine ⟨p :: before, run, after, rfl, ?_, ?_, hrun⟩
      · rw [List.forall_mem_cons]
        exact ⟨hready, hbefore⟩
      · rw [dispatch_cons hlt, hcalls, hturn]
        simp [hmarked, hready]

/-- Before the first event that is ready nothing happens. -/
private theorem dispatch_before {before : List Nat} {d : Dispatch} (hmarked : d.marked = false)
    (hlt : d.e < ready.diff) (h : ∀ p ∈ before, ¬ ready.Has (event p).fd) (rest : List Nat) :
    ∃ d', d'.e = d.e ∧ d'.calls = d.calls ∧
      dispatch ready event d (before ++ rest) = dispatch ready event d' rest := by
  induction before generalizing d with
  | nil => exact ⟨d, rfl, rfl, rfl⟩
  | cons p before ih =>
    rw [List.forall_mem_cons] at h
    have hturn := dispatchTurn_eq ready event d p
    have hbits : ready.bits event [p] = 0 := FdSets.bits_eq_zero (by simpa using h.1)
    obtain ⟨d', he, hcalls, hrun⟩ := ih (d := dispatchTurn ready event d p) (by simp [hturn, hmarked, h.1])
      (by simpa [hturn, hbits] using hlt) h.2
    refine ⟨d', ?_, ?_, ?_⟩
    · rw [he, hturn]
      simp [hbits]
    · rw [hcalls, hturn]
      simp [hmarked, h.1]
    · rw [List.cons_append, dispatch_cons hlt, hrun]

/-- All events of a run that are ready are dispatched, and then no other. -/
private theorem dispatch_run {run : List Nat} {d : Dispatch} (hready : ∀ p ∈ run, ready.Has (event p).fd)
    (hbits : ∀ seen last, run = seen ++ [last] → d.e + ready.bits event seen < ready.diff)
    (hdiff : ready.diff ≤ d.e + ready.bits event run) (after : List Nat) :
    (dispatch ready event d (run ++ after)).calls = d.calls ++ run.map (ready.call event) := by
  induction run generalizing d with
  | nil =>
    rw [List.nil_append, dispatch_of_le hdiff]
    simp
  | cons p run ih =>
    rw [List.forall_mem_cons] at hready
    have hlt : d.e < ready.diff := by
      have hlast := hbits _ _ (List.dropLast_append_getLast (List.cons_ne_nil p run)).symm
      omega
    have hturn := dispatchTurn_eq ready event d p
    rw [FdSets.bits_cons] at hdiff
    have hrest := ih (d := dispatchTurn ready event d p) hready.2 (by
      intro seen last hrun
      have hseen := hbits (p :: seen) last (by rw [hrun, List.cons_append])
      rw [FdSets.bits_cons] at hseen
      simp only [hturn]
      omega) (by
      simp only [hturn]
      omega)
    rw [List.cons_append, dispatch_cons hlt, hrest, hturn]
    simp [hready.1]

private theorem mem_map_call (ready : FdSets) (event : Nat → ExcomEvent) (p : Nat) (reg : List Nat) :
    ready.call event p ∈ reg.map (ready.call event) ↔ p ∈ reg := by
  rw [List.mem_map]
  constructor
  · rintro ⟨q, hq, hcall⟩
    rw [← show q = p from congrArg Call.root hcall]
    exact hq
  · intro hp
    exact ⟨p, hp, rfl⟩

private theorem inOneRun_of_perm (hnodup : reg.Nodup)
    (hperm : (dispatch ready event ⟨0, false, 0, []⟩ reg).calls.Perm
      ((reg.filter fun p => ready.Has (event p).fd).map (ready.call event))) : InOneRun ready event reg := by
  obtain ⟨before, run, after, hreg, hbefore, hcalls, hbits⟩ :
      ∃ before run after, reg = before ++ run ++ after ∧ (∀ p ∈ before, ¬ ready.Has (event p).fd) ∧
        (dispatch ready event ⟨0, false, 0, []⟩ reg).calls = [] ++ run.map (ready.call event) ∧
        ∀ seen last, run = seen ++ [last] → ready.bits event seen < ready.diff := dispatch_calls reg rfl rfl
  rw [hcalls, List.nil_append] at hperm
  have hrun (p : Nat) : p ∈ run ↔ p ∈ reg ∧ ready.Has (event p).fd := by
    rw [← mem_map_call ready event p run, hperm.mem_iff, mem_map_call, List.mem_filter, decide_eq_true_iff]
  refine ⟨before, run, after, hreg, ?_, fun p hp => ((hrun p).1 hp).2, hbits⟩
  intro p hp
  rcases List.mem_append.1 hp with hp | hp
  · exact hbefore p hp
  · -- the runner is not called for what comes after the run
    intro hready
    rw [hreg] at hrun hnodup
    have hmem : p ∈ run := (hrun p).2 ⟨List.mem_append_right _ hp, hready⟩
    exact (List.nodup_append.1 hnodup).2.2 p (List.mem_append_right _ hmem) p hp rfl

private theorem filter_of_inOneRun {before run after : List Nat}
    (hnone : ∀ p ∈ before ++ after, ¬ ready.Has (event p).fd) (hready : ∀ p ∈ run, ready.Has (event p).fd) :
    (before ++ run ++ after).filter (fun p => decide (ready.Has (event p).fd)) = run := by
  rw [List.forall_mem_append] at hnone
  rw [List.filter_append, List.filter_append, List.filter_eq_nil_iff.2, List.filter_eq_self.2,
    List.filter_eq_nil_iff.2]
  · simp
  · simpa using hnone.2
  · simpa using hready
  · simpa using hnone.1

/-- If the events that are ready follow each other, the runner is called for these. -/
private theorem dispatch_of_inOneRun {before run after : List Nat}
    (hdiff : ready.diff ≤ ready.bits event (before ++ run ++ after))
    (hnone : ∀ p ∈ before ++ after, ¬ ready.Has (event p).fd) (hready : ∀ p ∈ run, ready.Has (event p).fd)
    (hbits : ∀ seen last, run = seen ++ [last] → ready.bits event seen < ready.diff) :
    (dispatch ready event ⟨0, false, 0, []⟩ (before ++ run ++ after)).calls = run.map (ready.call event) := by
  rw [List.forall_mem_append] at hnone
  rw [FdSets.bits_append, FdSets.bits_append, FdSets.bits_eq_zero hnone.1, FdSets.bits_eq_zero hnone.2] at hdiff
  by_cases hpos : 0 < ready.diff
  · rw [List.append_assoc]
    obtain ⟨d', he, hcalls, hrun⟩ := dispatch_before (d := ⟨0, false, 0, []⟩) rfl hpos hnone.1 (run ++ after)
    rw [hrun, dispatch_run hready, hcalls]
    · rfl
    · intro seen last hseen
      rw [he]
      simpa using hbits seen last hseen
    · rw [he]
      simpa using hdiff
  · -- nothing is ready at all
    have hrun : run = [] := by
      by_contra hne
      have hlast := hbits _ _ (List.dropLast_append_getLast hne).symm
      omega
    rw [dispatch_of_le (Nat.not_lt.1 hpos), hrun]
    rfl

private theorem dispatch_perm_iff (hnodup : reg.Nodup) (hdiff : ready.diff ≤ ready.bits event reg) :
    (dispatch ready event ⟨0, false, 0, []⟩ reg).calls.Perm
        ((reg.filter fun p => ready.Has (event p).fd).map (ready.call event)) ↔
      InOneRun ready event reg := by
  constructor
  · exact inOneRun_of_perm hnodup
  · rintro ⟨before, run, after, rfl, hnone, hready, hbits⟩
    rw [filter_of_inOneRun hnone hready, dispatch_of_inOneRun hdiff hnone hready hbits]

/-! ### The iteration -/

variable {s : State}

private theorem examined_eq {fds : Finset Int} {n : Nat} (h : ∀ fd ∈ fds, fd < n) (available left : Finset Int) :
    examined fds available left n = fds ∩ available := by
  ext fd
  unfold examined
  rw [Finset.mem_filter, Finset.mem_inter]
  constructor
  · rintro ⟨hfd, hready⟩
    rw [if_pos (h fd hfd)] at hready
    exact ⟨hfd, hready⟩
  · rintro ⟨hfd, hready⟩
    rw [if_pos (h fd hfd)]
    exact ⟨hfd, hready⟩

private theorem filter_below {fds : Finset Int} {n : Nat} (h : ∀ fd ∈ fds, fd < n) (available : Finset Int) :
    ((fds ∩ available).filter fun fd : Int => fd < n) = fds ∩ available := by
  rw [Finset.filter_eq_self]
  intro fd hfd
  exact h fd (Finset.mem_inter.1 hfd).1

private theorem bounded_iff : (∀ fd, fd ∈ (reg.foldl (fillTurn event) .zero).read.fds ∨
      fd ∈ (reg.foldl (fillTurn event) .zero).write.fds ∨ fd ∈ (reg.foldl (fillTurn event) .zero).error.fds →
      fd < (reg.foldl (fillTurn event) .zero).lnum) ↔ Bounded event reg := by
  rw [lnum_eq, filled_eq]
  simp only [mem_watchers]
  constructor
  · intro h p hp hwants
    refine h _ ?_
    rcases hwants with hread | hwrite | herror
    · exact .inl ⟨p, hp, hread, rfl⟩
    · exact .inr (.inl ⟨p, hp, hwrite, rfl⟩)
    · exact .inr (.inr ⟨p, hp, herror, rfl⟩)
  · intro h fd hfd
    rcases hfd with ⟨p, hp, hread, rfl⟩ | ⟨p, hp, hwrite, rfl⟩ | ⟨p, hp, herror, rfl⟩
    · exact h p hp (.inl hread)
    · exact h p hp (.inr (.inl hwrite))
    · exact h p hp (.inr (.inr herror))

section

variable (hbounded : Bounded event reg)

include hbounded

/-- Where all that is watched is below its first argument, `select` looks at all of it. -/
private theorem select_eq (available left : FdSets) :
    select available left (reg.foldl (fillTurn event) .zero).lnum (reg.foldl (fillTurn event) .zero) =
      readySets event reg available := by
  have hlt := bounded_iff.2 hbounded
  rw [filled_eq] at hlt
  unfold select readySets
  rw [filled_eq]
  congr 1
  · exact examined_eq (fun fd hfd => hlt fd (.inl hfd)) _ _
  · exact examined_eq (fun fd hfd => hlt fd (.inr (.inl hfd))) _ _
  · exact examined_eq (fun fd hfd => hlt fd (.inr (.inr hfd))) _ _

private theorem below_eq (available : FdSets) :
    (readySets event reg available).below (reg.foldl (fillTurn event) .zero).lnum =
      readySets event reg available := by
  have hlt := bounded_iff.2 hbounded
  unfold FdSets.below readySets
  rw [filled_eq] at hlt ⊢
  congr 1
  · exact filter_below (fun fd hfd => hlt fd (.inl hfd)) _
  · exact filter_below (fun fd hfd => hlt fd (.inr (.inl hfd))) _
  · exact filter_below (fun fd hfd => hlt fd (.inr (.inr hfd))) _

end

/-- The second loop after `select`, where the first one left `w` -/
private def dispatched (event : Nat → ExcomEvent) (reg : List Nat) (left : FdSets) (w : Watch) (a : FdSets) :
    Dispatch :=
  Slots.foldWhile (fun d => decide (d.e < ((select a left w.lnum w).below w.lnum).diff))
    (dispatchTurn (select a left w.lnum w) event) ⟨0, false, 0, []⟩ reg

private theorem dispatched_eq (hbounded : Bounded event reg) (left a : FdSets) :
    dispatched event reg left (reg.foldl (fillTurn event) .zero) a =
      dispatch (readySets event reg a) event ⟨0, false, 0, []⟩ reg := by
  unfold dispatched dispatch
  rw [select_eq hbounded, below_eq hbounded]

/-- Over a registry in order, both loops run over what is registered. -/
private theorem iterate_eq (h : InOrder reg s) (available : Option FdSets) (left : FdSets) :
    iterate s available left = some
      { lnum := (reg.foldl (fillTurn s.event) .zero).lnum
        watch := reg.foldl (fillTurn s.event) .zero
        ready := available.map fun a =>
          select a left (reg.foldl (fillTurn s.event) .zero).lnum (reg.foldl (fillTurn s.event) .zero)
        calls := available.elim [] fun a =>
          (dispatched s.event reg left (reg.foldl (fillTurn s.event) .zero) a).calls } := by
  have hslots : (s.base.events.drop 0).take reg.length = reg.map some := by
    rw [List.drop_zero, ← h.nfds, h.slots]
  unfold iterate
  rw [lock_eq h.mutex]
  dsimp only [Option.bind_eq_bind, Option.bind_some, locked, unlock]
  rw [h.nfds, Slots.walk_eq hslots, Slots.foldWhile_true]
  cases available with
  | none => rfl
  | some a =>
    dsimp only [Option.bind_some, lock]
    rw [if_pos rfl]
    dsimp only [Option.bind_some]
    rw [Slots.walk_eq hslots]
    rfl

/-- Whatever is ready, and whatever `select` leaves of the descriptors above its first argument, an iteration is
exact exactly if all descriptors that are watched are below the largest of three numbers of events, and no event
that is not ready is between two that are. -/
theorem select_exact_iff (h : InOrder reg s) (available : Option FdSets) (left : FdSets) :
    (∃ it, iterate s available left = some it ∧ it.Exact s.event reg) ↔
      Bounded s.event reg ∧ ∀ a, available = some a → InOneRun (readySets s.event reg a) s.event reg := by
  rw [iterate_eq h]
  constructor
  · rintro ⟨it, hit, hexact⟩
    cases hit
    have hbounded := bounded_iff.1 hexact.below
    refine ⟨hbounded, ?_⟩
    rintro a rfl
    have hcalls := hexact.calls (readySets s.event reg a) (congrArg some (select_eq hbounded a left))
    dsimp only [Option.elim_some] at hcalls
    rw [dispatched_eq hbounded] at hcalls
    exact (dispatch_perm_iff h.nodup (diff_le_bits a)).1 hcalls
  · rintro ⟨hbounded, hrun⟩
    refine ⟨_, rfl, bounded_iff.2 hbounded, ?_, ?_⟩
    · intro ready hready
      obtain ⟨a, rfl, hselect⟩ := Option.map_eq_some_iff.1 hready
      rw [select_eq hbounded] at hselect
      subst hselect
      dsimp only [Option.elim_some]
      rw [dispatched_eq hbounded]
      exact (dispatch_perm_iff h.nodup (diff_le_bits a)).2 (hrun a rfl)
    · intro hnone
      rw [Option.map_eq_none_iff.1 hnone]
      rfl

/-- Two events, with the descriptors `fd` and `fd + 1`, that watch for `EXCOM_EVENT_READ` -/
private def two (fd : Int) : State where
  base := ⟨.unlocked, 2, 16, some 1 :: some 2 :: List.replicate 14 none⟩
  event := fun p => if p = 1 then ⟨fd, 2, 0⟩ else ⟨fd + 1, 2, 1⟩
  allocs := 1

private theorem two_inOrder (fd : Int) : InOrder [1, 2] (two fd) where
  slots := rfl
  nfds := rfl
  nodup := by decide
  bdata i p hi := by
    rcases i with _ | _ | i
    · cases hi
      rfl
    · cases hi
      rfl
    · cases hi
  nfds_le := by
    show 2 ≤ 16
    decide
  max_pos := by
    show 0 < 16
    decide
  length_events := rfl
  mutex := rfl

/-- The descriptors `0` and `1`, where both are ready. -/
theorem select_exact_two : ∃ it, iterate (two 0) (some ⟨{0, 1}, ∅, ∅⟩) ⟨∅, ∅, ∅⟩ = some it ∧
    it.Exact (two 0).event [1, 2] := by
  refine (select_exact_iff (two_inOrder 0) _ _).2 ⟨by unfold Bounded; decide, ?_⟩
  rintro a ⟨⟩
  refine inOneRun_of_distinct (by decide) [] [1, 2] [] rfl (by simp) ?_
  decide

/-- The descriptors `5` and `6`: the first argument of `select` is `2`, whatever it leaves of them. -/
theorem select_not_exact_two : InOrder [1, 2] (two 5) ∧
    ∀ left, ¬ ∃ it, iterate (two 5) (some ⟨{5}, ∅, ∅⟩) left = some it ∧ it.Exact (two 5).event [1, 2] := by
  refine ⟨two_inOrder 5, ?_⟩
  intro left
  rw [iterate_eq (two_inOrder 5)]
  rintro ⟨it, hit, hexact⟩
  cases hit
  have hbounded := bounded_iff.1 hexact.below
  exact absurd (hbounded 1 (by decide) (by decide)) (by decide)

end EventBaseSelect

end Excom
