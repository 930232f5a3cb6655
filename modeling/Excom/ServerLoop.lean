import Excom.ClientList
import Excom.Epoll
import Excom.WriteEvents

/-!
# The server over `epoll`

`excom_server_run`, where `on_event` is the runner of `excom/event/epoll.c`: what the server and its connections ask
of the backend when clients are accepted, read, written and closed.  The kernel keeps addresses of events that are
part of the records of the clients, and these records are freed in the calls of the runner.  Over any rounds the loop
comes only to records whose clients have a connection, as long as no client is gone when its socket is read for the
first time (`server_exact`).
-/

namespace Excom.ServerLoop

open EventBaseEpoll
open EventBasePoll (Call Entry Op)

/-- `EXCOM_EVENT_READ` and `EXCOM_EVENT_CLOSE` of `epoll` -/
def backend : EventFlags := ⟨0x1, 0x2010⟩

/-- `EXCOM_EVENT_ERROR` of `epoll` -/
def eventError : UInt32 := 0x8

/-- The flags of the socket of the server, and those of a new client -/
def listenFlags : UInt32 := backend.read ||| eventError ||| backend.close

/-- A socket that `accept` returned, where `malloc` puts the record of its client, and what the first reads find: the
`root` that is in the record, and whether they come to the end of the file -/
structure Arrival where
  fd : Int
  client : Nat
  fcntl : FcntlResults
  root : Nat
  eof : Bool

/-- What a call of `on_event` finds: the flags that the workers set before it, the sockets that `accept` returns,
whether `read` comes to the end of the file, what `excom_buffer_write` returns, and the flags that the registered
event has then -/
structure Answers where
  updates : List (Nat × UInt32)
  arrivals : List Arrival
  eof : Bool
  written : Int
  flags : UInt32

/-- `excom_server_client_read`, which closes the connection of a client that has one -/
def clientRead (root : Nat) (fd : Int) (eof data : Bool) : List Act :=
  if data && eof then [.request (.remove root), .close fd] else []

/-- `excom_server_client_write` -/
def clientWrite (a : Answers) (c : Call) (data : Bool) : List Act :=
  if !data then []
  else if a.written = EAGAIN ∧ c.flags ^^^ eventWrite = 0 then
    [.request (.update c.root (a.flags ||| eventWrite))]
  else if a.written = 0 ∧ Carries c.flags eventWrite then [.request (.update c.root (a.flags ^^^ eventWrite))]
  else []

/-- `excom_server_client_close` -/
def clientClose (root : Nat) (data : Bool) : List Act := if data then [.request (.remove root)] else []

/-- `_disconnect` -/
def disconnect (c : Call) : List Act := [.free c.root, .close c.fd]

/-- One turn of the loop of `_accept` -/
def acceptTurn (a : Arrival) : List Act :=
  if socketNonBlocking a.fcntl < 0 then [.close a.fd]
  else .request (.add a.client a.fd listenFlags) :: clientRead a.root a.fd a.eof true

/-- `on_event`, where `data` says whether the client has a connection.  The process exits where the socket of the
server was closed. -/
def onEvent (sock : Int) (a : Answers) (data : Bool) (c : Call) : List Act :=
  if c.fd = sock then
    if Carries c.flags backend.read then a.arrivals.flatMap acceptTurn
    else if Carries c.flags eventError then [.loopEnd]
    else []
  else
    let read := if Carries c.flags backend.read then clientRead c.root c.fd a.eof data else []
    let data := data && !(Carries c.flags backend.read && a.eof)
    read ++ (if Carries c.flags eventWrite then clientWrite a c data else []) ++
      if Carries c.flags backend.close then clientClose c.root data ++ disconnect c else []

/-- The clients that have a connection after a call -/
def connectedAfter (sock : Int) (a : Answers) (c : Call) (clients : List Nat) : List Nat :=
  if c.fd = sock then
    if Carries c.flags backend.read then
      clients ++ (a.arrivals.filter fun x => ¬ socketNonBlocking x.fcntl < 0 ∧ ¬ x.eof).map Arrival.client
    else clients
  else if Carries c.flags backend.read ∧ a.eof ∨ Carries c.flags backend.close then clients.filter (· ≠ c.root)
  else clients

section

variable (sock : Int) (answers : Nat → Answers)

/-- The clients that have a connection after some calls, of which the `i`-th one finds `answers i` -/
def connected (calls : List Call) : List Nat :=
  calls.zipIdx.foldl (fun clients x => connectedAfter sock (answers x.2) x.1 clients) []

/-- A worker handles a packet, and asks for write events. -/
def workerUpdate (x : Nat × UInt32) : Act := .request (.update x.1 x.2)

/-- What the server does with its last call -/
def runner (calls : List Call) : List Act :=
  match calls.getLast? with
  | none => []
  | some c =>
    let a := answers (calls.length - 1)
    a.updates.map workerUpdate ++ onEvent sock a (c.root ∈ connected sock answers calls.dropLast) c

/-- `excom_server_run` with the event `listen` for the socket, as long as the rounds are given -/
def serverRun (data : Nat → Nat) (event : Nat → Option Event) (listen : Nat) (rounds : List Round) :
    Option (State × List Call) := do
  let (_, s) ← request (init event) (.add listen sock listenFlags)
  loop data (runner sock answers) rounds s []

/-! ### What can happen -/

/-- A worker belongs to a client that has a connection, `accept` returns descriptors that are not open, and `malloc`
memory that is not allocated. -/
structure Possible (w : Watch) (calls : List Call) (c : Call) : Prop where
  worker : ∀ x ∈ (answers calls.length).updates, x.1 ∈ connected sock answers calls
  fresh : ∀ a ∈ (answers calls.length).arrivals, ∀ e ∈ w.reg, e.addr ≠ a.client ∧ e.fd ≠ a.fd
  apart : (answers calls.length).arrivals.Pairwise fun a a' => a.client ≠ a'.client ∧ a.fd ≠ a'.fd

/-- The workers of connected clients ask for write events. -/
def Workers (clients : List Nat) (acts : List Act) : Prop :=
  ∃ updates : List (Nat × UInt32), acts = updates.map workerUpdate ∧ ∀ x ∈ updates, x.1 ∈ clients

/-- Also while `epoll_wait` waits, and until the first call, there are only workers, and it reports a descriptor
once. -/
structure PossibleTurn (data : Nat → Nat) (w : Watch) (calls : List Call) (r : Round) : Prop where
  meanwhile : Workers (connected sock answers calls) r.meanwhile
  early : Workers (connected sock answers calls) r.early
  calls (fds : List (Int × UInt32)) (hwait : r.wait = .ok fds) : (fds.map Prod.fst).Nodup ∧
    Watch.DispatchAlong (runner sock answers) (Possible sock answers) ((w.waited r).ready data fds)
      (w.entered r ((w.waited r).ready data fds)).1 (w.entered r ((w.waited r).ready data fds)).2 calls

end

/-- The socket is registered as `listen`, and otherwise it is the clients that are registered. -/
structure Tracks (sock : Int) (listen : Nat) (w : Watch) (clients : List Nat) : Prop where
  socket : ∀ e ∈ w.reg, e.addr = listen ↔ e.fd = sock
  registered (p : Nat) : (∃ e ∈ w.reg, e.addr = p) ↔ p = listen ∨ p ∈ clients

variable {sock : Int} {listen : Nat} {answers : Nat → Answers} {data : Nat → Nat}
variable {w : Watch} {s : State} {clients alive : List Nat} {calls rest : List Call} {c : Call}

/-! ### The calls of the backend -/

namespace Tracks

/-- Flags do not matter for who is registered. -/
theorem update (h : Tracks sock listen w clients) (p : Nat) (flags : UInt32) :
    Tracks sock listen ((Act.request (.update p flags)).apply w) clients where
  socket := by
    intro e he
    obtain ⟨e₀, he₀, rfl⟩ := List.mem_map.1 he
    split <;> exact h.socket e₀ he₀
  registered q := by
    rw [← h.registered]
    constructor
    · rintro ⟨e, he, rfl⟩
      obtain ⟨e₀, he₀, rfl⟩ := List.mem_map.1 he
      refine ⟨e₀, he₀, ?_⟩
      split <;> rfl
    · rintro ⟨e, he, rfl⟩
      refine ⟨_, List.mem_map_of_mem he, ?_⟩
      split <;> rfl

/-- A client that is removed has no connection any more. -/
theorem remove (h : Tracks sock listen w clients) {p : Nat} (hp : p ≠ listen) :
    Tracks sock listen ((Act.request (.remove p)).apply w) (clients.filter (· ≠ p)) where
  socket e he := h.socket e (List.mem_of_mem_filter he)
  registered q := by
    have hq : (∃ e ∈ ((Act.request (.remove p)).apply w).reg, e.addr = q) ↔ q ≠ p ∧ ∃ e ∈ w.reg, e.addr = q := by
      constructor
      · rintro ⟨e, he, rfl⟩
        obtain ⟨he, hne⟩ := List.mem_filter.1 he
        exact ⟨of_decide_eq_true hne, e, he, rfl⟩
      · rintro ⟨hne, e, he, rfl⟩
        exact ⟨e, List.mem_filter.2 ⟨he, decide_eq_true hne⟩, rfl⟩
    rw [hq, h.registered, List.mem_filter, decide_eq_true_eq]
    constructor
    · rintro ⟨hne, hlisten | hclient⟩
      · exact .inl hlisten
      · exact .inr ⟨hclient, hne⟩
    · rintro (rfl | ⟨hclient, hne⟩)
      · exact ⟨hp.symm, .inl rfl⟩
      · exact ⟨hne, .inr hclient⟩

/-- A client that is accepted has a connection from there on. -/
theorem add (h : Tracks sock listen w clients) {p : Nat} {fd : Int} (flags : UInt32)
    (hnew : ∀ e ∈ w.reg, e.addr ≠ p ∧ e.fd ≠ fd) :
    Tracks sock listen ((Act.request (.add p fd flags)).apply w) (clients ++ [p]) where
  socket := by
    intro e he
    rcases List.mem_append.1 he with hold | hlast
    · exact h.socket e hold
    · obtain ⟨e₀, he₀, haddr⟩ := (h.registered listen).2 (.inl rfl)
      obtain ⟨hp, hfd⟩ := hnew e₀ he₀
      rw [haddr] at hp
      rw [(h.socket e₀ he₀).1 haddr] at hfd
      rw [List.mem_singleton.1 hlast]
      exact ⟨fun hsame => absurd hsame.symm hp, fun hsame => absurd hsame.symm hfd⟩
  registered q := by
    rw [List.mem_append, ← or_assoc, ← h.registered, List.mem_singleton]
    constructor
    · rintro ⟨e, he, rfl⟩
      rcases List.mem_append.1 he with hold | hlast
      · exact .inl ⟨e, hold, rfl⟩
      · exact .inr (congrArg Entry.addr (List.mem_singleton.1 hlast))
    · rintro (⟨e, he, rfl⟩ | rfl)
      · exact ⟨e, List.mem_append_left _ he, rfl⟩
      · exact ⟨_, List.mem_append_right _ (List.mem_singleton_self _), rfl⟩

/-- What the workers do is legal. -/
theorem worker (h : Tracks sock listen w clients) {updates : List (Nat × UInt32)}
    (hworker : ∀ x ∈ updates, x.1 ∈ clients) (alive : List Nat) : Watch.AllLegal (updates.map workerUpdate) w ∧
      Tracks sock listen (Watch.applyAll (updates.map workerUpdate) w alive).1 clients := by
  induction updates generalizing w alive with
  | nil => exact ⟨trivial, h⟩
  | cons x updates ih =>
    obtain ⟨hx, hworker⟩ := List.forall_mem_cons.1 hworker
    obtain ⟨hlegal, h'⟩ := ih (h.update x.1 x.2) hworker _
    exact ⟨⟨(h.registered x.1).2 (.inr hx), hlegal⟩, h'⟩

/-- New clients are registered, if none is gone when it is read for the first time. -/
theorem arrive (h : Tracks sock listen w clients) {arrivals : List Arrival} (heof : ∀ a ∈ arrivals, a.eof = false)
    (hfresh : ∀ a ∈ arrivals, ∀ e ∈ w.reg, e.addr ≠ a.client ∧ e.fd ≠ a.fd)
    (hapart : arrivals.Pairwise fun a a' => a.client ≠ a'.client ∧ a.fd ≠ a'.fd) (alive : List Nat) :
    Watch.AllLegal (arrivals.flatMap acceptTurn) w ∧
      Tracks sock listen (Watch.applyAll (arrivals.flatMap acceptTurn) w alive).1
        (clients ++ arrivals.map Arrival.client) := by
  induction arrivals generalizing w clients alive with
  | nil =>
    rw [List.map_nil, List.append_nil]
    exact ⟨trivial, h⟩
  | cons a arrivals ih =>
    obtain ⟨ha, heof⟩ := List.forall_mem_cons.1 heof
    obtain ⟨hnew, hfresh⟩ := List.forall_mem_cons.1 hfresh
    obtain ⟨hfirst, hapart⟩ := List.pairwise_cons.1 hapart
    have hturn : acceptTurn a = [.request (.add a.client a.fd listenFlags)] := by
      simp [acceptTurn, not_socketNonBlocking_neg, clientRead, ha]
    rw [List.flatMap_cons, hturn, List.map_cons, List.append_cons clients]
    have hrest : ∀ b ∈ arrivals, ∀ e ∈ ((Act.request (.add a.client a.fd listenFlags)).apply w).reg,
        e.addr ≠ b.client ∧ e.fd ≠ b.fd := by
      intro b hb e he
      rcases List.mem_append.1 he with hold | hlast
      · exact hfresh b hb e hold
      · rw [List.mem_singleton.1 hlast]
        exact hfirst b hb
    obtain ⟨hlegal, h'⟩ := ih (h.add listenFlags hnew) heof hrest hapart _
    exact ⟨⟨hnew, hlegal⟩, h'⟩

end Tracks

/-! ### A call for a client -/

section

variable {e : Entry} {a : Answers}

private theorem apply_close {fd : Int} (h : ∀ e ∈ w.reg, e.fd ≠ fd) : (Act.close fd).apply w = w := by
  have hfilter : w.reg.filter (fun e => e.fd ≠ fd) = w.reg := by
    rw [List.filter_eq_self]
    exact fun e he => decide_eq_true (h e he)
  rw [Act.apply, hfilter]

private theorem leave (h : Holds w s) (ht : Tracks sock listen w clients) (he : e ∈ w.reg) (haddr : e.addr = c.root)
    (hfd : e.fd = c.fd) (hclient : c.fd ≠ sock) :
    ∃ w', (Act.request (.remove c.root)).apply w = w' ∧ (Act.close c.fd).apply w' = w' ∧
      (∀ e' ∈ w'.reg, e'.addr ≠ c.root) ∧ Tracks sock listen w' (clients.filter (· ≠ c.root)) := by
  have hroot : c.root ≠ listen := by
    rw [← haddr, ne_eq, ht.socket e he, hfd]
    exact hclient
  have hgone : ∀ e' ∈ ((Act.request (.remove c.root)).apply w).reg, e'.addr ≠ c.root :=
    fun e' he' => of_decide_eq_true (List.mem_filter.1 he').2
  refine ⟨_, rfl, apply_close ?_, hgone, ht.remove hroot⟩
  intro e' he' hfd'
  have hsame : e' = e :=
    List.inj_on_of_nodup_map h.fds (List.mem_of_mem_filter he') he (hfd'.trans hfd.symm)
  exact hgone e' he' (hsame ▸ haddr)

private theorem onEvent_eof (hclient : c.fd ≠ sock) (hread : Carries c.flags backend.read) (heof : a.eof = true) :
    onEvent sock a true c = [.request (.remove c.root), .close c.fd] ++
      if Carries c.flags backend.close then disconnect c else [] := by
  simp [onEvent, hclient, hread, heof, clientRead, clientWrite, clientClose]

private theorem onEvent_open (hclient : c.fd ≠ sock) (hread : ¬ (Carries c.flags backend.read ∧ a.eof = true)) :
    onEvent sock a true c = (if Carries c.flags eventWrite then clientWrite a c true else []) ++
      if Carries c.flags backend.close then .request (.remove c.root) :: disconnect c else [] := by
  by_cases hflag : Carries c.flags backend.read
  · have heof : a.eof = false := by simpa [hflag] using hread
    simp [onEvent, hclient, hflag, heof, clientRead, clientClose]
  · simp [onEvent, hclient, hflag, clientClose]

private theorem write_eq (a : Answers) (c : Call) :
    (if Carries c.flags eventWrite then clientWrite a c true else []) = [] ∨
      ∃ flags, (if Carries c.flags eventWrite then clientWrite a c true else []) =
        [.request (.update c.root flags)] := by
  unfold clientWrite
  split
  · simp only [Bool.not_true, Bool.false_eq_true, if_false]
    split
    · exact .inr ⟨_, rfl⟩
    · split
      · exact .inr ⟨_, rfl⟩
      · exact .inl rfl
  · exact .inl rfl

/-- The end of a call, where the connection is closed or not -/
private theorem close_event (h : Holds w s) (ht : Tracks sock listen w clients) (he : e ∈ w.reg)
    (haddr : e.addr = c.root) (hfd : e.fd = c.fd) (hclient : c.fd ≠ sock) (alive : List Nat) :
    Watch.AllLegal (if Carries c.flags backend.close then .request (.remove c.root) :: disconnect c else []) w ∧
      Tracks sock listen (Watch.applyAll
          (if Carries c.flags backend.close then .request (.remove c.root) :: disconnect c else []) w alive).1
        (if Carries c.flags backend.close then clients.filter (· ≠ c.root) else clients) := by
  split
  · obtain ⟨w', hremove, hclose, hgone, ht'⟩ := leave h ht he haddr hfd hclient
    simp only [disconnect, Watch.AllLegal, Watch.applyAll, Act.Legal, Op.Legal, hremove]
    refine ⟨⟨⟨e, he, haddr⟩, hgone, trivial, trivial⟩, ?_⟩
    show Tracks sock listen ((Act.close c.fd).apply w') _
    rwa [hclose]
  · exact ⟨trivial, ht⟩

/-- `on_event` for a client that is registered -/
theorem client_event (h : Holds w s) (ht : Tracks sock listen w clients) (he : e ∈ w.reg) (haddr : e.addr = c.root)
    (hfd : e.fd = c.fd) (hclient : c.fd ≠ sock) (a : Answers) (alive : List Nat) :
    Watch.AllLegal (onEvent sock a (c.root ∈ clients) c) w ∧
      Tracks sock listen (Watch.applyAll (onEvent sock a (c.root ∈ clients) c) w alive).1
        (connectedAfter sock a c clients) := by
  have hdata : c.root ∈ clients := by
    apply ((ht.registered c.root).1 ⟨e, he, haddr⟩).resolve_left
    rw [← haddr, ht.socket e he, hfd]
    exact hclient
  rw [decide_eq_true hdata, connectedAfter, if_neg hclient]
  by_cases hread : Carries c.flags backend.read ∧ a.eof = true
  · obtain ⟨w', hremove, hclose, hgone, ht'⟩ := leave h ht he haddr hfd hclient
    have hafter : (if Carries c.flags backend.read ∧ a.eof = true ∨ Carries c.flags backend.close then
        clients.filter (· ≠ c.root) else clients) = clients.filter (· ≠ c.root) := if_pos (.inl hread)
    rw [onEvent_eof hclient hread.1 hread.2, hafter]
    split
    · simp only [List.cons_append, List.nil_append, disconnect, Watch.AllLegal, Watch.applyAll, Act.Legal, Op.Legal,
        hremove, hclose]
      refine ⟨⟨⟨e, he, haddr⟩, trivial, hgone, trivial, trivial⟩, ?_⟩
      show Tracks sock listen ((Act.close c.fd).apply w') _
      rwa [hclose]
    · simp only [List.append_nil, Watch.AllLegal, Watch.applyAll, Act.Legal, Op.Legal, hremove, hclose]
      exact ⟨⟨⟨e, he, haddr⟩, trivial, trivial⟩, ht'⟩
  · rw [onEvent_open hclient hread]
    have hafter : (if Carries c.flags backend.read ∧ a.eof = true ∨ Carries c.flags backend.close then
        clients.filter (· ≠ c.root) else clients) =
        if Carries c.flags backend.close then clients.filter (· ≠ c.root) else clients := by
      simp only [hread, false_or]
    rw [hafter]
    rcases write_eq a c with hnone | ⟨flags, hupdate⟩
    · rw [hnone, List.nil_append]
      exact close_event h ht he haddr hfd hclient alive
    · have hlegal : (Act.request (.update c.root flags)).Legal w := ⟨e, he, haddr⟩
      obtain ⟨s', -, h'⟩ := h.perform hlegal
      obtain ⟨e', he', haddr', hfd'⟩ : ∃ e' ∈ ((Act.request (.update c.root flags)).apply w).reg,
          e'.addr = c.root ∧ e'.fd = c.fd := by
        refine ⟨_, List.mem_map_of_mem he, ?_⟩
        split <;> exact ⟨haddr, hfd⟩
      obtain ⟨hrest, ht'⟩ := close_event h' (ht.update c.root flags) he' haddr' hfd' hclient _
      rw [hupdate]
      exact ⟨⟨hlegal, hrest⟩, ht'⟩

end

/-! ### Runs of the server -/

variable {r : Round} {rounds : List Round}

@[simp] theorem runner_snoc (calls : List Call) (c : Call) : runner sock answers (calls ++ [c]) =
    (answers calls.length).updates.map workerUpdate ++
      onEvent sock (answers calls.length) (c.root ∈ connected sock answers calls) c := by
  simp [runner]

@[simp] theorem connected_snoc (calls : List Call) (c : Call) : connected sock answers (calls ++ [c]) =
    connectedAfter sock (answers calls.length) c (connected sock answers calls) := by
  simp [connected, List.zipIdx_append]

/-- Addresses and descriptors stay as they are when a worker asks for write events. -/
private theorem worker_names (updates : List (Nat × UInt32)) (w : Watch) (alive : List Nat) :
    (Watch.applyAll (updates.map workerUpdate) w alive).1.reg.map (fun e => (e.addr, e.fd)) =
      w.reg.map fun e => (e.addr, e.fd) := by
  induction updates generalizing w alive with
  | nil => rfl
  | cons x updates ih =>
    have hupdate : ((workerUpdate x).apply w).reg.map (fun e => (e.addr, e.fd)) =
        w.reg.map fun e => (e.addr, e.fd) := by
      simp only [workerUpdate, Act.apply, Op.apply, List.map_map]
      apply List.map_congr_left
      intro e _
      dsimp only [Function.comp]
      split <;> rfl
    exact (ih ..).trans hupdate

private theorem ofCall_client (a : Answers) (data : Bool) :
    (∀ x ∈ clientRead c.root c.fd a.eof data, x.OfCall c) ∧ (∀ x ∈ clientWrite a c data, x.OfCall c) ∧
      ∀ x ∈ clientClose c.root data ++ disconnect c, x.OfCall c := by
  refine ⟨?_, ?_, ?_⟩
  · unfold clientRead
    split <;> simp [Act.OfCall]
  · unfold clientWrite
    split
    · simp
    · split
      · simp [Act.OfCall]
      · split <;> simp [Act.OfCall]
  · unfold clientClose disconnect
    split <;> simp [Act.OfCall]

/-- If no client is gone when it is read for the first time, the server removes only the event of the call. -/
theorem own (heof : ∀ i, ∀ a ∈ (answers i).arrivals, a.eof = false) : Own (runner sock answers) := by
  intro calls c x hx
  rw [runner_snoc] at hx
  rcases List.mem_append.1 hx with hworker | hevent
  · obtain ⟨y, -, rfl⟩ := List.mem_map.1 hworker
    trivial
  · unfold onEvent at hevent
    split at hevent
    · split at hevent
      · obtain ⟨a, ha, hturn⟩ := List.mem_flatMap.1 hevent
        have hadd : x = .request (.add a.client a.fd listenFlags) := by
          simpa [acceptTurn, not_socketNonBlocking_neg, clientRead, heof _ a ha] using hturn
        rw [hadd]
        trivial
      · split at hevent
        · rw [List.mem_singleton.1 hevent]
          trivial
        · exact absurd hevent List.not_mem_nil
    · obtain ⟨hread, -⟩ := ofCall_client (c := c) (answers calls.length)
        (c.root ∈ connected sock answers calls)
      obtain ⟨-, hwrite, hclose⟩ := ofCall_client (c := c) (answers calls.length)
        ((c.root ∈ connected sock answers calls) && !(Carries c.flags backend.read && (answers calls.length).eof))
      rcases List.mem_append.1 hevent with hevent | hevent
      · rcases List.mem_append.1 hevent with hevent | hevent
        · split at hevent
          · exact hread x hevent
          · exact absurd hevent List.not_mem_nil
        · split at hevent
          · exact hwrite x hevent
          · exact absurd hevent List.not_mem_nil
      · split at hevent
        · exact hclose x hevent
        · exact absurd hevent List.not_mem_nil

/-- One call of `on_event` -/
theorem call (h : Holds w s) (ht : Tracks sock listen w (connected sock answers calls))
    (hc : ∃ e ∈ w.reg, e.addr = c.root ∧ e.fd = c.fd) (heof : ∀ i, ∀ a ∈ (answers i).arrivals, a.eof = false)
    (hpossible : Possible sock answers w calls c) (alive : List Nat) :
    Watch.AllLegal (runner sock answers (calls ++ [c])) w ∧
      Tracks sock listen (Watch.applyAll (runner sock answers (calls ++ [c])) w alive).1
        (connected sock answers (calls ++ [c])) := by
  rw [runner_snoc, connected_snoc, Watch.allLegal_append alive, Watch.applyAll_append]
  obtain ⟨hlegal, ht₁⟩ := ht.worker hpossible.worker alive
  have hnames := worker_names (answers calls.length).updates w alive
  have hnone : Awaited (fun _ => 0) [] w alive := fun c hc => absurd hc List.not_mem_nil
  obtain ⟨s₁, -, h₁, -⟩ := h.performAll hlegal hnone
  generalize Watch.applyAll ((answers calls.length).updates.map workerUpdate) w alive = x at *
  have hname {p : Nat} {fd : Int} :
      (∃ e ∈ x.1.reg, e.addr = p ∧ e.fd = fd) ↔ ∃ e ∈ w.reg, e.addr = p ∧ e.fd = fd := by
    have hmem : (p, fd) ∈ x.1.reg.map (fun e => (e.addr, e.fd)) ↔
        (p, fd) ∈ w.reg.map fun e => (e.addr, e.fd) := by rw [hnames]
    simpa only [List.mem_map, Prod.mk.injEq] using hmem
  by_cases hsock : c.fd = sock
  · unfold onEvent connectedAfter
    rw [if_pos hsock, if_pos hsock]
    split
    · have hfilter : ((answers calls.length).arrivals.filter fun x =>
          ¬ socketNonBlocking x.fcntl < 0 ∧ ¬ x.eof) = (answers calls.length).arrivals := by
        rw [List.filter_eq_self]
        intro a ha
        simp [not_socketNonBlocking_neg, heof _ a ha]
      have hfresh : ∀ a ∈ (answers calls.length).arrivals, ∀ e ∈ x.1.reg, e.addr ≠ a.client ∧ e.fd ≠ a.fd := by
        intro a ha e he
        obtain ⟨e₀, he₀, haddr, hfd⟩ := hname.1 ⟨e, he, rfl, rfl⟩
        rw [← haddr, ← hfd]
        exact hpossible.fresh a ha e₀ he₀
      rw [hfilter]
      obtain ⟨hlegal', ht'⟩ := ht₁.arrive (heof _) hfresh hpossible.apart x.2
      exact ⟨⟨hlegal, hlegal'⟩, ht'⟩
    · split
      · exact ⟨⟨hlegal, trivial, trivial⟩, ⟨ht₁.socket, ht₁.registered⟩⟩
      · exact ⟨⟨hlegal, trivial⟩, ht₁⟩
  · obtain ⟨e, he, haddr, hfd⟩ := hname.2 hc
    obtain ⟨hlegal', ht'⟩ := client_event h₁ ht₁ he haddr hfd hsock (answers calls.length) x.2
    exact ⟨⟨hlegal, hlegal'⟩, ht'⟩

/-- The calls of one round, of which only those happen whose events are registered still -/
theorem dispatch (h : Holds w s) (ht : Tracks sock listen w (connected sock answers calls))
    (hawait : Awaited data rest w alive) (heof : ∀ i, ∀ a ∈ (answers i).arrivals, a.eof = false)
    (hpossible : Watch.DispatchAlong (runner sock answers) (Possible sock answers) rest w alive calls) :
    Watch.LegalDispatch (runner sock answers) rest w alive calls ∧
      Tracks sock listen (Watch.dispatch (runner sock answers) rest w alive calls).1
        (connected sock answers (Watch.dispatch (runner sock answers) rest w alive calls).2) := by
  induction rest generalizing w s alive calls with
  | nil => exact ⟨trivial, ht⟩
  | cons c rest ih =>
    obtain ⟨⟨-, hreg⟩, hawait⟩ := List.forall_mem_cons.1 hawait
    rw [Watch.dispatch]
    by_cases hc : c.root ∈ alive
    · obtain ⟨hfirst, hpossible⟩ := hpossible.1 hc
      obtain ⟨hlegal, ht₁⟩ := call h ht (hreg hc) heof hfirst alive
      obtain ⟨s₁, -, h₁, hawait₁⟩ := h.performAll hlegal hawait
      obtain ⟨hrest, ht'⟩ := ih h₁ ht₁ hawait₁ hpossible
      rw [if_pos hc]
      exact ⟨⟨fun _ => ⟨hlegal, hrest⟩, fun hnot => absurd hc hnot⟩, ht'⟩
    · obtain ⟨hrest, ht'⟩ := ih h ht hawait (hpossible.2 hc)
      rw [if_neg hc]
      exact ⟨⟨fun hmem => absurd hmem hc, fun _ => hrest⟩, ht'⟩

private theorem tracks_workers (ht : Tracks sock listen w clients) {acts : List Act} (hacts : Workers clients acts)
    (alive : List Nat) :
    Watch.AllLegal acts w ∧ Tracks sock listen (Watch.applyAll acts w alive).1 clients := by
  obtain ⟨updates, rfl, hworker⟩ := hacts
  exact ht.worker hworker alive

/-- One round is legal, and does what it is to do. -/
theorem turn (h : Holds w s) (ht : Tracks sock listen w (connected sock answers calls))
    (heof : ∀ i, ∀ a ∈ (answers i).arrivals, a.eof = false) (hpossible : PossibleTurn sock answers data w calls r) :
    w.LegalTurn data (runner sock answers) calls r ∧
      ∃ s', EventBaseEpoll.turn data (runner sock answers) s calls r =
          some (s', (w.turn data (runner sock answers) calls r).2) ∧
        Holds (w.turn data (runner sock answers) calls r).1 s' ∧
        Tracks sock listen (w.turn data (runner sock answers) calls r).1
          (connected sock answers (w.turn data (runner sock answers) calls r).2) := by
  obtain ⟨hlegal, ht₁⟩ := tracks_workers ht hpossible.meanwhile []
  obtain ⟨s₁, -, h₁⟩ := h.waited hlegal
  have ht₁ : Tracks sock listen (w.waited r) (connected sock answers calls) := ht₁
  have hearly := (tracks_workers ht₁ hpossible.early []).1
  have hcalls (fds : List (Int × UInt32)) (hwait : r.wait = .ok fds) :
      Watch.LegalDispatch (runner sock answers) ((w.waited r).ready data fds)
          (w.entered r ((w.waited r).ready data fds)).1 (w.entered r ((w.waited r).ready data fds)).2 calls ∧
        Tracks sock listen (Watch.dispatch (runner sock answers) ((w.waited r).ready data fds)
            (w.entered r ((w.waited r).ready data fds)).1 (w.entered r ((w.waited r).ready data fds)).2 calls).1
          (connected sock answers (Watch.dispatch (runner sock answers) ((w.waited r).ready data fds)
            (w.entered r ((w.waited r).ready data fds)).1 (w.entered r ((w.waited r).ready data fds)).2
              calls).2) := by
    obtain ⟨s₂, -, h₂, hawait⟩ := h₁.entered data hearly fds
    exact dispatch h₂ (tracks_workers ht₁ hpossible.early _).2 hawait heof (hpossible.calls fds hwait).2
  have hturn : w.LegalTurn data (runner sock answers) calls r :=
    ⟨hlegal, hearly, fun fds hwait => (hcalls fds hwait).1⟩
  have hmild : ∀ a ∈ r.early, ∀ c, a.OfCall c := by
    obtain ⟨updates, hupdates, -⟩ := hpossible.early
    intro a ha c
    rw [hupdates] at ha
    obtain ⟨x, -, rfl⟩ := List.mem_map.1 ha
    trivial
  have hstill := h.undisturbed_of_own (own heof) hmild (fun fds hwait => (hpossible.calls fds hwait).1) hturn
  obtain ⟨s', hrun, h'⟩ := h.turn_eq hturn hstill
  refine ⟨hturn, s', hrun, h', ?_⟩
  unfold Watch.turn
  rcases hwait : r.wait with errno | fds
  · have ht₂ : Tracks sock listen ((w.waited r).interrupt errno) (connected sock answers calls) := by
      unfold Watch.interrupt
      split
      · exact ⟨ht₁.socket, ht₁.registered⟩
      · exact ht₁
    exact (tracks_workers ht₂ hpossible.early []).2
  · exact (hcalls fds hwait).2

private theorem rounds_exact (h : Holds w s) (ht : Tracks sock listen w (connected sock answers calls))
    (heof : ∀ i, ∀ a ∈ (answers i).arrivals, a.eof = false)
    (hpossible : Watch.Along data (runner sock answers) (PossibleTurn sock answers data) rounds w calls) :
    Watch.Along data (runner sock answers) (Watch.LegalTurn data (runner sock answers)) rounds w calls ∧
      ∃ s', loop data (runner sock answers) rounds s calls =
          some (s', (w.loop data (runner sock answers) rounds calls).2) ∧
        Holds (w.loop data (runner sock answers) rounds calls).1 s' ∧
        Tracks sock listen (w.loop data (runner sock answers) rounds calls).1
          (connected sock answers (w.loop data (runner sock answers) rounds calls).2) := by
  induction rounds generalizing w s calls with
  | nil => exact ⟨trivial, s, rfl, h, ht⟩
  | cons r rounds ih =>
    rw [loop, Watch.loop, h.loop]
    by_cases hgo : w.runs = true
    · obtain ⟨hfirst, hpossible⟩ := hpossible hgo
      obtain ⟨hlegal, s₁, hrun, h₁, ht₁⟩ := turn h ht heof hfirst
      obtain ⟨hlegal', hrest⟩ := ih h₁ ht₁ hpossible
      rw [if_pos hgo, if_pos hgo, hrun]
      exact ⟨fun _ => ⟨hlegal, hlegal'⟩, hrest⟩
    · rw [if_neg hgo, if_neg hgo]
      exact ⟨fun hgo' => absurd hgo' hgo, s, rfl, h, ht⟩

/-- Only the socket of the server is registered. -/
def listening (sock : Int) (listen : Nat) : Watch := ⟨[⟨listen, sock, listenFlags⟩], 32, true⟩

/-- Over any rounds of the server, in which clients come and go, are read and written, and the workers ask for write
events, whatever is asked of the backend is legal, the loop calls `on_event` as it should be and comes to no record
that was freed: what is registered is the socket, and the clients that have a connection. -/
theorem server_exact (event : Nat → Option Event) (heof : ∀ i, ∀ a ∈ (answers i).arrivals, a.eof = false)
    (hpossible : Watch.Along data (runner sock answers) (PossibleTurn sock answers data) rounds
      (listening sock listen) []) :
    Watch.Along data (runner sock answers) (Watch.LegalTurn data (runner sock answers)) rounds
        (listening sock listen) [] ∧
      ∃ s', serverRun sock answers data event listen rounds =
          some (s', ((listening sock listen).loop data (runner sock answers) rounds []).2) ∧
        Holds ((listening sock listen).loop data (runner sock answers) rounds []).1 s' ∧
        ∀ p, (∃ e ∈ ((listening sock listen).loop data (runner sock answers) rounds []).1.reg, e.addr = p) ↔
          p = listen ∨
            p ∈ connected sock answers ((listening sock listen).loop data (runner sock answers) rounds []).2 := by
  have hadd : (Op.add listen sock listenFlags).Legal [] := fun e he => absurd he List.not_mem_nil
  obtain ⟨s, hrequest, h⟩ := (init_holds event).request hadd
  have ht : Tracks sock listen (listening sock listen) (connected sock answers []) :=
    { socket := by simp [listening]
      registered := by simp [listening, connected, eq_comm] }
  obtain ⟨hlegal, s', hrun, h', ht'⟩ := rounds_exact h ht heof hpossible
  refine ⟨hlegal, s', ?_, h', ht'.registered⟩
  unfold serverRun
  rw [hrequest]
  exact hrun

/-- A client comes, and then its socket is closed. -/
private def comes : Round := ⟨[], .ok [(3, 0x1)], []⟩

private def goes : Round := ⟨[workerUpdate (2, 0x201d)], .ok [(5, 0x2015)], [workerUpdate (2, 0x201d)]⟩

private def found : Nat → Answers
  | 0 => ⟨[], [⟨5, 2, ⟨.ok 0, .ok 0⟩, 0, false⟩], false, 0, 0⟩
  | _ => ⟨[], [], true, 0, 0⟩

/-- A client is accepted, and closed in the next round. -/
theorem server_exact_two : ∃ s', serverRun 3 found id (fun _ => none) 1 [comes, goes] =
      some (s', [⟨1, 3, 1, 0x1⟩, ⟨2, 5, 2, 0x2015⟩]) ∧ ∀ fd, (s'.interest fd).isSome ↔ fd = 3 := by
  have hcomes : PossibleTurn 3 found id (listening 3 1) [] comes := by
    refine ⟨⟨[], rfl, by decide⟩, ⟨[], rfl, by decide⟩, ?_⟩
    intro fds hwait
    cases hwait
    exact ⟨by decide, fun _ => ⟨⟨by decide, by decide, by decide⟩, trivial⟩, fun h => absurd (by decide) h⟩
  have hgoes : PossibleTurn 3 found id ((listening 3 1).turn id (runner 3 found) [] comes).1
      ((listening 3 1).turn id (runner 3 found) [] comes).2 goes := by
    refine ⟨⟨[(2, 0x201d)], rfl, by decide⟩, ⟨[(2, 0x201d)], rfl, by decide⟩, ?_⟩
    intro fds hwait
    cases hwait
    exact ⟨by decide, fun _ => ⟨⟨by decide, by decide, by decide⟩, trivial⟩, fun h => absurd (by decide) h⟩
  have heof : ∀ i, ∀ a ∈ (found i).arrivals, a.eof = false := by
    rintro (_ | i) <;> simp [found]
  have hpossible : Watch.Along id (runner 3 found) (PossibleTurn 3 found id) [comes, goes] (listening 3 1) [] :=
    fun _ => ⟨hcomes, fun _ => ⟨hgoes, trivial⟩⟩
  obtain ⟨-, s', hrun, h', -⟩ := server_exact (fun _ => none) heof hpossible
  refine ⟨s', hrun, ?_⟩
  intro fd
  rw [Option.isSome_iff_exists]
  simp only [h'.interest]
  have hreg : ((listening 3 1).loop id (runner 3 found) [comes, goes] []).1.reg = [⟨1, 3, listenFlags⟩] := rfl
  rw [hreg]
  simp [eq_comm]

end Excom.ServerLoop
