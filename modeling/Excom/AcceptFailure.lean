import Excom.Lifecycle

/-!
# A socket that cannot be made non-blocking

`socket_non_blocking` reports a failed `fcntl` with its `errno`, a positive number, and its callers test for a
negative one.  So the loop of `_accept` connects and registers such a client like any other, and
`excom_server_bind` returns `0`: the failure leaves the server as it was exactly if there is none
(`accept_failure_iff`).

A turn of the loop is that of `Life.accept` (`turn_life`), with a record of the descriptors that were passed to
`excom_server_client_connect` and `excom_event_add`.
-/

namespace Excom

instance (r : SysResult) : Decidable r.Fails := inferInstanceAs (Decidable (r.value < 0))

instance (fcntl : FcntlResults) : Decidable fcntl.Fails := inferInstanceAs (Decidable (_ ∨ _))

/-! ### `excom_server_bind` -/

/-- The results of the system calls in `excom_server_bind` -/
structure BindResults where
  socket : SysResult
  bind : SysResult
  listen : SysResult
  fcntl : FcntlResults

namespace BindResults

/-- `fcntl` is called, and fails. -/
def FcntlFails (r : BindResults) : Prop := ¬ r.socket.Fails ∧ ¬ r.bind.Fails ∧ ¬ r.listen.Fails ∧ r.fcntl.Fails

/-- `excom_server_bind`.  When `socket_non_blocking` has failed, `errno` is `0` again. -/
def serverBind (r : BindResults) : Int :=
  (errorCheck r.socket.value r.socket.errno <|> errorCheck r.bind.value r.bind.errno <|>
    errorCheck r.listen.value r.listen.errno <|> errorCheck (socketNonBlocking r.fcntl) 0).getD 0

private theorem serverBind_of_fcntlFails {r : BindResults} (h : r.FcntlFails) : r.serverBind = 0 := by
  obtain ⟨hsocket, hbind, hlisten, -⟩ := h
  have hsocket' : errorCheck r.socket.value r.socket.errno = none := if_neg hsocket
  have hbind' : errorCheck r.bind.value r.bind.errno = none := if_neg hbind
  have hlisten' : errorCheck r.listen.value r.listen.errno = none := if_neg hlisten
  have hfcntl : errorCheck (socketNonBlocking r.fcntl) 0 = none := if_neg (not_socketNonBlocking_neg r.fcntl)
  simp [serverBind, hsocket', hbind', hlisten', hfcntl]

end BindResults

/-! ### The loop of `_accept` -/

/-- A socket that `accept` returned, and what the turn of the loop finds: the record that `malloc` gives with
what is in its `root`, and the results of `fcntl` and of `read` -/
structure Accepted where
  fd : Fd
  client : ClientPtr
  fcntl : FcntlResults
  root : Option ClientPtr
  reads : Life.ReadResults

/-- What `accept` returns -/
inductive AcceptResult where
  | socket (a : Accepted)
  | failed (errno : Errno)

/-- The call is not one of those whose `fcntl` fails. -/
def AcceptResult.succeeds : AcceptResult → Bool
  | socket a => decide (¬ a.fcntl.Fails)
  | failed _ => true

/-- A server, and the descriptors that were passed to `excom_server_client_connect` and `excom_event_add`, the
last one first -/
structure Accepting where
  life : Life
  connected : List Fd
  registered : List Fd

abbrev AcceptM := Exec Accepting LifeFault

namespace Accepting

def onLife {α : Type} (x : LifeM α) : AcceptM α := x.zoom Accepting.life (fun life s => { s with life }) id

/-- One turn of the loop of `_accept`, in which `accept` returned a socket -/
def turn (a : Accepted) : AcceptM Unit := do
  onLife (Life.openFd a.fd)
  onLife (Life.mallocClient a.client)
  onLife (Exec.modify fun s => { s with eventFd := Function.update s.eventFd a.client a.fd })
  onLife (Life.onServer (ExcomServer.newClient a.client))
  onLife (Life.useFd a.fd)
  if socketNonBlocking a.fcntl < 0 then onLife (Life.closeFd a.fd)
  else do
    onLife (Life.onServer (ExcomServer.connect a.client))
    Exec.modify fun s => { s with connected := a.fd :: s.connected }
    Exec.modify fun s => { s with registered := a.fd :: s.registered }
    onLife (Life.onServer (ExcomServer.linkHead a.client))
    onLife (Life.clientRead a.root a.client a.fd a.reads.ending a.reads.chunks)

/-- `_accept`, as far as it gets with these results of `accept`.  Another `errno` than `EAGAIN` is printed. -/
def accept : List AcceptResult → AcceptM Unit
  | [] => pure ()
  | .failed _ :: _ => pure ()
  | .socket a :: results => do
    turn a
    accept results

/-- The sockets that `_accept` gets to -/
def reached : List AcceptResult → List Accepted
  | [] => []
  | .failed _ :: _ => []
  | .socket a :: results => a :: reached results

/-! ### What is to hold of a failure -/

/-- The socket is closed, and nothing was connected or registered. -/
def Refused (a : Accepted) (s s' : Accepting) : Prop :=
  ¬ s'.life.fds.Live a.fd ∧ s'.connected = s.connected ∧ s'.registered = s.registered

/-- Every socket whose `fcntl` fails is refused in its turn. -/
def RefusesFailed : Accepting → List AcceptResult → Prop
  | s, .socket a :: results => ∀ s', turn a s = .ok ((), s') →
      (a.fcntl.Fails → Refused a s s') ∧ RefusesFailed s' results
  | _, _ => True

/-- The walk along `_next` comes to the client. -/
def Member (server : ExcomServer) (client : ClientPtr) : Prop :=
  ∃ head, server.clients = some head ∧
    Relation.ReflTransGen (fun a b => (server.links a).bind (·.next) = some b) head client

/-- The same list, with the same links -/
def SameList (server server' : ExcomServer) : Prop :=
  server.clients = server'.clients ∧ ∀ client, Member server' client → server.links client = server'.links client

/-- The call refuses what fails, and leaves the list that the successful calls of `accept` alone leave. -/
def FailsSafely (s : Accepting) (results : List AcceptResult) (s' : Accepting) : Prop :=
  RefusesFailed s results ∧ ∃ t, accept (results.filter (·.succeeds)) s = .ok ((), t) ∧
    SameList s'.life.server t.life.server

/-! ### A turn -/

variable {s s' : Accepting} {a : Accepted}

private theorem onLife_eq_ok {α : Type} {x : LifeM α} {v : α} :
    onLife x s = .ok (v, s') ↔ ∃ life, x s.life = .ok (v, life) ∧ s' = { s with life } :=
  Exec.zoom_eq_ok

private theorem onLife_onServer_eq_ok {α : Type} {x : ServerM α} {v : α} :
    onLife (Life.onServer x) s = .ok (v, s') ↔
      ∃ server, x s.life.server = .ok (v, server) ∧ s' = { s with life := { s.life with server } } := by
  rw [onLife_eq_ok]
  constructor
  · rintro ⟨life, hlife, rfl⟩
    obtain ⟨server, hserver, rfl⟩ := Life.onServer_eq_ok.1 hlife
    exact ⟨server, hserver, rfl⟩
  · rintro ⟨server, hserver, rfl⟩
    exact ⟨_, Life.onServer_eq_ok.2 ⟨server, hserver, rfl⟩, rfl⟩

/-- Whatever `fcntl` returned, the socket is connected and registered. -/
theorem turn_eq_ok (h : turn a s = .ok ((), s')) : ∃ life, s' = ⟨life, a.fd :: s.connected, a.fd :: s.registered⟩ ∧
    Life.accept a.fd a.client a.fcntl a.root a.reads s.life = .ok ((), life) := by
  unfold turn at h
  obtain ⟨⟨⟩, s₁, h₁, h⟩ := Exec.bind_eq_ok.1 h
  obtain ⟨life₁, hopen, rfl⟩ := onLife_eq_ok.1 h₁
  obtain ⟨⟨⟩, s₂, h₂, h⟩ := Exec.bind_eq_ok.1 h
  obtain ⟨life₂, hmalloc, rfl⟩ := onLife_eq_ok.1 h₂
  obtain ⟨⟨⟩, s₃, h₃, h⟩ := Exec.bind_eq_ok.1 h
  obtain ⟨life₃, hevent, rfl⟩ := onLife_eq_ok.1 h₃
  obtain ⟨⟨⟩, s₄, h₄, h⟩ := Exec.bind_eq_ok.1 h
  obtain ⟨server₄, hnew, rfl⟩ := onLife_onServer_eq_ok.1 h₄
  obtain ⟨⟨⟩, s₅, h₅, h⟩ := Exec.bind_eq_ok.1 h
  obtain ⟨life₅, huse, rfl⟩ := onLife_eq_ok.1 h₅
  obtain ⟨hlive, rfl⟩ := Life.useFd_eq_ok.1 huse
  rw [if_neg (not_socketNonBlocking_neg a.fcntl)] at h
  obtain ⟨⟨⟩, s₆, h₆, h⟩ := Exec.bind_eq_ok.1 h
  obtain ⟨server₆, hconnect, rfl⟩ := onLife_onServer_eq_ok.1 h₆
  obtain ⟨⟨⟩, s₇, h₇, h⟩ := Exec.bind_eq_ok.1 h
  cases h₇
  obtain ⟨⟨⟩, s₈, h₈, h⟩ := Exec.bind_eq_ok.1 h
  cases h₈
  obtain ⟨⟨⟩, s₉, h₉, h⟩ := Exec.bind_eq_ok.1 h
  obtain ⟨server₉, hlink, rfl⟩ := onLife_onServer_eq_ok.1 h₉
  obtain ⟨life, hread, rfl⟩ := onLife_eq_ok.1 h
  refine ⟨life, rfl, ?_⟩
  have hserver : ExcomServer.accept a.client a.fcntl life₃.server = .ok ((), server₉) := by
    unfold ExcomServer.accept
    rw [Exec.bind_of_ok hnew, if_neg (not_socketNonBlocking_neg a.fcntl), Exec.bind_of_ok hconnect]
    exact hlink
  have huse' : Life.useFd a.fd life₃ = .ok ((), life₃) := Life.useFd_eq_ok.2 ⟨hlive, rfl⟩
  have hserver' : Life.onServer (ExcomServer.accept a.client a.fcntl) life₃ =
      .ok ((), { life₃ with server := server₉ }) := Life.onServer_eq_ok.2 ⟨server₉, hserver, rfl⟩
  unfold Life.accept
  rw [Exec.bind_of_ok hopen, Exec.bind_of_ok hmalloc, Exec.bind_of_ok hevent, Exec.bind_of_ok huse',
    Exec.bind_of_ok hserver', if_neg (not_socketNonBlocking_neg a.fcntl)]
  exact hread

/-- Without its records a turn is one of `Life`. -/
theorem turn_life (h : turn a s = .ok ((), s')) :
    Life.accept a.fd a.client a.fcntl a.root a.reads s.life = .ok ((), s'.life) := by
  obtain ⟨life, rfl, hlife⟩ := turn_eq_ok h
  exact hlife

private theorem not_refused (h : turn a s = .ok ((), s')) : ¬ Refused a s s' := by
  obtain ⟨life, rfl, -⟩ := turn_eq_ok h
  rintro ⟨-, hconnected, -⟩
  exact List.cons_ne_self _ _ hconnected

/-! ### Runs -/

/-- A failure of `fcntl` is not refused in the turn in which it happens. -/
private theorem refusesFailed_iff {results : List AcceptResult} (h : accept results s = .ok ((), s')) :
    RefusesFailed s results ↔ ∀ a ∈ reached results, ¬ a.fcntl.Fails := by
  induction results generalizing s with
  | nil => simp [RefusesFailed, reached]
  | cons result results ih =>
    cases result with
    | failed errno => simp [RefusesFailed, reached]
    | socket a =>
      obtain ⟨⟨⟩, s₁, hturn, hrest⟩ := Exec.bind_eq_ok.1 h
      have hsame : ∀ s₂, turn a s = .ok ((), s₂) → s₂ = s₁ := by
        intro s₂ hturn₂
        simpa [hturn₂] using hturn
      unfold reached
      rw [List.forall_mem_cons, ← ih hrest]
      constructor
      · intro hrefuses
        obtain ⟨hfails, hrefuses'⟩ := hrefuses s₁ hturn
        exact ⟨fun hf => not_refused hturn (hfails hf), hrefuses'⟩
      · rintro ⟨hnot, hrefuses⟩ s₂ hturn₂
        rw [hsame s₂ hturn₂]
        exact ⟨fun hf => absurd hf hnot, hrefuses⟩

private theorem accept_filter {results : List AcceptResult} (h : ∀ a ∈ reached results, ¬ a.fcntl.Fails) :
    accept (results.filter (·.succeeds)) = accept results := by
  induction results with
  | nil => rfl
  | cons result results ih =>
    cases result with
    | failed errno =>
      rw [List.filter_cons_of_pos rfl]
      rfl
    | socket a =>
      unfold reached at h
      rw [List.forall_mem_cons] at h
      rw [List.filter_cons_of_pos (by simpa [AcceptResult.succeeds] using h.1)]
      unfold accept
      rw [ih h.2]

/-- A call of `_accept` treats the failures of `fcntl` as it should, and `excom_server_bind` reports its own,
exactly if there is none. -/
theorem accept_failure_iff {results : List AcceptResult} (h : accept results s = .ok ((), s')) (r : BindResults) :
    (FailsSafely s results s' ↔ ∀ a ∈ reached results, ¬ a.fcntl.Fails) ∧
      ((r.FcntlFails → r.serverBind ≠ 0) ↔ ¬ r.FcntlFails) := by
  constructor
  · constructor
    · intro hsafe
      exact (refusesFailed_iff h).1 hsafe.1
    · intro hnone
      refine ⟨(refusesFailed_iff h).2 hnone, s', ?_, rfl, fun _ _ => rfl⟩
      rw [accept_filter hnone]
      exact h
  · constructor
    · intro hreports hfails
      exact hreports hfails (BindResults.serverBind_of_fcntlFails hfails)
    · intro hnot hfails
      exact absurd hfails hnot

/-- A client that is accepted by a new server. -/
theorem accept_failure_none : ∃ s', accept [.socket ⟨4, 7, ⟨.ok 2, .ok 0⟩, none, ⟨0, .error EAGAIN⟩⟩,
      .failed ⟨EAGAIN, by decide⟩] ⟨.start 3, [], []⟩ = .ok ((), s') ∧
    FailsSafely ⟨.start 3, [], []⟩ [.socket ⟨4, 7, ⟨.ok 2, .ok 0⟩, none, ⟨0, .error EAGAIN⟩⟩,
      .failed ⟨EAGAIN, by decide⟩] s' ∧
    ((⟨.ok 3, .ok 0, .ok 0, ⟨.ok 2, .ok 0⟩⟩ : BindResults).FcntlFails →
      (⟨.ok 3, .ok 0, .ok 0, ⟨.ok 2, .ok 0⟩⟩ : BindResults).serverBind ≠ 0) := by
  refine ⟨_, rfl, ?_, ?_⟩
  · refine (accept_failure_iff rfl ⟨.ok 3, .ok 0, .ok 0, ⟨.ok 2, .ok 0⟩⟩).1.2 ?_
    simp [reached, FcntlResults.Fails, SysResult.Fails, SysResult.value]
  · intro hfails
    simp [BindResults.FcntlFails, FcntlResults.Fails, SysResult.Fails, SysResult.value] at hfails

/-- The first `fcntl` for the client fails. -/
theorem accept_not_fails_safely :
    ∃ s', accept [.socket ⟨4, 7, ⟨.failed ⟨EACCES, by decide⟩, .ok 0⟩, none, ⟨0, .error EAGAIN⟩⟩,
        .failed ⟨EAGAIN, by decide⟩] ⟨.start 3, [], []⟩ = .ok ((), s') ∧
      ¬ FailsSafely ⟨.start 3, [], []⟩ [.socket ⟨4, 7, ⟨.failed ⟨EACCES, by decide⟩, .ok 0⟩, none,
        ⟨0, .error EAGAIN⟩⟩, .failed ⟨EAGAIN, by decide⟩] s' := by
  refine ⟨_, rfl, ?_⟩
  rintro ⟨hrefuses, -⟩
  obtain ⟨hrefused, -⟩ := hrefuses _ rfl
  obtain ⟨-, hconnected, -⟩ := hrefused (.inl (by decide))
  exact absurd hconnected (List.cons_ne_self _ _)

end Accepting

end Excom
