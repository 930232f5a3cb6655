import Excom.ClientList
import Excom.Lib.Ledger
import Excom.Server

/-!
# The life of descriptors and of client records

What a server opens, closes, allocates and frees, from `excom_server_bind` to `excom_server_destroy`:
`_accept`, `on_event` for the events of clients, `excom_server_client_read` and the two ways in which it ends
a connection.  The list of clients is that of `ExcomServer`; of a connection nothing is kept but whether there
is one.

`close`, `read` and the like with a descriptor that is not open stop the run with the fault `badf`, and so do
accesses to a freed record with theirs: both are what must not happen.  `clean_iff` says for which runs all is
released in the end.
-/

namespace Excom

/-- A descriptor -/
abbrev Fd := Nat

inductive LifeFault where
  | server (e : ServerFault)
  /-- a descriptor that is not open -/
  | badf
  deriving DecidableEq, Repr

/-- A server, the sockets of its clients (`client->event.fd`), and what it was given and gave back -/
structure Life where
  server : ExcomServer
  sock : Fd
  eventFd : ClientPtr → Fd
  fds : Ledger Fd
  records : Ledger ClientPtr

abbrev LifeM := Exec Life LifeFault

namespace Life

/-- The results of `read` in one call of `excom_server_client_read`: so many that bring bytes, and the last
one -/
structure ReadResults where
  chunks : Nat
  ending : ReadEnd
  deriving DecidableEq, Repr

/-- The flags of an event -/
structure Flags where
  read : Bool
  write : Bool
  error : Bool
  close : Bool
  deriving DecidableEq, Repr

/-! ### System calls -/

/-- A call on the list of clients -/
def onServer {α : Type} (x : ServerM α) : LifeM α :=
  x.zoom Life.server (fun server s => { s with server }) .server

/-- A descriptor that `accept` returns -/
def openFd (fd : Fd) : LifeM Unit :=
  Exec.attempt (fun s => (s.fds.acquire fd).map fun fds => { s with fds }) .badf

/-- A call with a descriptor, which has to be open -/
def useFd (fd : Fd) : LifeM Unit :=
  Exec.attempt (fun s => if s.fds.Live fd then some s else none) .badf

/-- `close` -/
def closeFd (fd : Fd) : LifeM Unit :=
  Exec.attempt (fun s => (s.fds.release fd).map fun fds => { s with fds }) .badf

/-- `excom_malloc(sizeof(excom_server_client_t))` -/
def mallocClient (client : ClientPtr) : LifeM Unit :=
  Exec.attempt (fun s => (s.records.acquire client).map fun records => { s with records }) (.server .freed)

/-- `excom_free(client)` -/
def freeClient (client : ClientPtr) : LifeM Unit :=
  Exec.attempt (fun s => (s.records.release client).map fun records => { s with records }) (.server .freed)

/-! ### The server -/

/-- `excom_server_init` and `excom_server_bind`, where `socket` returned `sock` -/
def start (sock : Fd) : Life where
  server := .init
  sock := sock
  eventFd := fun _ => 0
  fds :=
    { acquired := [sock]
      released := []
      released_le := fun _ => Nat.zero_le _
      acquired_le := fun _ => List.count_le_length }
  records := .empty

/-- The loop of `excom_server_client_read`, with the `fd` and the `root` of the event -/
def clientRead (root : Option ClientPtr) (client : ClientPtr) (fd : Fd) (ending : ReadEnd) : Nat → LifeM Unit
  | 0 => do
    let c ← onServer (ExcomServer.fetch client)
    if c.data then do
      useFd fd
      match ending with
      | .error _ => pure ()
      | .eof => do
        onServer (ExcomServer.close root client)
        closeFd fd
    else pure ()
  | chunks + 1 => do
    let c ← onServer (ExcomServer.fetch client)
    if c.data then do
      useFd fd
      clientRead root client fd ending chunks
    else pure ()

/-- `excom_server_client_write`, which calls `write` if there are bytes to send -/
def clientWrite (client : ClientPtr) (unsent : Bool) : LifeM Unit := do
  let c ← onServer (ExcomServer.fetch client)
  if c.data && unsent then do
    let s ← Exec.get
    useFd (s.eventFd client)
  else pure ()

/-- One turn of the loop of `_accept`, in which `accept` returns `fd` and `malloc` returns `client`.  The
`root` of the new event is what the fresh record holds there. -/
def accept (fd : Fd) (client : ClientPtr) (fcntl : FcntlResults) (root : Option ClientPtr) (reads : ReadResults) :
    LifeM Unit := do
  openFd fd
  mallocClient client
  Exec.modify fun s => { s with eventFd := Function.update s.eventFd client fd }
  useFd fd
  onServer (ExcomServer.accept client fcntl)
  if socketNonBlocking fcntl < 0 then closeFd fd else clientRead root client fd reads.ending reads.chunks

/-- `_disconnect`, with the `fd` and the `data` of its event -/
def disconnect (fd : Fd) (client : ClientPtr) : LifeM Unit := do
  onServer (ExcomServer.disconnect (some client))
  freeClient client
  closeFd fd

/-- `on_event`, for an event of a client.  `excom_server_client_error` does nothing. -/
def onEvent (client : ClientPtr) (flags : Flags) (reads : ReadResults) (unsent : Bool) : LifeM Unit := do
  let s ← Exec.get
  let fd := s.eventFd client
  (if flags.read then clientRead (some client) client fd reads.ending reads.chunks else pure ())
  (if flags.write then clientWrite client unsent else pure ())
  if flags.close then do
    onServer (ExcomServer.close (some client) client)
    disconnect fd client
  else pure ()

/-- One turn of the loop of `excom_server_destroy`.  Its event has the socket of the server and no `root`. -/
def destroyTurn : Option ClientPtr → LifeM (Option ClientPtr × Bool)
  | none => pure (none, false)
  | some client => do
    let c ← onServer (ExcomServer.fetch client)
    onServer (ExcomServer.close none client)
    let s ← Exec.get
    disconnect s.sock client
    return (c.next, true)

/-- `excom_server_destroy`, with at most `n` turns of its loop -/
def destroy (n : Nat) : LifeM Unit := do
  let s ← Exec.get
  let _ ← Exec.loop (LifeFault.server .diverges) destroyTurn n s.server.clients
  Exec.modify fun s => { s with server := { s.server with clients := none } }
  closeFd s.sock

/-- What happens to a server before it is destroyed -/
inductive Op where
  | accept (fd : Fd) (client : ClientPtr) (fcntl : FcntlResults) (root : Option ClientPtr) (reads : ReadResults)
  | event (client : ClientPtr) (flags : Flags) (reads : ReadResults) (unsent : Bool)

def Op.run : Op → LifeM Unit
  | accept fd client fcntl root reads => Life.accept fd client fcntl root reads
  | event client flags reads unsent => onEvent client flags reads unsent

def runAll : List Op → LifeM Unit
  | [] => pure ()
  | op :: ops => do
    op.run
    runAll ops

/-! ### What is to hold of a run -/

/-- `accept` returns a descriptor that is not open and `malloc` a record that is not allocated; the loop has
events of clients that have a connection. -/
def Possible (s : Life) : Op → Prop
  | .accept fd client _ _ _ => ¬ s.fds.Live fd ∧ s.server.heap client = none
  | .event client _ _ _ => s.server.Opened client

def AllPossible : Life → List Op → Prop
  | _, [] => True
  | s, op :: ops => Possible s op ∧ ∀ s', op.run s = .ok ((), s') → AllPossible s' ops

/-- The calls and then `excom_server_destroy` return without a fault, and everything has been released, as
often as it was acquired. -/
def Clean (s : Life) (ops : List Op) : Prop :=
  ∃ n s', (runAll ops >>= fun _ => destroy n) s = .ok ((), s') ∧ s'.fds.Settled ∧ s'.records.Settled

/-- A client comes only while there is none, and `read` never returns `0`. -/
def OrderlyOp (s : Life) : Op → Prop
  | .accept _ _ _ _ reads => s.server.clients = none ∧ reads.ending ≠ .eof
  | .event _ flags reads _ => flags.read = true → reads.ending ≠ .eof

/-- All calls are orderly, and no client is left when `excom_server_destroy` is called. -/
def Orderly : Life → List Op → Prop
  | s, [] => s.server.clients = none
  | s, op :: ops => OrderlyOp s op ∧ ∀ s', op.run s = .ok ((), s') → Orderly s' ops

end Life

/-! ### The list of clients, in order or not -/

namespace ExcomServer

variable {s s' : ExcomServer} {client a b : ClientPtr} {c : ServerClient} {f : ServerClient → ServerClient}

private theorem fetch_eq_ok : fetch client s = .ok (c, s') ↔ s.heap client = some c ∧ s = s' := by
  unfold fetch
  rw [Exec.bind_of_ok (Exec.get_apply s)]
  rcases s.heap client with _ | c' <;> simp

private theorem assign_ensures {I : ExcomServer → Prop}
    (h : ∀ c, s.heap a = some c → I { s with heap := Function.update s.heap a (some (f c)) }) :
    Exec.Ensures (assign a f) s fun _ s' => I s' := by
  intro _ s' hrun
  unfold assign at hrun
  obtain ⟨c, s₁, hfetch, hrun⟩ := Exec.bind_eq_ok.1 hrun
  obtain ⟨hc, rfl⟩ := fetch_eq_ok.1 hfetch
  cases hrun
  exact h c hc

/-- A record without a connection -/
def Unopened (s : ExcomServer) (client : ClientPtr) : Prop := ∃ c, s.heap client = some c ∧ c.data = false

/-- Every record but those of `p` has a `_next`. -/
def NextsBut (p : ClientPtr → Prop) (s : ExcomServer) : Prop := ∀ b c, s.heap b = some c → ¬ p b → c.next ≠ none

/-- The walk along `_next` never ends. -/
structure Endless (s : ExcomServer) : Prop where
  clients : s.clients ≠ none
  nexts : s.NextsBut fun _ => False

private theorem Unopened.assign (h : s.Unopened b) (hf : a = b → ∀ c, c.data = false → (f c).data = false) :
    Exec.Ensures (assign a f) s fun _ s' => s'.Unopened b := by
  refine assign_ensures (I := fun s => s.Unopened b) ?_
  intro c hc
  obtain ⟨c', hc', hdata⟩ := h
  by_cases hab : a = b
  · subst hab
    rw [hc] at hc'
    cases hc'
    exact ⟨f c, Function.update_self .., hf rfl c hdata⟩
  · exact ⟨c', by rw [← hc']; exact Function.update_of_ne (Ne.symm hab) .., hdata⟩

private theorem Unopened.assignIf (h : s.Unopened b) (p : Option ClientPtr)
    (hf : ∀ c, c.data = false → (f c).data = false) :
    Exec.Ensures (assignIf p f) s fun _ s' => s'.Unopened b := by
  cases p with
  | none => exact .pure h
  | some a => exact h.assign fun _ => hf

private theorem NextsBut.assign {p : ClientPtr → Prop} (h : s.NextsBut p)
    (hf : ¬ p a → ∀ c, c.next ≠ none → (f c).next ≠ none) :
    Exec.Ensures (assign a f) s fun _ s' => s'.clients = s.clients ∧ s'.NextsBut p := by
  refine assign_ensures (I := fun s' => s'.clients = s.clients ∧ s'.NextsBut p) ?_
  intro c hc
  refine ⟨rfl, ?_⟩
  intro b c' hc' hp
  by_cases hab : b = a
  · subst hab
    have hfc : Function.update s.heap b (some (f c)) b = some c' := hc'
    rw [Function.update_self] at hfc
    cases hfc
    exact hf hp c (h b c hc hp)
  · exact h b c' ((Function.update_of_ne hab ..).symm.trans hc') hp

private theorem NextsBut.assign_self {p : ClientPtr → Prop} (h : s.NextsBut p) (hf : ∀ c, (f c).next ≠ none) :
    Exec.Ensures (ExcomServer.assign a f) s fun _ s' =>
      s'.clients = s.clients ∧ s'.NextsBut fun b => p b ∧ b ≠ a := by
  refine assign_ensures (I := fun s' => s'.clients = s.clients ∧ s'.NextsBut fun b => p b ∧ b ≠ a) ?_
  intro c hc
  refine ⟨rfl, ?_⟩
  intro b c' hc' hp
  by_cases hab : b = a
  · subst hab
    have hfc : Function.update s.heap b (some (f c)) b = some c' := hc'
    rw [Function.update_self] at hfc
    cases hfc
    exact hf c
  · exact h b c' ((Function.update_of_ne hab ..).symm.trans hc') fun hpb => hp ⟨hpb, hab⟩

/-- After `excom_server_client_close` the client has no connection. -/
theorem close_eq_ok {root : Option ClientPtr} (h : close root client s = .ok ((), s')) :
    ∃ c, s.heap client = some c ∧
      s' = if c.data then { s with heap := Function.update s.heap client (some { c with data := false }) }
        else s := by
  unfold close at h
  obtain ⟨c, s₁, hfetch, h⟩ := Exec.bind_eq_ok.1 h
  obtain ⟨hc, rfl⟩ := fetch_eq_ok.1 hfetch
  refine ⟨c, hc, ?_⟩
  split at h
  · rename_i hdata
    rw [if_pos hdata]
    obtain ⟨_, s₁, hassign, h⟩ := Exec.bind_eq_ok.1 h
    rw [assign_eq hc] at hassign
    cases hassign
    unfold eventRemove at h
    cases root with
    | none => cases h
    | some root =>
      obtain ⟨c', s₁, hfetch, h⟩ := Exec.bind_eq_ok.1 h
      obtain ⟨-, rfl⟩ := fetch_eq_ok.1 hfetch
      cases h
      rfl
  · rename_i hdata
    rw [if_neg hdata]
    cases h
    rfl

private theorem close_unopened {root : Option ClientPtr} (h : close root client s = .ok ((), s')) :
    s'.Unopened client := by
  obtain ⟨c, hc, rfl⟩ := close_eq_ok h
  split
  · exact ⟨_, Function.update_self .., rfl⟩
  · rename_i hdata
    exact ⟨c, hc, by simpa using hdata⟩

private theorem Unopened.close {root : Option ClientPtr} (hb : s.Unopened b)
    (h : close root client s = .ok ((), s')) : s'.Unopened b := by
  by_cases hbc : b = client
  · rw [hbc]
    exact close_unopened h
  · obtain ⟨c, hc, rfl⟩ := close_eq_ok h
    obtain ⟨c', hc', hdata⟩ := hb
    split
    · exact ⟨c', by rw [← hc']; exact Function.update_of_ne hbc .., hdata⟩
    · exact ⟨c', hc', hdata⟩

private theorem Endless.close {root : Option ClientPtr} (hs : s.Endless)
    (h : close root client s = .ok ((), s')) : s'.Endless := by
  obtain ⟨c, hc, rfl⟩ := close_eq_ok h
  split
  · have hassign := assign_eq hc fun c => { c with data := false }
    obtain ⟨hclients, hnexts⟩ :=
      (hs.nexts.assign (f := fun c => { c with data := false }) fun _ _ hnext => hnext) _ _ hassign
    exact ⟨by rw [hclients]; exact hs.clients, hnexts⟩
  · exact hs

private theorem Unopened.accept (hb : s.Unopened b) (hne : client ≠ b) (fcntl : FcntlResults) :
    Exec.Ensures (accept client fcntl) s fun _ s' => s'.Unopened b := by
  have hfirst : Exec.Ensures (allocClient client) s fun _ s' => s'.Unopened b := by
    refine .modify ?_
    obtain ⟨c, hc, hdata⟩ := hb
    exact ⟨c, by rw [← hc]; exact Function.update_of_ne (Ne.symm hne) .., hdata⟩
  have hnew : Exec.Ensures (newClient client) s fun _ s' => s'.Unopened b := by
    unfold newClient
    refine hfirst.bind ?_
    intro _ s₁ h₁
    exact .get_bind (h₁.assignIf _ (by exact fun _ h => h))
  unfold ExcomServer.accept
  refine hnew.bind ?_
  intro _ s₂ h₂
  rw [if_neg (not_socketNonBlocking_neg fcntl)]
  refine (h₂.assign fun h => absurd h hne).bind ?_
  intro _ s₃ h₃
  refine .get_bind ?_
  refine (h₃.assign fun h => absurd h hne).bind ?_
  intro _ s₄ h₄
  exact .modify h₄

/-- A client that joins others closes a circle. -/
private theorem endless_accept (hclients : s.clients ≠ none)
    (hnexts : s.NextsBut fun b => s.clients = some b) (fcntl : FcntlResults) :
    Exec.Ensures (accept client fcntl) s fun _ s' => s'.Endless := by
  obtain ⟨head, hhead⟩ := Option.ne_none_iff_exists'.1 hclients
  have hfirst : Exec.Ensures (allocClient client) s fun _ s' =>
      s'.clients = some head ∧ s'.NextsBut fun b => b = head ∨ b = client := by
    refine .modify ⟨hhead, ?_⟩
    intro b c hc hp
    rw [not_or] at hp
    refine hnexts b c ((Function.update_of_ne hp.2 ..).symm.trans hc) ?_
    rw [hhead]
    simpa [eq_comm] using hp.1
  have hnew : Exec.Ensures (newClient client) s fun _ s' =>
      s'.clients = some head ∧ s'.NextsBut fun b => b = client := by
    unfold newClient
    refine hfirst.bind ?_
    intro _ s₁ ⟨hhead₁, h₁⟩
    refine .get_bind ?_
    rw [hhead₁]
    refine (NextsBut.assign_self h₁ (by exact fun _ => Option.some_ne_none _)).mono ?_
    intro _ s₂ ⟨hclients₂, h₂⟩
    refine ⟨hclients₂.trans hhead₁, ?_⟩
    intro b c hc hb
    exact h₂ b c hc fun ⟨hor, hne⟩ => hor.elim hne hb
  unfold ExcomServer.accept
  refine hnew.bind ?_
  intro _ s₂ ⟨hclients₂, h₂⟩
  rw [if_neg (not_socketNonBlocking_neg fcntl)]
  refine (NextsBut.assign h₂ (by exact fun _ _ h => h)).bind ?_
  intro _ s₃ ⟨hclients₃, h₃⟩
  refine .get_bind ?_
  rw [hclients₃, hclients₂]
  refine (NextsBut.assign_self h₃ (by exact fun _ => Option.some_ne_none _)).bind ?_
  intro _ s₄ ⟨_, h₄⟩
  refine .modify ⟨Option.some_ne_none _, ?_⟩
  intro b c hc _
  exact h₄ b c hc fun h => h.2 h.1

private theorem Unopened.disconnect (hb : s.Unopened b) (hne : b ≠ client) :
    Exec.Ensures (disconnect (some client)) s fun _ s' => s'.Unopened b := by
  have hhead : Exec.Ensures (unlinkHead client) s fun _ s' => s'.Unopened b := by
    unfold unlinkHead
    refine .get_bind ?_
    split
    · refine Exec.Ensures.bind (Q := fun _ s' => s'.Unopened b) ?_ ?_
      · intro c s₁ hfetch
        obtain ⟨-, rfl⟩ := fetch_eq_ok.1 hfetch
        exact hb
      · intro c s₁ h₁
        exact .modify h₁
    · exact .pure hb
  have hfetch {s : ExcomServer} (hb : s.Unopened b) :
    Exec.Ensures (fetch client) s fun _ s' => s'.Unopened b := by
    intro c s' hfetch
    obtain ⟨-, rfl⟩ := fetch_eq_ok.1 hfetch
    exact hb
  unfold ExcomServer.disconnect
  refine hhead.bind ?_
  intro _ s₁ h₁
  refine (hfetch h₁).bind ?_
  intro c s₂ h₂
  refine (h₂.assignIf _ (by exact fun _ h => h)).bind ?_
  intro _ s₃ h₃
  refine (hfetch h₃).bind ?_
  intro c' s₄ h₄
  refine (h₄.assignIf _ (by exact fun _ h => h)).bind ?_
  intro _ s₅ ⟨c₅, hc₅, hdata₅⟩
  exact .modify ⟨c₅, by rw [← hc₅]; exact Function.update_of_ne hne .., hdata₅⟩

private theorem Endless.assignIf (hs : s.Endless) (p : Option ClientPtr)
    (hf : ∀ c, c.next ≠ none → (f c).next ≠ none) : Exec.Ensures (assignIf p f) s fun _ s' => s'.Endless := by
  cases p with
  | none => exact .pure hs
  | some a =>
    refine (hs.nexts.assign fun _ => hf).mono ?_
    intro _ s' ⟨hclients, hnexts⟩
    exact ⟨by rw [hclients]; exact hs.clients, hnexts⟩

/-- A circle stays one when a client is taken out of it. -/
private theorem Endless.disconnect (hs : s.Endless) :
    Exec.Ensures (disconnect (some client)) s fun _ s' => s'.Endless := by
  have hfetch {s : ExcomServer} (hs : s.Endless) :
      Exec.Ensures (fetch client) s fun c s' => s'.Endless ∧ c.next ≠ none := by
    intro c s' hfetch
    obtain ⟨hc, rfl⟩ := fetch_eq_ok.1 hfetch
    exact ⟨hs, hs.nexts client c hc fun h => h⟩
  have hhead : Exec.Ensures (unlinkHead client) s fun _ s' => s'.Endless := by
    unfold unlinkHead
    refine .get_bind ?_
    split
    · refine (hfetch hs).bind ?_
      intro c s₁ ⟨h₁, hnext⟩
      exact .modify ⟨hnext, h₁.nexts⟩
    · exact .pure hs
  unfold ExcomServer.disconnect
  refine hhead.bind ?_
  intro _ s₁ h₁
  refine (hfetch h₁).bind ?_
  intro c s₂ ⟨h₂, hnext⟩
  refine (h₂.assignIf _ (by exact fun _ _ => hnext)).bind ?_
  intro _ s₃ h₃
  refine (hfetch h₃).bind ?_
  intro c' s₄ ⟨h₄, _⟩
  refine (h₄.assignIf _ (by exact fun _ h => h)).bind ?_
  intro _ s₅ h₅
  refine .modify ⟨h₅.clients, ?_⟩
  intro b c₅ hc₅
  by_cases hb : b = client
  · subst hb
    have hnone : Function.update s₅.heap b none b = some c₅ := hc₅
    rw [Function.update_self] at hnone
    cases hnone
  · exact h₅.nexts b c₅ ((Function.update_of_ne hb ..).symm.trans hc₅)

end ExcomServer

namespace Life

variable {s s' : Life} {server : ExcomServer} {client r : ClientPtr} {fd : Fd}

/-! ### System calls that return -/

theorem onServer_eq_ok {α : Type} {x : ServerM α} {a : α} :
    onServer x s = .ok (a, s') ↔ ∃ server, x s.server = .ok (a, server) ∧ s' = { s with server } :=
  Exec.zoom_eq_ok

private theorem fetch_eq_ok {c : ServerClient} :
    onServer (ExcomServer.fetch client) s = .ok (c, s') ↔ s.server.heap client = some c ∧ s = s' := by
  rw [onServer_eq_ok]
  constructor
  · rintro ⟨server, hfetch, rfl⟩
    obtain ⟨hc, rfl⟩ := ExcomServer.fetch_eq_ok.1 hfetch
    exact ⟨hc, rfl⟩
  · rintro ⟨hc, rfl⟩
    exact ⟨s.server, ExcomServer.fetch_eq hc, rfl⟩

private theorem openFd_eq_ok :
    openFd fd s = .ok ((), s') ↔ ∃ fds, s.fds.acquire fd = some fds ∧ { s with fds } = s' :=
  Exec.attempt_eq_ok.trans Option.map_eq_some_iff

theorem useFd_eq_ok : useFd fd s = .ok ((), s') ↔ s.fds.Live fd ∧ s = s' := by
  refine Exec.attempt_eq_ok.trans ?_
  split <;> simp [*]

private theorem closeFd_eq_ok :
    closeFd fd s = .ok ((), s') ↔ ∃ fds, s.fds.release fd = some fds ∧ { s with fds } = s' :=
  Exec.attempt_eq_ok.trans Option.map_eq_some_iff

private theorem mallocClient_eq_ok : mallocClient client s = .ok ((), s') ↔
    ∃ records, s.records.acquire client = some records ∧ { s with records } = s' :=
  Exec.attempt_eq_ok.trans Option.map_eq_some_iff

private theorem freeClient_eq_ok : freeClient client s = .ok ((), s') ↔
    ∃ records, s.records.release client = some records ∧ { s with records } = s' :=
  Exec.attempt_eq_ok.trans Option.map_eq_some_iff

private theorem disconnect_eq_ok (h : disconnect fd client s = .ok ((), s')) :
    ∃ server records fds, ExcomServer.disconnect (some client) s.server = .ok ((), server) ∧
      s.records.release client = some records ∧ s.fds.release fd = some fds ∧
      s' = { s with server, records, fds } := by
  unfold disconnect at h
  obtain ⟨⟨⟩, s₁, hdisconnect, h⟩ := Exec.bind_eq_ok.1 h
  obtain ⟨server, hserver, rfl⟩ := onServer_eq_ok.1 hdisconnect
  obtain ⟨⟨⟩, s₂, hfree, h⟩ := Exec.bind_eq_ok.1 h
  obtain ⟨records, hrecords, rfl⟩ := freeClient_eq_ok.1 hfree
  obtain ⟨fds, hfds, rfl⟩ := closeFd_eq_ok.1 h
  exact ⟨server, records, fds, hserver, hrecords, hfds, rfl⟩

/-! ### `excom_server_client_read` -/

/-- A loop of reads ends where it began, but for a connection that is ended with its `0`. -/
private theorem clientRead_ensures {root : Option ClientPtr} {ending : ReadEnd} {chunks : Nat}
    (h : clientRead root client fd ending chunks s = .ok ((), s')) :
    ∃ c, s.server.heap client = some c ∧
      (if c.data = true ∧ ending = .eof then
        ∃ server fds, ExcomServer.close root client s.server = .ok ((), server) ∧ s.fds.release fd = some fds ∧
          s' = { s with server, fds }
      else s' = s) := by
  induction chunks with
  | zero =>
    unfold clientRead at h
    obtain ⟨c, s₁, hfetch, h⟩ := Exec.bind_eq_ok.1 h
    obtain ⟨hc, rfl⟩ := fetch_eq_ok.1 hfetch
    refine ⟨c, hc, ?_⟩
    by_cases hdata : c.data = true
    swap
    · rw [if_neg hdata] at h
      rw [if_neg fun hand => hdata hand.1]
      cases h
      rfl
    rw [if_pos hdata] at h
    obtain ⟨⟨⟩, s₂, huse, h⟩ := Exec.bind_eq_ok.1 h
    obtain ⟨-, rfl⟩ := useFd_eq_ok.1 huse
    cases ending with
    | error errno =>
      rw [if_neg (by simp)]
      cases h
      rfl
    | eof =>
      rw [if_pos ⟨hdata, rfl⟩]
      obtain ⟨⟨⟩, s₃, hclose, h⟩ := Exec.bind_eq_ok.1 h
      obtain ⟨server, hserver, rfl⟩ := onServer_eq_ok.1 hclose
      obtain ⟨fds, hrelease, rfl⟩ := closeFd_eq_ok.1 h
      exact ⟨server, fds, hserver, hrelease, rfl⟩
  | succ chunks ih =>
    unfold clientRead at h
    obtain ⟨c, s₁, hfetch, h⟩ := Exec.bind_eq_ok.1 h
    obtain ⟨hc, rfl⟩ := fetch_eq_ok.1 hfetch
    by_cases hdata : c.data = true
    · rw [if_pos hdata] at h
      obtain ⟨⟨⟩, s₂, huse, h⟩ := Exec.bind_eq_ok.1 h
      obtain ⟨-, rfl⟩ := useFd_eq_ok.1 huse
      exact ih h
    · refine ⟨c, hc, ?_⟩
      rw [if_neg hdata] at h
      rw [if_neg fun hand => hdata hand.1]
      cases h
      rfl

private theorem clientRead_eq {root : Option ClientPtr} {ending : ReadEnd} {c : ServerClient}
    (hc : s.server.heap client = some c) (hlive : s.fds.Live fd) (hending : ending ≠ .eof) (chunks : Nat) :
    clientRead root client fd ending chunks s = .ok ((), s) := by
  have hfetch : onServer (ExcomServer.fetch client) s = .ok (c, s) :=
    fetch_eq_ok.2 ⟨hc, rfl⟩
  have huse : useFd fd s = .ok ((), s) := useFd_eq_ok.2 ⟨hlive, rfl⟩
  induction chunks with
  | zero =>
    unfold clientRead
    rw [Exec.bind_of_ok hfetch]
    split
    · rw [Exec.bind_of_ok huse]
      cases ending with
      | error errno => rfl
      | eof => exact absurd rfl hending
    · rfl
  | succ chunks ih =>
    unfold clientRead
    rw [Exec.bind_of_ok hfetch]
    split
    · rw [Exec.bind_of_ok huse]
      exact ih
    · rfl

private theorem clientWrite_eq_ok {unsent : Bool} (h : clientWrite client unsent s = .ok ((), s')) :
    s' = s := by
  unfold clientWrite at h
  obtain ⟨c, s₁, hfetch, h⟩ := Exec.bind_eq_ok.1 h
  obtain ⟨-, rfl⟩ := fetch_eq_ok.1 hfetch
  split at h
  · rw [Exec.bind_of_ok (Exec.get_apply _)] at h
    obtain ⟨-, rfl⟩ := useFd_eq_ok.1 h
    rfl
  · cases h
    rfl

private theorem clientWrite_eq {c : ServerClient} (hc : s.server.heap client = some c)
    (hlive : s.fds.Live (s.eventFd client)) (unsent : Bool) : clientWrite client unsent s = .ok ((), s) := by
  unfold clientWrite
  rw [Exec.bind_of_ok (fetch_eq_ok.2 ⟨hc, rfl⟩)]
  split
  · rw [Exec.bind_of_ok (Exec.get_apply _)]
    exact useFd_eq_ok.2 ⟨hlive, rfl⟩
  · rfl

/-! ### Runs in order -/

/-- The server has at most one client, which has a connection, and holds its own socket and that of the
client. -/
structure InOrder (s : Life) (cs : Option ClientPtr) : Prop where
  clients : s.server.clients = cs
  heap : ∀ b, s.server.heap b = if cs = some b then some ⟨⟨none, none⟩, true⟩ else none
  fds : ∀ fd, s.fds.Live fd ↔ fd = s.sock ∨ ∃ c, cs = some c ∧ s.eventFd c = fd
  eventFd_ne : ∀ c, cs = some c → s.eventFd c ≠ s.sock
  records : ∀ b, s.records.Live b ↔ cs = some b

private theorem start_inOrder (sock : Fd) : (start sock).InOrder none := by
  refine ⟨rfl, fun b => rfl, ?_, fun c hc => (nomatch hc), ?_⟩
  · intro fd
    show List.count fd [] < List.count fd [sock] ↔ _
    by_cases hfd : fd = sock
    · simp [hfd, start]
    · simp [hfd, start, List.count_eq_zero_of_not_mem]
  · intro b
    simp [start, Ledger.not_live_empty]

private theorem InOrder.accept (h : s.InOrder none) (client : ClientPtr) (fcntl : FcntlResults)
    (root : Option ClientPtr) (hfd : ¬ s.fds.Live fd) {reads : ReadResults} (hending : reads.ending ≠ .eof) :
    ∃ s', accept fd client fcntl root reads s = .ok ((), s') ∧ s'.InOrder (some client) := by
  have hrecord : ¬ s.records.Live client := by
    rw [h.records]
    simp
  obtain ⟨fds, hfds⟩ := Option.isSome_iff_exists.1 (Ledger.acquire_isSome.2 hfd)
  obtain ⟨records, hrecords⟩ := Option.isSome_iff_exists.1 (Ledger.acquire_isSome.2 hrecord)
  have hfresh : s.server.heap client = none := h.heap client
  obtain ⟨server, haccept, hclients, hclient, hother⟩ := ExcomServer.accept_returns fcntl hfresh (by
    intro head hhead
    rw [h.clients] at hhead
    cases hhead)
  rw [h.clients] at hclient
  let s' : Life := { s with server, fds, records, eventFd := Function.update s.eventFd client fd }
  have hlive : s'.fds.Live fd := (Ledger.live_of_acquire hfds).2 (.inl rfl)
  have hne : fd ≠ s.sock := by
    rintro rfl
    exact hfd ((h.fds s.sock).2 (.inl rfl))
  refine ⟨s', ?_, ?_⟩
  · have hopen : openFd fd s = .ok ((), { s with fds }) := openFd_eq_ok.2 ⟨fds, hfds, rfl⟩
    have hmalloc : mallocClient client { s with fds } = .ok ((), { s with fds, records }) :=
      mallocClient_eq_ok.2 ⟨records, hrecords, rfl⟩
    have huse : useFd fd { s' with server := s.server } = .ok ((), { s' with server := s.server }) :=
      useFd_eq_ok.2 ⟨hlive, rfl⟩
    have hserver : onServer (ExcomServer.accept client fcntl) { s' with server := s.server } = .ok ((), s') :=
      onServer_eq_ok.2 ⟨server, haccept, rfl⟩
    unfold Life.accept
    refine (Exec.bind_of_ok hopen _).trans ((Exec.bind_of_ok hmalloc _).trans ?_)
    refine (Exec.bind_of_ok (Exec.modify_apply _ _) _).trans ((Exec.bind_of_ok huse _).trans ?_)
    refine (Exec.bind_of_ok hserver _).trans ?_
    rw [if_neg (not_socketNonBlocking_neg fcntl)]
    exact clientRead_eq (s := s') hclient hlive hending reads.chunks
  · refine ⟨hclients, ?_, ?_, ?_, ?_⟩
    · intro b
      by_cases hb : b = client
      · rw [hb, if_pos rfl]
        exact hclient
      · rw [if_neg (by simpa [eq_comm] using hb), hother b hb (by simp [h.clients])]
        exact h.heap b
    · intro fd'
      refine (Ledger.live_of_acquire hfds).trans ?_
      rw [h.fds]
      simp [s', or_comm, eq_comm]
    · rintro c ⟨⟩
      show Function.update s.eventFd client fd client ≠ s.sock
      rw [Function.update_self]
      exact hne
    · intro b
      refine (Ledger.live_of_acquire hrecords).trans ?_
      rw [h.records]
      simp [eq_comm]

/-- The only client of the list is taken out of it. -/
private theorem disconnect_only {s : ExcomServer} {data : Bool} (hclients : s.clients = some client)
    (hheap : ∀ b, s.heap b = if b = client then some ⟨⟨none, none⟩, data⟩ else none) :
    ∃ s', ExcomServer.disconnect (some client) s = .ok ((), s') ∧ s'.clients = none ∧
      ∀ b, s'.heap b = none := by
  have hlinks : s.links client = some ⟨none, none⟩ := by
    rw [ExcomServer.links, hheap, if_pos rfl]
    rfl
  have hlist : DList s.links s.clients ([] ++ client :: []) := by
    refine ⟨⟨some client, hclients, none, hlinks, rfl, rfl⟩, by simp, ?_⟩
    intro b
    rw [ExcomServer.isSome_links, hheap]
    by_cases hb : b = client <;> simp [hb]
  obtain ⟨s', hrun, hempty, -⟩ := ExcomServer.disconnect_returns hlist
  have hempty : DList s'.links s'.clients [] := hempty
  refine ⟨s', hrun, hempty.head_eq, ?_⟩
  intro b
  have hb := (hempty.mem_iff b).not
  rw [ExcomServer.isSome_links] at hb
  simpa using hb

private theorem InOrder.close (h : s.InOrder (some client)) :
    ∃ s', (do
        onServer (ExcomServer.close (some client) client)
        disconnect (s.eventFd client) client) s = .ok ((), s') ∧ s'.InOrder none := by
  have hclient : s.server.heap client = some ⟨⟨none, none⟩, true⟩ := (h.heap client).trans (if_pos rfl)
  have hlive : s.fds.Live (s.eventFd client) := (h.fds _).2 (.inr ⟨client, rfl, rfl⟩)
  let closed : ExcomServer :=
    { s.server with heap := Function.update s.server.heap client (some ⟨⟨none, none⟩, false⟩) }
  have hclose : ExcomServer.close (some client) client s.server = .ok ((), closed) := by
    unfold ExcomServer.close
    refine (Exec.bind_of_ok (ExcomServer.fetch_eq hclient) _).trans ?_
    refine (Exec.bind_of_ok (ExcomServer.assign_eq hclient _) _).trans ?_
    exact Exec.bind_of_ok (ExcomServer.fetch_eq (Function.update_self ..)) _
  have hclosed : ∀ b, closed.heap b = if b = client then some ⟨⟨none, none⟩, false⟩ else none := by
    intro b
    show Function.update s.server.heap client _ b = _
    by_cases hb : b = client
    · rw [hb, Function.update_self, if_pos rfl]
    · rw [Function.update_of_ne hb, if_neg hb, h.heap, if_neg (by simpa [eq_comm] using hb)]
  obtain ⟨server, hdisconnect, hclients, hheap⟩ := disconnect_only (s := closed) h.clients hclosed
  obtain ⟨records, hrecords⟩ := Option.isSome_iff_exists.1 (Ledger.release_isSome.2 ((h.records client).2 rfl))
  obtain ⟨fds, hfds⟩ := Option.isSome_iff_exists.1 (Ledger.release_isSome.2 hlive)
  have hclose' : onServer (ExcomServer.close (some client) client) s = .ok ((), { s with server := closed }) :=
    onServer_eq_ok.2 ⟨closed, hclose, rfl⟩
  have hdisconnect' : onServer (ExcomServer.disconnect (some client)) { s with server := closed } =
      .ok ((), { s with server }) := onServer_eq_ok.2 ⟨server, hdisconnect, rfl⟩
  have hfree : freeClient client { s with server } = .ok ((), { s with server, records }) :=
    freeClient_eq_ok.2 ⟨records, hrecords, rfl⟩
  refine ⟨{ s with server, records, fds }, ?_, hclients, hheap, ?_, fun c hc => (nomatch hc), ?_⟩
  · unfold disconnect
    refine (Exec.bind_of_ok hclose' _).trans ((Exec.bind_of_ok hdisconnect' _).trans ?_)
    refine (Exec.bind_of_ok hfree _).trans ?_
    exact closeFd_eq_ok.2 ⟨fds, hfds, rfl⟩
  · intro fd
    refine (Ledger.live_of_release hfds).trans ?_
    rw [h.fds]
    constructor
    · rintro ⟨hne, hsock | ⟨c, hc, hfd⟩⟩
      · exact .inl hsock
      · cases hc
        exact absurd hfd.symm hne
    · rintro (hsock | ⟨c, hc, -⟩)
      · refine ⟨?_, .inl hsock⟩
        rw [hsock]
        exact (h.eventFd_ne client rfl).symm
      · cases hc
  · intro b
    refine (Ledger.live_of_release hrecords).trans ?_
    rw [h.records]
    constructor
    · rintro ⟨hne, hb⟩
      cases hb
      exact absurd rfl hne
    · intro hb
      cases hb

private theorem InOrder.event (h : s.InOrder (some client)) {flags : Flags} {reads : ReadResults}
    (hending : flags.read = true → reads.ending ≠ .eof) (unsent : Bool) :
    ∃ s', onEvent client flags reads unsent s = .ok ((), s') ∧
      s'.InOrder (if flags.close then none else some client) := by
  have hclient : s.server.heap client = some ⟨⟨none, none⟩, true⟩ := (h.heap client).trans (if_pos rfl)
  have hlive : s.fds.Live (s.eventFd client) := (h.fds _).2 (.inr ⟨client, rfl, rfl⟩)
  -- without an end of file neither of the two closes the connection
  have hread : (if flags.read then clientRead (some client) client (s.eventFd client) reads.ending reads.chunks
      else pure ()) s = .ok ((), s) := by
    split
    · rename_i hflag
      exact clientRead_eq hclient hlive (hending hflag) reads.chunks
    · rfl
  have hwrite : (if flags.write then clientWrite client unsent else pure ()) s = .ok ((), s) := by
    split
    · exact clientWrite_eq hclient hlive unsent
    · rfl
  unfold onEvent
  rw [Exec.bind_of_ok (Exec.get_apply s)]
  rw [Exec.bind_of_ok hread, Exec.bind_of_ok hwrite]
  by_cases hflag : flags.close = true
  · rw [if_pos hflag, if_pos hflag]
    exact h.close
  · rw [if_neg hflag, if_neg hflag]
    exact ⟨s, rfl, h⟩

/-! ### `excom_server_destroy` -/

/-- Without clients, the socket of the server is what is left to close. -/
private theorem InOrder.destroy (h : s.InOrder none) :
    ∃ n s', destroy n s = .ok ((), s') ∧ s'.fds.Settled ∧ s'.records.Settled := by
  have hlive : s.fds.Live s.sock := (h.fds _).2 (.inl rfl)
  obtain ⟨fds, hfds⟩ := Option.isSome_iff_exists.1 (Ledger.release_isSome.2 hlive)
  refine ⟨1, { s with server := { s.server with clients := none }, fds }, ?_, ?_, ?_⟩
  · unfold Life.destroy
    rw [Exec.bind_of_ok (Exec.get_apply s), h.clients]
    refine (Exec.bind_of_ok (Exec.loop_last rfl) _).trans ?_
    refine (Exec.bind_of_ok (Exec.modify_apply _ _) _).trans ?_
    exact closeFd_eq_ok.2 ⟨fds, hfds, rfl⟩
  · rw [Ledger.settled_iff]
    intro fd hfd
    rw [Ledger.live_of_release hfds, h.fds] at hfd
    simp at hfd
  · rw [Ledger.settled_iff]
    intro b hb
    rw [h.records] at hb
    cases hb

private theorem destroyTurn_ensures {t : Life} (b : Option ClientPtr) (hsock : t.sock = fd)
    (hnone : b = none → ¬ t.fds.Live fd) :
    Exec.Ensures (destroyTurn b) t fun r t' =>
      if r.2 then t'.sock = fd ∧ (r.1 = none → ¬ t'.fds.Live fd) else ¬ t'.fds.Live fd := by
  cases b with
  | none => exact .pure (hnone rfl)
  | some client =>
    intro r t' hturn
    unfold destroyTurn at hturn
    obtain ⟨c, t₁, hfetch, hturn⟩ := Exec.bind_eq_ok.1 hturn
    obtain ⟨-, rfl⟩ := fetch_eq_ok.1 hfetch
    obtain ⟨⟨⟩, t₂, hclose, hturn⟩ := Exec.bind_eq_ok.1 hturn
    obtain ⟨server₂, -, rfl⟩ := onServer_eq_ok.1 hclose
    rw [Exec.bind_of_ok (Exec.get_apply _)] at hturn
    obtain ⟨⟨⟩, t₃, hdisconnect, hturn⟩ := Exec.bind_eq_ok.1 hturn
    cases hturn
    obtain ⟨server₃, records, fds, -, -, hfds, rfl⟩ := disconnect_eq_ok hdisconnect
    have hclosed : ¬ fds.Live fd := by
      rw [Ledger.live_of_release hfds, hsock]
      exact fun h => h.1 rfl
    exact ⟨hsock, fun _ => hclosed⟩

/-- With a client on the list, the socket of the server would be closed twice. -/
private theorem not_destroy_of_clients (hclients : s.server.clients ≠ none) (n : Nat) :
    destroy n s ≠ .ok ((), s') := by
  intro hrun
  unfold destroy at hrun
  rw [Exec.bind_of_ok (Exec.get_apply s)] at hrun
  obtain ⟨last, s₁, hloop, hrun⟩ := Exec.bind_eq_ok.1 hrun
  have hclosed : ¬ s₁.fds.Live s.sock := by
    have hensures : Exec.Ensures (Exec.loop (LifeFault.server .diverges) destroyTurn n s.server.clients) s
        fun _ t => ¬ t.fds.Live s.sock := by
      refine Exec.loop_ensures (I := fun b t => t.sock = s.sock ∧ (b = none → ¬ t.fds.Live s.sock)) ?_
        ⟨rfl, fun h => absurd h hclients⟩
      exact fun b t h => destroyTurn_ensures b h.1 h.2
    exact hensures _ _ hloop
  obtain ⟨⟨⟩, s₂, hmodify, hrun⟩ := Exec.bind_eq_ok.1 hrun
  cases hmodify
  obtain ⟨fds, hfds, -⟩ := closeFd_eq_ok.1 hrun
  exact hclosed (Ledger.release_isSome.1 (by rw [hfds]; rfl))

/-! ### Runs out of order -/

/-- A record without a connection is still allocated; no event will come for it. -/
def Stray (s : Life) (r : ClientPtr) : Prop := s.records.Live r ∧ s.server.Unopened r

/-- What no run recovers from -/
def Doomed (s : Life) : Prop := (∃ r, s.Stray r) ∨ s.server.Endless

private theorem Stray.clientRead {root : Option ClientPtr} {ending : ReadEnd} {chunks : Nat} (hs : s.Stray r)
    (h : clientRead root client fd ending chunks s = .ok ((), s')) : s'.Stray r := by
  obtain ⟨c, -, h⟩ := clientRead_ensures h
  split at h
  · obtain ⟨server, fds, hclose, -, rfl⟩ := h
    exact ⟨hs.1, hs.2.close hclose⟩
  · rw [h]
    exact hs

/-- After the `0` of `read` the record has no connection. -/
private theorem stray_of_eof {root : Option ClientPtr} {chunks : Nat} (hs : s.records.Live client)
    (h : clientRead root client fd .eof chunks s = .ok ((), s')) : s'.Stray client := by
  obtain ⟨c, hc, h⟩ := clientRead_ensures h
  split at h
  · obtain ⟨server, fds, hclose, -, rfl⟩ := h
    exact ⟨hs, ExcomServer.close_unopened hclose⟩
  · rename_i hdata
    rw [h]
    exact ⟨hs, c, hc, by simpa using hdata⟩

private theorem endless_clientRead {root : Option ClientPtr} {ending : ReadEnd} {chunks : Nat}
    (hs : s.server.Endless)
    (h : clientRead root client fd ending chunks s = .ok ((), s')) : s'.server.Endless := by
  obtain ⟨c, -, h⟩ := clientRead_ensures h
  split at h
  · obtain ⟨server, fds, hclose, -, rfl⟩ := h
    exact hs.close hclose
  · rw [h]
    exact hs

private theorem accept_eq_ok {fcntl : FcntlResults} {root : Option ClientPtr} {reads : ReadResults}
    (h : accept fd client fcntl root reads s = .ok ((), s')) :
    ∃ fds records server, s.records.acquire client = some records ∧
      ExcomServer.accept client fcntl s.server = .ok ((), server) ∧
      Life.clientRead root client fd reads.ending reads.chunks
        { s with server, fds, records, eventFd := Function.update s.eventFd client fd } = .ok ((), s') := by
  unfold accept at h
  obtain ⟨⟨⟩, s₁, hopen, h⟩ := Exec.bind_eq_ok.1 h
  obtain ⟨fds, -, rfl⟩ := openFd_eq_ok.1 hopen
  obtain ⟨⟨⟩, s₂, hmalloc, h⟩ := Exec.bind_eq_ok.1 h
  obtain ⟨records, hrecords, rfl⟩ := mallocClient_eq_ok.1 hmalloc
  obtain ⟨⟨⟩, s₃, hmodify, h⟩ := Exec.bind_eq_ok.1 h
  cases hmodify
  obtain ⟨⟨⟩, s₄, huse, h⟩ := Exec.bind_eq_ok.1 h
  obtain ⟨-, rfl⟩ := useFd_eq_ok.1 huse
  obtain ⟨⟨⟩, s₅, haccept, h⟩ := Exec.bind_eq_ok.1 h
  obtain ⟨server, hserver, rfl⟩ := onServer_eq_ok.1 haccept
  rw [if_neg (not_socketNonBlocking_neg fcntl)] at h
  exact ⟨fds, records, server, hrecords, hserver, h⟩

private theorem stray_of_accept_eof {fcntl : FcntlResults} {root : Option ClientPtr} {chunks : Nat}
    (h : accept fd client fcntl root ⟨chunks, .eof⟩ s = .ok ((), s')) : s'.Stray client := by
  obtain ⟨fds, records, server, hrecords, -, h⟩ := accept_eq_ok h
  exact stray_of_eof ((Ledger.live_of_acquire hrecords).2 (.inl rfl)) h

/-- A client that is accepted while there are others makes a circle of the list. -/
private theorem doomed_of_accept {root : Option ClientPtr} {reads : ReadResults}
    (hclients : s.server.clients ≠ none)
    (hnexts : s.server.NextsBut fun b => s.server.clients = some b) {fcntl : FcntlResults}
    (h : accept fd client fcntl root reads s = .ok ((), s')) : s'.Doomed := by
  obtain ⟨fds, records, server, -, hserver, h⟩ := accept_eq_ok h
  have hendless : server.Endless := ExcomServer.endless_accept hclients hnexts fcntl _ _ hserver
  exact .inr (endless_clientRead hendless h)

private theorem Doomed.accept (hs : s.Doomed) (hfresh : s.server.heap client = none) {fcntl : FcntlResults}
    {root : Option ClientPtr} {reads : ReadResults}
    (h : accept fd client fcntl root reads s = .ok ((), s')) : s'.Doomed := by
  rcases hs with ⟨r, hlive, hunopened⟩ | hs
  · obtain ⟨fds, records, server, hrecords, hserver, h⟩ := accept_eq_ok h
    have hne : client ≠ r := by
      rintro rfl
      obtain ⟨c, hc, -⟩ := hunopened
      rw [hfresh] at hc
      cases hc
    have hstray :
        ({ s with server, fds, records, eventFd := Function.update s.eventFd client fd } : Life).Stray r :=
      ⟨(Ledger.live_of_acquire hrecords).2 (.inr hlive), hunopened.accept hne fcntl _ _ hserver⟩
    exact .inl ⟨r, hstray.clientRead h⟩
  · exact doomed_of_accept hs.clients (fun b c hc _ => hs.nexts b c hc fun h => h) h

private theorem onEvent_eq_ok {flags : Flags} {reads : ReadResults} {unsent : Bool}
    (h : onEvent client flags reads unsent s = .ok ((), s')) :
    ∃ s₁, (if flags.read then Life.clientRead (some client) client (s.eventFd client) reads.ending reads.chunks
        else pure ()) s = .ok ((), s₁) ∧
      (if flags.close then
        ∃ server, ExcomServer.close (some client) client s₁.server = .ok ((), server) ∧
          disconnect (s.eventFd client) client { s₁ with server } = .ok ((), s')
      else s' = s₁) := by
  unfold onEvent at h
  rw [Exec.bind_of_ok (Exec.get_apply s)] at h
  obtain ⟨⟨⟩, s₁, hread, hrest⟩ := Exec.bind_eq_ok.1 h
  obtain ⟨⟨⟩, s₂, hwrite, hlast⟩ := Exec.bind_eq_ok.1 hrest
  have hsame : s₂ = s₁ := by
    split at hwrite
    · exact clientWrite_eq_ok hwrite
    · cases hwrite
      rfl
  refine ⟨s₁, hread, ?_⟩
  rw [hsame] at hlast
  by_cases hflag : flags.close = true
  · rw [if_pos hflag] at hlast ⊢
    obtain ⟨⟨⟩, s₃, hclose, hdisconnect⟩ := Exec.bind_eq_ok.1 hlast
    obtain ⟨server, hserver, rfl⟩ := onServer_eq_ok.1 hclose
    exact ⟨server, hserver, hdisconnect⟩
  · rw [if_neg hflag] at hlast ⊢
    cases hlast
    rfl

private theorem Doomed.event (hs : s.Doomed) (hopened : s.server.Opened client) {flags : Flags}
    {reads : ReadResults}
    {unsent : Bool} (h : onEvent client flags reads unsent s = .ok ((), s')) : s'.Doomed := by
  obtain ⟨s₁, hread, h⟩ := onEvent_eq_ok h
  rcases hs with ⟨r, hr⟩ | hs
  · have hne : r ≠ client := by
      rintro rfl
      obtain ⟨c, hc, hdata⟩ := hopened
      obtain ⟨c', hc', hdata'⟩ := hr.2
      rw [hc] at hc'
      cases hc'
      rw [hdata] at hdata'
      cases hdata'
    have hr₁ : s₁.Stray r := by
      split at hread
      · exact hr.clientRead hread
      · cases hread
        exact hr
    left
    split at h
    · obtain ⟨server, hclose, hdisconnect⟩ := h
      obtain ⟨server', records, fds, hserver, hrecords, -, rfl⟩ := disconnect_eq_ok hdisconnect
      exact ⟨r, (Ledger.live_of_release hrecords).2 ⟨hne, hr₁.1⟩,
        (hr₁.2.close hclose).disconnect hne _ _ hserver⟩
    · rw [h]
      exact ⟨r, hr₁⟩
  · have hs₁ : s₁.server.Endless := by
      split at hread
      · exact endless_clientRead hs hread
      · cases hread
        exact hs
    right
    split at h
    · obtain ⟨server, hclose, hdisconnect⟩ := h
      obtain ⟨server', records, fds, hserver, -, -, rfl⟩ := disconnect_eq_ok hdisconnect
      exact (hs₁.close hclose).disconnect _ _ hserver
    · rw [h]
      exact hs₁

/-- An event that brings the `0` of `read` to the only client: with `EXCOM_EVENT_CLOSE` its socket is closed
again. -/
private theorem stray_of_event (h : s.InOrder (some client)) {flags : Flags} (hread : flags.read = true)
    {chunks : Nat}
    {unsent : Bool} (hrun : onEvent client flags ⟨chunks, .eof⟩ unsent s = .ok ((), s')) : s'.Stray client := by
  obtain ⟨s₁, hread₁, hrun⟩ := onEvent_eq_ok hrun
  rw [if_pos hread] at hread₁
  have hstray : s₁.Stray client := stray_of_eof ((h.records client).2 rfl) hread₁
  split at hrun
  · obtain ⟨server, -, hdisconnect⟩ := hrun
    obtain ⟨server', records, fds, -, -, hfds, -⟩ := disconnect_eq_ok hdisconnect
    obtain ⟨c, hc, hread₁⟩ := clientRead_ensures hread₁
    rw [h.heap, if_pos rfl] at hc
    cases hc
    rw [if_pos ⟨rfl, rfl⟩] at hread₁
    obtain ⟨server₁, fds₁, -, hfds₁, rfl⟩ := hread₁
    have hlive : fds₁.Live (s.eventFd client) := Ledger.release_isSome.1 (by rw [hfds]; rfl)
    exact absurd rfl ((Ledger.live_of_release hfds₁).1 hlive).1
  · rw [hrun]
    exact hstray

private theorem InOrder.nexts {cs : Option ClientPtr} (h : s.InOrder cs) :
    s.server.NextsBut fun b => s.server.clients = some b := by
  intro b c hc hne
  rw [h.clients] at hne
  rw [h.heap, if_neg hne] at hc
  cases hc

private theorem InOrder.opened {cs : Option ClientPtr} (h : s.InOrder cs) (hopened : s.server.Opened client) :
    cs = some client := by
  obtain ⟨c, hc, -⟩ := hopened
  by_contra hne
  rw [h.heap, if_neg hne] at hc
  cases hc

private theorem InOrder.op {cs : Option ClientPtr} (h : s.InOrder cs) {op : Op} (hop : Possible s op)
    (horderly : OrderlyOp s op) : ∃ s' cs', op.run s = .ok ((), s') ∧ s'.InOrder cs' := by
  cases op with
  | accept fd client fcntl root reads =>
    obtain ⟨hclients, hending⟩ := horderly
    obtain rfl : cs = none := h.clients.symm.trans hclients
    obtain ⟨s', hrun, h'⟩ := h.accept client fcntl root hop.1 hending
    exact ⟨s', _, hrun, h'⟩
  | event client flags reads unsent =>
    obtain rfl : cs = some client := h.opened hop
    obtain ⟨s', hrun, h'⟩ := h.event horderly unsent
    exact ⟨s', _, hrun, h'⟩

private theorem InOrder.doomed {cs : Option ClientPtr} (h : s.InOrder cs) {op : Op} (hop : Possible s op)
    (horderly : ¬ OrderlyOp s op) (hrun : op.run s = .ok ((), s')) : s'.Doomed := by
  cases op with
  | accept fd client fcntl root reads =>
    have hrun : Life.accept fd client fcntl root reads s = .ok ((), s') := hrun
    by_cases hclients : s.server.clients = none
    swap
    · exact doomed_of_accept hclients h.nexts hrun
    obtain ⟨chunks, ending⟩ := reads
    obtain rfl : ending = .eof := by
      by_contra hne
      exact horderly ⟨hclients, hne⟩
    exact .inl ⟨client, stray_of_accept_eof hrun⟩
  | event client flags reads unsent =>
    have hrun : onEvent client flags reads unsent s = .ok ((), s') := hrun
    obtain rfl : cs = some client := h.opened hop
    obtain ⟨chunks, ending⟩ := reads
    have hnot : ¬ (flags.read = true → ending ≠ .eof) := horderly
    rw [Classical.not_imp, not_not] at hnot
    obtain ⟨hread, rfl⟩ := hnot
    exact .inl ⟨client, stray_of_event h hread hrun⟩

/-! ### Whole runs -/

private theorem destroy_records {n : Nat} (hclients : s.server.clients = none)
    (h : destroy n s = .ok ((), s')) : s'.records = s.records := by
  unfold destroy at h
  rw [Exec.bind_of_ok (Exec.get_apply s), hclients] at h
  obtain ⟨last, s₁, hloop, hrest⟩ := Exec.bind_eq_ok.1 h
  have hsame : s₁ = s := by
    cases n with
    | zero => cases hloop
    | succ n =>
      rw [Exec.loop_last rfl] at hloop
      cases hloop
      rfl
  obtain ⟨⟨⟩, s₂, hmodify, hclose⟩ := Exec.bind_eq_ok.1 hrest
  cases hmodify
  obtain ⟨fds, -, rfl⟩ := closeFd_eq_ok.1 hclose
  rw [hsame]

private theorem clean_nil :
    Clean s [] ↔ ∃ n s', destroy n s = .ok ((), s') ∧ s'.fds.Settled ∧ s'.records.Settled :=
  Iff.rfl

private theorem clean_cons {op : Op} {ops : List Op} :
    Clean s (op :: ops) ↔ ∃ s', op.run s = .ok ((), s') ∧ Clean s' ops := by
  unfold Clean
  constructor
  · rintro ⟨n, s', hrun, hsettled⟩
    obtain ⟨⟨⟩, s₁, hall, hdestroy⟩ := Exec.bind_eq_ok.1 hrun
    obtain ⟨⟨⟩, s₂, hop, hrest⟩ := Exec.bind_eq_ok.1 hall
    exact ⟨s₂, hop, n, s', (Exec.bind_of_ok hrest _).trans hdestroy, hsettled⟩
  · rintro ⟨s₂, hop, n, s', hrun, hsettled⟩
    obtain ⟨⟨⟩, s₁, hrest, hdestroy⟩ := Exec.bind_eq_ok.1 hrun
    have hall : runAll (op :: ops) s = .ok ((), s₁) := (Exec.bind_of_ok hop _).trans hrest
    exact ⟨n, s', (Exec.bind_of_ok hall _).trans hdestroy, hsettled⟩

private theorem not_clean_of_clients (h : s.server.clients ≠ none) : ¬ Clean s [] := by
  rintro ⟨n, s', hrun, -⟩
  exact not_destroy_of_clients h n hrun

private theorem Doomed.not_clean {ops : List Op} (hs : s.Doomed) (hpossible : AllPossible s ops) :
    ¬ Clean s ops := by
  induction ops generalizing s with
  | nil =>
    rcases hs with ⟨r, hlive, -⟩ | hs
    · by_cases hclients : s.server.clients = none
      · -- nothing is freed any more
        rw [clean_nil]
        rintro ⟨n, s', hrun, -, hsettled⟩
        rw [Ledger.settled_iff, destroy_records hclients hrun] at hsettled
        exact hsettled r hlive
      · exact not_clean_of_clients hclients
    · exact not_clean_of_clients hs.clients
  | cons op ops ih =>
    rw [clean_cons]
    rintro ⟨s', hrun, hclean⟩
    obtain ⟨hop, hops⟩ := hpossible
    refine ih ?_ (hops s' hrun) hclean
    cases op with
    | accept fd client fcntl root reads => exact hs.accept hop.2 hrun
    | event client flags reads unsent => exact hs.event hop hrun

private theorem InOrder.clean_iff_orderly {ops : List Op} {cs : Option ClientPtr} (h : s.InOrder cs)
    (hpossible : AllPossible s ops) : Clean s ops ↔ Orderly s ops := by
  induction ops generalizing s cs with
  | nil =>
    cases hcs : cs with
    | none =>
      rw [hcs] at h
      exact iff_of_true h.destroy h.clients
    | some client =>
      have hclients : s.server.clients ≠ none := by
        rw [h.clients, hcs]
        exact Option.some_ne_none _
      exact iff_of_false (not_clean_of_clients hclients) hclients
  | cons op ops ih =>
    obtain ⟨hop, hops⟩ := hpossible
    rw [clean_cons]
    constructor
    · rintro ⟨s', hrun, hclean⟩
      have horderly : OrderlyOp s op := by
        by_contra hnot
        exact (h.doomed hop hnot hrun).not_clean (hops s' hrun) hclean
      refine ⟨horderly, ?_⟩
      intro s'' hrun'
      obtain rfl : s' = s'' := by simpa [hrun] using hrun'
      obtain ⟨s₁, cs', hrun₁, h₁⟩ := h.op hop horderly
      obtain rfl : s₁ = s' := by simpa [hrun₁] using hrun
      exact (ih h₁ (hops s₁ hrun)).1 hclean
    · rintro ⟨horderly, hrest⟩
      obtain ⟨s', cs', hrun, h'⟩ := h.op hop horderly
      exact ⟨s', hrun, (ih h' (hops s' hrun)).2 (hrest s' hrun)⟩

/-- All descriptors are closed once, all records freed once, and nothing is used afterwards, exactly if clients
come one at a time, `read` never returns `0`, and no client is left at the end. -/
theorem clean_iff {sock : Fd} {ops : List Op} (hpossible : AllPossible (start sock) ops) :
    Clean (start sock) ops ↔ Orderly (start sock) ops :=
  (start_inOrder sock).clean_iff_orderly hpossible

/-- A client that comes and goes -/
theorem clean_after_one_client :
    Orderly (start 3) [.accept 4 7 ⟨.ok 2, .ok 0⟩ none ⟨1, .error EAGAIN⟩,
        .event 7 ⟨true, false, false, true⟩ ⟨1, .error EAGAIN⟩ false] ∧
      Clean (start 3) [.accept 4 7 ⟨.ok 2, .ok 0⟩ none ⟨1, .error EAGAIN⟩,
        .event 7 ⟨true, false, false, true⟩ ⟨1, .error EAGAIN⟩ false] := by
  have h₁ : Op.run (.accept 4 7 ⟨.ok 2, .ok 0⟩ none ⟨1, .error EAGAIN⟩) (start 3) = .ok ((), _) := rfl
  have horderly : Orderly (start 3) [.accept 4 7 ⟨.ok 2, .ok 0⟩ none ⟨1, .error EAGAIN⟩,
      .event 7 ⟨true, false, false, true⟩ ⟨1, .error EAGAIN⟩ false] := by
    refine ⟨⟨rfl, by simp⟩, ?_⟩
    intro s' hrun
    cases h₁.symm.trans hrun
    refine ⟨fun _ => by simp, ?_⟩
    intro s'' hrun'
    have hclients := congrArg (fun r => r.toOption.map fun x => x.2.server.clients) hrun'
    exact (Option.some.inj hclients).symm
  refine ⟨horderly, (clean_iff ?_).2 horderly⟩
  refine ⟨⟨by decide, rfl⟩, ?_⟩
  intro s' hrun
  cases h₁.symm.trans hrun
  exact ⟨⟨_, rfl, rfl⟩, fun _ _ => trivial⟩

/-- A client that says good-bye: the event has `EXCOM_EVENT_READ` and `EXCOM_EVENT_CLOSE`, and `read` returns
`0`. -/
theorem not_clean_after_eof :
    AllPossible (start 3) [.accept 4 7 ⟨.ok 2, .ok 0⟩ none ⟨0, .error EAGAIN⟩,
        .event 7 ⟨true, false, false, true⟩ ⟨1, .eof⟩ false] ∧
      ¬ Clean (start 3) [.accept 4 7 ⟨.ok 2, .ok 0⟩ none ⟨0, .error EAGAIN⟩,
        .event 7 ⟨true, false, false, true⟩ ⟨1, .eof⟩ false] := by
  have h₁ : Op.run (.accept 4 7 ⟨.ok 2, .ok 0⟩ none ⟨0, .error EAGAIN⟩) (start 3) = .ok ((), _) := rfl
  constructor
  · refine ⟨⟨by decide, rfl⟩, ?_⟩
    intro s' hrun
    cases h₁.symm.trans hrun
    exact ⟨⟨_, rfl, rfl⟩, fun _ _ => trivial⟩
  · rintro ⟨n, s', hrun, -⟩
    have hfault : runAll [.accept 4 7 ⟨.ok 2, .ok 0⟩ none ⟨0, .error EAGAIN⟩,
        .event 7 ⟨true, false, false, true⟩ ⟨1, .eof⟩ false] (start 3) = .error .badf := rfl
    rw [Exec.bind_of_error hfault] at hrun
    cases hrun

end Life

end Excom
