import Excom.Lib.DList
import Excom.Lib.Loop

/-!
# The clients of a server

The list of clients that `excom/server.c` keeps: `_accept` puts a record in front of it, `_disconnect` takes
one out and frees it, and `excom_server_destroy` walks along it.  Of a record the model has the two links, and
whether it has a connection; a record that was freed faults when it is touched.

Taking out is right for every well-linked list (`disconnect_returns`).  Putting in is right for the empty list
only: the old head gets its `_next` set, where `_prev` was meant (`clients_linked_iff`).
-/

namespace Excom

/-- The address of an `excom_server_client_t`. -/
abbrev ClientPtr := Nat

/-- `excom_server_client_t`: `_prev`, `_next`, and whether `data` points to a connection. -/
structure ServerClient extends Links ClientPtr where
  data : Bool

/-- `excom_server_t`, and the records that are allocated. -/
structure ExcomServer where
  clients : Option ClientPtr
  heap : ClientPtr → Option ServerClient

/-! ### `socket_non_blocking` -/

/-- What a call that failed leaves in `errno` -/
abbrev Errno := { errno : Int // 0 < errno }

/-- How a system call ends: with a value, or with `-1` and an `errno` -/
inductive SysResult where
  | ok (value : Nat)
  | failed (errno : Errno)
  deriving DecidableEq, Repr

namespace SysResult

def value : SysResult → Int
  | ok value => value
  | failed _ => -1

/-- `errno` after the call -/
def errno : SysResult → Int
  | ok _ => 0
  | failed errno => errno

/-- The call fails. -/
def Fails (r : SysResult) : Prop := r.value < 0

end SysResult

/-- `ERROR_CHECK`: what its function returns, if it does -/
def errorCheck (value errno : Int) : Option Int := if value < 0 then some errno else none

/-- The results of `fcntl(fd, F_GETFL)` and `fcntl(fd, F_SETFL, flags)` -/
structure FcntlResults where
  getfl : SysResult
  setfl : SysResult
  deriving DecidableEq, Repr

/-- One of the calls that are made fails. -/
def FcntlResults.Fails (fcntl : FcntlResults) : Prop := fcntl.getfl.Fails ∨ fcntl.setfl.Fails

/-- `socket_non_blocking` -/
def socketNonBlocking (fcntl : FcntlResults) : Int :=
  (errorCheck fcntl.getfl.value fcntl.getfl.errno <|> errorCheck fcntl.setfl.value fcntl.setfl.errno).getD 0

private theorem errorCheck_eq (r : SysResult) :
    errorCheck r.value r.errno = none ∨ ∃ errno : Errno, errorCheck r.value r.errno = some errno := by
  cases r with
  | ok value => exact .inl (if_neg (by simp [SysResult.value]))
  | failed errno => exact .inr ⟨errno, if_pos (by simp [SysResult.value])⟩

/-- `ERROR_CHECK` returns the `errno`, so the result is never negative. -/
theorem not_socketNonBlocking_neg (fcntl : FcntlResults) : ¬ socketNonBlocking fcntl < 0 := by
  unfold socketNonBlocking
  rcases errorCheck_eq fcntl.getfl with hget | ⟨errno, hget⟩
  · rcases errorCheck_eq fcntl.setfl with hset | ⟨errno, hset⟩
    · simp [hget, hset]
    · simpa [hget, hset] using Int.le_of_lt errno.2
  · simpa [hget] using Int.le_of_lt errno.2

/-! ### The list -/

inductive ServerFault where
  | null
  | freed
  | diverges
  deriving DecidableEq, Repr

abbrev ServerM := Exec ExcomServer ServerFault

namespace ExcomServer

/-- `excom_server_init` -/
def init : ExcomServer := ⟨none, fun _ => none⟩

/-- A read of a record. -/
def fetch (client : ClientPtr) : ServerM ServerClient := do
  let s ← Exec.get
  match s.heap client with
  | some c => return c
  | none => Exec.fault .freed

/-- A write to a record. -/
def assign (client : ClientPtr) (f : ServerClient → ServerClient) : ServerM Unit := do
  let c ← fetch client
  Exec.modify fun s => { s with heap := Function.update s.heap client (some (f c)) }

/-- A write behind a test of the pointer. -/
def assignIf (client : Option ClientPtr) (f : ServerClient → ServerClient) : ServerM Unit :=
  match client with
  | none => pure ()
  | some client => assign client f

/-- `client->_prev = server->clients`, `client->_next = NULL` in the record that `malloc` gave. -/
def allocClient (client : ClientPtr) : ServerM Unit :=
  Exec.modify fun s => { s with heap := Function.update s.heap client (some ⟨⟨s.clients, none⟩, false⟩) }

/-- The record of a socket that `accept` returned, for which `malloc` gives `client`: the old head gets its
`_next`. -/
def newClient (client : ClientPtr) : ServerM Unit := do
  allocClient client
  let s ← Exec.get
  assignIf s.clients fun c => { c with next := some client }

/-- `excom_server_client_connect`, which makes the connection -/
def connect (client : ClientPtr) : ServerM Unit := assign client fun c => { c with data := true }

/-- The record becomes the head of the list. -/
def linkHead (client : ClientPtr) : ServerM Unit := do
  let s ← Exec.get
  assign client fun c => { c with next := s.clients }
  Exec.modify fun s => { s with clients := some client }

/-- One turn of the loop of `_accept` for which there was a socket.  The read at its end, when it ends the
connection, is a call of its own. -/
def accept (client : ClientPtr) (fcntl : FcntlResults) : ServerM Unit := do
  newClient client
  if socketNonBlocking fcntl < 0 then pure ()
  else do
    connect client
    linkHead client

/-- `excom_event_remove`, which reads the socket out of the event. -/
def eventRemove (root : Option ClientPtr) : ServerM Unit :=
  match root with
  | none => Exec.fault .null
  | some client => do
    let _ ← fetch client

/-- `excom_server_client_close`, with the `root` of its event.  What it does to the connection is left out. -/
def close (root : Option ClientPtr) (client : ClientPtr) : ServerM Unit := do
  let c ← fetch client
  if c.data then
    assign client fun c => { c with data := false }
    eventRemove root
  else pure ()

/-- `if(server->clients == client)` -/
def unlinkHead (client : ClientPtr) : ServerM Unit := do
  let s ← Exec.get
  if s.clients = some client then
    let c ← fetch client
    Exec.modify fun s => { s with clients := c.next }
  else pure ()

/-- `_disconnect`, with the `data` of its event -/
def disconnect (data : Option ClientPtr) : ServerM Unit :=
  match data with
  | none => pure ()
  | some client => do
    unlinkHead client
    let c ← fetch client
    assignIf c.prev fun p => { p with next := c.next }
    let c ← fetch client
    assignIf c.next fun n => { n with prev := c.prev }
    Exec.modify fun s => { s with heap := Function.update s.heap client none }

/-- One turn of the loop of `excom_server_destroy`, with the clients that were visited.  The event that it
passes on has no `root`. -/
def destroyTurn : Option ClientPtr × List ClientPtr → ServerM ((Option ClientPtr × List ClientPtr) × Bool)
  | (none, visited) => pure ((none, visited), false)
  | (some client, visited) => do
    let c ← fetch client
    close none client
    disconnect (some client)
    return ((c.next, visited ++ [client]), true)

/-- `excom_server_destroy`, with at most `n` turns of its loop; the clients that it visits. -/
def destroy (n : Nat) : ServerM (List ClientPtr) := do
  let s ← Exec.get
  let (_, visited) ← Exec.loop ServerFault.diverges destroyTurn n (s.clients, [])
  Exec.modify fun s => { s with clients := none }
  return visited

/-! ### What is to hold of the list -/

/-- The links of the records. -/
def links (s : ExcomServer) (client : ClientPtr) : Option (Links ClientPtr) := (s.heap client).map (·.toLinks)

/-- The record has a connection. -/
def Opened (s : ExcomServer) (client : ClientPtr) : Prop := ∃ c, s.heap client = some c ∧ c.data = true

/-- The walk along `_next` visits every client once and ends, and `_prev` leads back along it. -/
def Linked (s : ExcomServer) : Prop := ∃ l, DList s.links s.clients l

/-- `excom_server_destroy` returns, and visits every client once. -/
def Destroys (s : ExcomServer) : Prop :=
  ∃ n visited s', destroy n s = .ok (visited, s') ∧ visited.Nodup ∧
    ∀ client, client ∈ visited ↔ (s.heap client).isSome

/-- The calls that change the list. -/
inductive Call where
  | accept (client : ClientPtr)
  | close (client : ClientPtr)
  | disconnect (client : ClientPtr)
  deriving DecidableEq, Repr

/-- A call that returns.  `malloc` gives a record that is not in use, and only clients on the list are
disconnected. -/
inductive Step : ExcomServer → Call → ExcomServer → Prop where
  | accept {s s' : ExcomServer} {client : ClientPtr} {fcntl : FcntlResults} (hfresh : s.heap client = none)
      (h : ExcomServer.accept client fcntl s = .ok ((), s')) : Step s (.accept client) s'
  | close {s s' : ExcomServer} {client : ClientPtr} (hlinked : (s.heap client).isSome)
      (h : ExcomServer.close (some client) client s = .ok ((), s')) : Step s (.close client) s'
  | disconnect {s s' : ExcomServer} {client : ClientPtr} (hlinked : (s.heap client).isSome)
      (h : ExcomServer.disconnect (some client) s = .ok ((), s')) : Step s (.disconnect client) s'

/-- A sequence of calls, each with the state after it. -/
inductive Run : ExcomServer → List (Call × ExcomServer) → Prop where
  | nil {s : ExcomServer} : Run s []
  | cons {s s' : ExcomServer} {call : Call} {calls : List (Call × ExcomServer)} (h : Step s call s')
      (hrest : Run s' calls) : Run s ((call, s') :: calls)

/-- Whenever a client is accepted there is no other one. -/
def AcceptsAlone : ExcomServer → List (Call × ExcomServer) → Prop
  | _, [] => True
  | s, (call, s') :: calls => ((∃ client, call = .accept client) → s.clients = none) ∧ AcceptsAlone s' calls

/-! ### Reads and writes of records -/

variable {s : ExcomServer} {client : ClientPtr} {c : ServerClient}

theorem fetch_eq (h : s.heap client = some c) : fetch client s = .ok (c, s) := by
  unfold fetch
  refine (Exec.bind_of_ok (Exec.get_apply s) _).trans ?_
  simp only [h]
  rfl

theorem assign_eq (h : s.heap client = some c) (f : ServerClient → ServerClient) :
    assign client f s = .ok ((), { s with heap := Function.update s.heap client (some (f c)) }) :=
  Exec.bind_of_ok (fetch_eq h) _

private theorem links_eq_some {x : Links ClientPtr} :
    s.links client = some x ↔ ∃ c, s.heap client = some c ∧ c.toLinks = x :=
  Option.map_eq_some_iff

theorem isSome_links : (s.links client).isSome = (s.heap client).isSome := Option.isSome_map

private theorem assignIf_returns {a : Option ClientPtr} (ha : ∀ b, a = some b → (s.heap b).isSome)
    {f : ServerClient → ServerClient} {g : Links ClientPtr → Links ClientPtr}
    (hg : ∀ c, (f c).toLinks = g c.toLinks) (hdata : ∀ c, (f c).data = c.data) :
    ∃ s', assignIf a f s = .ok ((), s') ∧ s'.clients = s.clients ∧ s'.links = relink g a s.links ∧
      (∀ b, s'.Opened b ↔ s.Opened b) ∧ ∀ b, a ≠ some b → s'.heap b = s.heap b := by
  cases a with
  | none => exact ⟨s, rfl, rfl, rfl, fun b => Iff.rfl, fun b _ => rfl⟩
  | some a =>
    obtain ⟨c, hc⟩ := Option.isSome_iff_exists.1 (ha a rfl)
    refine ⟨_, assign_eq hc f, rfl, ?_, ?_, ?_⟩
    · funext b
      by_cases hb : b = a
      · subst hb
        rw [relink_self]
        simp [links, hc, hg]
      · rw [relink_of_ne (by rintro ⟨⟩; exact hb rfl)]
        simp [links, hb]
    · intro b
      by_cases hb : b = a
      · subst hb
        simp [Opened, hc, hdata]
      · simp [Opened, hb]
    · intro b hb
      exact Function.update_of_ne (by rintro rfl; exact hb rfl) _ _

/-! ### `_disconnect` -/

/-- A client is taken out of a well-linked list, wherever it is. -/
theorem disconnect_returns {l₁ l₂ : List ClientPtr} (h : DList s.links s.clients (l₁ ++ client :: l₂)) :
    ∃ s', disconnect (some client) s = .ok ((), s') ∧ DList s'.links s'.clients (l₁ ++ l₂) ∧
      ∀ b, s'.Opened b ↔ s.Opened b ∧ b ≠ client := by
  obtain ⟨c, hc, hlinks⟩ := links_eq_some.1 h.links_eq
  have hlive : ∀ b ∈ l₁ ++ client :: l₂, (s.heap b).isSome := by
    intro b hb
    rw [← isSome_links]
    exact (h.mem_iff b).1 hb
  have hprev : c.prev = l₁.getLast? := congrArg Links.prev hlinks
  have hnext : c.next = l₂.head? := congrArg Links.next hlinks
  obtain ⟨-, hnodup, hdisjoint⟩ := List.nodup_append.1 h.nodup
  have hclient := (List.nodup_cons.1 hnodup).1
  -- the two neighbours are on the list, and are not the client
  have hmem₁ : ∀ b, c.prev = some b → b ∈ l₁ := fun b hb => List.mem_of_getLast? (hprev.symm.trans hb)
  have hmem₂ : ∀ b, c.next = some b → b ∈ l₂ := fun b hb => List.mem_of_head? (hnext.symm.trans hb)
  have hne₁ : c.prev ≠ some client := fun hb => hdisjoint client (hmem₁ client hb) client (by simp) rfl
  -- the head moves on
  have hhead : unlinkHead client s =
      .ok ((), { s with clients := if s.clients = some client then l₂.head? else s.clients }) := by
    unfold unlinkHead
    refine (Exec.bind_of_ok (Exec.get_apply s) _).trans ?_
    by_cases hfirst : s.clients = some client
    · rw [if_pos hfirst, if_pos hfirst]
      refine (Exec.bind_of_ok (fetch_eq hc) _).trans ?_
      rw [hnext]
      rfl
    · rw [if_neg hfirst, if_neg hfirst]
      rfl
  obtain ⟨s₁, hs₁⟩ : ∃ s₁ : ExcomServer, s₁ =
      { s with clients := if s.clients = some client then l₂.head? else s.clients } := ⟨_, rfl⟩
  have hheap₁ : s₁.heap = s.heap := by rw [hs₁]
  obtain ⟨s₂, hrun₂, hclients₂, hlinks₂, hopened₂, hheap₂⟩ :=
    assignIf_returns (s := s₁) (a := c.prev) (f := fun p => { p with next := c.next })
      (g := fun x => { x with next := c.next }) (by
        intro b hb
        rw [hheap₁]
        exact hlive b (by simp [hmem₁ b hb])) (fun _ => rfl) (fun _ => rfl)
  have hc₂ : s₂.heap client = some c := (hheap₂ client hne₁).trans (by rw [hheap₁, hc])
  obtain ⟨s₃, hrun₃, hclients₃, hlinks₃, hopened₃, -⟩ :=
    assignIf_returns (s := s₂) (a := c.next) (f := fun n => { n with prev := c.prev })
      (g := fun x => { x with prev := c.prev }) (by
        intro b hb
        have hbp : c.prev ≠ some b := fun hp => hdisjoint b (hmem₁ b hp) b (by simp [hmem₂ b hb]) rfl
        rw [hheap₂ b hbp, hheap₁]
        exact hlive b (by simp [hmem₂ b hb])) (fun _ => rfl) (fun _ => rfl)
  refine ⟨{ s₃ with heap := Function.update s₃.heap client none }, ?_, ?_, ?_⟩
  · unfold disconnect
    refine (Exec.bind_of_ok hhead _).trans ?_
    rw [← hs₁]
    refine (Exec.bind_of_ok (fetch_eq (by rw [hheap₁, hc])) _).trans ((Exec.bind_of_ok hrun₂ _).trans ?_)
    exact (Exec.bind_of_ok (fetch_eq hc₂) _).trans ((Exec.bind_of_ok hrun₃ _).trans rfl)
  · have hunlink := h.unlink
    have hlinks' : ({ s₃ with heap := Function.update s₃.heap client none } : ExcomServer).links =
        Function.update s₃.links client none := by
      funext b
      by_cases hb : b = client
      · simp [links, hb]
      · simp [links, hb]
    have hlinks₁ : s₁.links = s.links := by
      unfold links
      rw [hheap₁]
    show DList _ s₃.clients _
    rw [hlinks', hlinks₃, hlinks₂, hlinks₁, hclients₃, hclients₂, hs₁, hprev, hnext]
    exact hunlink
  · intro b
    have hopened₁ : s₁.Opened b ↔ s.Opened b := by
      unfold Opened
      rw [hheap₁]
    rw [← hopened₁, ← hopened₂, ← hopened₃]
    by_cases hb : b = client
    · simp [Opened, hb]
    · simp [Opened, hb]

/-! ### `_accept` -/

/-- The new client is linked to the old head in both directions, also when its socket stays blocking. -/
theorem accept_returns (fcntl : FcntlResults) (hfresh : s.heap client = none)
    (hhead : ∀ h, s.clients = some h → (s.heap h).isSome) :
    ∃ s', accept client fcntl s = .ok ((), s') ∧ s'.clients = some client ∧
      s'.heap client = some ⟨⟨s.clients, s.clients⟩, true⟩ ∧
      ∀ b, b ≠ client → s.clients ≠ some b → s'.heap b = s.heap b := by
  obtain ⟨s₁, hs₁⟩ : ∃ s₁ : ExcomServer, s₁ =
      { s with heap := Function.update s.heap client (some ⟨⟨s.clients, none⟩, false⟩) } := ⟨_, rfl⟩
  have hclients₁ : s₁.clients = s.clients := by rw [hs₁]
  have hne : s.clients ≠ some client := by
    intro h
    have := hhead client h
    rw [hfresh] at this
    cases this
  have hheap₁ : ∀ b, b ≠ client → s₁.heap b = s.heap b := by
    intro b hb
    rw [hs₁]
    exact Function.update_of_ne hb _ _
  obtain ⟨s₂, hrun₂, hclients₂, -, -, hheap₂⟩ :=
    assignIf_returns (s := s₁) (a := s₁.clients) (f := fun c => { c with next := some client })
      (g := fun x => { x with next := some client }) (by
        intro h hh
        rw [hclients₁] at hh
        rw [hheap₁ h (by rintro rfl; exact hne hh)]
        exact hhead h hh) (fun _ => rfl) (fun _ => rfl)
  have hc₂ : s₂.heap client = some ⟨⟨s.clients, none⟩, false⟩ := by
    rw [hheap₂ client (by rw [hclients₁]; exact hne), hs₁]
    exact Function.update_self _ _ _
  have hrun₃ := assign_eq hc₂ fun c => { c with data := true }
  have hrun₄ := assign_eq
    (s := { s₂ with heap := Function.update s₂.heap client (some ⟨⟨s.clients, none⟩, true⟩) })
    (Function.update_self ..) fun c => { c with next := s₂.clients }
  refine ⟨⟨some client, Function.update (Function.update s₂.heap client (some ⟨⟨s.clients, none⟩, true⟩)) client
    (some ⟨⟨s.clients, s₂.clients⟩, true⟩)⟩, ?_, rfl, ?_, ?_⟩
  · have hnew : newClient client s = .ok ((), s₂) := by
      unfold newClient
      refine (Exec.bind_of_ok (show allocClient client s = .ok ((), s₁) by rw [hs₁]; rfl) _).trans ?_
      exact (Exec.bind_of_ok (Exec.get_apply s₁) _).trans hrun₂
    have hlink : linkHead client _ = .ok ((), _) :=
      (Exec.bind_of_ok (Exec.get_apply _) _).trans (Exec.bind_of_ok hrun₄ _)
    unfold accept
    refine (Exec.bind_of_ok hnew _).trans ?_
    rw [if_neg (not_socketNonBlocking_neg fcntl)]
    exact (Exec.bind_of_ok hrun₃ _).trans (hlink.trans rfl)
  · show Function.update _ client _ client = _
    rw [Function.update_self, hclients₂, hclients₁]
  · intro b hb hbh
    show Function.update (Function.update s₂.heap client _) client _ b = _
    rw [Function.update_of_ne hb, Function.update_of_ne hb, hheap₂ b (by rw [hclients₁]; exact hbh),
      hheap₁ b hb]

/-- The list is in order afterwards only if it was empty. -/
private theorem accept_linked_iff (hs : s.Linked) {s' : ExcomServer} (hfresh : s.heap client = none)
    {fcntl : FcntlResults}
    (h : accept client fcntl s = .ok ((), s')) : s'.Linked ↔ s.clients = none := by
  obtain ⟨l, hl⟩ := hs
  have hhead : ∀ a, s.clients = some a → (s.heap a).isSome := by
    intro a ha
    rw [← isSome_links, ← hl.mem_iff]
    exact List.mem_of_head? (hl.head_eq.symm.trans ha)
  obtain ⟨s'', hrun, hclients, hc, hrest⟩ := accept_returns fcntl hfresh hhead
  obtain rfl : s'' = s' := by simpa [hrun] using h
  constructor
  · rintro ⟨l', hl'⟩
    -- the first record of the new list is the new one, and has the old head for its `_prev`
    obtain ⟨l₂, rfl⟩ : ∃ l₂, l' = client :: l₂ := by
      have hfirst := hl'.head_eq.symm.trans hclients
      cases l' with
      | nil => cases hfirst
      | cons a l₂ => exact ⟨l₂, by cases hfirst; rfl⟩
    have hlinks := hl'.links_head
    rw [links, hc] at hlinks
    exact congrArg Links.prev (Option.some.inj hlinks)
  · intro hnone
    have hempty : ∀ b, s.heap b = none := by
      intro b
      have hb := (hl.mem_iff b).not
      rw [hl.eq_nil_iff.2 hnone, isSome_links] at hb
      simpa using hb
    have hlinks : s''.links client = some ⟨none, none⟩ := by
      rw [links, hc, hnone]
      rfl
    refine ⟨[client], ⟨_, hclients, _, hlinks, rfl, rfl⟩, by simp, ?_⟩
    intro b
    by_cases hb : b = client
    · rw [hb, hlinks]
      simp
    · rw [isSome_links, hrest b hb (by rw [hnone]; simp), hempty]
      simpa using hb

/-! ### `excom_server_client_close` -/

private theorem close_closed (hc : s.heap client = some c) (hdata : c.data = false) (root : Option ClientPtr) :
    close root client s = .ok ((), s) := by
  unfold close
  refine (Exec.bind_of_ok (fetch_eq hc) _).trans ?_
  rw [hdata]
  rfl

private theorem close_returns (hc : s.heap client = some c) :
    ∃ s', close (some client) client s = .ok ((), s') ∧ s'.clients = s.clients ∧ s'.links = s.links := by
  by_cases hdata : c.data = true
  swap
  · exact ⟨s, close_closed hc (by simpa using hdata) _, rfl, rfl⟩
  have hassign := assign_eq hc fun c => { c with data := false }
  refine ⟨{ s with heap := Function.update s.heap client (some { c with data := false }) }, ?_, rfl, ?_⟩
  · unfold close
    refine (Exec.bind_of_ok (fetch_eq hc) _).trans ?_
    rw [if_pos hdata]
    refine (Exec.bind_of_ok hassign _).trans ?_
    exact Exec.bind_of_ok (fetch_eq (Function.update_self ..)) _
  · funext b
    by_cases hb : b = client
    · subst hb
      simp [links, hc]
    · simp [links, hb]

/-- With no `root` in the event a connection cannot be closed. -/
private theorem close_opened (hc : s.heap client = some c) (hdata : c.data = true) :
    close none client s = .error .null := by
  unfold close
  refine (Exec.bind_of_ok (fetch_eq hc) _).trans ?_
  rw [if_pos hdata]
  exact (Exec.bind_of_ok (assign_eq hc _) _).trans rfl

/-! ### Runs -/

private theorem Step.linked_iff {s' : ExcomServer} {call : Call} (hs : s.Linked) (h : Step s call s') :
    s'.Linked ↔ ((∃ client, call = .accept client) → s.clients = none) := by
  cases h with
  | accept hfresh h =>
    rw [accept_linked_iff hs hfresh h]
    simp
  | close hlinked h =>
    obtain ⟨c, hc⟩ := Option.isSome_iff_exists.1 hlinked
    obtain ⟨s'', hrun, hclients, hlinks⟩ := close_returns hc
    obtain rfl : s'' = s' := by simpa [hrun] using h
    unfold Linked
    rw [hclients, hlinks]
    exact ⟨fun _ hcall => by simp at hcall, fun _ => hs⟩
  | @disconnect _ client hlinked h =>
    obtain ⟨l, hl⟩ := hs
    rw [← isSome_links, ← hl.mem_iff] at hlinked
    obtain ⟨l₁, l₂, rfl⟩ := List.append_of_mem hlinked
    obtain ⟨s'', hrun, hlist, -⟩ := disconnect_returns hl
    obtain rfl : s'' = s' := by simpa [hrun] using h
    exact ⟨fun _ hcall => by simp at hcall, fun _ => ⟨_, hlist⟩⟩

/-- In a run the list stays in order as long as clients are accepted alone. -/
private theorem Run.linked_iff {calls : List (Call × ExcomServer)} (hs : s.Linked) (h : Run s calls) :
    (∀ x ∈ calls, x.2.Linked) ↔ AcceptsAlone s calls := by
  induction h with
  | nil => simp [AcceptsAlone]
  | @cons s s' call calls hstep hrest ih =>
    rw [List.forall_mem_cons, AcceptsAlone, ← hstep.linked_iff hs]
    constructor
    · rintro ⟨hs', hcalls⟩
      exact ⟨hs', (ih hs').1 hcalls⟩
    · rintro ⟨hs', hcalls⟩
      exact ⟨hs', (ih hs').2 hcalls⟩

/-! ### `excom_server_destroy` -/

/-- If no client has a connection, every one of the list is visited. -/
private theorem destroys_of_closed {l : List ClientPtr} (hl : DList s.links s.clients l)
    (hclosed : ∀ client, ¬ s.Opened client) : s.Destroys := by
  have hloop : Exec.Returns (Exec.loop ServerFault.diverges destroyTurn (l.length + 1) (s.clients, [])) s
      fun b _ => b.2 = l := by
    refine Exec.loop_returns
      (I := fun b s' => ∃ l', DList s'.links s'.clients l' ∧ b.1 = l'.head? ∧ b.2 ++ l' = l ∧
        ∀ client, ¬ s'.Opened client)
      (μ := fun b => l.length - b.2.length) ?_ (by simp) ⟨l, hl, hl.head_eq, rfl, hclosed⟩
    rintro ⟨_, visited⟩ s' ⟨l', hl', rfl, hvisited, hclosed'⟩
    cases l' with
    | nil =>
      refine .pure ?_
      rw [List.append_nil] at hvisited
      exact hvisited
    | cons a l' =>
      obtain ⟨c, hc, hlinks⟩ := links_eq_some.1 hl'.links_head
      have hdata : c.data = false := by
        have hnot := hclosed' a
        simpa [Opened, hc] using hnot
      have hlist : DList s'.links s'.clients ([] ++ a :: l') := hl'
      obtain ⟨s'', hrun, hl'', hopened⟩ := disconnect_returns hlist
      have hnext : c.next = l'.head? := congrArg Links.next hlinks
      refine ⟨((c.next, visited ++ [a]), true), s'', ?_, ?_⟩
      · show (fetch a >>= _) s' = _
        refine (Exec.bind_of_ok (fetch_eq hc) _).trans ?_
        exact (Exec.bind_of_ok (close_closed hc hdata none) _).trans ((Exec.bind_of_ok hrun _).trans rfl)
      · have hlen := congrArg List.length hvisited
        rw [List.length_append, List.length_cons] at hlen
        refine ⟨⟨l', hl'', hnext, by simpa using hvisited, ?_⟩, ?_⟩
        · intro b hb
          exact hclosed' b ((hopened b).1 hb).1
        · show l.length - (visited ++ [a]).length < l.length - visited.length
          rw [List.length_append, List.length_singleton]
          change visited.length + (l'.length + 1) = l.length at hlen
          omega
  obtain ⟨⟨client, visited⟩, s', hrun, hvisited⟩ := hloop
  obtain rfl : visited = l := hvisited
  refine ⟨visited.length + 1, visited, { s' with clients := none }, ?_, hl.nodup, ?_⟩
  · unfold destroy
    exact (Exec.bind_of_ok (Exec.get_apply s) _).trans ((Exec.bind_of_ok hrun _).trans rfl)
  · intro a
    rw [hl.mem_iff, isSome_links]

/-- If a client of the list has a connection, the loop does not get past it. -/
private theorem not_destroys_of_opened {l : List ClientPtr} (hl : DList s.links s.clients l)
    (hopened : ∃ client, s.Opened client) : ¬ s.Destroys := by
  rintro ⟨n, visited, s', hrun, -, -⟩
  have hloop :
    Exec.Ensures (Exec.loop ServerFault.diverges destroyTurn n (s.clients, [])) s fun _ _ => False := by
    refine Exec.loop_ensures
      (I := fun b s' => ∃ l', DList s'.links s'.clients l' ∧ b.1 = l'.head? ∧ ∃ client, s'.Opened client) ?_
      ⟨l, hl, hl.head_eq, hopened⟩
    rintro ⟨_, visited⟩ s' ⟨l', hl', rfl, client, hclient⟩
    have hmem : client ∈ l' := by
      obtain ⟨c, hc, -⟩ := hclient
      rw [hl'.mem_iff, isSome_links, hc]
      rfl
    cases l' with
    | nil => cases hmem
    | cons a l' =>
      obtain ⟨c, hc, hlinks⟩ := links_eq_some.1 hl'.links_head
      have hnext : c.next = l'.head? := congrArg Links.next hlinks
      by_cases hdata : c.data = true
      · have hfault : destroyTurn (some a, visited) s' = .error .null := by
          show (fetch a >>= _) s' = _
          refine (Exec.bind_of_ok (fetch_eq hc) _).trans ?_
          exact Exec.bind_of_error (close_opened hc hdata) _
        intro b s'' h
        rw [List.head?_cons, hfault] at h
        cases h
      · have hlist : DList s'.links s'.clients ([] ++ a :: l') := hl'
        obtain ⟨s'', hrun, hl'', hopened'⟩ := disconnect_returns hlist
        have hturn : destroyTurn (some a, visited) s' = .ok (((c.next, visited ++ [a]), true), s'') := by
          show (fetch a >>= _) s' = _
          refine (Exec.bind_of_ok (fetch_eq hc) _).trans ?_
          exact (Exec.bind_of_ok (close_closed hc (by simpa using hdata) none) _).trans
            ((Exec.bind_of_ok hrun _).trans rfl)
        have hne : client ≠ a := by
          rintro rfl
          obtain ⟨c', hc', hdata'⟩ := hclient
          obtain rfl : c = c' := by simpa [hc] using hc'
          exact hdata hdata'
        intro b s₁ h
        rw [List.head?_cons, hturn] at h
        cases h
        exact ⟨l', hl'', hnext, client, (hopened' client).2 ⟨hclient, hne⟩⟩
  unfold destroy at hrun
  rw [Exec.bind_of_ok (Exec.get_apply s)] at hrun
  obtain ⟨_, _, hrun, -⟩ := Exec.bind_eq_ok.1 hrun
  exact hloop _ _ hrun

private theorem destroys_iff (hs : s.Linked) : s.Destroys ↔ ∀ client, ¬ s.Opened client := by
  obtain ⟨l, hl⟩ := hs
  constructor
  · intro h client hclient
    exact not_destroys_of_opened hl ⟨client, hclient⟩ h
  · exact destroys_of_closed hl

/-! ### The list of clients -/

private theorem init_linked : init.Linked := by
  refine ⟨[], ⟨none, rfl, rfl⟩, List.nodup_nil, ?_⟩
  intro a
  simp [links, init]

/-- In a run from `excom_server_init` the list of clients stays in order exactly if clients are accepted only
while the list is empty; and where it is in order, `excom_server_destroy` visits every client once and returns
exactly if no client on it has a connection. -/
theorem clients_linked_iff {calls : List (Call × ExcomServer)} (h : Run init calls) :
    ((∀ x ∈ calls, x.2.Linked) ↔ AcceptsAlone init calls) ∧
      ∀ x ∈ calls, x.2.Linked → (x.2.Destroys ↔ ∀ client, ¬ x.2.Opened client) :=
  ⟨h.linked_iff init_linked, fun _ _ hs => destroys_iff hs⟩

/-- The first client that is accepted is on the list, but has a connection when `excom_server_destroy` comes
to it. -/
theorem linked_after_accept : ∃ s, Run init [(.accept 1, s)] ∧ s.Linked ∧ ¬ s.Destroys := by
  obtain ⟨s, hrun, -, hc, -⟩ :=
    accept_returns ⟨.ok 2, .ok 0⟩ (show init.heap 1 = none from rfl) (fun h hh => by cases hh)
  have hstep : Run init [(.accept 1, s)] := .cons (.accept rfl hrun) .nil
  have h := clients_linked_iff hstep
  have hs : s.Linked := h.1.2 ⟨fun _ => rfl, trivial⟩ (.accept 1, s) (by simp)
  refine ⟨s, hstep, hs, ?_⟩
  rw [h.2 (.accept 1, s) (by simp) hs]
  intro hclosed
  exact hclosed 1 ⟨_, hc, rfl⟩

/-- With two clients the list is not in order. -/
theorem not_linked_after_two_accepts :
    ∃ s₁ s₂, Run init [(.accept 1, s₁), (.accept 2, s₂)] ∧ ¬ s₂.Linked := by
  obtain ⟨s₁, hrun₁, hclients₁, hc₁, hrest₁⟩ := accept_returns ⟨.ok 2, .ok 0⟩ (show init.heap 1 = none from rfl)
    (fun h hh => by cases hh)
  have hlinked₁ : s₁.Linked := (accept_linked_iff init_linked rfl hrun₁).2 rfl
  have hfresh : s₁.heap 2 = none := hrest₁ 2 (by decide) (by rintro ⟨⟩)
  obtain ⟨s₂, hrun₂, -⟩ := accept_returns ⟨.ok 2, .ok 0⟩ hfresh (by
    intro h hh
    rw [hclients₁] at hh
    cases hh
    rw [hc₁]
    rfl)
  refine ⟨s₁, s₂, .cons (.accept rfl hrun₁) (.cons (.accept hfresh hrun₂) .nil), ?_⟩
  rw [accept_linked_iff hlinked₁ hfresh hrun₂, hclients₁]
  rintro ⟨⟩

end ExcomServer

end Excom
