/-
  CodeQuery.Lsp.Queries — what one language server is sent over its session
  (`codequery-lsp/src/queries.rs`, `transport.rs`).

  A query opens its document and then puts its operation to the server, as
  `handle_query` of the daemon does; the one-shot queries do the same on a session of
  their own. Each write can fail, each answer be late, an error or no answer at all.
  `sent` is every message that went out whole, in order.

  Proved of every sequence of queries (`opened_once_before_use`): no document is opened
  twice, and each request comes after the opening of the document it names.
-/

import CodeQuery.Lsp.Daemon
import CodeQuery.Lsp.Readiness
import CodeQuery.Lsp.Transport

namespace CodeQuery.Lsp.Queries

open CodeQuery.Core CodeQuery.Text

/-! ## The session -/

/-- A message that was written: its method and its parameters. -/
structure Sent where
  method : String
  params : Json

structure Session where
  transport : StdioTransport
  /-- The process's counter of request ids. -/
  nextId : UInt64
  openedDocs : List String
  /-- Ghost. -/
  sent : List Sent

/-- What a query finds outside, while it runs. -/
structure Env where
  parse : String → Option Json
  render : Json → String
  /-- `path_to_uri`: what is there decides what is canonical. -/
  pathToUri : Path → String
  /-- Whether the notification, and the request, can be written. -/
  notifies : Bool
  requests : Bool
  /-- What the server has sent since the last query. -/
  arrives : Str
  /-- The turns of the request's loop before its deadline. -/
  turns : Nat

def num (n : Nat) : Json := .num (.posInt n.toUInt64)

/-- `as u32`. -/
def cqLineToLsp (line : Nat) : Nat := (line - 1) % 2 ^ 32

def cqColumnToLsp (column : Nat) : Nat := column % 2 ^ 32

def textDocument (uri : String) : String × Json := ("textDocument", .obj [("uri", .str uri)])

def position (line column : Nat) : String × Json :=
  ("position", .obj [("line", num (cqLineToLsp line)), ("character", num (cqColumnToLsp column))])

/-- `DidOpenTextDocumentParams`; the source is a text. -/
def didOpenParams (uri languageId source : String) : Json :=
  .obj [("textDocument",
    .obj [("uri", .str uri), ("languageId", .str languageId), ("version", num 1), ("text", .str source)])]

section Operations

variable (env : Env)

def sendNotification (method : String) (params : Json) (s : Session) : Except LspError Session :=
  let notification : Json := .obj [("jsonrpc", .str "2.0"), ("method", .str method), ("params", params)]
  if env.notifies then
    .ok { s with
      transport := { s.transport with stdin := s.transport.stdin ++ writeMessage (env.render notification) }
      sent := s.sent ++ [⟨method, params⟩] }
  else .error (.io .other)

/-- `open_document`. -/
def openDocument (path : Path) (source languageId : String) (s : Session) : Except LspError Session :=
  let uri := env.pathToUri path
  if uri ∈ s.openedDocs then .ok s
  else
    match sendNotification env "textDocument/didOpen" (didOpenParams uri languageId source) s with
    | .error e => .error e
    | .ok s => .ok { s with openedDocs := uri :: s.openedDocs }

/-- A request and its answer, with what the operation makes of it left out. -/
def request (method : String) (params : Json) (s : Session) : Except LspError Json × Session :=
  let (result, nextId, transport) :=
    sendRequest env.parse env.render method params env.requests env.turns s.nextId s.transport
  (result, { s with
    transport := transport
    nextId := nextId
    sent := if env.requests then s.sent ++ [⟨method, params⟩] else s.sent })

def findDefinition (path : Path) (line column : Nat) (s : Session) : Except LspError Json × Session :=
  request env "textDocument/definition" (.obj [textDocument (env.pathToUri path), position line column]) s

def findReferences (path : Path) (line column : Nat) (includeDeclaration : Bool) (s : Session) :
    Except LspError Json × Session :=
  request env "textDocument/references"
    (.obj [textDocument (env.pathToUri path), position line column,
      ("context", .obj [("includeDeclaration", .bool includeDeclaration)])]) s

def hover (path : Path) (line column : Nat) (s : Session) : Except LspError Json × Session :=
  request env "textDocument/hover" (.obj [textDocument (env.pathToUri path), position line column]) s

end Operations

/-! ## Queries -/

structure Query where
  env : Env
  operation : String
  path : Path
  line : Nat
  column : Nat
  /-- The best-effort read of the file. -/
  source : String
  languageId : String

inductive Outcome where
  | notOpened (e : LspError)
  | answered (r : Except LspError Json)
  /-- `unknown operation: {operation}`. -/
  | unknown (operation : String)

/-- The operation of a query whose document is open. -/
def operate (q : Query) (s : Session) : Outcome × Session :=
  match q.operation with
  | "definition" =>
    let (r, s) := findDefinition q.env q.path q.line q.column s
    (.answered r, s)
  | "references" =>
    let (r, s) := findReferences q.env q.path q.line q.column true s
    (.answered r, s)
  | "hover" =>
    let (r, s) := hover q.env q.path q.line q.column s
    (.answered r, s)
  | op => (.unknown op, s)

/-- A query on its server, as `handle_query` makes it. -/
def runQuery (q : Query) (s : Session) : Outcome × Session :=
  let s := { s with transport := { s.transport with stdout := s.transport.stdout ++ q.env.arrives } }
  match openDocument q.env q.path q.source q.languageId s with
  | .error e => (.notOpened e, s)
  | .ok s => operate q s

def runQueries (queries : List Query) (s : Session) : Session := queries.foldl (fun s q => (runQuery q s).2) s

/-- `InitializeParams`; the capabilities of the client are an object of their own. -/
def initializeParams (processId : Nat) (rootUri : String) (capabilities : List (String × Json)) : Json :=
  .obj [("processId", num processId), ("rootUri", .str rootUri), ("capabilities", .obj capabilities)]

/-- A session as `start_with_capabilities` leaves it: the handshake is over, and no
    document is open. -/
def started (processId : Nat) (rootUri : String) (capabilities : List (String × Json)) (transport : StdioTransport)
    (nextId : UInt64) : Session :=
  ⟨transport, nextId, [],
    [⟨"initialize", initializeParams processId rootUri capabilities⟩, ⟨"initialized", .obj []⟩]⟩

/-! ## What is sent -/

/-- The document a message names. -/
def Sent.uri (m : Sent) : Option String := ((m.params.get "textDocument").bind (·.get "uri")).bind Json.asString

def Sent.isDidOpen (m : Sent) : Bool := m.method == "textDocument/didOpen"

/-- The message opens the document. -/
def Sent.opens (uri : String) (m : Sent) : Bool := m.isDidOpen && m.uri == some uri

/-- Every message that uses a document comes after one that opens it. -/
def OpenedBefore (sent : List Sent) : Prop :=
  ∀ before m after uri, sent = before ++ m :: after → m.uri = some uri → m.isDidOpen = false →
    ∃ o ∈ before, o.opens uri

theorem openedBefore_snoc {sent : List Sent} {m : Sent} (h : OpenedBefore sent)
    (hm : ∀ uri, m.uri = some uri → m.isDidOpen = false → ∃ o ∈ sent, o.opens uri) : OpenedBefore (sent ++ [m]) := by
  intro before x after uri hsplit huri hopen
  rcases List.eq_nil_or_concat after with rfl | ⟨after, last, rfl⟩
  · obtain ⟨rfl, hx⟩ := List.append_inj' hsplit rfl
    obtain rfl : m = x := by simpa using hx
    exact hm uri huri hopen
  · rw [List.concat_eq_append] at hsplit
    obtain ⟨rfl, -⟩ := List.append_inj' (hsplit.trans (by simp : before ++ x :: (after ++ [last]) =
      (before ++ x :: after) ++ [last])) rfl
    exact h before x after uri rfl huri hopen

@[simp] theorem didOpen_uri (uri languageId source : String) :
    Sent.uri ⟨"textDocument/didOpen", didOpenParams uri languageId source⟩ = some uri := rfl

/-! ## The discipline -/

structure Disciplined (s : Session) : Prop where
  /-- The set holds what was opened. -/
  opened : ∀ uri, uri ∈ s.openedDocs ↔ ∃ o ∈ s.sent, o.opens uri
  once : ∀ uri, s.sent.countP (Sent.opens uri) ≤ 1
  before : OpenedBefore s.sent

theorem disciplined_started (processId : Nat) (rootUri : String) (capabilities : List (String × Json))
    (transport : StdioTransport) (nextId : UInt64) :
    Disciplined (started processId rootUri capabilities transport nextId) := by
  have hinit : ∀ m ∈ (started processId rootUri capabilities transport nextId).sent,
      m.isDidOpen = false ∧ m.uri = none := by
    intro m hm
    rcases List.mem_cons.mp hm with rfl | hm
    · exact ⟨rfl, rfl⟩
    · rw [List.mem_singleton.mp hm]
      exact ⟨rfl, rfl⟩
  have hopens : ∀ uri, ∀ m ∈ (started processId rootUri capabilities transport nextId).sent, m.opens uri = false :=
    fun uri m hm => by simp [Sent.opens, (hinit m hm).1]
  refine ⟨fun uri => ⟨fun h => absurd h List.not_mem_nil, ?_⟩, fun uri => ?_, ?_⟩
  · rintro ⟨o, ho, hopen⟩
    rw [hopens uri o ho] at hopen
    contradiction
  · rw [List.countP_eq_zero.mpr fun m hm => by simp [hopens uri m hm]]
    omega
  · intro before m after uri hsplit huri
    rw [(hinit m (by rw [hsplit]; simp)).2] at huri
    contradiction

section Step

variable {env : Env} {s : Session}

/-- What a message that opens nothing keeps. -/
theorem Disciplined.send {m : Sent} {transport : StdioTransport} {nextId : UInt64} (h : Disciplined s)
    (hm : m.isDidOpen = false) (hopen : ∀ uri, m.uri = some uri → uri ∈ s.openedDocs) :
    Disciplined { s with transport := transport, nextId := nextId, sent := s.sent ++ [m] } where
  opened uri := by
    have hno : m.opens uri = false := by simp [Sent.opens, hm]
    simp [h.opened uri, or_and_right, exists_or, hno]
  once uri := by
    have hno : m.opens uri = false := by simp [Sent.opens, hm]
    simpa [hno] using h.once uri
  before := openedBefore_snoc h.before fun uri huri _ => (h.opened uri).mp (hopen uri huri)

theorem Disciplined.transport (h : Disciplined s) (transport : StdioTransport) (nextId : UInt64) :
    Disciplined { s with transport := transport, nextId := nextId } := ⟨h.opened, h.once, h.before⟩

theorem openDocument_disciplined {path : Path} {source languageId : String} {s' : Session} (h : Disciplined s)
    (hopen : openDocument env path source languageId s = .ok s') :
    Disciplined s' ∧ env.pathToUri path ∈ s'.openedDocs := by
  unfold openDocument at hopen
  set uri := env.pathToUri path with huri
  by_cases hmem : uri ∈ s.openedDocs
  · rw [if_pos hmem] at hopen
    cases hopen
    exact ⟨h, hmem⟩
  rw [if_neg hmem] at hopen
  unfold sendNotification at hopen
  by_cases hwrites : env.notifies = true
  · rw [if_pos hwrites] at hopen
    cases hopen
    -- The set and the message agree on the document that is new, and on no other one.
    have hopens : ∀ u, Sent.opens u ⟨"textDocument/didOpen", didOpenParams uri languageId source⟩ = true ↔ u = uri := by
      intro u
      rw [Sent.opens, didOpen_uri, Sent.isDidOpen, BEq.rfl, Bool.true_and, beq_iff_eq, Option.some_inj]
      exact eq_comm
    refine ⟨⟨fun u => ?_, fun u => ?_, ?_⟩, List.mem_cons_self⟩
    · rw [List.mem_cons, h.opened u]
      simp [or_and_right, exists_or, hopens, or_comm]
    · rw [List.countP_append, List.countP_singleton]
      split
      · rename_i hu
        rw [← (hopens u).mp hu] at hmem
        have hnone : s.sent.countP (Sent.opens u) = 0 :=
          List.countP_eq_zero.mpr fun o ho he => hmem ((h.opened u).mpr ⟨o, ho, he⟩)
        omega
      · simpa using h.once u
    · exact openedBefore_snoc h.before fun u _ hno => absurd hno (by simp [Sent.isDidOpen])
  · rw [if_neg hwrites] at hopen
    contradiction

theorem request_disciplined {method : String} {params : Json} {uri : String} (h : Disciplined s)
    (hmethod : (method == "textDocument/didOpen") = false) (huri : Sent.uri ⟨method, params⟩ = some uri)
    (hopen : uri ∈ s.openedDocs) : Disciplined (request env method params s).2 := by
  unfold request
  by_cases hwrites : env.requests = true
  · simp only [hwrites, if_true]
    exact h.send hmethod fun u hu => by
      rw [huri] at hu
      cases hu
      exact hopen
  · simp only [hwrites]
    exact h.transport _ _

theorem operate_disciplined {q : Query} (h : Disciplined s) (hopen : q.env.pathToUri q.path ∈ s.openedDocs) :
    Disciplined (operate q s).2 := by
  unfold operate
  split
  · exact request_disciplined h (by decide) rfl hopen
  · exact request_disciplined h (by decide) rfl hopen
  · exact request_disciplined h (by decide) rfl hopen
  · exact h

theorem runQuery_disciplined (q : Query) (h : Disciplined s) : Disciplined (runQuery q s).2 := by
  have harrives := h.transport { s.transport with stdout := s.transport.stdout ++ q.env.arrives } s.nextId
  unfold runQuery
  dsimp only
  split
  · exact harrives
  · next s' hs' =>
    obtain ⟨hkept, hmem⟩ := openDocument_disciplined harrives hs'
    exact operate_disciplined hkept hmem

end Step

theorem runQueries_disciplined (queries : List Query) {s : Session} (h : Disciplined s) :
    Disciplined (runQueries queries s) := by
  induction queries generalizing s with
  | nil => exact h
  | cons q queries ih => exact ih (runQuery_disciplined q h)

theorem opened_once_before_use (processId : Nat) (rootUri : String) (capabilities : List (String × Json))
    (transport : StdioTransport) (nextId : UInt64) (queries : List Query) :
    let sent := (runQueries queries (started processId rootUri capabilities transport nextId)).sent
    (∀ uri, sent.countP (Sent.opens uri) ≤ 1) ∧
      ∀ before m after uri, sent = before ++ m :: after → m.uri = some uri → m.isDidOpen = false →
        ∃ o ∈ before, o.opens uri := by
  have h := runQueries_disciplined queries (disciplined_started processId rootUri capabilities transport nextId)
  exact ⟨h.once, h.before⟩

/-! ## The daemon's view -/

/-- The document a message gives the server. -/
def Sent.document (m : Sent) : Option OpenedDoc :=
  if m.isDidOpen then
    (m.params.get "textDocument").bind fun doc =>
      ((doc.get "uri").bind Json.asString).bind fun uri =>
        ((doc.get "languageId").bind Json.asString).bind fun languageId =>
          ((doc.get "text").bind Json.asString).map fun text => ⟨uri, languageId, str text⟩
  else none

/-- The daemon keeps of a session what is open and what the server was given. -/
structure Represents (server : LspServer) (s : Session) : Prop where
  openedDocs : server.openedDocs = s.openedDocs
  given : server.given = s.sent.filterMap Sent.document

@[simp] theorem didOpen_document (uri languageId source : String) :
    Sent.document ⟨"textDocument/didOpen", didOpenParams uri languageId source⟩ =
      some ⟨uri, languageId, str source⟩ := rfl

/-- Opening a document in the daemon's model is opening it in the session. -/
theorem openDocument_represents {h : Host} {env : Env} {server : LspServer} {s : Session} {path : Path}
    {source languageId : String} (hrep : Represents server s) (huri : h.pathToUri = env.pathToUri)
    (hnotify : (h.notify server.process).toBool = env.notifies) :
    match Lsp.openDocument h server path (str source) languageId, openDocument env path source languageId s with
    | .ok server', .ok s' => Represents server' s'
    | .error _, .error _ => True
    | _, _ => False := by
  simp only [Lsp.openDocument, openDocument, sendNotification, hrep.openedDocs, huri, ← hnotify]
  by_cases hmem : env.pathToUri path ∈ s.openedDocs
  · rw [if_pos hmem, if_pos hmem]
    exact hrep
  · rw [if_neg hmem, if_neg hmem]
    cases h.notify server.process with
    | error e => trivial
    | ok _ => exact ⟨by simp, by simp [hrep.given]⟩

end CodeQuery.Lsp.Queries
