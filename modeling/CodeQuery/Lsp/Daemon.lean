/-
  CodeQuery.Lsp.Daemon — the daemon and its pool of language servers
  (`codequery-lsp/src/daemon.rs`, `config.rs`, `queries.rs`).

  What the daemon finds outside is a `Host`: the time, which processes live, the files,
  and what a language server answers. A connection is the bytes its client sends; of
  the bytes sent back only the messages are kept. `acceptLoop` is one turn of the loop
  after the other, each with the hosts it meets.
-/

import CodeQuery.Core.Language
import CodeQuery.Lsp.Socket
import Mathlib.Data.List.AList

namespace CodeQuery.Lsp

open CodeQuery.Core CodeQuery.Text CodeQuery.Lsp.Socket

/-! ## Language servers -/

structure ServerConfig where
  binary : String
  args : List String
  env : List (String × String)
  deriving DecidableEq, Repr

/-- `LanguageServerRegistry::new`. -/
def builtinConfigs : List (Language × ServerConfig) :=
  [(.rust, ⟨"rust-analyzer", [], []⟩), (.typeScript, ⟨"typescript-language-server", ["--stdio"], []⟩),
   (.javaScript, ⟨"typescript-language-server", ["--stdio"], []⟩), (.python, ⟨"pyright-langserver", ["--stdio"], []⟩),
   (.go, ⟨"gopls", ["serve"], []⟩), (.c, ⟨"clangd", [], []⟩), (.cpp, ⟨"clangd", [], []⟩), (.java, ⟨"jdtls", [], []⟩),
   (.ruby, ⟨"solargraph", ["stdio"], []⟩), (.cSharp, ⟨"OmniSharp", ["--languageserver"], []⟩),
   (.swift, ⟨"sourcekit-lsp", [], []⟩), (.kotlin, ⟨"kotlin-language-server", [], []⟩),
   (.php, ⟨"intelephense", ["--stdio"], []⟩), (.zig, ⟨"zls", [], []⟩), (.lua, ⟨"lua-language-server", [], []⟩),
   (.bash, ⟨"bash-language-server", ["start"], []⟩)]

def configFor (configs : List (Language × ServerConfig)) (l : Language) : Option ServerConfig :=
  (configs.find? (·.1 == l)).map (·.2)

/-- `{language:?}`. -/
def debugName : Language → String
  | .rust => "Rust" | .typeScript => "TypeScript" | .javaScript => "JavaScript" | .python => "Python" | .go => "Go"
  | .c => "C" | .cpp => "Cpp" | .java => "Java" | .ruby => "Ruby" | .php => "Php" | .cSharp => "CSharp"
  | .swift => "Swift" | .kotlin => "Kotlin" | .scala => "Scala" | .zig => "Zig" | .lua => "Lua" | .bash => "Bash"
  | .html => "Html" | .css => "Css" | .json => "Json" | .yaml => "Yaml" | .toml => "Toml"

/-- A document as `didOpen` gives it. -/
structure OpenedDoc where
  uri : String
  languageId : String
  text : Str
  deriving DecidableEq, Repr

structure LspServer where
  process : Nat
  openedDocs : List String
  /-- What the server was given, the newest last. -/
  given : List OpenedDoc
  deriving DecidableEq, Repr

structure Host where
  /-- Milliseconds. -/
  now : Nat
  /-- `is_ready`: the process runs. -/
  isReady : Nat → Bool
  /-- `LspServer::start`: the process, or the error's text. -/
  start : ServerConfig → Path → Except String Nat
  readToString : Path → Option Str
  pathToUri : Path → String
  /-- Whether a notification can be written to the process. -/
  notify : Nat → Except String Unit
  findDefinition : LspServer → Path → Nat → Nat → Except String (List LspLocation)
  findReferences : LspServer → Path → Nat → Nat → Except String (List LspLocation)
  hover : LspServer → Path → Nat → Nat → Except String (Option String)
  deriving Inhabited

/-- `open_document`: a document once opened is not sent again. -/
def openDocument (h : Host) (server : LspServer) (path : Path) (source : Str) (languageId : String) :
    Except String LspServer :=
  let uri := h.pathToUri path
  if uri ∈ server.openedDocs then .ok server
  else
    match h.notify server.process with
    | .error e => .error e
    | .ok () =>
      .ok { server with openedDocs := uri :: server.openedDocs, given := server.given ++ [⟨uri, languageId, source⟩] }

/-! ## The daemon -/

structure PooledServer where
  server : LspServer
  lastUsed : Nat
  started : Nat
  deriving DecidableEq, Repr

abbrev Pool := AList fun _ : Path × Language => PooledServer

structure Daemon where
  servers : Pool
  registry : List (Language × ServerConfig)
  idleTimeout : Nat
  startTime : Nat
  projectRoot : Path
  token : String

namespace Daemon

/-- `Daemon::new`; the token is generated. -/
def new (idleTimeout startTime : Nat) (projectRoot : Path) (token : String) : Daemon :=
  ⟨∅, builtinConfigs, idleTimeout, startTime, projectRoot, token⟩

section Handlers

variable (h : Host)

/-- The key of the pool and the server under it, started when none runs. -/
def getOrStartServer (d : Daemon) (project : Path) (language : Language) : Except String LspServer × Daemon :=
  let key := (project, language)
  let start (d : Daemon) : Except String LspServer × Daemon :=
    match configFor d.registry language with
    | none =>
      (.error ("language server not found: no language server configured for " ++ debugName language), d)
    | some config =>
      match h.start config project with
      | .error e => (.error e, d)
      | .ok process =>
        let server : LspServer := ⟨process, [], []⟩
        (.ok server, { d with servers := d.servers.insert key ⟨server, h.now, h.now⟩ })
  match d.servers.lookup key with
  | some pooled =>
    if h.isReady pooled.server.process then
      (.ok pooled.server, { d with servers := d.servers.insert key { pooled with lastUsed := h.now } })
    else start { d with servers := d.servers.erase key }
  | none => start d

/-- The server's entry of the pool, with the server as it is now. -/
def putServer (d : Daemon) (key : Path × Language) (server : LspServer) : Daemon :=
  match d.servers.lookup key with
  | some pooled => { d with servers := d.servers.insert key { pooled with server := server } }
  | none => d

/-- The operation of a query, on the server that has the document. -/
def runOperation (server : LspServer) (operation : String) (file : Path) (line column : Nat) : DaemonResponse :=
  match operation with
  | "definition" =>
    match h.findDefinition server file line column with
    | .ok locations => .locations locations
    | .error e => .error ("definition failed: " ++ e)
  | "references" =>
    match h.findReferences server file line column with
    | .ok locations => .locations locations
    | .error e => .error ("references failed: " ++ e)
  | "hover" =>
    match h.hover server file line column with
    | .ok text => .hover text
    | .error e => .error ("hover failed: " ++ e)
  | _ => .error ("unknown operation: " ++ operation)

def handleQuery (d : Daemon) (project : Path) (language operation : String) (file : Path) (line column : Nat) :
    DaemonResponse × Daemon :=
  match Language.fromName language with
  | none => (.error ("unsupported language: " ++ language), d)
  | some lang =>
    match getOrStartServer h d project lang with
    | (.error e, d) => (.error ("failed to start server: " ++ e), d)
    | (.ok server, d) =>
      let source := (h.readToString file).getD []
      match openDocument h server file source language with
      | .error e => (.error ("failed to open document: " ++ e), d)
      | .ok server => (runOperation h server operation file line column, putServer d (project, lang) server)

def handleStatus (d : Daemon) : DaemonResponse :=
  .status (d.servers.entries.map fun e => ⟨e.1.1, (debugName e.1.2).toLower, (h.now - e.2.started) / 1000⟩)
    ((h.now - d.startTime) / 1000)

/-- The response, whether the daemon should shut down, and the daemon. -/
def handleRequest (d : Daemon) : DaemonRequest → DaemonResponse × Bool × Daemon
  | .query project language operation file line column _ =>
    let (response, d) := handleQuery h d project language operation file line column
    (response, false, d)
  | .status => (handleStatus h d, false, d)
  | .shutdown => (.ok, true, d)
  | .authenticate _ => (.error "unexpected authenticate request", false, d)

/-- `evict_idle_servers`. -/
def evictIdleServers (d : Daemon) : Daemon :=
  let toRemove := (d.servers.entries.filter fun e => decide (d.idleTimeout < h.now - e.2.lastUsed)).map (·.1)
  { d with servers := toRemove.foldl (fun servers key => servers.erase key) d.servers }

end Handlers

/-! ## Connections -/

section Connections

variable (c : Codec DaemonRequest)

/-- What a connection's first read must give. -/
def authOk (token : String) : DaemonRequest → Bool
  | .authenticate t => t == token
  | _ => false

/-- `handle_connection`: the messages sent back, whether the daemon should shut down,
    and the daemon. -/
def handleConnection (h : Host) (d : Daemon) (incoming : Str) : List DaemonResponse × Bool × Daemon :=
  match Socket.readMessage c incoming with
  | (.error _, _) => ([], false, d)
  | (.ok auth, rest) =>
    if authOk d.token auth then
      match Socket.readMessage c rest with
      | (.error _, _) => ([.authOk], false, d)
      | (.ok request, _) =>
        let (response, shouldStop, d) := handleRequest h d request
        ([.authOk, response], shouldStop, d)
    else ([.error "authentication failed"], false, d)

inductive Accepted where
  | connection (host : Host) (incoming : Str)
  | wouldBlock
  | failed

/-- One turn of the accept loop. -/
structure Turn where
  /-- A signal has set the flag. -/
  shutdownFlag : Bool
  /-- The host when idle servers are evicted. -/
  host : Host
  accepted : Accepted

/-- A connection the daemon handled, with the daemon before and after. -/
structure Served where
  incoming : Str
  before : Daemon
  responses : List DaemonResponse
  shouldStop : Bool
  after : Daemon

structure LoopState where
  daemon : Daemon
  stopped : Bool
  served : List Served

def step (s : LoopState) (t : Turn) : LoopState :=
  if s.stopped then s
  else if t.shutdownFlag then { s with stopped := true }
  else
    let d := evictIdleServers t.host s.daemon
    match t.accepted with
    | .connection host incoming =>
      let (responses, shouldStop, d') := handleConnection c host d incoming
      ⟨d', shouldStop, s.served ++ [⟨incoming, d, responses, shouldStop, d'⟩]⟩
    | .wouldBlock => { s with daemon := d }
    | .failed => { s with daemon := d }

/-- `accept_loop`, over any turns. -/
def acceptLoop (d : Daemon) (turns : List Turn) : LoopState := turns.foldl (step c) ⟨d, false, []⟩

end Connections

end Daemon

end CodeQuery.Lsp
