/-
  CodeQuery.Lsp.OpenDocs — what the daemon's language servers know of the files
  (see `CodeQuery.Lsp.Daemon`).

  Files are edited between the turns of the accept loop. A document is given to a
  server at the query that opens it, and never again while that server lives: no
  change of it is sent. So a query is answered about the file as it was at its
  opening, and that is the file as it is exactly when it has not changed since
  (`fresh_iff_unchanged`): an edit in between goes unseen
  (`an_edited_file_is_not_sent_again`). The openings are ghost state.
-/

import CodeQuery.Lsp.ClientRuns
import CodeQuery.Text.Utf8

namespace CodeQuery.Lsp.Daemon

open CodeQuery.Core CodeQuery.Text CodeQuery.Lsp.Socket

/-! ## Files and queries -/

/-- The content of each file there is. -/
abbrev Contents := Path → Option Str

/-- `fs::read_to_string`, which fails on what is no text, and for reasons of its own. -/
def readText (files : Contents) (readFails : Path → Bool) (p : Path) : Option Str :=
  if readFails p then none else (files p).filter fun s => (fromUtf8 s).isSome

/-- The host, reading these files. -/
def onFiles (files : Contents) (readFails : Path → Bool) (h : Host) : Host :=
  { h with readToString := readText files readFails }

def Turn.onFiles (files : Contents) (readFails : Path → Bool) (t : Turn) : Turn :=
  match t.accepted with
  | .connection h incoming => { t with accepted := .connection (Daemon.onFiles files readFails h) incoming }
  | _ => t

/-- The document is open in the server a query of this key is put to. -/
def alreadyOpen (h : Host) (d : Daemon) (key : Path × Language) (uri : String) : Bool :=
  (d.servers.lookup key).any fun pooled => h.isReady pooled.server.process && pooled.server.openedDocs.contains uri

/-- A query whose document is open in its server. -/
structure Query where
  key : Path × Language
  operation : String
  file : Path
  uri : String
  alreadyOpen : Bool
  /-- The server as the operation finds it. -/
  server : LspServer

/-- What `handle_query` has when it comes to the operation. -/
def openedQuery (h : Host) (d : Daemon) : DaemonRequest → Option Query
  | .query project language operation file _ _ _ =>
    match Language.fromName language with
    | none => none
    | some lang =>
      match getOrStartServer h d project lang with
      | (.error _, _) => none
      | (.ok server, _) =>
        match openDocument h server file ((h.readToString file).getD []) language with
        | .error _ => none
        | .ok server =>
          let uri := h.pathToUri file
          some ⟨(project, lang), operation, file, uri, Daemon.alreadyOpen h d (project, lang) uri, server⟩
  | _ => none

/-- The operations that are put to a server. -/
def isSent (operation : String) : Bool := ["definition", "references", "hover"].contains operation

/-- The text the server was last given for a document. -/
def lastGiven (server : LspServer) (uri : String) : Option Str :=
  ((server.given.filter (·.uri = uri)).getLast?).map (·.text)

/-- The request of a connection that authenticates. -/
def requestOf (c : Codec DaemonRequest) (token : String) (incoming : Str) : Option DaemonRequest :=
  match Socket.readMessage c incoming with
  | (.error _, _) => none
  | (.ok auth, rest) =>
    if authOk token auth then
      match Socket.readMessage c rest with
      | (.error _, _) => none
      | (.ok request, _) => some request
    else none

/-- The query a turn of the accept loop opens a document for. -/
def queryOf (c : Codec DaemonRequest) (s : LoopState) (t : Turn) : Option Query :=
  if s.stopped || t.shutdownFlag then none
  else
    match t.accepted with
    | .connection h incoming =>
      let d := evictIdleServers t.host s.daemon
      (requestOf c d.token incoming).bind (openedQuery h d)
    | _ => none

/-! ## Runs with edits -/

inductive Event where
  /-- Files are written, made or removed: the files as they are then. -/
  | edit (files : Contents)
  | turn (t : Turn) (readFails : Path → Bool)

/-- The query that opened a document in a server: its file, and the files then. -/
structure Opening where
  file : Path
  files : Contents
  readFails : Path → Bool

/-- What was read of the file, and given to the server: nothing of a file that is no
    text. -/
def Opening.text (o : Opening) : Str := (readText o.files o.readFails o.file).getD []

/-- A query sent to a language server, with the files as they are then. -/
structure Asked where
  query : Query
  opening : Opening
  files : Contents

structure Watched where
  loop : LoopState
  files : Contents
  /-- Ghost: the query that last opened a document in a key's server. -/
  openings : (Path × Language) × String → Option Opening
  asked : List Asked

/-- The query that opened the document of `q`: an earlier one, or `q` itself. -/
def openingOf (openings : (Path × Language) × String → Option Opening) (files : Contents) (readFails : Path → Bool)
    (q : Query) : Opening :=
  (if q.alreadyOpen then openings (q.key, q.uri) else none).getD ⟨q.file, files, readFails⟩

def watchStep (c : Codec DaemonRequest) (s : Watched) : Event → Watched
  | .edit files => { s with files := files }
  | .turn t readFails =>
    let t := t.onFiles s.files readFails
    let s' := { s with loop := step c s.loop t }
    match queryOf c s.loop t with
    | none => s'
    | some q =>
      let opening := openingOf s.openings s.files readFails q
      { s' with
        openings := Function.update s.openings (q.key, q.uri) (some opening)
        asked := if isSent q.operation then s.asked ++ [⟨q, opening, s.files⟩] else s.asked }

def watch (c : Codec DaemonRequest) (d : Daemon) (files : Contents) (events : List Event) : Watched :=
  events.foldl (watchStep c) ⟨⟨d, false, []⟩, files, fun _ => none, []⟩

/-! ## What is known in a server -/

/-- For every document open in the server, the text last given is what was read when it
    was opened. -/
def ServerKnown (server : LspServer) (openings : String → Option Opening) : Prop :=
  ∀ uri ∈ server.openedDocs, ∃ o, openings uri = some o ∧ lastGiven server uri = some o.text

def Known (d : Daemon) (openings : (Path × Language) × String → Option Opening) : Prop :=
  ∀ key pooled, d.servers.lookup key = some pooled → ServerKnown pooled.server fun uri => openings (key, uri)

theorem lastGiven_given (server : LspServer) (opened : List String) (doc : OpenedDoc) (uri : String) :
    lastGiven { server with openedDocs := opened, given := server.given ++ [doc] } uri =
      if doc.uri = uri then some doc.text else lastGiven server uri := by
  unfold lastGiven
  by_cases h : doc.uri = uri <;> simp [h]

/-- What a server a query gets is: the one of the pool that runs, or a new one. -/
theorem getOrStartServer_server {h : Host} {d d' : Daemon} {project : Path} {lang : Language} {server : LspServer}
    (hget : getOrStartServer h d project lang = (.ok server, d')) :
    (∃ pooled, d.servers.lookup (project, lang) = some pooled ∧ h.isReady pooled.server.process = true ∧
        server = pooled.server) ∨
      (∀ uri, alreadyOpen h d (project, lang) uri = false) ∧ server.openedDocs = [] := by
  simp only [getOrStartServer] at hget
  split at hget
  · rename_i pooled hlookup
    split at hget
    · rename_i hready
      cases hget
      exact Or.inl ⟨pooled, hlookup, hready, rfl⟩
    · rename_i hready
      right
      refine ⟨fun uri => by simp [alreadyOpen, hlookup, hready], ?_⟩
      split at hget
      · cases hget
      · split at hget
        · cases hget
        · cases hget; rfl
  · rename_i hlookup
    right
    refine ⟨fun uri => by simp [alreadyOpen, hlookup], ?_⟩
    split at hget
    · cases hget
    · split at hget
      · cases hget
      · cases hget; rfl

/-- The pool afterwards holds the server under the key, and else what it held. -/
theorem getOrStartServer_lookup {h : Host} {d d' : Daemon} {project : Path} {lang : Language} {server : LspServer}
    (hget : getOrStartServer h d project lang = (.ok server, d')) :
    (∃ pooled, d'.servers.lookup (project, lang) = some pooled ∧ pooled.server = server) ∧
      ∀ key ≠ (project, lang), d'.servers.lookup key = d.servers.lookup key := by
  simp only [getOrStartServer] at hget
  split at hget
  · split at hget
    · cases hget
      exact ⟨⟨_, AList.lookup_insert _, rfl⟩, fun key hne => AList.lookup_insert_ne hne⟩
    · split at hget
      · cases hget
      · split at hget
        · cases hget
        · cases hget
          refine ⟨⟨_, AList.lookup_insert _, rfl⟩, fun key hne => ?_⟩
          rw [AList.lookup_insert_ne hne, AList.lookup_erase_ne hne]
  · split at hget
    · cases hget
    · split at hget
      · cases hget
      · cases hget
        exact ⟨⟨_, AList.lookup_insert _, rfl⟩, fun key hne => AList.lookup_insert_ne hne⟩

/-- Without a server nothing is added to the pool. -/
theorem getOrStartServer_error {h : Host} {d d' : Daemon} {project : Path} {lang : Language} {e : String}
    (hget : getOrStartServer h d project lang = (.error e, d')) {key : Path × Language} {pooled : PooledServer}
    (hlookup : d'.servers.lookup key = some pooled) : d.servers.lookup key = some pooled := by
  have herase : ∀ d₀ : Daemon, d' = { d₀ with servers := d₀.servers.erase (project, lang) } → d₀ = d →
      d.servers.lookup key = some pooled := by
    intro d₀ hd' hd₀
    subst hd' hd₀
    by_cases hkey : key = (project, lang)
    · rw [hkey, AList.lookup_erase] at hlookup
      cases hlookup
    · rwa [AList.lookup_erase_ne hkey] at hlookup
  simp only [getOrStartServer] at hget
  split at hget
  · split at hget
    · cases hget
    · split at hget
      · cases hget; exact herase d rfl rfl
      · split at hget
        · cases hget; exact herase d rfl rfl
        · cases hget
  · split at hget
    · cases hget; exact hlookup
    · split at hget
      · cases hget; exact hlookup
      · cases hget

/-! ## One request -/

section Requests

variable {openings : (Path × Language) × String → Option Opening}

theorem getOrStartServer_known {h : Host} {d d' : Daemon} {project : Path} {lang : Language}
    {r : Except String LspServer} (hget : getOrStartServer h d project lang = (r, d')) (hd : Known d openings) :
    Known d' openings := by
  intro key pooled hlookup
  cases r with
  | error e => exact hd key pooled (getOrStartServer_error hget hlookup)
  | ok server =>
    obtain ⟨⟨pooled', hpooled', hserver⟩, hother⟩ := getOrStartServer_lookup hget
    by_cases hkey : key = (project, lang)
    · subst hkey
      obtain rfl : pooled' = pooled := Option.some.inj (hpooled'.symm.trans hlookup)
      rcases getOrStartServer_server hget with ⟨pooled₀, hpooled₀, -, heq⟩ | ⟨-, hnone⟩
      · rw [hserver, heq]
        exact hd _ _ hpooled₀
      · rw [hserver]
        intro uri hmem
        simp [hnone] at hmem
    · exact hd key pooled ((hother key hkey).symm.trans hlookup)

/-- The server a query gets has the document open just when it was open before. -/
theorem alreadyOpen_iff {h : Host} {d d' : Daemon} {project : Path} {lang : Language} {server : LspServer}
    (hget : getOrStartServer h d project lang = (.ok server, d')) (uri : String) :
    alreadyOpen h d (project, lang) uri = true ↔ uri ∈ server.openedDocs := by
  rcases getOrStartServer_server hget with ⟨pooled, hlookup, hready, rfl⟩ | ⟨hno, hnone⟩
  · simp [alreadyOpen, hlookup, hready]
  · simp [hno, hnone]

/-- A server put in the pool under its key, with its own openings changed. -/
theorem putServer_known {d : Daemon} {key : Path × Language} {server : LspServer} {uri : String} {o : Opening}
    (hd : Known d openings) (hserver : ServerKnown server (Function.update (fun u => openings (key, u)) uri (some o))) :
    Known (putServer d key server) (Function.update openings (key, uri) (some o)) := by
  have hown : (fun u => Function.update openings (key, uri) (some o) (key, u)) =
      Function.update (fun u => openings (key, u)) uri (some o) :=
    Function.update_comp_eq_of_injective openings (Prod.mk_right_injective key) uri (some o)
  have hkeep : ∀ key' ≠ key, ∀ pooled, d.servers.lookup key' = some pooled →
      ServerKnown pooled.server fun u => Function.update openings (key, uri) (some o) (key', u) := by
    intro key' hne pooled hlookup u hu
    obtain ⟨o', ho', hlast⟩ := hd key' pooled hlookup u hu
    exact ⟨o', (Function.update_of_ne (by simp [hne]) ..).trans ho', hlast⟩
  intro key' pooled hlookup
  unfold putServer at hlookup
  by_cases hkey : key' = key
  · subst hkey
    split at hlookup
    · rw [AList.lookup_insert] at hlookup
      cases hlookup
      rw [hown]
      exact hserver
    · rename_i hnone
      rw [hnone] at hlookup
      cases hlookup
  · split at hlookup
    · rw [AList.lookup_insert_ne hkey] at hlookup
      exact hkeep key' hkey pooled hlookup
    · exact hkeep key' hkey pooled hlookup

/-- Opening a document, or finding it open, leaves the server with the text of its
    opening. -/
theorem openDocument_known {h : Host} {server server' : LspServer} {file : Path} {language : String} {source : Str}
    {o : Opening} {known : String → Option Opening} (hserver : ServerKnown server known)
    (hopen : openDocument h server file source language = .ok server')
    (ho : (h.pathToUri file ∈ server.openedDocs → known (h.pathToUri file) = some o) ∧
      (h.pathToUri file ∉ server.openedDocs → source = o.text)) :
    ServerKnown server' (Function.update known (h.pathToUri file) (some o)) ∧
      lastGiven server' (h.pathToUri file) = some o.text := by
  unfold openDocument at hopen
  simp only at hopen
  split at hopen
  · rename_i hmem
    cases hopen
    obtain ⟨o', ho', hgiven⟩ := hserver _ hmem
    obtain rfl : o = o' := Option.some.inj ((ho.1 hmem).symm.trans ho')
    refine ⟨fun uri huri => ?_, hgiven⟩
    by_cases heq : uri = h.pathToUri file
    · subst heq
      exact ⟨o, Function.update_self .., hgiven⟩
    · rw [Function.update_of_ne heq]
      exact hserver uri huri
  · rename_i hmem
    split at hopen
    · cases hopen
    · cases hopen
      refine ⟨fun uri huri => ?_, by simp [lastGiven_given, ho.2 hmem]⟩
      by_cases heq : uri = h.pathToUri file
      · subst heq
        exact ⟨o, Function.update_self .., by simp [lastGiven_given, ho.2 hmem]⟩
      · rw [Function.update_of_ne heq, lastGiven_given, if_neg (Ne.symm heq)]
        exact hserver uri ((List.mem_cons.mp huri).resolve_left heq)

/-- A request that opens no document gives no server anything. -/
theorem handleRequest_unopened {h : Host} {d : Daemon} {r : DaemonRequest} (hnone : openedQuery h d r = none)
    (hd : Known d openings) : Known (handleRequest h d r).2.2 openings := by
  cases r with
  | query project language operation file line column symbol =>
    simp only [openedQuery] at hnone
    simp only [handleRequest, handleQuery]
    split
    · exact hd
    · rename_i lang hlang
      simp only [hlang] at hnone
      split
      · rename_i hget
        exact getOrStartServer_known hget hd
      · rename_i hget
        simp only [hget] at hnone
        split
        · exact getOrStartServer_known hget hd
        · rename_i hopen
          simp [hopen] at hnone
  | status => exact hd
  | shutdown => exact hd
  | authenticate token => exact hd

/-- Where the document of a query is open, its language has a server, which opened it. -/
theorem openedQuery_some {h : Host} {d : Daemon} {project : Path} {language operation : String} {file : Path}
    {line column : Nat} {symbol : Option String} {q : Query}
    (hq : openedQuery h d (.query project language operation file line column symbol) = some q) :
    ∃ lang server d' server', Language.fromName language = some lang ∧
      getOrStartServer h d project lang = (.ok server, d') ∧
      openDocument h server file ((h.readToString file).getD []) language = .ok server' ∧
      q = ⟨(project, lang), operation, file, h.pathToUri file, alreadyOpen h d (project, lang) (h.pathToUri file),
        server'⟩ := by
  simp only [openedQuery] at hq
  split at hq
  · cases hq
  · rename_i lang hlang
    split at hq
    · cases hq
    · rename_i server d' hget
      split at hq
      · cases hq
      · rename_i server' hopen
        cases hq
        exact ⟨lang, server, d', server', hlang, hget, hopen, rfl⟩

/-- A query whose document is open is answered from the text of its opening. -/
theorem handleRequest_opened {h : Host} {files : Contents} {readFails : Path → Bool} {d : Daemon} {r : DaemonRequest}
    {q : Query} (hq : openedQuery (onFiles files readFails h) d r = some q) (hd : Known d openings) :
    Known (handleRequest (onFiles files readFails h) d r).2.2
        (Function.update openings (q.key, q.uri) (some (openingOf openings files readFails q))) ∧
      lastGiven q.server q.uri = some (openingOf openings files readFails q).text := by
  cases r with
  | query project language operation file line column symbol =>
    obtain ⟨lang, server, d', server', hlang, hget, hopen, rfl⟩ := openedQuery_some hq
    simp only [handleRequest, handleQuery, hlang, hget, hopen]
    have hd' := getOrStartServer_known hget hd
    obtain ⟨⟨pooled, hpooled, hserver⟩, -⟩ := getOrStartServer_lookup hget
    have hknown : ServerKnown server fun uri => openings ((project, lang), uri) := hserver ▸ hd' _ _ hpooled
    have hiff := alreadyOpen_iff hget (h.pathToUri file)
    obtain ⟨hserver', hgiven⟩ := openDocument_known hknown hopen
      (o := openingOf openings files readFails ⟨(project, lang), operation, file, h.pathToUri file,
        alreadyOpen (onFiles files readFails h) d (project, lang) (h.pathToUri file), server'⟩)
      ⟨fun hmem => by
        obtain ⟨o, ho, -⟩ := hknown _ hmem
        simp only [openingOf, hiff.mpr hmem, if_true]
        rw [show openings ((project, lang), h.pathToUri file) = some o from ho]
        exact ho,
       fun hmem => by
        have hno : alreadyOpen (onFiles files readFails h) d (project, lang) (h.pathToUri file) = false := by
          simpa using mt hiff.mp hmem
        simp only [openingOf, hno, Bool.false_eq_true, if_false, Option.getD_none]
        rfl⟩
    exact ⟨putServer_known hd' hserver', hgiven⟩
  | status => cases hq
  | shutdown => cases hq
  | authenticate token => cases hq

end Requests

/-- The operation of a query is run on the server that has the document open; without
    one the answer is an error. -/
theorem handleQuery_response (h : Host) (d : Daemon) (project : Path) (language operation : String) (file : Path)
    (line column : Nat) (symbol : Option String) :
    match openedQuery h d (.query project language operation file line column symbol) with
    | some q =>
      (handleQuery h d project language operation file line column).1 = runOperation h q.server operation file line column
    | none => ∃ e, (handleQuery h d project language operation file line column).1 = .error e := by
  simp only [openedQuery, handleQuery]
  cases Language.fromName language with
  | none => exact ⟨_, rfl⟩
  | some lang =>
    simp only
    cases getOrStartServer h d project lang with
    | mk r d' =>
      cases r with
      | error e => exact ⟨_, rfl⟩
      | ok server =>
        simp only
        cases openDocument h server file ((h.readToString file).getD []) language with
        | error e => exact ⟨_, rfl⟩
        | ok server' => rfl

/-! ## Turns and runs -/

section Runs

variable {c : Codec DaemonRequest}

theorem handleConnection_daemon (h : Host) (d : Daemon) (incoming : Str) :
    (handleConnection c h d incoming).2.2 =
      ((requestOf c d.token incoming).map fun r => (handleRequest h d r).2.2).getD d := by
  unfold handleConnection requestOf
  rcases Socket.readMessage c incoming with ⟨_ | auth, rest⟩
  · rfl
  · by_cases hauth : authOk d.token auth
    · simp only [hauth, if_true]
      rcases Socket.readMessage c rest with ⟨_ | request, _⟩ <;> rfl
    · simp only [hauth, if_false, Bool.false_eq_true]
      rfl

theorem evictIdleServers_known {h : Host} {d : Daemon} {openings : (Path × Language) × String → Option Opening}
    (hd : Known d openings) : Known (evictIdleServers h d) openings := by
  have herase : ∀ (keys : List (Path × Language)) (servers : Pool) (key : Path × Language) (pooled : PooledServer),
      (keys.foldl (fun servers key => servers.erase key) servers).lookup key = some pooled →
        servers.lookup key = some pooled := by
    intro keys
    induction keys with
    | nil => intro servers key pooled h; exact h
    | cons k keys ih =>
      intro servers key pooled h
      have hlookup := ih (servers.erase k) key pooled h
      by_cases hkey : key = k
      · subst hkey
        rw [AList.lookup_erase] at hlookup
        cases hlookup
      · rwa [AList.lookup_erase_ne hkey] at hlookup
  exact fun key pooled hlookup => hd key pooled (herase _ _ key pooled hlookup)

/-- A turn leaves known what is open in the servers, with the opening of its query. -/
theorem turn_known {s : LoopState} {t : Turn} {files : Contents} {readFails : Path → Bool}
    {openings : (Path × Language) × String → Option Opening} (hs : Known s.daemon openings) :
    match queryOf c s (t.onFiles files readFails) with
    | none => Known (step c s (t.onFiles files readFails)).daemon openings
    | some q =>
      Known (step c s (t.onFiles files readFails)).daemon
          (Function.update openings (q.key, q.uri) (some (openingOf openings files readFails q))) ∧
        lastGiven q.server q.uri = some (openingOf openings files readFails q).text := by
  obtain ⟨shutdownFlag, host, accepted⟩ := t
  by_cases hstopped : s.stopped
  · cases accepted <;> simpa [queryOf, step, Turn.onFiles, hstopped] using hs
  by_cases hflag : shutdownFlag
  · cases accepted <;> simpa [queryOf, step, Turn.onFiles, hstopped, hflag] using hs
  have hd := evictIdleServers_known (h := host) hs
  cases accepted with
  | connection h incoming =>
    simp only [queryOf, step, Turn.onFiles, hstopped, hflag, Bool.or_self, Bool.false_eq_true, if_false,
      handleConnection_daemon]
    cases requestOf c (evictIdleServers host s.daemon).token incoming with
    | none => exact hd
    | some r =>
      simp only [Option.bind_some, Option.map_some, Option.getD_some]
      cases hq : openedQuery (onFiles files readFails h) (evictIdleServers host s.daemon) r with
      | none => exact handleRequest_unopened hq hd
      | some q => exact handleRequest_opened hq hd
  | wouldBlock => simpa [queryOf, step, Turn.onFiles, hstopped, hflag] using hd
  | failed => simpa [queryOf, step, Turn.onFiles, hstopped, hflag] using hd

structure Watched.Inv (s : Watched) : Prop where
  known : Known s.loop.daemon s.openings
  asked : ∀ a ∈ s.asked, lastGiven a.query.server a.query.uri = some a.opening.text

theorem watchStep_inv {s : Watched} (hs : s.Inv) (e : Event) : (watchStep c s e).Inv := by
  cases e with
  | edit files => exact ⟨hs.known, hs.asked⟩
  | turn t readFails =>
    have hturn := @turn_known c s.loop t s.files readFails _ hs.known
    simp only [watchStep]
    cases hq : queryOf c s.loop (t.onFiles s.files readFails) with
    | none =>
      rw [hq] at hturn
      exact ⟨hturn, hs.asked⟩
    | some q =>
      rw [hq] at hturn
      refine ⟨hturn.1, fun a ha => ?_⟩
      simp only at ha
      split at ha
      · rcases List.mem_append.mp ha with ha | ha
        · exact hs.asked a ha
        · obtain rfl := List.mem_singleton.mp ha
          exact hturn.2
      · exact hs.asked a ha

theorem watch_inv (d : Daemon) (hd : d.servers = ∅) (files : Contents) (events : List Event) :
    (watch c d files events).Inv := by
  have hrun : ∀ (s : Watched), s.Inv → (events.foldl (watchStep c) s).Inv := by
    induction events with
    | nil => exact fun s hs => hs
    | cons e events ih => exact fun s hs => ih _ (watchStep_inv hs e)
  refine hrun _ ⟨fun key pooled hlookup => ?_, by simp⟩
  rw [hd] at hlookup
  cases hlookup

end Runs

/-! ## Current contents -/

/-- The text the server was last given for the file is the file's content. -/
def Asked.Fresh (a : Asked) : Prop :=
  ∀ content, a.files a.query.file = some content → lastGiven a.query.server a.query.uri = some content

/-- The file's content is what was read at the query that opened the document: it has
    not changed since, and could be read then. -/
def Asked.Unchanged (a : Asked) : Prop := ∀ content, a.files a.query.file = some content → a.opening.text = content

/-- In every run of a daemon, with any edits between its turns, a query sent to a
    language server finds the file's content there if and only if the file has not changed
    since it was opened in that server. -/
theorem fresh_iff_unchanged (c : Codec DaemonRequest) (idleTimeout startTime : Nat) (root : Path) (token : String)
    (files : Contents) (events : List Event) :
    ∀ a ∈ (watch c (Daemon.new idleTimeout startTime root token) files events).asked, a.Fresh ↔ a.Unchanged := by
  intro a ha
  have hgiven := (watch_inv (Daemon.new idleTimeout startTime root token) rfl files events).asked a ha
  unfold Asked.Fresh Asked.Unchanged
  simp only [hgiven, Option.some.injEq]

/-! ## An edit between two queries -/

def lib : Path := [.rootDir, .normal "lib.rs"]

def askDefinition : DaemonRequest := .query [.rootDir] "rust" "definition" lib 1 3 none

def requestTexts : Codec DaemonRequest :=
  Client.tableCodec [(.authenticate "k", "auth"), (askDefinition, "definition")] (by decide)

/-- A host on which every server starts, runs and answers. -/
def willing : Host :=
  { (default : Host) with
    isReady := fun _ => true
    start := fun _ _ => .ok 1
    pathToUri := fun _ => "file:///lib.rs"
    notify := fun _ => .ok ()
    findDefinition := fun _ _ _ _ => .ok [] }

def askingTurn : Event :=
  .turn ⟨false, willing, .connection willing (frame (str "auth") ++ frame (str "definition"))⟩ fun _ => false

def holding (content : String) : Contents := fun p => if p = lib then some (str content) else none

/-- Without an edit the second query finds the file as it is. -/
theorem fresh_iff_unchanged_unedited :
    ∃ a ∈ (watch requestTexts (Daemon.new 1000 0 [.rootDir] "k") (holding "fn a() {}") [askingTurn, askingTurn]).asked,
      a.query.alreadyOpen = true ∧ a.Fresh := by
  have hrun : ∃ a ∈ (watch requestTexts (Daemon.new 1000 0 [.rootDir] "k") (holding "fn a() {}")
        [askingTurn, askingTurn]).asked,
      a.query.alreadyOpen = true ∧ a.files a.query.file = some a.opening.text := by decide
  obtain ⟨a, ha, hopen, htext⟩ := hrun
  refine ⟨a, ha, hopen, (fresh_iff_unchanged requestTexts 1000 0 [.rootDir] "k" _ _ a ha).mpr ?_⟩
  intro content hcontent
  exact Option.some.inj (htext.symm.trans hcontent)

/-- Asked, edited, asked again: the second query is answered about the file as it was. -/
theorem an_edited_file_is_not_sent_again :
    ∃ a ∈ (watch requestTexts (Daemon.new 1000 0 [.rootDir] "k") (holding "fn a() {}")
        [askingTurn, .edit (holding "fn b() {}"), askingTurn]).asked,
      a.files a.query.file = some (str "fn b() {}") ∧
        lastGiven a.query.server a.query.uri = some (str "fn a() {}") ∧ ¬a.Fresh := by
  have hrun : ∃ a ∈ (watch requestTexts (Daemon.new 1000 0 [.rootDir] "k") (holding "fn a() {}")
        [askingTurn, .edit (holding "fn b() {}"), askingTurn]).asked,
      a.files a.query.file = some (str "fn b() {}") ∧
        lastGiven a.query.server a.query.uri = some (str "fn a() {}") := by decide
  obtain ⟨a, ha, hnow, hgiven⟩ := hrun
  refine ⟨a, ha, hnow, hgiven, fun hfresh => ?_⟩
  have hsame := (hfresh _ hnow).symm.trans hgiven
  revert hsame
  decide

end CodeQuery.Lsp.Daemon
