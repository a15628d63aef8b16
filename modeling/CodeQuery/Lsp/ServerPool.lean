/-
  CodeQuery.Lsp.ServerPool — the pool of language servers over whole runs
  (see `CodeQuery.Lsp.Daemon`; `codequery-lsp/src/daemon.rs`).

  `getOrStart` is `get_or_start_server` phase by phase, with the lookup it ends in; it
  is `getOrStartServer`, so that lookup always finds the server (`getOrStart_eq`). In a
  run servers are asked for, idle ones evicted, all shut down, and between these steps
  processes end by themselves. Each step keeps the discipline of the pool
  (`pool_discipline`).
-/

import CodeQuery.Lsp.Daemon
import Mathlib.Data.Finset.Basic
import Mathlib.Data.Finset.Filter

namespace CodeQuery.Lsp.Daemon

open CodeQuery.Core

/-! ## The phases -/

inductive ServerPoolState where
  | ready
  | dead
  | missing
  deriving DecidableEq, Repr

section Phases

variable (h : Host)

/-- The state of the entry; one that is ready is used now. -/
def serverState (d : Daemon) (key : Path × Language) : ServerPoolState × Daemon :=
  match d.servers.lookup key with
  | some pooled =>
    if h.isReady pooled.server.process then
      (.ready, { d with servers := d.servers.insert key { pooled with lastUsed := h.now } })
    else (.dead, d)
  | none => (.missing, d)

/-- The lookup that must find the server; `none` is the panic of its `expect`. -/
def confirmed (d : Daemon) (key : Path × Language) : Option (Except String LspServer) × Daemon :=
  ((d.servers.lookup key).map fun pooled => .ok pooled.server, d)

def startNew (d : Daemon) (project : Path) (language : Language) : Option (Except String LspServer) × Daemon :=
  match configFor d.registry language with
  | none =>
    (some (.error ("language server not found: no language server configured for " ++ debugName language)), d)
  | some config =>
    match h.start config project with
    | .error e => (some (.error e), d)
    | .ok process =>
      confirmed { d with servers := d.servers.insert (project, language) ⟨⟨process, [], []⟩, h.now, h.now⟩ }
        (project, language)

def getOrStart (d : Daemon) (project : Path) (language : Language) : Option (Except String LspServer) × Daemon :=
  let key := (project, language)
  match serverState h d key with
  | (.ready, d) => confirmed d key
  | (.dead, d) => startNew h { d with servers := d.servers.erase key } project language
  | (.missing, d) => startNew h d project language

theorem getOrStart_eq (d : Daemon) (project : Path) (language : Language) :
    getOrStart h d project language =
      (some (getOrStartServer h d project language).1, (getOrStartServer h d project language).2) := by
  have hstart : ∀ d : Daemon, startNew h d project language =
      match configFor d.registry language with
      | none =>
        (some (.error ("language server not found: no language server configured for " ++ debugName language)), d)
      | some config =>
        match h.start config project with
        | .error e => (some (.error e), d)
        | .ok process =>
          (some (.ok ⟨process, [], []⟩),
            { d with servers := d.servers.insert (project, language) ⟨⟨process, [], []⟩, h.now, h.now⟩ }) := by
    intro d
    unfold startNew
    split
    · rfl
    · split
      · rfl
      · simp only [confirmed, AList.lookup_insert, Option.map_some]
  cases hlookup : d.servers.lookup (project, language) with
  | none =>
    simp only [getOrStart, serverState, getOrStartServer, hlookup, hstart]
    cases configFor d.registry language with
    | none => rfl
    | some config => cases hrun : h.start config project <;> simp only [hrun]
  | some pooled =>
    by_cases hready : h.isReady pooled.server.process = true
    · simp only [getOrStart, serverState, getOrStartServer, hlookup, hready, if_true, confirmed, AList.lookup_insert,
        Option.map_some]
    · simp only [getOrStart, serverState, getOrStartServer, hlookup, hready, Bool.false_eq_true, if_false, hstart]
      cases configFor d.registry language with
      | none => rfl
      | some config => cases hrun : h.start config project <;> simp only [hrun]

end Phases

/-! ## Runs -/

/-- The daemon among the processes it started. A process is known by its handle, and
    every start gives a new one. -/
structure PoolState where
  daemon : Daemon
  alive : Finset Nat
  next : Nat
  /-- Ghost: what a process was started with. -/
  origin : Nat → Option (ServerConfig × Path)

inductive PoolEvent where
  /-- A process ends by itself. -/
  | dies (process : Nat)
  /-- A server is asked for; `starts` says whether one comes up. -/
  | get (project : Path) (language : Language) (now : Nat) (starts : ServerConfig → Path → Except String Unit)
  | evict (now : Nat)
  | shutdownAll

/-- What the daemon finds at a time. -/
def PoolState.host (s : PoolState) (now : Nat) (starts : ServerConfig → Path → Except String Unit) : Host :=
  { (default : Host) with
    now := now
    isReady := fun process => decide (process ∈ s.alive)
    start := fun config project => (starts config project).map fun _ => s.next }

/-- A server that comes up runs. -/
def PoolState.started (s : PoolState) (d : Daemon) (project : Path) (language : Language) : PoolState :=
  { daemon := d
    alive := insert s.next s.alive
    next := s.next + 1
    origin := Function.update s.origin s.next ((configFor d.registry language).map (·, project)) }

/-- `shutdown_all_servers`. -/
def shutdownAllServers (d : Daemon) : Daemon :=
  { d with servers := (d.servers.keys).foldl (fun servers key => servers.erase key) d.servers }

/-- The processes of a pool that are no longer in another are shut down. -/
def PoolState.shutDown (s : PoolState) (d : Daemon) : PoolState :=
  { s with
    daemon := d
    alive := s.alive.filter fun process =>
      !(s.daemon.servers.entries.any fun e => e.2.server.process == process && !(d.servers.lookup e.1).isSome) }

/-- What a request for a server gives, if it is one, and the state behind it. -/
def PoolState.step (s : PoolState) : PoolEvent → Option (Option (Except String LspServer)) × PoolState
  | .dies process => (none, { s with alive := s.alive.erase process })
  | .get project language now starts =>
    let (result, d) := getOrStart (s.host now starts) s.daemon project language
    match result with
    | some (.ok server) =>
      (some result, if server.process = s.next then s.started d project language else { s with daemon := d })
    | _ => (some result, { s with daemon := d })
  | .evict now => (none, s.shutDown (evictIdleServers (s.host now fun _ _ => .ok ()) s.daemon))
  | .shutdownAll => (none, s.shutDown (shutdownAllServers s.daemon))

def PoolState.new (idleTimeout startTime : Nat) (projectRoot : Path) (token : String) : PoolState :=
  ⟨Daemon.new idleTimeout startTime projectRoot token, ∅, 0, fun _ => none⟩

def PoolState.run (s : PoolState) (events : List PoolEvent) : PoolState :=
  events.foldl (fun s e => (s.step e).2) s

/-! ## What each step does -/

theorem lookup_foldl_erase {keys : List (Path × Language)} : ∀ {servers : Pool} {key : Path × Language},
    (keys.foldl (fun servers key => servers.erase key) servers).lookup key =
      if key ∈ keys then none else servers.lookup key := by
  induction keys with
  | nil => intro servers key; simp
  | cons k keys ih =>
    intro servers key
    rw [List.foldl_cons, ih]
    rcases eq_or_ne key k with rfl | hkey
    · simp only [AList.lookup_erase, List.mem_cons, true_or, if_true, ite_self]
    · simp [hkey, AList.lookup_erase_ne hkey]

/-- Exactly the entries idle longer than the timeout are evicted. -/
theorem lookup_evictIdleServers (h : Host) (d : Daemon) (key : Path × Language) :
    (evictIdleServers h d).servers.lookup key =
      (d.servers.lookup key).filter fun pooled => !decide (d.idleTimeout < h.now - pooled.lastUsed) := by
  have hmem : key ∈ ((d.servers.entries.filter fun e => decide (d.idleTimeout < h.now - e.2.lastUsed)).map (·.1)) ↔
      ∃ pooled, d.servers.lookup key = some pooled ∧ d.idleTimeout < h.now - pooled.lastUsed := by
    simp only [List.mem_map, List.mem_filter, decide_eq_true_eq]
    refine ⟨fun hkey => ?_, fun hkey => ?_⟩
    · obtain ⟨⟨k, pooled⟩, ⟨hentry, hidle⟩, rfl⟩ := hkey
      exact ⟨pooled, AList.mem_lookup_iff.mpr hentry, hidle⟩
    · obtain ⟨pooled, hlookup, hidle⟩ := hkey
      exact ⟨⟨key, pooled⟩, ⟨AList.mem_lookup_iff.mp hlookup, hidle⟩, rfl⟩
  simp only [evictIdleServers, lookup_foldl_erase, hmem]
  cases hlookup : d.servers.lookup key with
  | none => simp
  | some pooled =>
    by_cases hidle : d.idleTimeout < h.now - pooled.lastUsed
    · simp [hidle, Option.filter]
    · simp [hidle, Option.filter]

theorem lookup_shutdownAllServers (d : Daemon) (key : Path × Language) :
    (shutdownAllServers d).servers.lookup key = none := by
  simp only [shutdownAllServers, lookup_foldl_erase]
  split
  · rfl
  · rename_i hkey
    exact AList.lookup_eq_none.mpr fun hmem => hkey (AList.mem_keys.mp hmem)

/-- The error of starting a server, if it is one. -/
def startError (h : Host) (d : Daemon) (project : Path) (language : Language) : Option String :=
  match configFor d.registry language with
  | none => some ("language server not found: no language server configured for " ++ debugName language)
  | some config =>
    match h.start config project with
    | .error e => some e
    | .ok _ => none

/-- What asking for a server does: one that runs is used again, or none comes up and
    the key has no entry, or a new one is in it. -/
theorem getOrStartServer_cases (h : Host) (d : Daemon) (project : Path) (language : Language) :
    (∃ pooled, d.servers.lookup (project, language) = some pooled ∧ h.isReady pooled.server.process = true ∧
      (getOrStartServer h d project language).1 = .ok pooled.server ∧
      (getOrStartServer h d project language).2.servers.lookup (project, language) =
        some { pooled with lastUsed := h.now }) ∨
    (∀ pooled, d.servers.lookup (project, language) = some pooled → h.isReady pooled.server.process = false) ∧
      ((∃ e, startError h d project language = some e ∧ (getOrStartServer h d project language).1 = .error e ∧
          (getOrStartServer h d project language).2.servers.lookup (project, language) = none) ∨
        ∃ config process, configFor d.registry language = some config ∧ h.start config project = .ok process ∧
          (getOrStartServer h d project language).1 = .ok ⟨process, [], []⟩ ∧
          (getOrStartServer h d project language).2.servers.lookup (project, language) =
            some ⟨⟨process, [], []⟩, h.now, h.now⟩) := by
  cases hlookup : d.servers.lookup (project, language) with
  | none =>
    refine .inr ⟨by simp, ?_⟩
    simp only [getOrStartServer, hlookup]
    cases hconfig : configFor d.registry language with
    | none => exact .inl ⟨_, by simp only [startError, hconfig], rfl, hlookup⟩
    | some config =>
      cases hrun : h.start config project with
      | error e => exact .inl ⟨e, by simp only [startError, hconfig, hrun], by simp only [hrun], by simp only [hrun, hlookup]⟩
      | ok process =>
        exact .inr ⟨config, process, rfl, hrun, by simp only [hrun], by simp only [hrun, AList.lookup_insert]⟩
  | some pooled =>
    by_cases hready : h.isReady pooled.server.process = true
    · refine .inl ⟨pooled, rfl, hready, ?_⟩
      simp only [getOrStartServer, hlookup, hready, if_true, AList.lookup_insert, and_self]
    · refine .inr ⟨by simpa using hready, ?_⟩
      simp only [getOrStartServer, hlookup, hready, Bool.false_eq_true, if_false]
      cases hconfig : configFor d.registry language with
      | none => exact .inl ⟨_, by simp only [startError, hconfig], rfl, AList.lookup_erase _ _⟩
      | some config =>
        cases hrun : h.start config project with
        | error e => exact .inl ⟨e, by simp only [startError, hconfig, hrun], by simp only [hrun],
          by simp only [hrun, AList.lookup_erase]⟩
        | ok process =>
          exact .inr ⟨config, process, rfl, hrun, by simp only [hrun], by simp only [hrun, AList.lookup_insert]⟩

theorem getOrStartServer_frame (h : Host) (d : Daemon) (project : Path) (language : Language) :
    (getOrStartServer h d project language).2.registry = d.registry ∧
    ∀ key ≠ (project, language),
      (getOrStartServer h d project language).2.servers.lookup key = d.servers.lookup key := by
  have hstart : ∀ servers : Pool, (∀ key ≠ (project, language), servers.lookup key = d.servers.lookup key) →
      ∀ pooled, ∀ key ≠ (project, language),
        (servers.insert (project, language) pooled).lookup key = d.servers.lookup key := by
    intro servers hservers pooled key hne
    rw [AList.lookup_insert_ne hne, hservers key hne]
  have herase : ∀ key ≠ (project, language), (d.servers.erase (project, language)).lookup key = d.servers.lookup key :=
    fun key hne => AList.lookup_erase_ne hne
  simp only [getOrStartServer]
  split
  · split
    · exact ⟨rfl, hstart _ (fun _ _ => rfl) _⟩
    · split
      · exact ⟨rfl, herase⟩
      · split
        · exact ⟨rfl, herase⟩
        · exact ⟨rfl, hstart _ herase _⟩
  · split
    · exact ⟨rfl, fun _ _ => rfl⟩
    · split
      · exact ⟨rfl, fun _ _ => rfl⟩
      · exact ⟨rfl, hstart _ (fun _ _ => rfl) _⟩

/-! ## The discipline -/

/-- Every pooled server was started for its key, by a start there has been. -/
structure PoolState.Inv (s : PoolState) : Prop where
  registry : s.daemon.registry = builtinConfigs
  pooled : ∀ project language pooled, s.daemon.servers.lookup (project, language) = some pooled →
    pooled.server.process < s.next ∧
      ∃ config, configFor builtinConfigs language = some config ∧ s.origin pooled.server.process = some (config, project)

/-- What starting a server for a language comes to: it has none configured, or the one configured
    comes up or does not. -/
def startOutcome (project : Path) (language : Language) (starts : ServerConfig → Path → Except String Unit) :
    Except String Unit :=
  match configFor builtinConfigs language with
  | none => .error ("language server not found: no language server configured for " ++ debugName language)
  | some config => starts config project

/-- No server of the key runs. -/
def PoolState.NoneRuns (s : PoolState) (project : Path) (language : Language) : Prop :=
  ∀ pooled, s.daemon.servers.lookup (project, language) = some pooled → pooled.server.process ∉ s.alive

/-- A request for a server: what it returns, and the entries behind it. -/
structure Got (s : PoolState) (project : Path) (language : Language) (now : Nat)
    (starts : ServerConfig → Path → Except String Unit) (result : Option (Except String LspServer))
    (s' : PoolState) : Prop where
  /-- It does not panic. -/
  returns : result.isSome = true
  /-- A server it returns runs, is the one of the pool, and was started for the project
      with the configuration of the language. -/
  live : ∀ server, result = some (.ok server) → server.process ∈ s'.alive ∧
    (∃ pooled, s'.daemon.servers.lookup (project, language) = some pooled ∧ pooled.server = server) ∧
    ∃ config, configFor builtinConfigs language = some config ∧ s'.origin server.process = some (config, project)
  /-- One that runs is returned, and its entry is used now; none is started. -/
  reuses : ∀ pooled, s.daemon.servers.lookup (project, language) = some pooled → pooled.server.process ∈ s.alive →
    result = some (.ok pooled.server) ∧ s'.next = s.next ∧
      s'.daemon.servers.lookup (project, language) = some { pooled with lastUsed := now }
  /-- Where none runs, and one comes up, the new one is returned, and is the entry whatever it was. -/
  replaces : s.NoneRuns project language → startOutcome project language starts = .ok () →
    result = some (.ok ⟨s.next, [], []⟩) ∧ s'.next = s.next + 1 ∧
      s'.daemon.servers.lookup (project, language) = some ⟨⟨s.next, [], []⟩, now, now⟩ ∧
      ∀ pooled, s.daemon.servers.lookup (project, language) = some pooled → pooled.server.process ≠ s.next
  /-- Where none runs, and none comes up, its error is returned, and no entry is left. -/
  fails : s.NoneRuns project language → ∀ e, startOutcome project language starts = .error e →
    result = some (.error e) ∧ s'.daemon.servers.lookup (project, language) = none
  others : ∀ key ≠ (project, language), s'.daemon.servers.lookup key = s.daemon.servers.lookup key

/-- What a step owes the pool. -/
def Discipline (s : PoolState) : PoolEvent → Option (Option (Except String LspServer)) × PoolState → Prop
  | .dies _, (_, s') => s'.daemon = s.daemon
  | .get project language now starts, (result, s') => ∃ r, result = some r ∧ Got s project language now starts r s'
  | .evict now, (_, s') => ∀ key, s'.daemon.servers.lookup key =
      (s.daemon.servers.lookup key).filter fun pooled => !decide (s.daemon.idleTimeout < now - pooled.lastUsed)
  | .shutdownAll, (_, s') => ∀ key, s'.daemon.servers.lookup key = none

section Discipline

variable {s : PoolState}

theorem new_inv (idleTimeout startTime : Nat) (projectRoot : Path) (token : String) :
    (PoolState.new idleTimeout startTime projectRoot token).Inv where
  registry := rfl
  pooled _ _ _ hlookup := by cases hlookup

/-- Fewer entries, or the same, keep the invariant. -/
theorem PoolState.Inv.fewer (h : s.Inv) {s' : PoolState} (hregistry : s'.daemon.registry = s.daemon.registry)
    (hnext : s'.next = s.next) (horigin : s'.origin = s.origin)
    (hlookup : ∀ key pooled, s'.daemon.servers.lookup key = some pooled → s.daemon.servers.lookup key = some pooled) :
    s'.Inv where
  registry := hregistry.trans h.registry
  pooled project language pooled hp := by
    rw [hnext, horigin]
    exact h.pooled project language pooled (hlookup _ pooled hp)

/-- A start fails as its outcome says. -/
theorem startError_host (h : s.Inv) {now : Nat} {starts : ServerConfig → Path → Except String Unit} {project : Path}
    {language : Language} {e : String} (he : startError (s.host now starts) s.daemon project language = some e) :
    startOutcome project language starts = .error e := by
  unfold startError at he
  unfold startOutcome
  rw [h.registry] at he
  cases hconfig : configFor builtinConfigs language with
  | none =>
    rw [hconfig] at he
    exact congrArg Except.error (Option.some.inj he)
  | some config =>
    simp only [hconfig, PoolState.host] at he ⊢
    cases hs : starts config project with
    | error e' =>
      simp only [hs, Except.map] at he
      exact congrArg Except.error (Option.some.inj he)
    | ok u => simp [hs, Except.map] at he

theorem startOutcome_host {now : Nat} {starts : ServerConfig → Path → Except String Unit} {config : ServerConfig}
    {project : Path} {language : Language} {process : Nat} (hconfig : configFor builtinConfigs language = some config)
    (h : (s.host now starts).start config project = .ok process) : startOutcome project language starts = .ok () := by
  simp only [PoolState.host] at h
  simp only [startOutcome, hconfig]
  cases hs : starts config project with
  | error e => rw [hs] at h; cases h
  | ok u => rfl

theorem host_start {now : Nat} {starts : ServerConfig → Path → Except String Unit} {config : ServerConfig}
    {project : Path} {process : Nat} (h : (s.host now starts).start config project = .ok process) :
    process = s.next := by
  simp only [PoolState.host] at h
  cases hs : starts config project with
  | error e => rw [hs] at h; cases h
  | ok u => rw [hs] at h; cases h; rfl

/-- One entry changes, for a server of its key, and no origin of an old process. -/
theorem PoolState.Inv.entry (h : s.Inv) {s' : PoolState} {project : Path} {language : Language}
    (hregistry : s'.daemon.registry = s.daemon.registry) (hnext : s.next ≤ s'.next)
    (horigin : ∀ process < s.next, s'.origin process = s.origin process)
    (hframe : ∀ key ≠ (project, language), s'.daemon.servers.lookup key = s.daemon.servers.lookup key)
    (hown : ∀ pooled, s'.daemon.servers.lookup (project, language) = some pooled →
      pooled.server.process < s'.next ∧ ∃ config, configFor builtinConfigs language = some config ∧
        s'.origin pooled.server.process = some (config, project)) : s'.Inv where
  registry := hregistry.trans h.registry
  pooled project' language' pooled hlookup := by
    by_cases hkey : (project', language') = (project, language)
    · cases hkey
      exact hown pooled hlookup
    · rw [hframe _ hkey] at hlookup
      obtain ⟨hlt, hstarted⟩ := h.pooled project' language' pooled hlookup
      rw [horigin _ hlt]
      exact ⟨by omega, hstarted⟩

section Get

variable {project : Path} {language : Language} {now : Nat} {starts : ServerConfig → Path → Except String Unit}
  {d : Daemon}

/-- The server of the pool runs, and is used again. -/
theorem got_reused (h : s.Inv) {pooled : PooledServer}
    (hlookup : s.daemon.servers.lookup (project, language) = some pooled)
    (halive : pooled.server.process ∈ s.alive)
    (hnew : d.servers.lookup (project, language) = some { pooled with lastUsed := now })
    (hframe : ∀ key ≠ (project, language), d.servers.lookup key = s.daemon.servers.lookup key) :
    Got s project language now starts (some (.ok pooled.server)) { s with daemon := d } where
  returns := rfl
  live server hserver := by
    cases hserver
    exact ⟨halive, ⟨_, hnew, rfl⟩, (h.pooled project language pooled hlookup).2⟩
  reuses pooled' hlookup' _ := by
    cases hlookup.symm.trans hlookup'
    exact ⟨rfl, rfl, hnew⟩
  replaces hnone _ := absurd halive (hnone pooled hlookup)
  fails hnone _ _ := absurd halive (hnone pooled hlookup)
  others := hframe

/-- None comes up. -/
theorem got_failed {e : String} (hdead : s.NoneRuns project language)
    (hfailed : startOutcome project language starts = .error e)
    (hnone : d.servers.lookup (project, language) = none)
    (hframe : ∀ key ≠ (project, language), d.servers.lookup key = s.daemon.servers.lookup key) :
    Got s project language now starts (some (.error e)) { s with daemon := d } where
  returns := rfl
  live server hserver := by cases hserver
  reuses pooled hlookup halive := absurd halive (hdead pooled hlookup)
  replaces _ hok := by cases hfailed.symm.trans hok
  fails _ e' he' := by
    cases hfailed.symm.trans he'
    exact ⟨rfl, hnone⟩
  others := hframe

theorem started_origin {config : ServerConfig} (hconfig : configFor d.registry language = some config) :
    (s.started d project language).origin s.next = some (config, project) := by
  show Function.update s.origin s.next ((configFor d.registry language).map (·, project)) s.next = _
  rw [Function.update_self, hconfig]
  rfl

/-- A new one does. -/
theorem got_started (h : s.Inv) {config : ServerConfig} (hconfig : configFor builtinConfigs language = some config)
    (horigin : (s.started d project language).origin s.next = some (config, project))
    (hdead : s.NoneRuns project language) (hcame : startOutcome project language starts = .ok ())
    (hnew : d.servers.lookup (project, language) = some ⟨⟨s.next, [], []⟩, now, now⟩)
    (hframe : ∀ key ≠ (project, language), d.servers.lookup key = s.daemon.servers.lookup key) :
    Got s project language now starts (some (.ok ⟨s.next, [], []⟩)) (s.started d project language) where
  returns := rfl
  live server hserver := by
    cases hserver
    exact ⟨Finset.mem_insert_self _ _, ⟨_, hnew, rfl⟩, config, hconfig, horigin⟩
  reuses pooled hlookup halive := absurd halive (hdead pooled hlookup)
  replaces _ _ := by
    refine ⟨rfl, rfl, hnew, fun pooled hlookup => ?_⟩
    have hlt := (h.pooled project language pooled hlookup).1
    omega
  fails _ e he := by cases hcame.symm.trans he
  others := hframe

end Get

/-- A request for a server keeps the invariant, and gives what it owes. -/
theorem get_discipline (h : s.Inv) (project : Path) (language : Language) (now : Nat)
    (starts : ServerConfig → Path → Except String Unit) :
    Discipline s (.get project language now starts) (s.step (.get project language now starts)) ∧
      (s.step (.get project language now starts)).2.Inv := by
  obtain ⟨hregistry, hframe⟩ := getOrStartServer_frame (s.host now starts) s.daemon project language
  have hcases := getOrStartServer_cases (s.host now starts) s.daemon project language
  have hnotReady : ∀ pooled : PooledServer, (s.host now starts).isReady pooled.server.process = false →
      pooled.server.process ∉ s.alive := fun pooled hready => of_decide_eq_false hready
  simp only [Discipline, PoolState.step, getOrStart_eq]
  generalize getOrStartServer (s.host now starts) s.daemon project language = r at hregistry hframe hcases ⊢
  obtain ⟨result, d⟩ := r
  simp only at hregistry hframe hcases ⊢
  rcases hcases with ⟨pooled, hlookup, hready, rfl, hnew⟩ |
    ⟨hdead, ⟨e, herror, rfl, hnone⟩ | ⟨config, process, hconfig, hstart, rfl, hnew⟩⟩
  · have hpooled := h.pooled project language pooled hlookup
    have hne : pooled.server.process ≠ s.next := by omega
    have halive : pooled.server.process ∈ s.alive := of_decide_eq_true hready
    simp only [hne, if_false]
    refine ⟨⟨_, rfl, got_reused h hlookup halive hnew hframe⟩, ?_⟩
    refine h.entry hregistry le_rfl (fun _ _ => rfl) hframe fun pooled' hlookup' => ?_
    cases hnew.symm.trans hlookup'
    exact hpooled
  · refine ⟨⟨_, rfl, got_failed (fun pooled hlookup => hnotReady pooled (hdead pooled hlookup))
      (startError_host h herror) hnone hframe⟩, ?_⟩
    refine h.entry hregistry le_rfl (fun _ _ => rfl) hframe fun pooled hlookup => ?_
    cases hnone.symm.trans hlookup
  · obtain rfl : process = s.next := host_start hstart
    have hconfig' : configFor builtinConfigs language = some config := h.registry ▸ hconfig
    have horigin := @started_origin s project language d config (by rw [hregistry, hconfig])
    simp only [if_true]
    refine ⟨⟨_, rfl, got_started h hconfig' horigin (fun pooled hlookup => hnotReady pooled (hdead pooled hlookup))
      (startOutcome_host hconfig' hstart) hnew hframe⟩, ?_⟩
    refine h.entry hregistry (Nat.le_succ _) (fun process hlt => ?_) hframe fun pooled hlookup => ?_
    · exact Function.update_of_ne (by omega) ..
    · cases hnew.symm.trans hlookup
      exact ⟨Nat.lt_succ_self _, config, hconfig', horigin⟩

theorem step_discipline (h : s.Inv) (e : PoolEvent) : Discipline s e (s.step e) ∧ (s.step e).2.Inv := by
  cases e with
  | dies process => exact ⟨rfl, h.registry, h.pooled⟩
  | get project language now starts => exact get_discipline h project language now starts
  | evict now =>
    refine ⟨fun key => lookup_evictIdleServers _ s.daemon key, h.fewer rfl rfl rfl fun key pooled hlookup => ?_⟩
    have hkept := (lookup_evictIdleServers _ s.daemon key).symm.trans hlookup
    exact (Option.filter_eq_some_iff.mp hkept).1
  | shutdownAll =>
    refine ⟨lookup_shutdownAllServers s.daemon, h.fewer rfl rfl rfl fun key pooled hlookup => ?_⟩
    cases (lookup_shutdownAllServers s.daemon key).symm.trans hlookup

theorem run_inv (h : s.Inv) (events : List PoolEvent) : (s.run events).Inv := by
  induction events generalizing s with
  | nil => exact h
  | cons e events ih => exact ih (step_discipline h e).2

end Discipline

/-- In every run of a daemon's pool, with processes ending between the steps, a request
    for a server returns one that runs, for its language, or an error, and does not
    panic; it uses the one that runs again, replaces one that has died, and has no entry
    when none comes up; no other entry changes. Evicted are exactly the entries idle
    longer than the timeout. -/
theorem pool_discipline (idleTimeout startTime : Nat) (projectRoot : Path) (token : String) (events : List PoolEvent)
    (e : PoolEvent) :
    let s := (PoolState.new idleTimeout startTime projectRoot token).run events
    Discipline s e (s.step e) :=
  (step_discipline (run_inv (new_inv idleTimeout startTime projectRoot token) events) e).1

end CodeQuery.Lsp.Daemon
