/-
  CodeQuery.Lsp.CascadeTiers — the tiers of the cascade (`codequery-lsp/src/cascade.rs`).

  `resolveWithCascade` asks the daemon, then a server of the command's own, then the stack
  graphs. A tier that fails is passed over. An empty list of the oneshot query is taken for
  a failure as well, in both of its branches; an empty list of the daemon is an answer. So
  the graphs' references are all that can get lost, and they are exactly where a daemon
  answers with nothing (`cascade_hides_nothing_iff`): the server of `an_empty_daemon_hides_a_call`
  knows of no reference, and the call that the graphs find is not listed.
-/

import CodeQuery.Cli.Def
import CodeQuery.Cli.Refs
import CodeQuery.Lsp.Cascade
import CodeQuery.Resolve.Warnings

namespace CodeQuery.Lsp.Cascade

open CodeQuery.Core CodeQuery.Data CodeQuery.Text CodeQuery.Index CodeQuery.Resolve CodeQuery.Resolve.Warnings
open CodeQuery.Lsp.Socket CodeQuery.Lsp.Daemon
open CodeQuery.Cli.Def (SemanticMode)

/-! ## The cascade -/

/-- The symbol whose references are resolved. -/
structure Asked where
  projectRoot : Path
  language : Language
  symbolName : String
  symbolFile : Path
  symbolLine : Nat
  symbolColumn : Nat

/-- What the semantic tiers find outside. -/
structure Services where
  isDaemonRunning : Path → Bool
  /-- `try_auto_start_daemon`. -/
  autoStart : Path → Bool
  exchange : DaemonRequest → Except LspError DaemonResponse
  oneshot : Oneshot

/-- Who gave the result. -/
inductive Tier where
  | daemon
  | oneshot
  | stackGraph
  deriving DecidableEq, Repr

section Tiers

variable (s : Services) (mode : SemanticMode) (q : Asked)

/-- What the daemon lists, where it can be reached and answers. -/
def daemonLocations : Except LspError (List LspLocation) :=
  queryRefs q.projectRoot q.language q.symbolFile q.symbolLine q.symbolColumn s.exchange

def daemonRefs : Except LspError ResolutionResult :=
  tryDaemonRefs q.projectRoot q.language (str q.symbolName) q.symbolFile q.symbolLine q.symbolColumn s.exchange

def oneshotRefs : Option (Except LspError ResolutionResult) :=
  tryOneshotRefs q.projectRoot q.language (str q.symbolName) q.symbolFile q.symbolLine q.symbolColumn s.oneshot

/-- In daemon mode a daemon that is not running is started. -/
def daemonRunning : Bool :=
  let running := s.isDaemonRunning q.projectRoot
  if !running && mode == .daemon then s.autoStart q.projectRoot else running

/-- Step 1. -/
def fromDaemon : Option ResolutionResult :=
  if mode ≠ .off then
    if daemonRunning s mode q then (daemonRefs s q).toOption else none
  else none

/-- `Ok(result) if !result.references.is_empty()`. -/
def nonempty : Except LspError ResolutionResult → Option ResolutionResult
  | .ok result => if result.references.isEmpty then none else some result
  | .error _ => none

/-- Step 2, and 2b of daemon mode; without a value around it is a panic. -/
def fromOneshot : Option (Option ResolutionResult) :=
  match mode with
  | .off => some none
  | .oneshot => (oneshotRefs s q).map nonempty
  | .daemon => (oneshotRefs s q).map nonempty

variable (alnum : Char → Bool) {L : Library} (I : Installed L) {scan : List FileSymbols}
  (groups : Iteration (groupByLanguage scan))

/-- The result, with the tier that gave it. -/
def cascade : Option (Tier × ResolutionResult) :=
  match fromDaemon s mode q with
  | some result => some (.daemon, result)
  | none =>
    match fromOneshot s mode q with
    | none => none
    | some (some result) => some (.oneshot, result)
    | some none => (Warnings.resolveRefs alnum I q.symbolName groups).map fun result => (.stackGraph, result)

def resolveWithCascade : Option ResolutionResult := (cascade s mode q alnum I groups).map Prod.snd

/-- Nothing that the graphs find is hidden, and a semantic tier is listened to only when it
    names references. -/
structure HidesNothing : Prop where
  found : ∀ byGraphs, Warnings.resolveRefs alnum I q.symbolName groups = some byGraphs → byGraphs.references ≠ [] →
    ∃ result, resolveWithCascade s mode q alnum I groups = some result ∧ result.references ≠ []
  semantic : ∀ tier result, cascade s mode q alnum I groups = some (tier, result) → tier ≠ .stackGraph →
    result.references ≠ []

/-- A daemon is there to ask, and lists nothing. -/
def EmptyByDaemon : Prop := mode ≠ .off ∧ daemonRunning s mode q = true ∧ daemonLocations s q = .ok []

end Tiers

/-! ## What the tiers give -/

section Empty

variable {s : Services} {mode : SemanticMode} {q : Asked} {alnum : Char → Bool} {L : Library} {I : Installed L}
  {scan : List FileSymbols} {groups : Iteration (groupByLanguage scan)}

theorem daemonRefs_eq_ok {result : ResolutionResult} (h : daemonRefs s q = .ok result) :
    ∃ locations, daemonLocations s q = .ok locations ∧ result.references.length = locations.length := by
  unfold daemonRefs tryDaemonRefs at h
  cases hlocations : daemonLocations s q with
  | error e =>
    rw [show queryRefs _ _ _ _ _ _ = .error e from hlocations] at h
    cases h
  | ok locations =>
    rw [show queryRefs _ _ _ _ _ _ = .ok locations from hlocations] at h
    cases h
    exact ⟨locations, rfl, List.length_map ..⟩

theorem fromDaemon_eq_some {result : ResolutionResult} (h : fromDaemon s mode q = some result) :
    mode ≠ .off ∧ daemonRunning s mode q = true ∧ daemonRefs s q = .ok result := by
  unfold fromDaemon at h
  split at h
  · rename_i hmode
    split at h
    · rename_i hrunning
      cases hrefs : daemonRefs s q with
      | error e => rw [hrefs] at h; cases h
      | ok r => rw [hrefs] at h; cases h; exact ⟨hmode, hrunning, rfl⟩
    · cases h
  · cases h

/-- The daemon's list is empty where it listed nothing. -/
theorem fromDaemon_empty_iff :
    (∃ result, fromDaemon s mode q = some result ∧ result.references = []) ↔ EmptyByDaemon s mode q := by
  constructor
  · intro h
    obtain ⟨result, hresult, hnil⟩ := h
    obtain ⟨hmode, hrunning, hrefs⟩ := fromDaemon_eq_some hresult
    obtain ⟨locations, hlocations, hlength⟩ := daemonRefs_eq_ok hrefs
    rw [hnil, List.length_nil] at hlength
    exact ⟨hmode, hrunning, by rw [hlocations, List.eq_nil_of_length_eq_zero hlength.symm]⟩
  · intro h
    obtain ⟨hmode, hrunning, hlocations⟩ := h
    refine ⟨⟨[], []⟩, ?_, rfl⟩
    have hrefs : daemonRefs s q = .ok ⟨[], []⟩ := by
      unfold daemonRefs tryDaemonRefs
      rw [show queryRefs _ _ _ _ _ _ = .ok [] from hlocations]
      rfl
    rw [fromDaemon, if_pos hmode, if_pos hrunning, hrefs]
    rfl

theorem nonempty_eq_some {outcome : Except LspError ResolutionResult} {result : ResolutionResult}
    (h : nonempty outcome = some result) : result.references ≠ [] := by
  cases outcome with
  | error e => cases h
  | ok r =>
    simp only [nonempty] at h
    split at h
    · contradiction
    · rename_i hne
      rw [← Option.some.inj h]
      simpa using hne

/-- The oneshot tier gives no empty list. -/
theorem fromOneshot_eq_some {result : ResolutionResult} (h : fromOneshot s mode q = some (some result)) :
    result.references ≠ [] := by
  cases mode with
  | off => cases h
  | oneshot =>
    obtain ⟨outcome, -, houtcome⟩ := Option.map_eq_some_iff.mp h
    exact nonempty_eq_some houtcome
  | daemon =>
    obtain ⟨outcome, -, houtcome⟩ := Option.map_eq_some_iff.mp h
    exact nonempty_eq_some houtcome

/-- A query that comes to an end does so in any mode. -/
theorem fromOneshot_isSome {outcome : Except LspError ResolutionResult} (hquery : oneshotRefs s q = some outcome) :
    ∃ answer, fromOneshot s mode q = some answer := by
  cases mode with
  | off => exact ⟨none, rfl⟩
  | oneshot => exact ⟨nonempty outcome, congrArg (Option.map nonempty) hquery⟩
  | daemon => exact ⟨nonempty outcome, congrArg (Option.map nonempty) hquery⟩

/-- Who answers, in the order they are asked. -/
theorem cascade_cases {outcome : Except LspError ResolutionResult} (hquery : oneshotRefs s q = some outcome) :
    (∃ result, fromDaemon s mode q = some result ∧ cascade s mode q alnum I groups = some (.daemon, result)) ∨
      (∃ result, fromDaemon s mode q = none ∧ fromOneshot s mode q = some (some result) ∧
        cascade s mode q alnum I groups = some (.oneshot, result)) ∨
      fromDaemon s mode q = none ∧ fromOneshot s mode q = some none ∧ cascade s mode q alnum I groups =
        (Warnings.resolveRefs alnum I q.symbolName groups).map fun result => (.stackGraph, result) := by
  unfold cascade
  cases hdaemon : fromDaemon s mode q with
  | some result => exact .inl ⟨result, rfl, rfl⟩
  | none =>
    obtain ⟨answer, hanswer⟩ : ∃ answer, fromOneshot s mode q = some answer := fromOneshot_isSome hquery
    rw [hanswer]
    cases answer with
    | some result => exact .inr (.inl ⟨result, rfl, rfl, rfl⟩)
    | none => exact .inr (.inr ⟨rfl, rfl, rfl⟩)

/-- What the semantic tiers answer, if they do. -/
def semanticAnswer (s : Services) (mode : SemanticMode) (q : Asked) : Option ResolutionResult :=
  (fromDaemon s mode q).or (fromOneshot s mode q).join

/-- The refs command's cascade is this one: it takes the semantic answer as given, and the
    references without the warnings. -/
theorem resolveWithCascade_references {result : ResolutionResult}
    (h : resolveWithCascade s mode q alnum I groups = some result) :
    Cli.Refs.resolveWithCascade alnum (stackGraphs I) scan (str q.symbolName)
      ((semanticAnswer s mode q).map (·.references)) groups = some result.references := by
  obtain ⟨⟨tier, r⟩, hcascade, hr⟩ := Option.map_eq_some_iff.mp h
  cases hr
  unfold cascade at hcascade
  unfold semanticAnswer
  cases hdaemon : fromDaemon s mode q with
  | some result =>
    rw [hdaemon] at hcascade
    cases hcascade
    rfl
  | none =>
    rw [hdaemon] at hcascade
    cases honeshot : fromOneshot s mode q with
    | none => rw [honeshot] at hcascade; cases hcascade
    | some answer =>
      rw [honeshot] at hcascade
      cases answer with
      | some result =>
        cases hcascade
        rfl
      | none =>
        obtain ⟨byGraphs, hgraphs, he⟩ := Option.map_eq_some_iff.mp hcascade
        cases he
        exact resolveInternal_references hgraphs

/-- A list that names a reference hides nothing, whoever gave it. -/
theorem hidesNothing_of_answer {tier : Tier} {result : ResolutionResult}
    (hcascade : cascade s mode q alnum I groups = some (tier, result)) (hne : result.references ≠ []) :
    HidesNothing s mode q alnum I groups where
  found _ _ _ := ⟨result, by rw [resolveWithCascade, hcascade]; rfl, hne⟩
  semantic _ _ hr _ := by
    rw [hcascade] at hr
    cases hr
    exact hne

/-- Whatever a oneshot query ends with, nothing is hidden if and only if no daemon answers
    with an empty list. -/
theorem cascade_hides_nothing_iff {outcome : Except LspError ResolutionResult}
    (hquery : oneshotRefs s q = some outcome) :
    HidesNothing s mode q alnum I groups ↔ ¬ EmptyByDaemon s mode q := by
  rw [← fromDaemon_empty_iff]
  constructor
  · intro h hempty
    obtain ⟨result, hdaemon, hnil⟩ := hempty
    have hcascade : cascade s mode q alnum I groups = some (.daemon, result) := by rw [cascade, hdaemon]
    exact h.semantic .daemon result hcascade (by decide) hnil
  · intro hnone
    rcases @cascade_cases s mode q alnum L I scan groups outcome hquery with
      ⟨result, hdaemon, hcascade⟩ | ⟨result, -, honeshot, hcascade⟩ | ⟨-, -, hcascade⟩
    · exact hidesNothing_of_answer hcascade fun hnil => hnone ⟨result, hdaemon, hnil⟩
    · exact hidesNothing_of_answer hcascade (fromOneshot_eq_some honeshot)
    · refine ⟨fun byGraphs hgraphs hne => ⟨byGraphs, by rw [resolveWithCascade, hcascade, hgraphs]; rfl, hne⟩, ?_⟩
      intro tier r hr htier
      rw [hcascade] at hr
      obtain ⟨_, _, he⟩ := Option.map_eq_some_iff.mp hr
      cases he
      exact absurd rfl htier

end Empty

/-! ## A server that knows of nothing -/

/-- A daemon runs, and its server has this answer to everything, as one of the command's
    own would have. -/
def running (locations : List LspLocation) : Services where
  isDaemonRunning _ := true
  autoStart _ := false
  exchange := answering locations
  oneshot := startedAnswering locations

/-- The function called in `c.rs`. -/
def askedF : Asked := ⟨root, .rust, "f", file, 1, 3⟩

theorem callsF_found : Warnings.resolveRefs Char.isAlphanum pythonRules askedF.symbolName
    (.stored (groupByLanguage [callsF])) =
      some ⟨[⟨[.normal "c.rs"], 1, 0, str "f", none, none, none, .syntactic⟩], [someLanguages]⟩ := by decide

/-- The graphs find the call, and the daemon's empty list is returned. -/
theorem an_empty_daemon_hides_a_call :
    (∃ byGraphs, Warnings.resolveRefs Char.isAlphanum pythonRules askedF.symbolName
        (.stored (groupByLanguage [callsF])) = some byGraphs ∧ byGraphs.references ≠ []) ∧
      cascade (running []) .daemon askedF Char.isAlphanum pythonRules (.stored (groupByLanguage [callsF])) =
        some (.daemon, ⟨[], []⟩) ∧
      ¬ HidesNothing (running []) .daemon askedF Char.isAlphanum pythonRules (.stored (groupByLanguage [callsF])) :=
  ⟨⟨_, callsF_found, by decide⟩, rfl, fun h => h.semantic .daemon ⟨[], []⟩ rfl (by decide) rfl⟩

theorem cascade_hides_nothing_iff_running :
    oneshotRefs (running []) askedF = some (.ok ⟨[], []⟩) ∧
      (HidesNothing (running []) .daemon askedF Char.isAlphanum pythonRules (.stored (groupByLanguage [callsF])) ↔
        ¬ EmptyByDaemon (running []) .daemon askedF) :=
  ⟨rfl, cascade_hides_nothing_iff rfl⟩

end CodeQuery.Lsp.Cascade
