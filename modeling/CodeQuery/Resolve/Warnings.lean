/-
  CodeQuery.Resolve.Warnings — the resolver with its warnings
  (`codequery-resolve/src/resolver.rs`, `graph.rs`, `error.rs`).

  `CodeQuery.Resolve.Resolver` leaves out what the commands do not read: the files whose
  graph could not be built, the cap on the files, and that a language is resolved by
  name. Here a group comes back with its warnings, and the references are the same
  (`resolveInternal_references`).

  Proved of every scan, symbol and order of the groups (`consistent_iff`): a group's
  references are all resolved or all syntactic, and a reference has a definition exactly
  when it is resolved. A syntactic reference is announced in the warnings, except where
  the test that keeps a second announcement out is taken in by a stack graph warning: it
  looks for the words `syntactic fallback`, and a path can have them
  (`a_directory_hides_the_fallback`).
-/

import CodeQuery.Lsp.Daemon
import CodeQuery.Resolve.Stitch

namespace CodeQuery.Resolve.Warnings

open CodeQuery.Core CodeQuery.Parse CodeQuery.Text CodeQuery.Index CodeQuery.Data

/-! ## Texts -/

def componentText : Component → String
  | .rootDir => ""
  | .curDir => "."
  | .parentDir => ".."
  | .normal name => name

/-- `Path::display`. -/
def display (p : Path) : String :=
  match p with
  | [.rootDir] => "/"
  | p => "/".intercalate (p.map componentText)

/-- The digits behind the point, without the zeros at the end. -/
def fraction (width n : Nat) : String :=
  let digits := (toString n).toList
  let padded := List.replicate (width - digits.length) '0' ++ digits
  match (padded.reverse.dropWhile (· == '0')).reverse with
  | [] => ""
  | ds => "." ++ String.ofList ds

/-- `{:?}` of a duration. -/
def debugDuration (d : Duration) : String :=
  if 1000000000 ≤ d then toString (d / 1000000000) ++ fraction 9 (d % 1000000000) ++ "s"
  else if 1000000 ≤ d then toString (d / 1000000) ++ fraction 6 (d % 1000000) ++ "ms"
  else if 1000 ≤ d then toString (d / 1000) ++ fraction 3 (d % 1000) ++ "µs"
  else toString d ++ "ns"

def errorText : ResolveError → String
  | .ruleLoadError msg => "failed to load stack graph rules: " ++ msg
  | .resolutionTimeout limit => "resolution timed out after " ++ debugDuration limit

def foundNothing (language : Language) : String :=
  Lsp.debugName language ++ ": stack graph found no references, using syntactic fallback"

def failed (language : Language) (e : ResolveError) : String :=
  Lsp.debugName language ++ ": stack graph failed (" ++ errorText e ++ "), using syntactic fallback"

def someLanguages : String := "some languages used syntactic fallback"

/-- `str::contains`. -/
def contains (text pat : String) : Bool := (find (str pat) (str text)).isSome

/-- The texts with which the resolver says that names are used. -/
inductive Announces : String → Prop where
  | foundNothing (language : Language) : Announces (foundNothing language)
  | failed (language : Language) (e : ResolveError) : Announces (failed language e)
  | someLanguages : Announces someLanguages

/-! ## Graph construction -/

structure GraphWarning where
  file : Path
  message : String

structure GraphResult (L : Library) where
  graph : L.Graph
  warnings : List GraphWarning

/-- The installed rules, and the time a language's resolution takes. -/
structure Installed (L : Library) where
  hasRules : Language → Bool
  getStackGraphLanguage : String → Option (Except ResolveError L.Rules)
  elapsed : String → Nat → Duration

section Resolver

variable (alnum : Char → Bool) {L : Library} (I : Installed L)

/-- The body of the loop of `build_graph_by_name`: a file that fails is a warning. -/
def addToGraph (rules : L.Rules) (r : GraphResult L) (file : Path × Str × Node) : GraphResult L :=
  match L.build rules r.graph file with
  | (g, none) => { r with graph := g }
  | (g, some err) => ⟨g, r.warnings ++ [⟨file.1, err⟩]⟩

def buildGraphByName (files : List (Path × Str × Node)) (langName : String) : Except ResolveError (GraphResult L) :=
  match I.getStackGraphLanguage langName with
  | none => .error (.ruleLoadError (langName ++ ": no stack graph rules available"))
  | some (.error e) => .error (.ruleLoadError (langName ++ ": " ++ errorText e))
  | some (.ok rules) => .ok (files.foldl (addToGraph rules) ⟨L.new, []⟩)

/-- The warning of a language with more files than the cap. -/
def cappedWarning (files : Nat) (symbol : String) : GraphWarning :=
  ⟨[.normal "<resolver>"], "stack graph limited to " ++ toString maxStackGraphFiles ++ " of " ++ toString files ++
    " files containing '" ++ symbol ++ "'. Use --semantic for full resolution on large projects."⟩

/-! ## The groups -/

def relevantFiles (files : List FileSymbols) (symbol : String) : List FileSymbols :=
  files.filter fun fs => (find (str symbol) fs.source).isSome

def graphInput (files : List FileSymbols) (symbol : String) : List (Path × Str × Node) :=
  ((relevantFiles files symbol).take maxStackGraphFiles).map fun fs => (fs.file, fs.source, fs.tree)

def resolveLanguageGroup (files : List FileSymbols) (language : Language) (symbol : String) :
    Except ResolveError (List ResolvedReference × List String) :=
  match buildGraphByName I (graphInput files symbol) language.name with
  | .error e => .error e
  | .ok graphResult =>
    let relevant := (relevantFiles files symbol).length
    let warnings :=
      if maxStackGraphFiles < relevant then graphResult.warnings ++ [cappedWarning relevant symbol]
      else graphResult.warnings
    let graphWarnings := warnings.map fun w => display w.file ++ ": " ++ w.message
    match resolveReferences L graphResult.graph (str symbol) (I.elapsed language.name) with
    | .error e => .error e
    | .ok refs => .ok (refs, graphWarnings)

/-- What a group adds to `all_refs`, `any_syntactic` and `warnings`. -/
structure GroupResult where
  references : List ResolvedReference
  anySyntactic : Bool
  warnings : List String

/-- The body of the loop of `resolve_internal`; `none` is a panic. -/
def resolveGroup (symbol : String) (group : Sigma fun _ : Language => List FileSymbols) : Option GroupResult :=
  let syntactic := syntacticRefsForGroup alnum (str symbol) group.2
  if I.hasRules group.1 then
    match resolveLanguageGroup I group.2 group.1 symbol with
    | .ok (refs, graphWarnings) =>
      if refs.isEmpty then
        syntactic.map fun syntactic =>
          if syntactic.isEmpty then ⟨[], false, graphWarnings⟩
          else ⟨syntactic, true, foundNothing group.1 :: graphWarnings⟩
      else some ⟨refs, false, graphWarnings⟩
    | .error e => syntactic.map fun syntactic => ⟨syntactic, true, [failed group.1 e]⟩
  else syntactic.map fun syntactic => ⟨syntactic, true, []⟩

/-- `resolve_internal`, with the groups in an order of their map. -/
def resolveInternal (symbol : String) {scan : List FileSymbols} (groups : Iteration (groupByLanguage scan)) :
    Option ResolutionResult :=
  (groups.entries.mapM (resolveGroup alnum I symbol)).map fun results =>
    let warnings := results.flatMap (·.warnings)
    ⟨results.flatMap (·.references),
      if results.any (·.anySyntactic) && !warnings.any (contains · "syntactic fallback") then
        warnings ++ [someLanguages]
      else warnings⟩

def resolveRefs (symbol : String) {scan : List FileSymbols} (groups : Iteration (groupByLanguage scan)) :
    Option ResolutionResult :=
  resolveInternal alnum I symbol groups

def resolveCallers (symbol : String) {scan : List FileSymbols} (groups : Iteration (groupByLanguage scan)) :
    Option ResolutionResult :=
  (resolveInternal alnum I symbol groups).map fun result =>
    { result with references := result.references.filter (·.resolution == .resolved) }

end Resolver

/-! ## Without the warnings -/

section References

variable {alnum : Char → Bool} {L : Library} {I : Installed L} {symbol : String} {scan : List FileSymbols}

variable (I) in
/-- What the graphs and the rules give, as the resolver without warnings takes them. -/
def stackGraphs : StackGraphs where
  hasRules := I.hasRules
  completePaths files langName symbol :=
    match buildGraphByName I files langName with
    | .error _ => none
    | .ok r => some (resolvedEnds L r.graph (cancellationFlag (some defaultResolutionTimeout) (I.elapsed langName)) symbol)

theorem resolveLanguageGroup_references (files : List FileSymbols) (language : Language) :
    (resolveLanguageGroup I files language symbol).toOption.map Prod.fst =
      Resolve.resolveLanguageGroup (stackGraphs I) (str symbol) files language := by
  unfold resolveLanguageGroup Resolve.resolveLanguageGroup stackGraphs
  dsimp only
  rw [show ((files.filter fun fs => (find (str symbol) fs.source).isSome).take maxStackGraphFiles).map
    (fun fs => (fs.file, fs.source, fs.tree)) = graphInput files symbol from rfl]
  cases hbuild : buildGraphByName I (graphInput files symbol) language.name with
  | error e => rfl
  | ok r =>
    dsimp only
    rw [resolveReferences_eq]
    rfl

theorem resolveGroup_references (group : Sigma fun _ : Language => List FileSymbols) :
    (resolveGroup alnum I symbol group).map GroupResult.references =
      Resolve.resolveGroup alnum (stackGraphs I) (str symbol) group := by
  have hgraph := @resolveLanguageGroup_references L I symbol group.2 group.1
  unfold resolveGroup Resolve.resolveGroup
  rw [show (stackGraphs I).hasRules group.1 = I.hasRules group.1 from rfl, ← hgraph]
  cases I.hasRules group.1 with
  | false =>
    simp only [Bool.false_eq_true, if_false, Option.map_map]
    exact Option.map_id'
  | true =>
    simp only [if_true]
    cases resolveLanguageGroup I group.2 group.1 symbol with
    | error e =>
      simp only [Option.map_map]
      exact Option.map_id'
    | ok r =>
      obtain ⟨refs, graphWarnings⟩ := r
      cases refs with
      | cons r refs => rfl
      | nil =>
        simp only [List.isEmpty_nil, if_true, Option.map_map]
        refine (Option.map_congr fun syntactic _ => ?_).trans Option.map_id'
        cases syntactic <;> rfl

theorem mapM_eq_some {α β : Type} {f : α → Option β} {l : List α} {bs : List β} (d : β) (h : l.mapM f = some bs) :
    (∀ a ∈ l, f a = some ((f a).getD d)) ∧ bs = l.map fun a => (f a).getD d := by
  induction l generalizing bs with
  | nil =>
    cases h
    simp
  | cons a l ih =>
    rw [List.mapM_cons] at h
    cases hfa : f a with
    | none => simp [hfa] at h
    | some b =>
      cases hl : l.mapM f with
      | none => simp [hfa, hl] at h
      | some bs' =>
        obtain ⟨hall, rfl⟩ := ih hl
        simp only [hfa, hl, Option.bind_eq_bind, Option.bind_some, Option.pure_def, Option.some.injEq] at h
        subst h
        refine ⟨?_, by simp [hfa]⟩
        intro x hx
        rcases List.mem_cons.mp hx with rfl | hx
        · simp [hfa]
        · exact hall x hx

variable (alnum I symbol) in
/-- What a group that does not panic adds. -/
def groupPart (group : Sigma fun _ : Language => List FileSymbols) : GroupResult :=
  (resolveGroup alnum I symbol group).getD ⟨[], false, []⟩

/-- A result is its groups' parts, with the announcement that covers the rest. -/
theorem resolveInternal_some {groups : Iteration (groupByLanguage scan)} {result : ResolutionResult}
    (h : resolveInternal alnum I symbol groups = some result) :
    (∀ group ∈ groups.entries, resolveGroup alnum I symbol group = some (groupPart alnum I symbol group)) ∧
      result.references = groups.entries.flatMap (fun group => (groupPart alnum I symbol group).references) ∧
      result.warnings =
        let warnings := groups.entries.flatMap fun group => (groupPart alnum I symbol group).warnings
        if (groups.entries.any fun group => (groupPart alnum I symbol group).anySyntactic) &&
            !warnings.any (contains · "syntactic fallback") then warnings ++ [someLanguages]
        else warnings := by
  obtain ⟨results, hresults, rfl⟩ := Option.map_eq_some_iff.mp h
  obtain ⟨hall, rfl⟩ := mapM_eq_some ⟨[], false, []⟩ hresults
  refine ⟨hall, ?_, ?_⟩
  · simp only [List.flatMap_map]
    rfl
  · simp only [List.flatMap_map, List.any_map]
    rfl

/-- The references are those of the resolver without warnings. -/
theorem resolveInternal_references {groups : Iteration (groupByLanguage scan)} {result : ResolutionResult}
    (h : resolveInternal alnum I symbol groups = some result) :
    Resolve.resolveInternal alnum (stackGraphs I) (str symbol) groups = some result.references := by
  obtain ⟨hall, hrefs, -⟩ := resolveInternal_some h
  have hgroup : ∀ group ∈ groups.entries, Resolve.resolveGroup alnum (stackGraphs I) (str symbol) group =
      some (groupPart alnum I symbol group).references := by
    intro group hin
    rw [← resolveGroup_references, hall group hin]
    rfl
  unfold Resolve.resolveInternal
  rw [if_pos (List.all_eq_true.mpr fun group hin => by rw [hgroup group hin]; rfl), hrefs]
  congr 1
  exact List.flatMap_congr fun group hin => by rw [hgroup group hin]; rfl

end References

/-! ## Tier, definition and warnings -/

section Consistency

variable {alnum : Char → Bool} {L : Library} {I : Installed L} {symbol : String} {scan : List FileSymbols}

theorem collectResolved_resolved {paths : List (Option Location × Option Location)} {sym : Str}
    {seen : List (Option Location × Location)} : ∀ r ∈ collectResolved sym seen paths,
      r.resolution = .resolved ∧ r.defFile.isSome = true := by
  intro r h
  obtain ⟨reference, definition, -, -, rfl⟩ := mem_collectResolved.mp h
  exact ⟨rfl, rfl⟩

theorem syntacticRefsForGroup_syntactic {files : List FileSymbols} {sym : Str} {refs : List ResolvedReference}
    (h : syntacticRefsForGroup alnum sym files = some refs) :
    ∀ r ∈ refs, r.resolution = .syntactic ∧ r.defFile.isSome = false := by
  intro r hr
  unfold syntacticRefsForGroup at h
  split at h
  · cases h
    obtain ⟨fs, _, hr⟩ := List.mem_flatMap.mp hr
    obtain ⟨_, _, rfl⟩ := List.mem_map.mp hr
    exact ⟨rfl, rfl⟩
  · contradiction

theorem resolveLanguageGroup_resolved {files : List FileSymbols} {language : Language}
    {refs : List ResolvedReference} {graphWarnings : List String}
    (h : resolveLanguageGroup I files language symbol = .ok (refs, graphWarnings)) :
    ∀ r ∈ refs, r.resolution = .resolved ∧ r.defFile.isSome = true := by
  unfold resolveLanguageGroup at h
  split at h
  · contradiction
  · rw [resolveReferences_eq] at h
    cases h
    exact collectResolved_resolved

variable (I symbol) in
/-- The warnings of a group whose graph is built and resolved. -/
def graphWarnings (group : Sigma fun _ : Language => List FileSymbols) : List String :=
  if I.hasRules group.1 then
    match resolveLanguageGroup I group.2 group.1 symbol with
    | .ok (_, warnings) => warnings
    | .error _ => []
  else []

variable (alnum symbol) in
/-- The group has the name at a reference. -/
def NamedIn (group : Sigma fun _ : Language => List FileSymbols) : Prop :=
  syntacticRefsForGroup alnum (str symbol) group.2 ≠ some []

variable (alnum I symbol) in
/-- A group with rules whose graph fails, or finds nothing where the names do. -/
def FallsBack (group : Sigma fun _ : Language => List FileSymbols) : Prop :=
  I.hasRules group.1 = true ∧
    match resolveLanguageGroup I group.2 group.1 symbol with
    | .error _ => True
    | .ok (refs, _) => refs = [] ∧ NamedIn alnum symbol group

variable (alnum I symbol) in
/-- The ways a group can go. -/
inductive Route (group : Sigma fun _ : Language => List FileSymbols) : GroupResult → Prop where
  /-- Its graph, with nothing found also by name where it finds nothing. -/
  | graph (refs : List ResolvedReference) : I.hasRules group.1 = true → ¬ FallsBack alnum I symbol group →
      (∀ r ∈ refs, r.resolution = .resolved ∧ r.defFile.isSome = true) →
      Route group ⟨refs, false, graphWarnings I symbol group⟩
  | fallback (refs : List ResolvedReference) (w : String) (warnings : List String) :
      FallsBack alnum I symbol group → syntacticRefsForGroup alnum (str symbol) group.2 = some refs → Announces w →
      Route group ⟨refs, true, w :: warnings⟩
  | noRules (refs : List ResolvedReference) : I.hasRules group.1 = false →
      syntacticRefsForGroup alnum (str symbol) group.2 = some refs → Route group ⟨refs, true, []⟩

theorem resolveGroup_route {group : Sigma fun _ : Language => List FileSymbols} {res : GroupResult}
    (h : resolveGroup alnum I symbol group = some res) : Route alnum I symbol group res := by
  unfold resolveGroup at h
  cases hrules : I.hasRules group.1 with
  | false =>
    simp only [hrules, Bool.false_eq_true, if_false, Option.map_eq_some_iff] at h
    obtain ⟨refs, hrefs, rfl⟩ := h
    exact .noRules refs hrules hrefs
  | true =>
    simp only [hrules, if_true] at h
    cases hgraph : resolveLanguageGroup I group.2 group.1 symbol with
    | error e =>
      simp only [hgraph, Option.map_eq_some_iff] at h
      obtain ⟨refs, hrefs, rfl⟩ := h
      exact .fallback refs _ _ ⟨hrules, by rw [hgraph]; trivial⟩ hrefs (.failed group.1 e)
    | ok r =>
      obtain ⟨refs, warnings⟩ := r
      have hwarnings : graphWarnings I symbol group = warnings := by simp [graphWarnings, hrules, hgraph]
      have hresolved := resolveLanguageGroup_resolved hgraph
      simp only [hgraph] at h
      cases refs with
      | cons r refs =>
        simp only [List.isEmpty_cons, Bool.false_eq_true, if_false, Option.some.injEq] at h
        subst h
        rw [← hwarnings]
        refine .graph _ hrules (fun hback => ?_) hresolved
        have := hback.2
        rw [hgraph] at this
        exact nomatch this.1
      | nil =>
        simp only [List.isEmpty_nil, if_true, Option.map_eq_some_iff] at h
        obtain ⟨found, hfound, rfl⟩ := h
        cases found with
        | nil =>
          rw [← hwarnings]
          refine .graph _ hrules (fun hback => ?_) hresolved
          have := hback.2
          rw [hgraph] at this
          exact this.2 hfound
        | cons r found =>
          refine .fallback _ _ _ ⟨hrules, ?_⟩ hfound (.foundNothing group.1)
          rw [hgraph]
          exact ⟨rfl, fun hnone => by rw [hfound] at hnone; cases hnone⟩

theorem Route.tier {group : Sigma fun _ : Language => List FileSymbols} {res : GroupResult}
    (h : Route alnum I symbol group res) :
    (∀ r ∈ res.references, r.resolution = .resolved ∧ r.defFile.isSome = true) ∨
      ∀ r ∈ res.references, r.resolution = .syntactic ∧ r.defFile.isSome = false := by
  cases h with
  | graph refs _ _ hresolved => exact .inl hresolved
  | fallback refs _ _ _ hrefs _ => exact .inr (syntacticRefsForGroup_syntactic hrefs)
  | noRules refs _ hrefs => exact .inr (syntacticRefsForGroup_syntactic hrefs)

/-- What a result says of its references' tier, group by group, in their definitions and
    in its warnings. -/
structure Consistent (part : (Sigma fun _ : Language => List FileSymbols) → List ResolvedReference)
    (groups : Iteration (groupByLanguage scan)) (result : ResolutionResult) : Prop where
  parts : result.references = groups.entries.flatMap part
  tier : ∀ group ∈ groups.entries,
    (∀ r ∈ part group, r.resolution = .resolved) ∨ ∀ r ∈ part group, r.resolution = .syntactic
  defined : ∀ r ∈ result.references, r.defFile.isSome = true ↔ r.resolution = .resolved
  announced : (∃ r ∈ result.references, r.resolution = .syntactic) → ∃ w ∈ result.warnings, Announces w

variable (alnum I symbol) in
/-- Names are used for languages without rules only, and a stack graph warning has the
    words the resolver looks for. -/
structure Masked (groups : Iteration (groupByLanguage scan)) : Prop where
  named : ∃ group ∈ groups.entries, I.hasRules group.1 = false ∧ NamedIn alnum symbol group
  noFallback : ∀ group ∈ groups.entries, ¬ FallsBack alnum I symbol group
  words : ∃ group ∈ groups.entries, ∃ w ∈ graphWarnings I symbol group, contains w "syntactic fallback" = true
  noAnnouncement : ∀ group ∈ groups.entries, ∀ w ∈ graphWarnings I symbol group, ¬ Announces w

theorem graphWarnings_noRules {group : Sigma fun _ : Language => List FileSymbols} (h : I.hasRules group.1 = false) :
    graphWarnings I symbol group = [] := by simp [graphWarnings, h]

/-- Without a fallback a group's warnings are those of its graph. -/
theorem Route.warnings {group : Sigma fun _ : Language => List FileSymbols} {res : GroupResult}
    (h : Route alnum I symbol group res) (hno : ¬ FallsBack alnum I symbol group) :
    res.warnings = graphWarnings I symbol group := by
  cases h with
  | graph => rfl
  | fallback _ _ _ hback _ _ => exact absurd hback hno
  | noRules _ hrules _ => exact (graphWarnings_noRules hrules).symm

section Announced

variable {groups : Iteration (groupByLanguage scan)} {result : ResolutionResult}

theorem groupPart_route (h : resolveInternal alnum I symbol groups = some result)
    {group : Sigma fun _ : Language => List FileSymbols} (hin : group ∈ groups.entries) :
    Route alnum I symbol group (groupPart alnum I symbol group) :=
  resolveGroup_route ((resolveInternal_some h).1 group hin)

/-- No warning of a group is lost. -/
theorem mem_warnings (h : resolveInternal alnum I symbol groups = some result)
    {group : Sigma fun _ : Language => List FileSymbols} (hin : group ∈ groups.entries) {w : String}
    (hw : w ∈ (groupPart alnum I symbol group).warnings) : w ∈ result.warnings := by
  have hmem : w ∈ groups.entries.flatMap fun group => (groupPart alnum I symbol group).warnings :=
    List.mem_flatMap.mpr ⟨group, hin, hw⟩
  rw [(resolveInternal_some h).2.2]
  dsimp only
  split
  · exact List.mem_append_left _ hmem
  · exact hmem

/-- A language without rules gives syntactic references. -/
theorem named_syntactic (h : resolveInternal alnum I symbol groups = some result)
    {group : Sigma fun _ : Language => List FileSymbols} (hin : group ∈ groups.entries)
    (hrules : I.hasRules group.1 = false) (hnamed : NamedIn alnum symbol group) :
    ∃ r ∈ result.references, r.resolution = .syntactic := by
  have hpart := groupPart_route h hin
  rw [(resolveInternal_some h).2.1]
  cases hres : groupPart alnum I symbol group with
  | mk refs anySyntactic warnings =>
    rw [hres] at hpart
    cases hpart with
    | graph _ hyes _ _ => rw [hrules] at hyes; contradiction
    | fallback _ _ _ hback _ _ => rw [hback.1] at hrules; contradiction
    | noRules _ _ hfound =>
      cases refs with
      | nil => exact absurd hfound hnamed
      | cons r refs =>
        exact ⟨r, List.mem_flatMap.mpr ⟨group, hin, by rw [hres]; exact List.mem_cons_self⟩,
          (syntacticRefsForGroup_syntactic hfound r List.mem_cons_self).1⟩

/-- Behind a mask every warning is a graph's, so none announces the names that are used. -/
theorem masked_unannounced (h : resolveInternal alnum I symbol groups = some result)
    (hmasked : Masked alnum I symbol groups) : ∀ w ∈ result.warnings, ¬ Announces w := by
  have hgraph : ∀ group ∈ groups.entries,
      (groupPart alnum I symbol group).warnings = graphWarnings I symbol group :=
    fun group hin => (groupPart_route h hin).warnings (hmasked.noFallback group hin)
  obtain ⟨other, hother, w, hw, hwords⟩ := hmasked.words
  have hplain : result.warnings = groups.entries.flatMap fun group => (groupPart alnum I symbol group).warnings := by
    rw [(resolveInternal_some h).2.2]
    refine if_neg ?_
    rw [Bool.and_eq_true, Bool.not_eq_true', not_and, Bool.not_eq_false]
    intro _
    exact List.any_eq_true.mpr ⟨w, List.mem_flatMap.mpr ⟨other, hother, by rwa [hgraph other hother]⟩, hwords⟩
  intro w hw
  rw [hplain] at hw
  obtain ⟨group, hin, hw⟩ := List.mem_flatMap.mp hw
  rw [hgraph group hin] at hw
  exact hmasked.noAnnouncement group hin w hw

/-- A group that falls back announces it. -/
theorem noFallback_of_unannounced (h : resolveInternal alnum I symbol groups = some result)
    (hnone : ∀ w ∈ result.warnings, ¬ Announces w) : ∀ group ∈ groups.entries, ¬ FallsBack alnum I symbol group := by
  intro group hin hback
  have hpart := groupPart_route h hin
  have hkept : ∀ w ∈ (groupPart alnum I symbol group).warnings, w ∈ result.warnings :=
    fun w hw => mem_warnings h hin hw
  generalize groupPart alnum I symbol group = res at hpart hkept
  cases hpart with
  | graph _ _ hno _ => exact hno hback
  | fallback _ w _ _ _ hannounces => exact hnone w (hkept w List.mem_cons_self) hannounces
  | noRules _ hrules _ => rw [hback.1] at hrules; contradiction

/-- Where no group falls back, a syntactic reference is of a language without rules. -/
theorem named_of_syntactic (h : resolveInternal alnum I symbol groups = some result)
    (hnoFallback : ∀ group ∈ groups.entries, ¬ FallsBack alnum I symbol group) {r : ResolvedReference}
    (hr : r ∈ result.references) (hsyntactic : r.resolution = .syntactic) :
    ∃ group ∈ groups.entries, I.hasRules group.1 = false ∧ NamedIn alnum symbol group ∧
      (groupPart alnum I symbol group).anySyntactic = true := by
  rw [(resolveInternal_some h).2.1] at hr
  obtain ⟨group, hin, hr⟩ := List.mem_flatMap.mp hr
  refine ⟨group, hin, ?_⟩
  have hpart := groupPart_route h hin
  generalize groupPart alnum I symbol group = res at hpart hr
  cases hpart with
  | graph _ _ _ hresolved => rw [(hresolved r hr).1] at hsyntactic; contradiction
  | fallback _ _ _ hback _ _ => exact absurd hback (hnoFallback group hin)
  | noRules _ hrules hfound =>
    refine ⟨hrules, fun hnil => ?_, rfl⟩
    rw [hfound] at hnil
    cases hnil
    cases hr

/-- Without words to find in a graph's warning, names that are used are announced. -/
theorem wordless_announced (h : resolveInternal alnum I symbol groups = some result)
    (hnoFallback : ∀ group ∈ groups.entries, ¬ FallsBack alnum I symbol group)
    (hany : (groups.entries.any fun group => (groupPart alnum I symbol group).anySyntactic) = true)
    (hwords : ¬ ∃ group ∈ groups.entries, ∃ w ∈ graphWarnings I symbol group, contains w "syntactic fallback" = true) :
    someLanguages ∈ result.warnings := by
  have hquiet : (groups.entries.flatMap fun group => (groupPart alnum I symbol group).warnings).any
      (contains · "syntactic fallback") = false := by
    refine Bool.eq_false_iff.mpr fun hany => ?_
    obtain ⟨w, hw, hcontains⟩ := List.any_eq_true.mp hany
    obtain ⟨group, hin, hw⟩ := List.mem_flatMap.mp hw
    rw [(groupPart_route h hin).warnings (hnoFallback group hin)] at hw
    exact hwords ⟨group, hin, w, hw, hcontains⟩
  rw [(resolveInternal_some h).2.2]
  simp only [hany, hquiet, Bool.not_false, Bool.and_self, if_true]
  exact List.mem_append_right _ (List.mem_singleton_self _)

theorem announced_iff (h : resolveInternal alnum I symbol groups = some result) :
    ((∃ r ∈ result.references, r.resolution = .syntactic) → ∃ w ∈ result.warnings, Announces w) ↔
      ¬ Masked alnum I symbol groups := by
  constructor
  · intro hannounced hmasked
    obtain ⟨group, hin, hrules, hnamed⟩ := hmasked.named
    obtain ⟨w, hw, hannounces⟩ := hannounced (named_syntactic h hin hrules hnamed)
    exact masked_unannounced h hmasked w hw hannounces
  · rintro hclear ⟨r, hr, hsyntactic⟩
    by_contra hnone
    have hnone : ∀ w ∈ result.warnings, ¬ Announces w := fun w hw hannounces => hnone ⟨w, hw, hannounces⟩
    have hnoFallback := noFallback_of_unannounced h hnone
    obtain ⟨group, hin, hrules, hnamed, hsyntacticPart⟩ := named_of_syntactic h hnoFallback hr hsyntactic
    have hany : (groups.entries.any fun group => (groupPart alnum I symbol group).anySyntactic) = true :=
      List.any_eq_true.mpr ⟨group, hin, hsyntacticPart⟩
    refine hclear ⟨⟨group, hin, hrules, hnamed⟩, hnoFallback, ?_, fun group hin w hw => ?_⟩
    · by_contra hwords
      exact hnone someLanguages (wordless_announced h hnoFallback hany hwords) .someLanguages
    · rw [← (groupPart_route h hin).warnings (hnoFallback group hin)] at hw
      exact hnone w (mem_warnings h hin hw)

end Announced

/-- A result is consistent if and only if the announcement is not masked. -/
theorem consistent_iff {groups : Iteration (groupByLanguage scan)} {result : ResolutionResult}
    (h : resolveRefs alnum I symbol groups = some result) :
    Consistent (fun group => (groupPart alnum I symbol group).references) groups result ↔
      ¬ Masked alnum I symbol groups := by
  obtain ⟨hall, hrefs, -⟩ := resolveInternal_some h
  refine ⟨fun hc => (announced_iff h).mp hc.announced, fun hclear => ⟨hrefs, fun group hin => ?_, fun r hr => ?_,
    (announced_iff h).mpr hclear⟩⟩
  · rcases (resolveGroup_route (hall group hin)).tier with htier | htier
    · exact .inl fun r hr => (htier r hr).1
    · exact .inr fun r hr => (htier r hr).1
  · rw [hrefs] at hr
    obtain ⟨group, hin, hr⟩ := List.mem_flatMap.mp hr
    rcases (resolveGroup_route (hall group hin)).tier with htier | htier
    · simp [htier r hr]
    · simp [htier r hr]

/-- A reference is of the group of its file's language. -/
theorem part_language (hG : (stackGraphs I).NodesInFiles) {groups : Iteration (groupByLanguage scan)}
    {group : Sigma fun _ : Language => List FileSymbols} (hin : group ∈ groups.entries)
    (hall : resolveGroup alnum I symbol group = some (groupPart alnum I symbol group)) {r : ResolvedReference}
    (hr : r ∈ (groupPart alnum I symbol group).references) {language : Language}
    (hlanguage : languageForFile r.refFile = some language) : group.1 = language := by
  have hold : Resolve.resolveGroup alnum (stackGraphs I) (str symbol) group =
      some (groupPart alnum I symbol group).references := by
    rw [← resolveGroup_references, hall]
    rfl
  rcases resolveGroup_location hG hold r hr with hunknown | ⟨fs, hfs, hfile⟩
  · have hnone : languageForFile unknownLocation.1 = none := by decide
    rw [show r.refFile = unknownLocation.1 from congrArg Prod.fst hunknown, hnone] at hlanguage
    contradiction
  · have hown := group_language hin fs hfs
    rw [hfile, hlanguage] at hown
    exact (Option.some.inj hown).symm

/-- Two references in files of one language are of one tier. -/
theorem tier_of_language (hG : (stackGraphs I).NodesInFiles) {groups : Iteration (groupByLanguage scan)}
    {result : ResolutionResult} (h : resolveInternal alnum I symbol groups = some result) {r r' : ResolvedReference}
    (hr : r ∈ result.references) (hr' : r' ∈ result.references) {language : Language}
    (hlanguage : languageForFile r.refFile = some language)
    (hlanguage' : languageForFile r'.refFile = some language) : r.resolution = r'.resolution := by
  obtain ⟨hall, hrefs, -⟩ := resolveInternal_some h
  rw [hrefs] at hr hr'
  obtain ⟨group, hin, hr⟩ := List.mem_flatMap.mp hr
  obtain ⟨group', hin', hr'⟩ := List.mem_flatMap.mp hr'
  have hkey : group.1 = group'.1 :=
    (part_language hG hin (hall group hin) hr hlanguage).trans
      (part_language hG hin' (hall group' hin') hr' hlanguage').symm
  have hsame : group = group' := by
    have hnodup := (groups.perm.map Sigma.fst).nodup_iff.mpr (groupByLanguage scan).keys_nodup
    exact List.inj_on_of_nodup_map hnodup hin hin' hkey
  subst hsame
  rcases (resolveGroup_route (hall group hin)).tier with htier | htier
  · rw [(htier r hr).1, (htier r' hr').1]
  · rw [(htier r hr).1, (htier r' hr').1]

/-- The callers' result has resolved references only. -/
theorem resolveCallers_resolved {groups : Iteration (groupByLanguage scan)} {result : ResolutionResult}
    (h : resolveCallers alnum I symbol groups = some result) :
    ∀ r ∈ result.references, r.resolution = .resolved ∧ r.defFile.isSome = true := by
  obtain ⟨whole, hwhole, rfl⟩ := Option.map_eq_some_iff.mp h
  obtain ⟨hall, hrefs, -⟩ := resolveInternal_some hwhole
  intro r hr
  obtain ⟨hr, hresolved⟩ := List.mem_filter.mp hr
  have hresolved : r.resolution = .resolved := by simpa using hresolved
  rw [hrefs] at hr
  obtain ⟨group, hin, hr⟩ := List.mem_flatMap.mp hr
  rcases (resolveGroup_route (hall group hin)).tier with htier | htier
  · exact htier r hr
  · rw [(htier r hr).1] at hresolved
    contradiction

end Consistency

/-! ## A directory with the words -/

/-- Every file is stopped while its rules are matched, and the graph stays empty. -/
def slowGraphs : Library where
  Rules := Unit
  Graph := Unit
  File := Unit
  GraphNode := Unit
  PartialPath := Unit
  new := ()
  build _ g _ := (g, some "processing matches")
  iterFiles _ := []
  iterNodes _ := []
  isReference _ _ := false
  symbol _ _ := none
  file _ _ := none
  start _ _ := none
  minimalPartialPaths _ _ := []
  completePartialPaths _ _ _ := []

def pythonRules : Installed slowGraphs where
  hasRules language := language == .python
  getStackGraphLanguage _ := some (.ok ())
  elapsed _ _ := 0

/-- A comment, in a directory named `syntactic fallback`. -/
def mentionsF : FileSymbols :=
  ⟨[.normal "syntactic fallback", .normal "a.py"], [], str "# f", ⟨"module", none, 0, 3, ⟨0, 0⟩, ⟨0, 3⟩, true, false, false,
    [.leaf "comment" none 0 0 0 3 true]⟩⟩

def callsF : FileSymbols :=
  ⟨[.normal "c.rs"], [], str "f();", ⟨"source_file", none, 0, 4, ⟨0, 0⟩, ⟨0, 4⟩, true, false, false,
    [⟨"call_expression", none, 0, 3, ⟨0, 0⟩, ⟨0, 3⟩, true, false, false,
      [.leaf "identifier" (some "function") 0 0 0 1 true]⟩]⟩⟩

def fallbackScan : List FileSymbols := [mentionsF, callsF]

def fallbackResult : ResolutionResult :=
  ⟨[⟨[.normal "c.rs"], 1, 0, str "f", none, none, none, .syntactic⟩], ["syntactic fallback/a.py: processing matches"]⟩

theorem fallbackScan_result : resolveRefs Char.isAlphanum pythonRules "f" (.stored (groupByLanguage fallbackScan)) =
    some fallbackResult := by decide

/-- A failure is announced under the name of a language, and no directory starts as one. -/
theorem not_announces_path : ¬ Announces "syntactic fallback/a.py: processing matches" := by
  intro h
  generalize hw : "syntactic fallback/a.py: processing matches" = w at h
  cases h with
  | foundNothing language => cases language <;> exact absurd hw (by decide)
  | failed language e =>
    have hhead := congrArg (fun s : String => s.toList.head?) hw
    simp only [failed, String.toList_append, List.append_assoc] at hhead
    cases language <;> exact absurd hhead (by simp [Lsp.debugName])
  | someLanguages => exact absurd hw (by decide)

/-- `f` is found by name in `c.rs`; the one warning is the Python file's, and no warning
    says that names are used. -/
theorem a_directory_hides_the_fallback :
    ∃ result, resolveRefs Char.isAlphanum pythonRules "f" (.stored (groupByLanguage fallbackScan)) = some result ∧
      (∃ r ∈ result.references, r.resolution = .syntactic) ∧ ∀ w ∈ result.warnings, ¬ Announces w := by
  refine ⟨fallbackResult, fallbackScan_result, ⟨_, List.mem_cons_self, rfl⟩, ?_⟩
  intro w hw
  rw [List.mem_singleton.mp hw]
  exact not_announces_path

theorem consistent_iff_fallback :
    Consistent (fun group => (groupPart Char.isAlphanum pythonRules "f" group).references)
        (.stored (groupByLanguage fallbackScan)) fallbackResult ↔
      ¬ Masked Char.isAlphanum pythonRules "f" (.stored (groupByLanguage fallbackScan)) :=
  consistent_iff fallbackScan_result

end CodeQuery.Resolve.Warnings
