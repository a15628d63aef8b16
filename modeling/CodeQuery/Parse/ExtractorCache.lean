/-
  CodeQuery.Parse.ExtractorCache — the compiled extractors kept for the life of a process
  (`COMPILED_CACHE` in `extract_engine.rs`, `extract_symbols_by_name` in `extract.rs`).

  The cache is keyed by language name: an extractor is kept under the name in its
  configuration, and by name it is looked up under the name of the package; neither the
  rules nor the grammar are part of the key. Calls that have one configuration and one
  grammar for each name see no difference to compiling each time
  (`transparent_of_one_config`); two configurations of one name do
  (`a_second_config_is_not_used`). A call that finds a kept extractor runs it
  (`step_spec`), so what counts is what that one selects from the call's file
  (`transparent_iff`).
-/

import CodeQuery.Parse.ExtractEngine

namespace CodeQuery.Parse

open CodeQuery.Core CodeQuery.Text

/-! ## Calls -/

/-- What a call extracts from. -/
structure Parsed where
  source : Str
  tree : Node
  file : Path

inductive Call where
  | withConfig (config : ExtractConfig) (grammar : QueryLanguage) (input : Parsed)
  /-- `loaded` and `grammar` are what the files of the package give at the time. -/
  | byName (langName : String) (loaded : Option ExtractConfig) (grammar : Option QueryLanguage) (input : Parsed)

abbrev Cache := List (String × CompiledExtractor)

def CompiledExtractor.run (e : CompiledExtractor) (input : Parsed) : List Symbol :=
  e.extract input.source input.tree input.file

def getOrCompile (config : ExtractConfig) (grammar : QueryLanguage) (cache : Cache) : CompiledExtractor × Cache :=
  match cache.lookup config.languageName with
  | some cached => (cached, cache)
  | none =>
    let compiled := CompiledExtractor.compile config grammar
    (compiled, (config.languageName, compiled) :: cache)

def extractWithConfig (config : ExtractConfig) (grammar : QueryLanguage) (input : Parsed) (cache : Cache) :
    List Symbol × Cache :=
  let (compiled, cache) := getOrCompile config grammar cache
  (compiled.run input, cache)

section Calls

-- `extract_symbols`, by the extractors compiled in
variable (builtin : Language → Parsed → List Symbol)

def extractSymbolsByName (langName : String) (loaded : Option ExtractConfig) (grammar : Option QueryLanguage)
    (input : Parsed) (cache : Cache) : List Symbol × Cache :=
  match Language.fromName langName with
  | some language => (builtin language input, cache)
  | none =>
    match cache.lookup langName with
    | some compiled => (compiled.run input, cache)
    | none =>
      match loaded with
      | none => ([], cache)
      | some config =>
        match grammar with
        | none => ([], cache)
        | some grammar => extractWithConfig config grammar input cache

def step (cache : Cache) : Call → List Symbol × Cache
  | .withConfig config grammar input => extractWithConfig config grammar input cache
  | .byName langName loaded grammar input => extractSymbolsByName builtin langName loaded grammar input cache

/-- What a call returns when it compiles its own configuration. -/
def fresh : Call → List Symbol
  | .withConfig config grammar input =>
    extractWithConfigUncached config input.source input.tree input.file grammar
  | .byName langName loaded grammar input =>
    match Language.fromName langName with
    | some language => builtin language input
    | none =>
      match loaded with
      | none => []
      | some config =>
        match grammar with
        | none => []
        | some grammar => extractWithConfigUncached config input.source input.tree input.file grammar

/-- The results of the calls of a process, one after the other. -/
def results (cache : Cache) : List Call → List (List Symbol)
  | [] => []
  | call :: calls => (step builtin cache call).1 :: results (step builtin cache call).2 calls

end Calls

/-! ## What is kept -/

/-- A configuration with its grammar. -/
abbrev Rules := ExtractConfig × QueryLanguage

def Rules.compile (r : Rules) : CompiledExtractor := CompiledExtractor.compile r.1 r.2

def Call.input : Call → Parsed
  | .withConfig _ _ input => input
  | .byName _ _ _ input => input

/-- The rules a call compiles when it finds none kept. -/
def Call.rules : Call → Option Rules
  | .withConfig config grammar _ => some (config, grammar)
  | .byName langName loaded grammar _ =>
    if (Language.fromName langName).isSome then none else loaded.bind fun config => grammar.map fun g => (config, g)

/-- The rules kept that a call comes upon: by name, under the name of the package and then
    under that of its configuration. -/
def found (kept : List (String × Rules)) (call : Call) : Option Rules :=
  let own := call.rules.bind fun r => kept.lookup r.1.languageName
  match call with
  | .withConfig .. => own
  | .byName langName .. => if (Language.fromName langName).isSome then none else (kept.lookup langName).or own

/-- A call that comes upon none keeps its own. -/
def keep (kept : List (String × Rules)) (call : Call) : List (String × Rules) :=
  match found kept call, call.rules with
  | none, some r => (r.1.languageName, r) :: kept
  | _, _ => kept

def keptAfter (calls : List Call) : List (String × Rules) := calls.foldl keep []

def cacheOf (kept : List (String × Rules)) : Cache := kept.map fun e => (e.1, e.2.compile)

theorem cacheOf_lookup (kept : List (String × Rules)) (name : String) :
    (cacheOf kept).lookup name = (kept.lookup name).map Rules.compile := by
  induction kept with
  | nil => rfl
  | cons e kept ih =>
    rw [cacheOf, List.map_cons, List.lookup_cons, List.lookup_cons]
    split
    · rfl
    · exact ih

section Transparent

variable {builtin : Language → Parsed → List Symbol}

theorem extractWithConfig_spec (kept : List (String × Rules)) (config : ExtractConfig) (grammar : QueryLanguage)
    (input : Parsed) :
    extractWithConfig config grammar input (cacheOf kept) =
      match kept.lookup config.languageName with
      | some r => (r.compile.run input, cacheOf kept)
      | none =>
        (extractWithConfigUncached config input.source input.tree input.file grammar,
          cacheOf ((config.languageName, config, grammar) :: kept)) := by
  rw [extractWithConfig, getOrCompile, cacheOf_lookup]
  cases kept.lookup config.languageName <;> rfl

variable (builtin) in
/-- A call runs the rules it comes upon, or else compiles its own and keeps them. -/
theorem step_spec (kept : List (String × Rules)) (call : Call) :
    step builtin (cacheOf kept) call =
      (match found kept call with
        | some r => r.compile.run call.input
        | none => fresh builtin call,
      cacheOf (keep kept call)) := by
  cases call with
  | withConfig config grammar input =>
    have hfound : found kept (.withConfig config grammar input) = kept.lookup config.languageName := rfl
    rw [step, extractWithConfig_spec, keep, hfound]
    cases kept.lookup config.languageName <;> rfl
  | byName langName loaded grammar input =>
    change extractSymbolsByName builtin langName loaded grammar input (cacheOf kept) = _
    unfold extractSymbolsByName
    rw [cacheOf_lookup, keep, found, Call.rules]
    cases hname : Language.fromName langName with
    | some language => simp [fresh, hname]
    | none =>
      cases hlookup : kept.lookup langName with
      | some r => simp [Call.input]
      | none =>
        cases loaded with
        | none => simp [fresh, hname]
        | some config =>
          cases grammar with
          | none => simp [fresh, hname]
          | some grammar =>
            simp only [Option.map_none, extractWithConfig_spec]
            cases hown : kept.lookup config.languageName <;> simp [fresh, hname, hown, Call.input]

variable (builtin) in
/-- The rules a call comes upon select from its file what its own do. -/
def Agrees (kept : List (String × Rules)) (call : Call) : Prop :=
  ∀ r, found kept call = some r → r.compile.run call.input = fresh builtin call

theorem step_eq_fresh_iff (kept : List (String × Rules)) (call : Call) :
    (step builtin (cacheOf kept) call).1 = fresh builtin call ↔ Agrees builtin kept call := by
  rw [step_spec, Agrees]
  cases found kept call with
  | none => simp
  | some r => simp

theorem results_eq_iff (kept : List (String × Rules)) (calls : List Call) :
    results builtin (cacheOf kept) calls = calls.map (fresh builtin) ↔
      ∀ before call after, calls = before ++ call :: after → Agrees builtin (before.foldl keep kept) call := by
  induction calls generalizing kept with
  | nil => simp [results]
  | cons call calls ih =>
    have hcache : (step builtin (cacheOf kept) call).2 = cacheOf (keep kept call) := by rw [step_spec]
    rw [results, List.map_cons, List.cons.injEq, step_eq_fresh_iff, hcache, ih]
    constructor
    · rintro ⟨hfirst, hrest⟩ before c after heq
      cases before with
      | nil =>
        cases heq
        exact hfirst
      | cons b before =>
        obtain ⟨rfl, htail⟩ := List.cons.inj heq
        exact hrest before c after htail
    · intro h
      exact ⟨h [] call calls rfl, fun before c after heq => h (call :: before) c after (by rw [heq]; rfl)⟩

/-- For every sequence of calls in a process, each returns what its own configuration and
    grammar give if and only if each that comes upon kept rules would select the same. -/
theorem transparent_iff (builtin : Language → Parsed → List Symbol) (calls : List Call) :
    results builtin [] calls = calls.map (fresh builtin) ↔
      ∀ before call after, calls = before ++ call :: after → Agrees builtin (keptAfter before) call :=
  results_eq_iff [] calls

/-! ## One configuration for each name -/

/-- The call has the rules of its name: a configuration handed over is that of its language
    name; by name, the files of the package give the same at each call, nothing when they do not
    load, and the package is named as its configuration. -/
def OfPackage (package : String → Option Rules) : Call → Prop
  | .withConfig config grammar _ => package config.languageName = some (config, grammar)
  | .byName langName loaded grammar _ =>
    Language.fromName langName = none →
      (loaded.bind fun config => grammar.map fun g => (config, g)) = package langName ∧
        ∀ r, package langName = some r → r.1.languageName = langName

/-- Everything kept under a name is of the package of that name. -/
def KeptOf (package : String → Option Rules) (kept : List (String × Rules)) : Prop :=
  ∀ name r, kept.lookup name = some r → package name = some r

variable {package : String → Option Rules}

theorem OfPackage.rules_eq {call : Call} (h : OfPackage package call) {r : Rules} (hr : call.rules = some r) :
    package r.1.languageName = some r := by
  cases call with
  | withConfig config grammar input =>
    cases hr
    exact h
  | byName langName loaded grammar input =>
    cases hlang : Language.fromName langName with
    | some language => simp [Call.rules, hlang] at hr
    | none =>
      obtain ⟨hrules, hname⟩ := h hlang
      simp only [Call.rules, hlang, Option.isSome_none, Bool.false_eq_true, if_false] at hr
      rw [hrules] at hr
      rw [hname r hr, hr]

/-- What is kept stays of the package. -/
theorem keep_package {kept : List (String × Rules)} {call : Call} (h : OfPackage package call) (hkept : KeptOf package kept) :
    KeptOf package (keep kept call) := by
  unfold keep
  split
  · rename_i r _ hr
    intro name r' hlookup
    rw [List.lookup_cons] at hlookup
    split at hlookup
    · rename_i hname
      rw [← Option.some.inj hlookup, eq_of_beq hname]
      exact h.rules_eq hr
    · exact hkept name r' hlookup
  · exact hkept

/-- What a call comes upon is its own. -/
theorem found_package {kept : List (String × Rules)} {call : Call} (h : OfPackage package call) (hkept : KeptOf package kept)
    {r : Rules} (hr : found kept call = some r) : r.compile.run call.input = fresh builtin call := by
  cases call with
  | withConfig config grammar input =>
    have hpackage := hkept _ r hr
    rw [show package config.languageName = some (config, grammar) from h] at hpackage
    cases hpackage
    rfl
  | byName langName loaded grammar input =>
    cases hlang : Language.fromName langName with
    | some language => simp [found, hlang] at hr
    | none =>
      obtain ⟨hrules, hname⟩ := h hlang
      have hown : loaded.bind (fun config => grammar.map fun g => (config, g)) = some r := by
        simp only [found, Call.rules, hlang, Option.isSome_none, Bool.false_eq_true, if_false] at hr
        rcases Option.or_eq_some_iff.mp hr with hkeptName | ⟨-, hkeptOwn⟩
        · exact hrules.trans (hkept langName r hkeptName)
        · obtain ⟨r', hr', hlookup⟩ := Option.bind_eq_some_iff.mp hkeptOwn
          rw [hrules] at hr'
          rw [hname r' hr'] at hlookup
          exact hrules.trans (hkept langName r hlookup)
      obtain ⟨config, rfl, hgrammar⟩ := Option.bind_eq_some_iff.mp hown
      obtain ⟨g, rfl, rfl⟩ := Option.map_eq_some_iff.mp hgrammar
      simp only [fresh, hlang]
      rfl

theorem keptAfter_package {calls : List Call} (h : ∀ call ∈ calls, OfPackage package call) :
    KeptOf package (keptAfter calls) := by
  induction calls using List.reverseRecOn with
  | nil => exact fun name r hr => by cases hr
  | append_singleton calls call ih =>
    rw [keptAfter, List.foldl_append]
    exact keep_package (h call (by simp)) (ih fun c hc => h c (List.mem_append_left _ hc))

variable (builtin) in
/-- Calls with one configuration and one grammar for each name are served as if nothing
    was kept. -/
theorem transparent_of_one_config {calls : List Call} (h : ∀ call ∈ calls, OfPackage package call) :
    results builtin [] calls = calls.map (fresh builtin) := by
  refine (transparent_iff builtin calls).mpr fun before call after heq r hr => ?_
  have hbefore : ∀ c ∈ before, OfPackage package c := fun c hc => h c (by rw [heq]; exact List.mem_append_left _ hc)
  exact found_package (h call (by rw [heq]; simp)) (keptAfter_package hbefore) hr

end Transparent

/-- A grammar whose one query gives every leaf the name `name`. -/
def leafGrammar : QueryLanguage where
  query text := if text = "(leaf) @name" then some ⟨["name"], fun tree _ => [[⟨0, tree, []⟩]]⟩ else none

def leafConfig (kind : String) : ExtractConfig := ⟨"toy", [⟨kind, "(leaf) @name", "@name", none, none, none⟩]⟩

def leafInput : Parsed := ⟨str "f", .leaf "leaf" none 0 0 0 1 true, [.normal "a.toy"]⟩

def twoConfigs : List Call :=
  [.withConfig (leafConfig "function") leafGrammar leafInput, .withConfig (leafConfig "class") leafGrammar leafInput]

/-- A configuration handed over and then found again by its name: the second call runs what
    the first compiled. -/
theorem transparent_of_one_config_toy :
    results (fun _ _ => []) [] [.withConfig (leafConfig "function") leafGrammar leafInput,
        .byName "toy" (some (leafConfig "function")) (some leafGrammar) leafInput] =
      [.withConfig (leafConfig "function") leafGrammar leafInput,
        .byName "toy" (some (leafConfig "function")) (some leafGrammar) leafInput].map (fresh fun _ _ => []) := by
  have hpackage : ∀ call ∈ [Call.withConfig (leafConfig "function") leafGrammar leafInput,
      .byName "toy" (some (leafConfig "function")) (some leafGrammar) leafInput],
      OfPackage (fun _ => some (leafConfig "function", leafGrammar)) call := by
    intro call hcall
    rcases List.mem_pair.mp hcall with rfl | rfl
    · rfl
    · exact fun _ => ⟨rfl, fun r hr => by cases hr; rfl⟩
  exact transparent_of_one_config (fun _ _ => []) hpackage

/-- The rules of the second configuration say that `f` is a class; those of the first,
    kept under the same name, are run again. -/
theorem a_second_config_is_not_used :
    (results (fun _ _ => []) [] twoConfigs).map (·.map Symbol.kind) = [[.function], [.function]] ∧
    (twoConfigs.map (fresh fun _ _ => [])).map (·.map Symbol.kind) = [[.function], [.class_]] := by
  decide

end CodeQuery.Parse
