/-
  CodeQuery.Cli.Deps — the deps command (`codequery-cli/src/commands/deps.rs`).

  A symbol's dependencies are the names used in its lines, each once and with the place of
  its first use, but for the symbol's own name. The stack graph is to say where they are
  defined, and the index of the scan where it does not. It is asked for the references to
  the symbol itself, and what comes back is looked up by the names of the others: nothing
  is ever found there (`dependencies_syntactic`). So a definition that the stack graph has
  for a name is kept if and only if it has none for any name in the body
  (`keeps_resolved_iff`), and another file can be named in its place
  (`a_resolved_name_is_looked_up_by_name`).
-/

import CodeQuery.Cli.FindSymbols
import CodeQuery.Cli.Refs
import CodeQuery.Data.Firsts
import CodeQuery.Resolve.Deps
import CodeQuery.Text.Words

namespace CodeQuery.Cli.Deps

open CodeQuery.Core CodeQuery.Parse CodeQuery.Text CodeQuery.Index CodeQuery.Data CodeQuery.Resolve
open CodeQuery.Resolve.Warnings

/-! ## References of the body -/

def bodyReferences (source : Str) (tree : Node) (target : Symbol) (language : Language) : List Reference :=
  (extractReferences source tree target.file language).filter fun r => inLines (target.line, target.endLine) r.line

inductive DepsError where
  | discover (e : DiscoverError)
  | parser (msg : String)
  | parse
  deriving DecidableEq, Repr

def extractBodyReferences (G : Grammars) (source : Str) (target : Symbol) : Except DepsError (List Reference) :=
  match Refs.fileLanguage target.file with
  | none => .ok []
  | some language =>
    match G.forLanguage language with
    | .error msg => .error (.parser msg)
    | .ok parser =>
      match parser source with
      | none => .error .parse
      | some tree => .ok (bodyReferences source tree target language)

def refKindLabel : ReferenceKind → String
  | .call => "call"
  | .typeUsage => "type_reference"
  | .import_ => "import"
  | .assignment => "assignment"
  | .definition => "definition"

section Names

-- `char::is_alphanumeric`
variable (alnum : Char → Bool) (source : Str)

def extractRefName (line column : Nat) : Option Str :=
  if line = 0 then none
  else
    match (lines source)[line - 1]? with
    | none => none
    | some sourceLine =>
      if column ≥ sourceLine.length then none
      else
        let name := leadingIdentifier alnum (sourceLine.drop column)
        if name.isEmpty then none else some name

def nameOf (r : Reference) : Option Str := extractRefName alnum source r.line r.column

/-- The slice of a line at a reference does not panic, or is not made. -/
def namesSliceable (refs : List Reference) : Bool := refs.all fun r => r.line == 0 || sliceable source r

end Names

/-! ## Dependencies -/

structure Dependency where
  name : Str
  kind : String
  definedIn : Option String
  resolution : Resolution
  deriving DecidableEq, Repr

section Dependencies

variable (alnum : Char → Bool) {L : Library} (I : Installed L) (scan : List FileSymbols) (target : Symbol)
  (symbol : String) (source : Str) (bodyRefs : List Reference)

/-- The loop over the references, with the names seen; `entry` makes a name's dependency. -/
def pushDependencies (entry : Str → ReferenceKind → Dependency) : List Str → List Reference → List Dependency
  | _, [] => []
  | seen, reference :: refs =>
    match nameOf alnum source reference with
    | none => pushDependencies entry seen refs
    | some name =>
      if name = str symbol ∨ name ∈ seen then pushDependencies entry seen refs
      else entry name reference.kind :: pushDependencies entry (name :: seen) refs

def syntacticDependency (name : Str) (kind : ReferenceKind) : Dependency :=
  ⟨name, refKindLabel kind, ((SymbolIndex.fromScan scan).findByName name).head?.map fun sym => display sym.file, .syntactic⟩

/-- `resolved_map`: `or_insert` keeps the first of a name. -/
def resolvedMap (references : List ResolvedReference) : List (Str × Option String) :=
  references.map fun rr => (rr.symbol, rr.defFile.map display)

def mergedDependency (references : List ResolvedReference) (name : Str) (kind : ReferenceKind) : Dependency :=
  match (resolvedMap references).lookup name with
  | some defFile => ⟨name, refKindLabel kind, defFile, .resolved⟩
  | none => syntacticDependency scan name kind

/-- `none` is a panic, `some none` the fallback. -/
def resolveWithStackGraphs : Option (Option (List Dependency)) :=
  match resolveDeps alnum I scan target.file (target.line, target.endLine) symbol with
  | none => none
  | some result =>
    if (resolvedMap result.references).isEmpty then some none
    else if namesSliceable source bodyRefs then
      some (some (pushDependencies alnum symbol source (mergedDependency scan result.references) [] bodyRefs))
    else none

/-- `none` is a panic. -/
def resolveSyntactic : Option (List Dependency) :=
  if namesSliceable source bodyRefs then
    some (pushDependencies alnum symbol source (syntacticDependency scan) [] bodyRefs)
  else none

/-- The dependencies that `run` prints: a panic of the resolution is caught. -/
def dependencies : Option (List Dependency) :=
  match resolveWithStackGraphs alnum I scan target symbol source bodyRefs with
  | some (some deps) => some deps
  | _ => resolveSyntactic alnum scan symbol source bodyRefs

end Dependencies

/-- `run`, up to printing: the target and its dependencies; `none` is a panic. -/
def run (alnum : Char → Bool) {L : Library} (I : Installed L) (G : Grammars) (d : Disk) (root : Path) (symbol : String)
    (langFilter : Option Language) (scope : Option Path) (scan : Except DiscoverError (List FileSymbols)) :
    Option (Except DepsError (Option (Symbol × List Dependency))) :=
  match discoverFiles d root scope with
  | .error e => some (.error (.discover e))
  | .ok files =>
    match findFirstSymbolWithSource G d root (str symbol) langFilter files with
    | .error msg => some (.error (.parser msg))
    | .ok (none, _) => some (.ok none)
    | .ok (some target, targetSource) =>
      if target.body.isNone then some (.ok (some (target, [])))
      else
        let source := targetSource.getD []
        match extractBodyReferences G source target, scan with
        | .error e, _ => some (.error e)
        | .ok _, .error e => some (.error (.discover e))
        | .ok bodyRefs, .ok scan =>
          (dependencies alnum I scan target symbol source bodyRefs).map fun deps => .ok (some (target, deps))

/-- What is printed are the dependencies of the target's body, when it has one. -/
theorem run_some {alnum : Char → Bool} {L : Library} {I : Installed L} {G : Grammars} {d : Disk} {root : Path}
    {symbol : String} {langFilter : Option Language} {scope : Option Path}
    {scan : Except DiscoverError (List FileSymbols)} {target : Symbol} {deps : List Dependency}
    (h : run alnum I G d root symbol langFilter scope scan = some (.ok (some (target, deps)))) :
    (target.body = none ∧ deps = []) ∨ ∃ source bodyRefs entries, scan = .ok entries ∧
      extractBodyReferences G source target = .ok bodyRefs ∧
      dependencies alnum I entries target symbol source bodyRefs = some deps := by
  unfold run at h
  split at h
  · cases h
  · split at h
    · cases h
    · cases h
    · split at h
      · next hbody =>
        cases h
        exact .inl ⟨Option.isNone_iff_eq_none.mp hbody, rfl⟩
      · dsimp only at h
        split at h
        · cases h
        · cases h
        · next bodyRefs entries hrefs =>
          obtain ⟨deps', hdeps, heq⟩ := Option.map_eq_some_iff.mp h
          cases heq
          exact .inr ⟨_, bodyRefs, entries, rfl, hrefs, hdeps⟩

/-! ## The names listed -/

section Listed

variable {alnum : Char → Bool} {symbol : String} {source : Str}

/-- The loop makes an entry of the first reference to each name but the symbol's. -/
theorem pushDependencies_eq (entry : Str → ReferenceKind → Dependency) {seen skipped : List Str}
    (h : ∀ name, name ∈ skipped ↔ name = str symbol ∨ name ∈ seen) (refs : List Reference) :
    pushDependencies alnum symbol source entry seen refs =
      (firsts (nameOf alnum source) skipped refs).map fun e => entry e.1 e.2.kind := by
  induction refs generalizing seen skipped with
  | nil => rfl
  | cons reference refs ih =>
    rw [pushDependencies, firsts]
    cases hname : nameOf alnum source reference with
    | none => exact ih h
    | some name =>
      dsimp only
      by_cases hskip : name = str symbol ∨ name ∈ seen
      · rw [if_pos hskip, if_pos ((h name).mpr hskip)]
        exact ih h
      · rw [if_neg hskip, if_neg (mt (h name).mp hskip), List.map_cons]
        congr 1
        apply ih
        intro other
        rw [List.mem_cons, List.mem_cons, h other]
        exact or_left_comm

theorem pushDependencies_start (entry : Str → ReferenceKind → Dependency) (refs : List Reference) :
    pushDependencies alnum symbol source entry [] refs =
      (firsts (nameOf alnum source) [str symbol] refs).map fun e => entry e.1 e.2.kind := by
  apply pushDependencies_eq
  intro name
  simp

variable {L : Library} {I : Installed L} {scan : List FileSymbols} {target : Symbol} {bodyRefs : List Reference}
  {deps : List Dependency}

/-- The map of the resolved names has the symbol's own name only. -/
theorem lookup_resolvedMap {references : List ResolvedReference} {name : Str}
    (h : ∀ rr ∈ references, rr.symbol = str symbol) (hne : name ≠ str symbol) :
    (resolvedMap references).lookup name = none := by
  rw [List.lookup_eq_none_iff]
  intro p hp
  obtain ⟨rr, hrr, rfl⟩ := List.mem_map.mp hp
  rw [h rr hrr]
  simpa using hne

theorem mergedDependency_eq {references : List ResolvedReference} {name : Str} {kind : ReferenceKind}
    (h : ∀ rr ∈ references, rr.symbol = str symbol) (hne : name ≠ str symbol) :
    mergedDependency scan references name kind = syntacticDependency scan name kind := by
  rw [mergedDependency, lookup_resolvedMap h hne]

/-- Both ways, every name is looked up in the index. -/
theorem dependencies_eq (h : dependencies alnum I scan target symbol source bodyRefs = some deps) :
    deps = (firsts (nameOf alnum source) [str symbol] bodyRefs).map fun e => syntacticDependency scan e.1 e.2.kind := by
  have hsyntactic : resolveSyntactic alnum scan symbol source bodyRefs = some deps →
      deps = (firsts (nameOf alnum source) [str symbol] bodyRefs).map fun e =>
        syntacticDependency scan e.1 e.2.kind := by
    intro h
    unfold resolveSyntactic at h
    split at h
    · cases h
      exact pushDependencies_start _ _
    · cases h
  unfold dependencies at h
  split at h
  · next deps' hgraph =>
    cases h
    unfold resolveWithStackGraphs at hgraph
    split at hgraph
    · cases hgraph
    · next result hresult =>
      have hsymbol : ∀ rr ∈ result.references, rr.symbol = str symbol :=
        fun rr hrr => (resolveDeps_within hresult rr hrr).2.2.2
      split at hgraph
      · cases hgraph
      · split at hgraph
        · cases hgraph
          rw [pushDependencies_start]
          apply List.map_congr_left
          intro e he
          obtain ⟨-, hskipped⟩ := firsts_key e he
          exact mergedDependency_eq hsymbol fun heq => hskipped (heq ▸ List.mem_singleton_self _)
        · cases hgraph
  · exact hsyntactic h

/-- Nothing is ever marked as resolved. -/
theorem dependencies_syntactic (h : dependencies alnum I scan target symbol source bodyRefs = some deps) :
    ∀ dep ∈ deps, dep.resolution = .syntactic := by
  rw [dependencies_eq h]
  intro dep hdep
  obtain ⟨e, -, rfl⟩ := List.mem_map.mp hdep
  rfl

/-- The names listed are those of the references, but for the symbol's. -/
theorem mem_names_iff (h : dependencies alnum I scan target symbol source bodyRefs = some deps) {name : Str} :
    name ∈ deps.map Dependency.name ↔ name ≠ str symbol ∧ ∃ r ∈ bodyRefs, nameOf alnum source r = some name := by
  have hnames : deps.map Dependency.name = (firsts (nameOf alnum source) [str symbol] bodyRefs).map Prod.fst := by
    rw [dependencies_eq h, List.map_map]
    rfl
  rw [hnames, List.mem_map]
  constructor
  · intro hcase
    obtain ⟨e, he, rfl⟩ := hcase
    obtain ⟨hkey, hskipped⟩ := firsts_key e he
    refine ⟨fun heq => hskipped (heq ▸ List.mem_singleton_self _), e.2, ?_, hkey⟩
    exact (firsts_sublist _ _ _).subset (List.mem_map_of_mem he)
  · intro hcase
    obtain ⟨hne, r, hr, hname⟩ := hcase
    obtain ⟨first, hfirst⟩ := exists_firsts hr hname (show name ∉ [str symbol] by simpa using hne)
    exact ⟨(name, first), hfirst, rfl⟩

end Listed

/-! ## What the stack graph resolves -/

section Resolved

variable {L : Library} (I : Installed L) (scan : List FileSymbols) (target : Symbol)

/-- Asked for the name, the stack graph has a reference in the target's lines, with a
    definition in the file. -/
def StackGraphResolves (name : String) (file : Path) : Prop :=
  ∃ language files refs warnings, languageForFile target.file = some language ∧ I.hasRules language = true ∧
    (groupByLanguage scan).lookup language = some files ∧
    resolveLanguageGroup I files language name = .ok (refs, warnings) ∧
    ∃ r ∈ refs, Within target.file (target.line, target.endLine) name r ∧ r.defFile = some file

/-- The entry of a name that is resolved is marked so, and has a file of its definitions. -/
def KeepsResolved (deps : List Dependency) : Prop :=
  ∀ dep ∈ deps, ∀ name file, dep.name = str name → StackGraphResolves I scan target name file →
    dep.resolution = .resolved ∧
      ∃ definition, StackGraphResolves I scan target name definition ∧ dep.definedIn = some (display definition)

variable {I scan target}

/-- For every scan, symbol and body: what is resolved is kept if and only if the stack
    graph resolves no name in the body but the symbol's own. -/
theorem keeps_resolved_iff {alnum : Char → Bool} {symbol : String} {source : Str} {bodyRefs : List Reference}
    {deps : List Dependency} (h : dependencies alnum I scan target symbol source bodyRefs = some deps) :
    KeepsResolved I scan target deps ↔
      ∀ r ∈ bodyRefs, ∀ name, nameOf alnum source r = some (str name) → name ≠ symbol →
        ∀ file, ¬ StackGraphResolves I scan target name file := by
  constructor
  · intro hkeeps r hr name hname hne file hresolves
    have hlisted : str name ∈ deps.map Dependency.name :=
      (mem_names_iff h).mpr ⟨fun heq => hne (str_injective heq), r, hr, hname⟩
    obtain ⟨dep, hdep, hdepName⟩ := List.mem_map.mp hlisted
    obtain ⟨hmarked, -⟩ := hkeeps dep hdep name file hdepName hresolves
    rw [dependencies_syntactic h dep hdep] at hmarked
    cases hmarked
  · intro hnone dep hdep name file hname hresolves
    obtain ⟨hne, r, hr, hused⟩ := (mem_names_iff h).mp (List.mem_map_of_mem hdep)
    rw [hname] at hne hused
    exact absurd hresolves (hnone r hr name hused (fun heq => hne (congrArg str heq)) file)

end Resolved

/-! ## A name with two definitions -/

/-- One Python file, where `g` is defined in line 1 and called in line 2. -/
def definesG : Library where
  Rules := Unit
  Graph := Unit
  File := Unit
  GraphNode := Bool
  PartialPath := Unit
  new := ()
  build _ g _ := (g, none)
  iterFiles _ := [()]
  iterNodes _ := [false, true]
  isReference _ node := node
  symbol _ _ := some (str "g")
  file _ _ := some [.normal "a.py"]
  start _ node := some (if node then (1, 9) else (0, 4))
  minimalPartialPaths _ _ := [.visit ()]
  completePartialPaths _ _ _ := [.visit false]

def pythonGraphs : Installed definesG where
  hasRules language := language == .python
  getStackGraphLanguage _ := some (.ok ())
  elapsed _ _ := 0

def functionIn (name file : String) (line : Nat) : Symbol :=
  ⟨str name, .function, [.normal file], line, 0, line, .public_, [], none, none, some (str "pass")⟩

def callsG : FileSymbols :=
  ⟨[.normal "a.py"], [functionIn "g" "a.py" 1, functionIn "f" "a.py" 2], str "def g(): pass\ndef f(): g()",
    ⟨"module", none, 0, 26, ⟨0, 0⟩, ⟨1, 12⟩, true, false, false,
      [⟨"function_definition", none, 0, 13, ⟨0, 0⟩, ⟨0, 13⟩, true, false, false,
        [.leaf "identifier" (some "name") 0 4 4 1 true]⟩,
       ⟨"function_definition", none, 14, 26, ⟨1, 0⟩, ⟨1, 12⟩, true, false, false,
        [.leaf "identifier" (some "name") 1 4 18 1 true,
         ⟨"call", none, 23, 26, ⟨1, 9⟩, ⟨1, 12⟩, true, false, false,
          [.leaf "identifier" (some "function") 1 9 23 1 true]⟩]⟩]⟩⟩

def definesOtherG : FileSymbols :=
  ⟨[.normal "b.py"], [functionIn "g" "b.py" 1], str "def g(): pass",
    ⟨"module", none, 0, 13, ⟨0, 0⟩, ⟨0, 13⟩, true, false, false, []⟩⟩

def twoFiles : List FileSymbols := [definesOtherG, callsG]

def callOfG : List Reference := bodyReferences callsG.source callsG.tree (functionIn "f" "a.py" 2) .python

def dependencyG : Dependency := ⟨str "g", "call", some "b.py", .syntactic⟩

theorem dependencies_of_f :
    dependencies Char.isAlphanum pythonGraphs twoFiles (functionIn "f" "a.py" 2) "f" callsG.source callOfG =
      some [dependencyG] := by decide

theorem stackGraphResolves_g :
    StackGraphResolves pythonGraphs twoFiles (functionIn "f" "a.py" 2) "g" [.normal "a.py"] :=
  ⟨.python, twoFiles, [⟨[.normal "a.py"], 2, 9, str "g", some [.normal "a.py"], some 1, some 4, .resolved⟩], [],
    by decide, by decide, by rfl, by rfl, _, List.mem_singleton_self _, ⟨rfl, by decide, by decide, rfl⟩, rfl⟩

/-- The stack graph finds the `g` of the file, and the index the one of the other file. -/
theorem a_resolved_name_is_looked_up_by_name :
    ∃ deps, dependencies Char.isAlphanum pythonGraphs twoFiles (functionIn "f" "a.py" 2) "f" callsG.source callOfG =
        some deps ∧ ¬ KeepsResolved pythonGraphs twoFiles (functionIn "f" "a.py" 2) deps := by
  refine ⟨[dependencyG], dependencies_of_f, ?_⟩
  intro hkeeps
  obtain ⟨hmarked, -⟩ := hkeeps dependencyG (List.mem_singleton_self _) "g" _ rfl stackGraphResolves_g
  cases hmarked

theorem keeps_resolved_iff_two_files :
    KeepsResolved pythonGraphs twoFiles (functionIn "f" "a.py" 2) [dependencyG] ↔
      ∀ r ∈ callOfG, ∀ name, nameOf Char.isAlphanum callsG.source r = some (str name) → name ≠ "f" →
        ∀ file, ¬ StackGraphResolves pythonGraphs twoFiles (functionIn "f" "a.py" 2) name file :=
  keeps_resolved_iff dependencies_of_f

end CodeQuery.Cli.Deps
