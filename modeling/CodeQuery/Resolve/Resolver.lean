/-
  CodeQuery.Resolve.Resolver — references by stack graphs, with the syntactic fallback
  (`codequery-resolve/src/resolver.rs`, `resolve.rs`).

  The files of a scan are grouped by language, and each group is resolved by itself:
  by its stack graph, or by name where that finds nothing. The groups come in a hash
  map's order. A file is in one group, so that order does not show line by line
  (`resolveInternal_sameByLine`). The warnings are not modelled: no command reads them.
-/

import CodeQuery.Data.Groups
import CodeQuery.Data.StableSort
import CodeQuery.Index.Refs
import CodeQuery.Index.Scanner
import CodeQuery.Resolve.Types
import CodeQuery.Text.Utf8

namespace CodeQuery.Resolve

open CodeQuery.Core CodeQuery.Parse CodeQuery.Text CodeQuery.Index CodeQuery.Data

/-! ## The name at a place -/

section Name

-- `char::is_alphanumeric`
variable (alnum : Char → Bool)

/-- `&rest[..end]`, up to the first character that is no part of an identifier. -/
def leadingIdentifier (rest : Str) : Str :=
  match fromUtf8 rest with
  | some s => str (String.ofList (s.toList.takeWhile fun c => alnum c || c == '_'))
  | none => []

/-- The slice of a reference's line from its column on does not panic, or is not made. -/
def sliceable (source : Str) (r : Reference) : Bool :=
  ((lines source)[r.line - 1]?).all fun lineText => r.column ≥ lineText.length || isCharBoundary lineText r.column

def extractRefText (source : Str) (line column : Nat) : Str :=
  match (lines source)[line - 1]? with
  | none => []
  | some lineText => if column ≥ lineText.length then [] else leadingIdentifier alnum (lineText.drop column)

end Name

/-! ## Stack graphs -/

/-- What the stack graph library and the installed rules give. -/
structure StackGraphs where
  hasRules : Language → Bool
  /-- `build_graph_by_name` over the files, then the complete paths from the symbol's
      references as they are found, each by the places of its two ends; `none` is an
      error of either. -/
  completePaths : List (Path × Str × Node) → String → Str → Option (List (Option Location × Option Location))

def maxStackGraphFiles : Nat := 200

def unknownLocation : Location := ([.normal "<unknown>"], 0, 0)

def resolvedPath (symbol : Str) (reference : Option Location) (definition : Location) : ResolvedReference :=
  let loc := reference.getD unknownLocation
  ⟨loc.1, loc.2.1, loc.2.2, symbol, some definition.1, some definition.2.1, some definition.2.2, .resolved⟩

/-- `collect_resolved_path`, path after path: a pair of ends that was seen is skipped. -/
def collectResolved (symbol : Str) (seen : List (Option Location × Location)) :
    List (Option Location × Option Location) → List ResolvedReference
  | [] => []
  | (_, none) :: paths => collectResolved symbol seen paths
  | (reference, some definition) :: paths =>
    if (reference, definition) ∈ seen then collectResolved symbol seen paths
    else resolvedPath symbol reference definition :: collectResolved symbol ((reference, definition) :: seen) paths

section Resolver

variable (alnum : Char → Bool) (G : StackGraphs) (symbol : Str)

def resolveLanguageGroup (files : List FileSymbols) (language : Language) : Option (List ResolvedReference) :=
  let relevantFiles := files.filter fun fs => (find symbol fs.source).isSome
  let graphInput := (relevantFiles.take maxStackGraphFiles).map fun fs => (fs.file, fs.source, fs.tree)
  (G.completePaths graphInput language.name symbol).map (collectResolved symbol [])

def fileReferences (fs : FileSymbols) : List Reference :=
  match languageForFile fs.file with
  | none => []
  | some language => extractReferences fs.source fs.tree fs.file language

/-- `none` is a panic, at a slice off a character boundary. -/
def syntacticRefsForGroup (files : List FileSymbols) : Option (List ResolvedReference) :=
  if files.all fun fs => (fileReferences fs).all (sliceable fs.source) then
    some (files.flatMap fun fs =>
      ((fileReferences fs).filter fun r => extractRefText alnum fs.source r.line r.column = symbol).map fun r =>
        ⟨r.file, r.line, r.column, symbol, none, none, none, .syntactic⟩)
  else none

/-- A language's stack graph, or the fallback where there are no rules, an error, or
    nothing found. -/
def resolveGroup (group : Sigma fun _ : Language => List FileSymbols) : Option (List ResolvedReference) :=
  match if G.hasRules group.1 then resolveLanguageGroup G symbol group.2 group.1 else none with
  | some (r :: rs) => some (r :: rs)
  | _ => syntacticRefsForGroup alnum symbol group.2

def groupByLanguage (scan : List FileSymbols) : Groups Language FileSymbols :=
  scan.foldl (fun groups fs =>
    match languageForFile fs.file with
    | some language => groups.push language fs
    | none => groups) ∅

/-- `resolve_internal`, with the groups in an order of their map; `none` is a panic. -/
def resolveInternal {scan : List FileSymbols} (groups : Iteration (groupByLanguage scan)) :
    Option (List ResolvedReference) :=
  if groups.entries.all fun group => (resolveGroup alnum G symbol group).isSome then
    some (groups.entries.flatMap fun group => (resolveGroup alnum G symbol group).getD [])
  else none

def resolveRefs {scan : List FileSymbols} (groups : Iteration (groupByLanguage scan)) :
    Option (List ResolvedReference) :=
  resolveInternal alnum G symbol groups

def resolveCallers {scan : List FileSymbols} (groups : Iteration (groupByLanguage scan)) :
    Option (List ResolvedReference) :=
  (resolveInternal alnum G symbol groups).map (List.filter (·.resolution == .resolved))

end Resolver

/-! ## The order of the groups -/

section Order

variable {alnum : Char → Bool} {G : StackGraphs} {symbol : Str} {scan : List FileSymbols}

/-- A graph has the nodes of the files it is built from. -/
def StackGraphs.NodesInFiles (G : StackGraphs) : Prop :=
  ∀ files language symbol paths, G.completePaths files language symbol = some paths →
    ∀ loc definition, (some loc, definition) ∈ paths → ∃ f ∈ files, f.1 = loc.1

/-- What is collected are the paths to definitions, each pair of ends once. -/
theorem mem_collectResolved {rr : ResolvedReference} {paths : List (Option Location × Option Location)} :
    ∀ {seen : List (Option Location × Location)}, rr ∈ collectResolved symbol seen paths ↔
      ∃ reference definition, (reference, some definition) ∈ paths ∧ (reference, definition) ∉ seen ∧
        rr = resolvedPath symbol reference definition := by
  induction paths with
  | nil => simp [collectResolved]
  | cons path paths ih =>
    intro seen
    obtain ⟨first, _ | own⟩ := path
    · simp [collectResolved, ih]
    · have hmem : ∀ {reference definition}, (reference, some definition) ∈ (first, some own) :: paths ↔
          (reference, definition) = (first, own) ∨ (reference, some definition) ∈ paths := by simp
      rw [collectResolved]
      by_cases hseen : (first, own) ∈ seen
      · rw [if_pos hseen, ih]
        refine exists₂_congr fun reference definition => ?_
        rw [hmem]
        refine ⟨fun ⟨h, hnot, he⟩ => ⟨.inr h, hnot, he⟩, ?_⟩
        rintro ⟨heq | h, hnot, he⟩
        · exact absurd (heq ▸ hseen) hnot
        · exact ⟨h, hnot, he⟩
      · rw [if_neg hseen, List.mem_cons, ih]
        constructor
        · rintro (he | ⟨reference, definition, h, hnot, he⟩)
          · exact ⟨first, own, List.mem_cons_self, hseen, he⟩
          · exact ⟨reference, definition, List.mem_cons_of_mem _ h, fun h => hnot (List.mem_cons_of_mem _ h), he⟩
        · rintro ⟨reference, definition, h, hnot, he⟩
          by_cases hpath : (reference, definition) = (first, own)
          · cases hpath
            exact .inl he
          · refine .inr ⟨reference, definition, (hmem.mp h).resolve_left hpath, ?_, he⟩
            rw [List.mem_cons, not_or]
            exact ⟨hpath, hnot⟩

theorem collectResolved_location {paths : List (Option Location × Option Location)}
    {seen : List (Option Location × Location)} : ∀ rr ∈ collectResolved symbol seen paths,
      rr.location = unknownLocation ∨ ∃ definition, (some rr.location, some definition) ∈ paths := by
  intro rr h
  obtain ⟨reference, definition, hpath, -, rfl⟩ := mem_collectResolved.mp h
  cases reference with
  | none => exact .inl rfl
  | some loc => exact .inr ⟨definition, hpath⟩

theorem syntacticRefsForGroup_file {files : List FileSymbols} {refs : List ResolvedReference}
    (h : syntacticRefsForGroup alnum symbol files = some refs) : ∀ rr ∈ refs, ∃ fs ∈ files, fs.file = rr.refFile := by
  intro rr hrr
  unfold syntacticRefsForGroup at h
  split at h
  · cases h
    obtain ⟨fs, hfs, hrr⟩ := List.mem_flatMap.mp hrr
    obtain ⟨r, hr, rfl⟩ := List.mem_map.mp hrr
    refine ⟨fs, hfs, ?_⟩
    have hfile := (List.mem_filter.mp hr).1
    unfold fileReferences at hfile
    split at hfile
    · cases hfile
    · exact (extractReferences_wf hfile).1.symm
  · cases h

/-- A group's references are in its files, unless the graph lost their place. -/
theorem resolveGroup_location (hG : G.NodesInFiles) {group : Sigma fun _ : Language => List FileSymbols}
    {refs : List ResolvedReference} (h : resolveGroup alnum G symbol group = some refs) :
    ∀ rr ∈ refs, rr.location = unknownLocation ∨ ∃ fs ∈ group.2, fs.file = rr.refFile := by
  intro rr hrr
  unfold resolveGroup at h
  split at h
  · rename_i r rs hgraph
    cases h
    split at hgraph
    · simp only [resolveLanguageGroup, Option.map_eq_some_iff] at hgraph
      obtain ⟨paths, hpaths, hcollect⟩ := hgraph
      rw [← hcollect] at hrr
      rcases collectResolved_location rr hrr with hunknown | ⟨definition, hmem⟩
      · exact .inl hunknown
      · obtain ⟨f, hf, he⟩ := hG _ _ _ _ hpaths _ _ hmem
        obtain ⟨fs, hfs, rfl⟩ := List.mem_map.mp hf
        exact .inr ⟨fs, (List.mem_filter.mp (List.mem_of_mem_take hfs)).1, he⟩
    · cases hgraph
  · exact .inr (syntacticRefsForGroup_file h rr hrr)

theorem groupByLanguage_language : ∀ language, ∀ fs ∈ (groupByLanguage scan).get language,
    languageForFile fs.file = some language := by
  suffices ∀ groups : Groups Language FileSymbols,
      (∀ language, ∀ fs ∈ groups.get language, languageForFile fs.file = some language) →
      ∀ language, ∀ fs ∈ (scan.foldl (fun groups fs =>
        match languageForFile fs.file with
        | some language => groups.push language fs
        | none => groups) groups).get language, languageForFile fs.file = some language from
    this ∅ (by simp [Groups.get])
  induction scan with
  | nil => intro groups h; exact h
  | cons a scan ih =>
    intro groups h
    rw [List.foldl_cons]
    refine ih _ ?_
    intro language fs hfs
    split at hfs
    · rename_i own hown
      rw [Groups.get_push] at hfs
      split at hfs
      · rename_i he
        subst he
        rcases List.mem_append.mp hfs with hfs | hfs
        · exact h own fs hfs
        · rw [List.mem_singleton.mp hfs]
          exact hown
      · exact h language fs hfs
    · exact h language fs hfs

theorem group_language {groups : Iteration (groupByLanguage scan)} {group : Sigma fun _ : Language => List FileSymbols}
    (h : group ∈ groups.entries) : ∀ fs ∈ group.2, languageForFile fs.file = some group.1 := by
  intro fs hfs
  refine @groupByLanguage_language scan group.1 fs ?_
  have hlookup : (groupByLanguage scan).lookup group.1 = some group.2 :=
    AList.mem_lookup_iff.mpr (groups.perm.mem_iff.mp h)
  simpa [Groups.get, hlookup] using hfs

/-- Two lists of references with the same places on each line, in the same order there,
    whichever references are picked. -/
def SameByLine (refs refs' : List ResolvedReference) : Prop :=
  ∀ (pick : ResolvedReference → Bool) k,
    ((refs.filter pick).map ResolvedReference.location).filter (Location.fileLine · = k) =
      ((refs'.filter pick).map ResolvedReference.location).filter (Location.fileLine · = k)

theorem SameByLine.refl (refs : List ResolvedReference) : SameByLine refs refs := fun _ _ => rfl

theorem SameByLine.filter {refs refs' : List ResolvedReference} (h : SameByLine refs refs')
    (keep : ResolvedReference → Bool) : SameByLine (refs.filter keep) (refs'.filter keep) := by
  intro pick k
  rw [List.filter_filter, List.filter_filter]
  exact h _ k

theorem SameByLine.line {refs refs' : List ResolvedReference} (h : SameByLine refs refs') (k : Path ×ₗ ℕ) :
    (refs.map ResolvedReference.location).filter (Location.fileLine · = k) =
      (refs'.map ResolvedReference.location).filter (Location.fileLine · = k) := by
  simpa using h (fun _ => true) k

theorem SameByLine.mem_iff {refs refs' : List ResolvedReference} (h : SameByLine refs refs') {loc : Location} :
    loc ∈ refs.map ResolvedReference.location ↔ loc ∈ refs'.map ResolvedReference.location := by
  have hline : ∀ l : List Location, loc ∈ l ↔ loc ∈ l.filter (Location.fileLine · = Location.fileLine loc) := by
    intro l
    simp [List.mem_filter]
  rw [hline, h.line, ← hline]

variable (alnum G symbol) in
/-- The places of a group's picked references on a line. -/
def groupLine (pick : ResolvedReference → Bool) (k : Path ×ₗ ℕ)
    (group : Sigma fun _ : Language => List FileSymbols) : List Location :=
  ((((resolveGroup alnum G symbol group).getD []).filter pick).map ResolvedReference.location).filter
    (Location.fileLine · = k)

theorem mem_groupLine (hG : G.NodesInFiles) {groups : Iteration (groupByLanguage scan)} 
    {pick : ResolvedReference → Bool} {k : Path ×ₗ ℕ} {group : Sigma fun _ : Language => List FileSymbols}
    (hgroup : group ∈ groups.entries) {loc : Location} (h : loc ∈ groupLine alnum G symbol pick k group) :
    Location.fileLine loc = k ∧ (loc = unknownLocation ∨ languageForFile loc.1 = some group.1) := by
  obtain ⟨hloc, hk⟩ := List.mem_filter.mp h
  refine ⟨by simpa using hk, ?_⟩
  obtain ⟨rr, hpicked, rfl⟩ := List.mem_map.mp hloc
  have hrr := (List.mem_filter.mp hpicked).1
  cases hres : resolveGroup alnum G symbol group with
  | none => rw [hres] at hrr; cases hrr
  | some refs =>
    rw [hres] at hrr
    rcases resolveGroup_location hG hres rr hrr with hunknown | ⟨fs, hfs, hfile⟩
    · exact .inl hunknown
    · have hlang := group_language hgroup fs hfs
      rw [hfile] at hlang
      exact .inr hlang

theorem groupLine_same (hG : G.NodesInFiles) (groups groups' : Iteration (groupByLanguage scan))
    (pick : ResolvedReference → Bool) (k : Path ×ₗ ℕ) :
    groups.entries.flatMap (groupLine alnum G symbol pick k) =
      groups'.entries.flatMap (groupLine alnum G symbol pick k) := by
  have hperm : groups.entries.Perm groups'.entries := groups.perm.trans groups'.perm.symm
  have hunknown : languageForFile unknownLocation.1 = none := by decide
  cases hlang : languageForFile (ofLex k).1 with
  | none =>
    refine eq_of_perm_of_forall_eq (a := unknownLocation) (hperm.flatMap_right _) ?_
    intro loc hloc
    obtain ⟨group, hgroup, hloc⟩ := List.mem_flatMap.mp hloc
    obtain ⟨rfl, hplace | hplace⟩ := mem_groupLine hG hgroup hloc
    · exact hplace
    · rw [show languageForFile loc.1 = none from hlang] at hplace
      cases hplace
  | some language =>
    -- only the group of the file's language has references on the line
    have honly : ∀ groups : Iteration (groupByLanguage scan), ∀ group ∈ groups.entries,
        ∀ loc ∈ groupLine alnum G symbol pick k group, decide (group.1 = language) = true := by
      intro groups group hgroup loc hloc
      obtain ⟨rfl, hplace | hplace⟩ := mem_groupLine hG hgroup hloc
      · subst hplace
        rw [show languageForFile unknownLocation.1 = some language from hlang] at hunknown
        cases hunknown
      · rw [show languageForFile loc.1 = some language from hlang] at hplace
        simpa using (Option.some.inj hplace).symm
    have hkeys : groups'.entries.Pairwise (·.1 ≠ ·.1) := by
      have hnodup := (groups'.perm.map Sigma.fst).nodup_iff.mpr (groupByLanguage scan).keys_nodup
      exact List.pairwise_map.mp hnodup
    have hgroup : (groups.entries.filter fun group => group.1 = language) =
        groups'.entries.filter fun group => group.1 = language := filter_eq_of_perm hkeys hperm language
    rw [flatMap_filter_eq (honly groups), flatMap_filter_eq (honly groups'), hgroup]

/-- The order of the groups does not show line by line: a line is of one group's file,
    or it is the one for places the graph lost. -/
theorem resolveInternal_sameByLine (hG : G.NodesInFiles) {groups groups' : Iteration (groupByLanguage scan)}
    {refs refs' : List ResolvedReference} (h : resolveInternal alnum G symbol groups = some refs)
    (h' : resolveInternal alnum G symbol groups' = some refs') : SameByLine refs refs' := by
  have hline : ∀ {groups : Iteration (groupByLanguage scan)} {refs : List ResolvedReference},
      resolveInternal alnum G symbol groups = some refs → ∀ pick k,
      ((refs.filter pick).map ResolvedReference.location).filter (Location.fileLine · = k) =
        groups.entries.flatMap (groupLine alnum G symbol pick k) := by
    intro groups refs h pick k
    unfold resolveInternal at h
    split at h
    · cases h
      rw [List.filter_flatMap, List.map_flatMap, List.filter_flatMap]
      rfl
    · cases h
  intro pick k
  rw [hline h, hline h', groupLine_same hG]

/-- Whether a slice panics does not depend on the order either. -/
theorem resolveInternal_isSome (groups groups' : Iteration (groupByLanguage scan)) :
    (resolveInternal alnum G symbol groups).isSome = (resolveInternal alnum G symbol groups').isSome := by
  have hperm : groups.entries.Perm groups'.entries := groups.perm.trans groups'.perm.symm
  have hall : (groups.entries.all fun group => (resolveGroup alnum G symbol group).isSome) =
      groups'.entries.all fun group => (resolveGroup alnum G symbol group).isSome := by
    rw [Bool.eq_iff_iff, List.all_eq_true, List.all_eq_true]
    exact forall_congr' fun group => by rw [hperm.mem_iff]
  unfold resolveInternal
  rw [hall]
  split <;> rfl

/-- Without rules every reference is found by name. -/
theorem resolveInternal_syntactic (hno : ∀ language, G.hasRules language = false)
    {groups : Iteration (groupByLanguage scan)} {refs : List ResolvedReference}
    (h : resolveInternal alnum G symbol groups = some refs) : ∀ rr ∈ refs, rr.resolution = .syntactic := by
  intro rr hrr
  unfold resolveInternal at h
  split at h
  · cases h
    obtain ⟨group, _, hrr⟩ := List.mem_flatMap.mp hrr
    simp only [resolveGroup, hno, Bool.false_eq_true, if_false, syntacticRefsForGroup] at hrr
    split at hrr
    · obtain ⟨fs, _, hrr⟩ := List.mem_flatMap.mp hrr
      obtain ⟨r, _, rfl⟩ := List.mem_map.mp hrr
      rfl
    · cases hrr
  · cases h

end Order

end CodeQuery.Resolve
