/-
  CodeQuery.Resolve.Cap — what the cap on a stack graph's files loses
  (see `CodeQuery.Resolve.Resolver`).

  Of a language's files that contain the symbol, the stack graph is built from the first
  200. The documentation of the cap says that beyond it names are used; they are used
  only where the graph of the files that are kept finds nothing at all. One resolved
  reference in a kept file is enough for the files that are left out not to be looked at
  (`one_resolved_reference_hides_a_file`). `nothing_lost_iff` says for every scan and
  symbol when each match of a file that is left out is in the result.
-/

import CodeQuery.Resolve.Resolver

namespace CodeQuery.Resolve

open CodeQuery.Core CodeQuery.Parse CodeQuery.Text CodeQuery.Index CodeQuery.Data

/-! ## The files of a language -/

section Files

variable {scan : List FileSymbols}

def filesOf (scan : List FileSymbols) (language : Language) : List FileSymbols :=
  scan.filter fun fs => languageForFile fs.file = some language

theorem groupByLanguage_foldl (language : Language) (scan : List FileSymbols) (groups : Groups Language FileSymbols) :
    (scan.foldl (fun groups fs =>
      match languageForFile fs.file with
      | some language => groups.push language fs
      | none => groups) groups).get language = groups.get language ++ filesOf scan language := by
  induction scan generalizing groups with
  | nil => simp [filesOf]
  | cons fs scan ih =>
    rw [List.foldl_cons, ih]
    cases hown : languageForFile fs.file with
    | none => simp [filesOf, hown]
    | some own =>
      simp only [Groups.get_push]
      by_cases heq : own = language
      · subst heq
        simp [filesOf, hown]
      · simp [filesOf, hown, heq]

theorem groupByLanguage_get (language : Language) : (groupByLanguage scan).get language = filesOf scan language := by
  have hfold := groupByLanguage_foldl language scan ∅
  rwa [show (∅ : Groups Language FileSymbols).get language = [] from rfl, List.nil_append] at hfold

theorem group_files {groups : Iteration (groupByLanguage scan)} {group : Sigma fun _ : Language => List FileSymbols}
    (h : group ∈ groups.entries) : group.2 = filesOf scan group.1 := by
  have hlookup : (groupByLanguage scan).lookup group.1 = some group.2 :=
    AList.mem_lookup_iff.mpr (groups.perm.mem_iff.mp h)
  rw [← groupByLanguage_get, Groups.get, hlookup]
  rfl

theorem groupByLanguage_keys {language : Language} (scan : List FileSymbols) (groups : Groups Language FileSymbols)
    (h : language ∈ scan.foldl (fun groups fs =>
      match languageForFile fs.file with
      | some language => groups.push language fs
      | none => groups) groups) : language ∈ groups ∨ filesOf scan language ≠ [] := by
  induction scan generalizing groups with
  | nil => exact .inl h
  | cons fs scan ih =>
    rw [List.foldl_cons] at h
    cases hown : languageForFile fs.file with
    | none =>
      rw [hown] at h
      simpa [filesOf, hown] using ih groups h
    | some own =>
      rw [hown] at h
      by_cases heq : own = language
      · exact .inr (by simp [filesOf, hown, heq])
      · rcases ih _ h with hkey | hfiles
        · exact .inl ((Groups.mem_push.mp hkey).resolve_left fun h => heq h.symm)
        · exact .inr (by simpa [filesOf, hown, heq] using hfiles)

/-- No group is empty. -/
theorem group_ne_nil {groups : Iteration (groupByLanguage scan)} {group : Sigma fun _ : Language => List FileSymbols}
    (h : group ∈ groups.entries) : group.2 ≠ [] := by
  have hlookup : (groupByLanguage scan).lookup group.1 = some group.2 :=
    AList.mem_lookup_iff.mpr (groups.perm.mem_iff.mp h)
  have hkey : group.1 ∈ groupByLanguage scan := AList.lookup_isSome.mp (by rw [hlookup]; rfl)
  rw [group_files h]
  exact (groupByLanguage_keys scan ∅ hkey).resolve_left (AList.notMem_empty _)

/-- A language with a file has its group. -/
theorem group_mem (groups : Iteration (groupByLanguage scan)) {language : Language} (h : filesOf scan language ≠ []) :
    ⟨language, filesOf scan language⟩ ∈ groups.entries := by
  rw [← groupByLanguage_get, Groups.get] at h ⊢
  rw [groups.perm.mem_iff, ← AList.mem_lookup_iff]
  cases hlookup : (groupByLanguage scan).lookup language with
  | none => simp [hlookup] at h
  | some files => rfl

end Files

/-! ## What is promised -/

section Promise

variable (alnum : Char → Bool) (G : StackGraphs) (symbol : Str)

def relevantFiles (files : List FileSymbols) : List FileSymbols :=
  files.filter fun fs => (find symbol fs.source).isSome

def graphInput (files : List FileSymbols) : List (Path × Str × Node) :=
  ((relevantFiles symbol files).take maxStackGraphFiles).map fun fs => (fs.file, fs.source, fs.tree)

/-- The files that the cap leaves out of the graph. -/
def leftOut (files : List FileSymbols) : List FileSymbols := (relevantFiles symbol files).drop maxStackGraphFiles

/-- The references of a file whose text is the symbol. -/
def nameMatches (fs : FileSymbols) : List Reference :=
  (fileReferences fs).filter fun r => extractRefText alnum fs.source r.line r.column = symbol

/-- Every match in a file that is left out is in the result. -/
def NothingLost (scan : List FileSymbols) (refs : List ResolvedReference) : Prop :=
  ∀ language, ∀ fs ∈ leftOut symbol (filesOf scan language), ∀ r ∈ nameMatches alnum symbol fs,
    (r.file, r.line, r.column) ∈ refs.map ResolvedReference.location

/-- A language is resolved by name: it has no rules, or its graph fails, or no path of
    its graph ends at a definition. -/
def ByName (files : List FileSymbols) (language : Language) : Prop :=
  G.hasRules language = false ∨ ∀ paths, G.completePaths (graphInput symbol files) language.name symbol = some paths →
    ∀ path ∈ paths, path.2 = none

/-- A graph has a path from the place to a definition. -/
def FoundByGraph (scan : List FileSymbols) (loc : Location) : Prop :=
  ∃ language, filesOf scan language ≠ [] ∧ G.hasRules language = true ∧
    ∃ paths definition, G.completePaths (graphInput symbol (filesOf scan language)) language.name symbol = some paths ∧
      (some loc, some definition) ∈ paths

end Promise

/-! ## A group -/

section Group

variable {alnum : Char → Bool} {G : StackGraphs} {symbol : Str} {scan : List FileSymbols}

theorem collectResolved_nil_iff {paths : List (Option Location × Option Location)} :
    collectResolved symbol [] paths = [] ↔ ∀ path ∈ paths, path.2 = none := by
  constructor
  · rintro hnil ⟨reference, _ | definition⟩ hpath
    · rfl
    · have hmem : resolvedPath symbol reference definition ∈ collectResolved symbol [] paths :=
        mem_collectResolved.mpr ⟨reference, definition, hpath, List.not_mem_nil, rfl⟩
      rw [hnil] at hmem
      cases hmem
  · intro hnone
    refine List.eq_nil_iff_forall_not_mem.mpr fun rr h => ?_
    obtain ⟨reference, definition, hpath, -, -⟩ := mem_collectResolved.mp h
    cases hnone _ hpath

/-- A group goes by name, or by the paths of its graph. -/
theorem resolveGroup_cases (group : Sigma fun _ : Language => List FileSymbols) :
    (ByName G symbol group.2 group.1 ∧ resolveGroup alnum G symbol group = syntacticRefsForGroup alnum symbol group.2) ∨
      (¬ ByName G symbol group.2 group.1 ∧ G.hasRules group.1 = true ∧
        ∃ paths, G.completePaths (graphInput symbol group.2) group.1.name symbol = some paths ∧
          resolveGroup alnum G symbol group = some (collectResolved symbol [] paths)) := by
  have hgraph : resolveLanguageGroup G symbol group.2 group.1 =
      (G.completePaths (graphInput symbol group.2) group.1.name symbol).map (collectResolved symbol []) := rfl
  rw [resolveGroup, hgraph]
  cases hrules : G.hasRules group.1 with
  | false => exact .inl ⟨.inl hrules, rfl⟩
  | true =>
    cases hpaths : G.completePaths (graphInput symbol group.2) group.1.name symbol with
    | none =>
      refine .inl ⟨.inr fun paths h => ?_, rfl⟩
      rw [hpaths] at h
      cases h
    | some paths =>
      simp only [if_true, Option.map_some]
      cases hfound : collectResolved symbol [] paths with
      | nil =>
        refine .inl ⟨.inr fun paths' h => ?_, rfl⟩
        rw [hpaths] at h
        exact Option.some.inj h ▸ collectResolved_nil_iff.mp hfound
      | cons r rs =>
        refine .inr ⟨?_, trivial, paths, rfl, by rw [hfound]⟩
        rintro (hno | hnone)
        · rw [hrules] at hno
          cases hno
        · rw [collectResolved_nil_iff.mpr (hnone paths hpaths)] at hfound
          cases hfound

theorem mem_syntacticRefsForGroup {files : List FileSymbols} {refs : List ResolvedReference}
    (h : syntacticRefsForGroup alnum symbol files = some refs) {fs : FileSymbols} (hfs : fs ∈ files) {r : Reference}
    (hr : r ∈ nameMatches alnum symbol fs) : (r.file, r.line, r.column) ∈ refs.map ResolvedReference.location := by
  unfold syntacticRefsForGroup at h
  split at h
  · cases h
    exact List.mem_map.mpr ⟨_, List.mem_flatMap.mpr ⟨fs, hfs, List.mem_map.mpr ⟨r, hr, rfl⟩⟩, rfl⟩
  · cases h

theorem nameMatches_file {fs : FileSymbols} {r : Reference} (h : r ∈ nameMatches alnum symbol fs) : r.file = fs.file := by
  have hr := (List.mem_filter.mp h).1
  rw [fileReferences] at hr
  split at hr
  · cases hr
  · exact (extractReferences_wf hr).1

end Group

/-! ## The cap -/

section Cap

variable {alnum : Char → Bool} {G : StackGraphs} {symbol : Str} {scan : List FileSymbols}
  {groups : Iteration (groupByLanguage scan)} {refs : List ResolvedReference}

theorem resolveInternal_of_groups (h : ∀ group ∈ groups.entries, (resolveGroup alnum G symbol group).isSome = true) :
    ∃ refs, resolveInternal alnum G symbol groups = some refs := by
  unfold resolveInternal
  exact ⟨_, if_pos (List.all_eq_true.mpr h)⟩

theorem resolveInternal_group (h : resolveInternal alnum G symbol groups = some refs)
    {group : Sigma fun _ : Language => List FileSymbols} (hgroup : group ∈ groups.entries) :
    ∃ part, resolveGroup alnum G symbol group = some part := by
  unfold resolveInternal at h
  split at h
  · rename_i hall
    exact Option.isSome_iff_exists.mp (List.all_eq_true.mp hall group hgroup)
  · cases h

/-- What is returned are the references of the groups. -/
theorem mem_resolveInternal_iff (h : resolveInternal alnum G symbol groups = some refs) {loc : Location} :
    loc ∈ refs.map ResolvedReference.location ↔
      ∃ group ∈ groups.entries, ∃ part, resolveGroup alnum G symbol group = some part ∧
        loc ∈ part.map ResolvedReference.location := by
  have hparts := fun group hgroup => @resolveInternal_group _ _ _ _ _ _ h group hgroup
  unfold resolveInternal at h
  split at h
  · cases h
    rw [List.map_flatMap, List.mem_flatMap]
    refine exists_congr fun group => and_congr_right fun hgroup => ?_
    obtain ⟨part, hpart⟩ := hparts group hgroup
    rw [hpart]
    simp
  · cases h

/-- A place in a file of a language is returned by name, or by the path of a graph. -/
theorem found_of_mem (h : resolveInternal alnum G symbol groups = some refs) {language : Language} {loc : Location}
    (hlanguage : languageForFile loc.1 = some language) (hloc : loc ∈ refs.map ResolvedReference.location) :
    ByName G symbol (filesOf scan language) language ∨ FoundByGraph G symbol scan loc := by
  obtain ⟨group, hgroup, part, hpart, hloc⟩ := (mem_resolveInternal_iff h).mp hloc
  obtain ⟨rr, hrr, rfl⟩ := List.mem_map.mp hloc
  rcases resolveGroup_cases group with ⟨hname, hsyntactic⟩ | ⟨-, hrules, paths, hpaths, hcollect⟩
  · -- by name only files of the group's own language are searched
    rw [hsyntactic] at hpart
    obtain ⟨fs, hfs, hfile⟩ := syntacticRefsForGroup_file hpart rr hrr
    have hown := group_language hgroup fs hfs
    rw [hfile, show rr.refFile = rr.location.1 from rfl, hlanguage] at hown
    obtain rfl := Option.some.inj hown
    rw [group_files hgroup] at hname
    exact .inl hname
  · rw [hcollect] at hpart
    cases hpart
    rcases collectResolved_location rr hrr with hunknown | ⟨definition, hpath⟩
    · rw [hunknown, show languageForFile unknownLocation.1 = none by decide] at hlanguage
      cases hlanguage
    · refine .inr ⟨group.1, ?_, hrules, paths, definition, ?_, hpath⟩
      · rw [← group_files hgroup]
        exact group_ne_nil hgroup
      · rw [← group_files hgroup]
        exact hpaths

theorem mem_of_byName (h : resolveInternal alnum G symbol groups = some refs) {language : Language}
    (hname : ByName G symbol (filesOf scan language) language) {fs : FileSymbols} (hfs : fs ∈ filesOf scan language)
    {r : Reference} (hr : r ∈ nameMatches alnum symbol fs) :
    (r.file, r.line, r.column) ∈ refs.map ResolvedReference.location := by
  have hgroup := group_mem groups (List.ne_nil_of_mem hfs)
  rw [mem_resolveInternal_iff h]
  obtain ⟨part, hpart⟩ : ∃ part, resolveGroup alnum G symbol ⟨language, filesOf scan language⟩ = some part :=
    resolveInternal_group h hgroup
  refine ⟨_, hgroup, part, hpart, ?_⟩
  rcases @resolveGroup_cases alnum G symbol ⟨language, filesOf scan language⟩ with ⟨-, hsyntactic⟩ | ⟨hno, -⟩
  · exact mem_syntacticRefsForGroup (hsyntactic.symm.trans hpart) hfs hr
  · exact absurd hname hno

theorem mem_of_found (h : resolveInternal alnum G symbol groups = some refs) {loc : Location}
    (hfound : FoundByGraph G symbol scan loc) : loc ∈ refs.map ResolvedReference.location := by
  obtain ⟨language, hfiles, hrules, paths, definition, hpaths, hpath⟩ := hfound
  rw [mem_resolveInternal_iff h]
  rcases @resolveGroup_cases alnum G symbol ⟨language, filesOf scan language⟩ with
    ⟨hname, -⟩ | ⟨-, -, paths', hpaths', hcollect⟩
  · -- the path ends at a definition
    rcases hname with hno | hnone
    · rw [hno] at hrules
      cases hrules
    · cases hnone paths hpaths _ hpath
  · obtain rfl := Option.some.inj (hpaths'.symm.trans hpaths)
    have hmem : resolvedPath symbol (some loc) definition ∈ collectResolved symbol [] paths' :=
      mem_collectResolved.mpr ⟨some loc, definition, hpath, List.not_mem_nil, rfl⟩
    exact ⟨_, group_mem groups hfiles, _, hcollect, List.mem_map.mpr ⟨_, hmem, rfl⟩⟩

/-- Every match in a file that is left out is returned exactly when its language is
    resolved by name, or a graph finds the match. -/
theorem nothing_lost_iff (h : resolveRefs alnum G symbol groups = some refs) :
    NothingLost alnum symbol scan refs ↔
      ∀ language, ByName G symbol (filesOf scan language) language ∨
        ∀ fs ∈ leftOut symbol (filesOf scan language), ∀ r ∈ nameMatches alnum symbol fs,
          FoundByGraph G symbol scan (r.file, r.line, r.column) := by
  refine forall_congr' fun language => ?_
  have hsub : ∀ fs ∈ leftOut symbol (filesOf scan language), fs ∈ filesOf scan language :=
    fun fs hfs => (List.mem_filter.mp (List.mem_of_mem_drop hfs)).1
  constructor
  · intro hkept
    rw [or_iff_not_imp_left]
    intro hno fs hfs r hr
    have hlanguage : languageForFile r.file = some language := by
      rw [nameMatches_file hr]
      simpa using (List.mem_filter.mp (hsub fs hfs)).2
    exact (found_of_mem h hlanguage (hkept fs hfs r hr)).resolve_left hno
  · rintro (hname | hfound) fs hfs r hr
    · exact mem_of_byName h hname (hsub fs hfs) hr
    · exact mem_of_found h (hfound fs hfs r hr)

end Cap

/-! ## One file too many -/

/-- `lambda f: f()`, where the call is resolved to the parameter. -/
def lambdaF : FileSymbols :=
  ⟨[.normal "a.py"], [], str "lambda f: f()", ⟨"module", none, 0, 13, ⟨0, 0⟩, ⟨0, 13⟩, true, false, false,
    [⟨"expression_statement", none, 0, 13, ⟨0, 0⟩, ⟨0, 13⟩, true, false, false,
      [⟨"lambda", none, 0, 13, ⟨0, 0⟩, ⟨0, 13⟩, true, false, false,
        [⟨"lambda_parameters", some "parameters", 7, 8, ⟨0, 7⟩, ⟨0, 8⟩, true, false, false,
            [.leaf "identifier" none 0 7 7 1 true]⟩,
          ⟨"call", some "body", 10, 13, ⟨0, 10⟩, ⟨0, 13⟩, true, false, false,
            [.leaf "identifier" (some "function") 0 10 10 1 true,
              .leaf "argument_list" (some "arguments") 0 11 11 2 true]⟩]⟩]⟩]⟩⟩

/-- `f()`, in a directory of its own. -/
def callsF (i : Nat) : FileSymbols :=
  ⟨[.normal (toString i), .normal "a.py"], [], str "f()", ⟨"module", none, 0, 3, ⟨0, 0⟩, ⟨0, 3⟩, true, false, false,
    [⟨"expression_statement", none, 0, 3, ⟨0, 0⟩, ⟨0, 3⟩, true, false, false,
      [⟨"call", none, 0, 3, ⟨0, 0⟩, ⟨0, 3⟩, true, false, false,
        [.leaf "identifier" (some "function") 0 0 0 1 true,
          .leaf "argument_list" (some "arguments") 0 1 1 2 true]⟩]⟩]⟩⟩

def oneTooMany : List FileSymbols := lambdaF :: (List.range 200).map callsF

def lambdaGraphs : StackGraphs where
  hasRules language := language == .python
  completePaths _ _ _ := some [(some (lambdaF.file, 1, 10), some (lambdaF.file, 1, 7))]

theorem oneTooMany_language : ∀ fs ∈ oneTooMany, languageForFile fs.file = some .python := by
  intro fs hfs
  rcases List.mem_cons.mp hfs with rfl | hfs
  · decide
  · obtain ⟨i, -, rfl⟩ := List.mem_map.mp hfs
    rfl

theorem oneTooMany_leftOut : leftOut (str "f") (filesOf oneTooMany .python) = [callsF 199] := by
  have hfiles : filesOf oneTooMany .python = oneTooMany :=
    List.filter_eq_self.mpr fun fs hfs => by simpa using oneTooMany_language fs hfs
  have hcall : (find (str "f") (str "f()")).isSome = true := by decide
  have hrelevant : relevantFiles (str "f") oneTooMany = oneTooMany := by
    refine List.filter_eq_self.mpr fun fs hfs => ?_
    rcases List.mem_cons.mp hfs with rfl | hfs
    · decide
    · obtain ⟨i, -, rfl⟩ := List.mem_map.mp hfs
      exact hcall
  have hlast : (List.range 200).drop 199 = [199] := by decide +kernel
  rw [hfiles, leftOut, hrelevant, oneTooMany, show maxStackGraphFiles = 199 + 1 from rfl, List.drop_succ_cons,
    ← List.map_drop, hlast, List.map_singleton]

/-- The one group has the lambda's call, and that is all. -/
theorem oneTooMany_group {group : Sigma fun _ : Language => List FileSymbols}
    (h : group ∈ (Iteration.stored (groupByLanguage oneTooMany)).entries) :
    resolveGroup Char.isAlphanum lambdaGraphs (str "f") group =
      some [resolvedPath (str "f") (some (lambdaF.file, 1, 10)) (lambdaF.file, 1, 7)] := by
  obtain ⟨fs, hfs⟩ := List.exists_mem_of_ne_nil _ (group_ne_nil h)
  have hgroup := group_language h fs hfs
  rw [group_files h] at hfs
  rw [oneTooMany_language fs (List.mem_filter.mp hfs).1] at hgroup
  obtain ⟨language, files⟩ := group
  obtain rfl : Language.python = language := Option.some.inj hgroup
  rfl

theorem oneTooMany_resolved :
    ∃ refs, resolveRefs Char.isAlphanum lambdaGraphs (str "f") (.stored (groupByLanguage oneTooMany)) = some refs := by
  refine resolveInternal_of_groups fun group hgroup => ?_
  rw [oneTooMany_group hgroup]
  rfl

theorem nothing_lost_iff_oneTooMany :
    ∃ refs, resolveRefs Char.isAlphanum lambdaGraphs (str "f") (.stored (groupByLanguage oneTooMany)) = some refs ∧
      (NothingLost Char.isAlphanum (str "f") oneTooMany refs ↔
        ∀ language, ByName lambdaGraphs (str "f") (filesOf oneTooMany language) language ∨
          ∀ fs ∈ leftOut (str "f") (filesOf oneTooMany language), ∀ r ∈ nameMatches Char.isAlphanum (str "f") fs,
            FoundByGraph lambdaGraphs (str "f") oneTooMany (r.file, r.line, r.column)) := by
  obtain ⟨refs, hrefs⟩ := oneTooMany_resolved
  exact ⟨refs, hrefs, nothing_lost_iff hrefs⟩

/-- The call in the last file is lost: the lambda's own is resolved, and no other file is
    looked at. -/
theorem one_resolved_reference_hides_a_file :
    ∃ refs, resolveRefs Char.isAlphanum lambdaGraphs (str "f") (.stored (groupByLanguage oneTooMany)) = some refs ∧
      ¬ NothingLost Char.isAlphanum (str "f") oneTooMany refs := by
  obtain ⟨refs, hrefs⟩ := oneTooMany_resolved
  refine ⟨refs, hrefs, fun hkept => ?_⟩
  obtain ⟨r, hr, hcolumn⟩ : ∃ r ∈ nameMatches Char.isAlphanum (str "f") (callsF 199), r.column = 0 := by decide +kernel
  have hloc := hkept .python (callsF 199) (by rw [oneTooMany_leftOut]; exact List.mem_singleton_self _) r hr
  obtain ⟨group, hgroup, part, hpart, hloc⟩ := (mem_resolveInternal_iff hrefs).mp hloc
  rw [oneTooMany_group hgroup] at hpart
  cases hpart
  rw [List.map_singleton, List.mem_singleton] at hloc
  have hcolumns : r.column = 10 := congrArg (fun loc : Location => loc.2.2) hloc
  omega

end CodeQuery.Resolve
