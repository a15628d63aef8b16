/-
  CodeQuery.Resolve.Deps — the references in a symbol's lines
  (`codequery-resolve/src/resolver.rs`, `resolve_deps`).

  The stack graph of the target file's language is asked for the references to one name,
  and of these the ones in the file and its lines are kept; where there are none they are
  found by name in that file. Both ways the references are in the file and the lines, and
  every one has the name that was asked for (`resolveDeps_within`).
-/

import CodeQuery.Resolve.Warnings

namespace CodeQuery.Resolve.Warnings

open CodeQuery.Core CodeQuery.Text CodeQuery.Index CodeQuery.Data

/-! ## Resolution -/

/-- The line is in the range, with both ends. -/
def inLines (range : Nat × Nat) (line : Nat) : Bool := range.1 ≤ line && line ≤ range.2

section Resolver

variable (alnum : Char → Bool) {L : Library} (I : Installed L)

/-- `none` is a panic, at a slice off a character boundary. -/
def syntacticRefsForFile (fs : FileSymbols) (symbol : Str) (lineRange : Option (Nat × Nat)) :
    Option (List ResolvedReference) :=
  if (fileReferences fs).all (sliceable fs.source) then
    some (((fileReferences fs).filter fun r =>
      extractRefText alnum fs.source r.line r.column = symbol && lineRange.all (inLines · r.line)).map fun r =>
        ⟨r.file, r.line, r.column, symbol, none, none, none, .syntactic⟩)
  else none

/-- What is resolved of a target file that was scanned, by its language. -/
def resolveTarget (scan : List FileSymbols) (targetFs : FileSymbols) (targetFile : Path) (range : Nat × Nat)
    (symbol : String) : Option GroupResult :=
  let syntactic := syntacticRefsForFile alnum targetFs (str symbol) (some range)
  match languageForFile targetFs.file with
  | none => some ⟨[], false, []⟩
  | some language =>
    if I.hasRules language then
      match (groupByLanguage scan).lookup language with
      | none => some ⟨[], false, []⟩
      | some filesForLang =>
        match resolveLanguageGroup I filesForLang language symbol with
        | .ok (refs, groupWarnings) =>
          let filtered := refs.filter fun r => r.refFile == targetFile && inLines range r.refLine
          if filtered.isEmpty then
            syntactic.map fun syntactic =>
              if syntactic.isEmpty then ⟨[], false, groupWarnings⟩
              else ⟨syntactic, true, foundNothing language :: groupWarnings⟩
          else some ⟨filtered, false, groupWarnings⟩
        | .error e => syntactic.map fun syntactic => ⟨syntactic, true, [Lsp.debugName language ++ ": " ++ errorText e]⟩
    else syntactic.map fun syntactic => ⟨syntactic, true, []⟩

/-- `resolve_deps`; `none` is a panic. -/
def resolveDeps (scan : List FileSymbols) (targetFile : Path) (range : Nat × Nat) (symbol : String) :
    Option ResolutionResult :=
  match scan.find? (·.file == targetFile) with
  | none => some ⟨[], ["target file not found in scan results: " ++ display targetFile]⟩
  | some targetFs =>
    (resolveTarget alnum I scan targetFs targetFile range symbol).map fun r =>
      ⟨r.references,
        if r.anySyntactic && !r.warnings.any (contains · "syntactic fallback") then r.warnings ++ [someLanguages]
        else r.warnings⟩

end Resolver

/-! ## Where the references are, and of what name -/

section Within

variable {alnum : Char → Bool} {L : Library} {I : Installed L} {scan : List FileSymbols} {targetFile : Path}
  {range : Nat × Nat} {symbol : String}

/-- In the file, in the lines, and of the name. -/
def Within (targetFile : Path) (range : Nat × Nat) (symbol : String) (r : ResolvedReference) : Prop :=
  r.refFile = targetFile ∧ range.1 ≤ r.refLine ∧ r.refLine ≤ range.2 ∧ r.symbol = str symbol

theorem inLines_iff {line : Nat} : inLines range line = true ↔ range.1 ≤ line ∧ line ≤ range.2 := by
  rw [inLines, Bool.and_eq_true, decide_eq_true_iff, decide_eq_true_iff]

theorem fileReferences_file {fs : FileSymbols} {r : Reference} (h : r ∈ fileReferences fs) : r.file = fs.file := by
  unfold fileReferences at h
  split at h
  · cases h
  · exact (extractReferences_wf h).1

theorem syntacticRefsForFile_within {fs : FileSymbols} {refs : List ResolvedReference}
    (h : syntacticRefsForFile alnum fs (str symbol) (some range) = some refs) :
    ∀ r ∈ refs, Within fs.file range symbol r := by
  intro r hr
  unfold syntacticRefsForFile at h
  split at h
  · cases h
    obtain ⟨u, hu, rfl⟩ := List.mem_map.mp hr
    obtain ⟨hin, hcond⟩ := List.mem_filter.mp hu
    rw [Bool.and_eq_true, Option.all_some, inLines_iff] at hcond
    obtain ⟨-, hfirst, hlast⟩ := hcond
    exact ⟨fileReferences_file hin, hfirst, hlast, rfl⟩
  · cases h

theorem resolveLanguageGroup_symbol {files : List FileSymbols} {language : Language} {refs : List ResolvedReference}
    {groupWarnings : List String} (h : resolveLanguageGroup I files language symbol = .ok (refs, groupWarnings)) :
    ∀ r ∈ refs, r.symbol = str symbol := by
  unfold resolveLanguageGroup at h
  split at h
  · cases h
  · rw [resolveReferences_eq] at h
    cases h
    intro r hr
    obtain ⟨reference, definition, -, -, rfl⟩ := mem_collectResolved.mp hr
    rfl

theorem resolveTarget_within {targetFs : FileSymbols} {res : GroupResult}
    (h : resolveTarget alnum I scan targetFs targetFs.file range symbol = some res) :
    ∀ r ∈ res.references, Within targetFs.file range symbol r := by
  have hnone : ∀ r ∈ ([] : List ResolvedReference), Within targetFs.file range symbol r :=
    fun r hr => absurd hr List.not_mem_nil
  unfold resolveTarget at h
  dsimp only at h
  split at h
  · cases h
    exact hnone
  · split at h
    · split at h
      · cases h
        exact hnone
      · split at h
        · next refs groupWarnings hgroup =>
          split at h
          · obtain ⟨syntactic, hsyntactic, rfl⟩ := Option.map_eq_some_iff.mp h
            split
            · exact hnone
            · exact syntacticRefsForFile_within hsyntactic
          · cases h
            intro r hr
            obtain ⟨hin, hcond⟩ := List.mem_filter.mp hr
            rw [Bool.and_eq_true, beq_iff_eq, inLines_iff] at hcond
            obtain ⟨hfile, hfirst, hlast⟩ := hcond
            exact ⟨hfile, hfirst, hlast, resolveLanguageGroup_symbol hgroup r hin⟩
        · obtain ⟨syntactic, hsyntactic, rfl⟩ := Option.map_eq_some_iff.mp h
          exact syntacticRefsForFile_within hsyntactic
    · obtain ⟨syntactic, hsyntactic, rfl⟩ := Option.map_eq_some_iff.mp h
      exact syntacticRefsForFile_within hsyntactic

/-- The references are in the target file and its lines, and of the name asked for. -/
theorem resolveDeps_within {result : ResolutionResult}
    (h : resolveDeps alnum I scan targetFile range symbol = some result) :
    ∀ r ∈ result.references, Within targetFile range symbol r := by
  unfold resolveDeps at h
  split at h
  · cases h
    exact fun r hr => absurd hr List.not_mem_nil
  · next targetFs hfind =>
    have hfile : targetFs.file = targetFile := by simpa using List.find?_some hfind
    subst hfile
    obtain ⟨res, hres, rfl⟩ := Option.map_eq_some_iff.mp h
    exact resolveTarget_within hres

end Within

end CodeQuery.Resolve.Warnings
