/-
  CodeQuery.Cli.FindSymbols — all symbols of a name, and the first with its source
  (`codequery-cli/src/commands/common.rs`, `find_symbols_by_name` and
  `find_first_symbol_with_source`).

  Both go through the files with the parsers of `CodeQuery.Cli.Common`, and what they
  make of a file depends on that file alone (`symbolsIn`): it is skipped, it gives
  symbols, or it ends the run with an error, which only a built-in language whose grammar
  does not load can do. So a file whose grammar is missing is skipped or ends the run
  (`hides_nothing_iff`), and the first it does when it has no built-in language, is not
  read or does not mention the name; `a_toml_file_hides_a_match` is a project where it
  does the second. A scan leaves such a file out (`scan_added`).
-/

import CodeQuery.Cli.Common
import CodeQuery.Data.StableSort

namespace CodeQuery.Cli

open CodeQuery.Core CodeQuery.Parse CodeQuery.Text CodeQuery.Index CodeQuery.Data

/-! ## The commands' searches -/

inductive FindError where
  | discover (e : DiscoverError)
  /-- `LanguageError`. -/
  | parser (msg : String)
  deriving DecidableEq, Repr

/-- The parsers that `find_first_symbol_with_source` keeps. -/
structure Parsers where
  current : Option (Language × Grammar)
  runtime : Option (String × Grammar)

section Find

variable (G : Grammars) (d : Disk) (root : Path) (name : Str) (langFilter : Option Language)

def symbolKey (s : Symbol) : Path ×ₗ ℕ := toLex (s.file, s.line)

/-- `find_symbols_by_name` in a project whose root is known. -/
def findSymbolsByName (scope : Option Path) : Except FindError (List Symbol) :=
  match discoverFiles d root scope with
  | .error e => .error (.discover e)
  | .ok files =>
    match searchFilesForSymbol G d root name langFilter files with
    | .error msg => .error (.parser msg)
    | .ok found => .ok (stableSort symbolKey found)

/-- The first symbol of that name but an impl block, or child of that name. -/
def firstMatch : List Symbol → Option Symbol
  | [] => none
  | s :: symbols =>
    if s.kind ≠ .impl ∧ s.name = name then some s
    else
      match s.children.find? (·.name = name) with
      | some child => some child
      | none => firstMatch symbols

/-- A file of a built-in language: its symbols and its source, unless it is skipped. -/
def symbolsBuiltin (ps : Parsers) (relative : Path) (language : Language) :
    Except String (Parsers × Option (List Symbol × Str)) :=
  if langFilter.any (language != ·) then .ok (ps, none)
  else
    match d.readToString (root.join relative) with
    | none => .ok (ps, none)
    | some source =>
      if (find name source).isNone then .ok (ps, none)
      else
        match getOrCreateParser G ps.current language with
        | .error e => .error e
        | .ok parser =>
          .ok ({ ps with current := some (language, parser) },
            (parser source).map fun tree => (G.extractSymbols source tree relative language, source))

/-- Unlike the built-in languages', a grammar that does not load is no error. -/
def symbolsRuntime (ps : Parsers) (relative : Path) (langName : String) : Parsers × Option (List Symbol × Str) :=
  if langFilter.isSome then (ps, none)
  else
    match d.readToString (root.join relative) with
    | none => (ps, none)
    | some source =>
      if (find name source).isNone then (ps, none)
      else
        match getOrCreateRuntimeParser G ps.runtime langName with
        | .error _ => (ps, none)
        | .ok parser =>
          ({ ps with runtime := some (langName, parser) },
            (parser source).map fun tree => (G.extractSymbolsByName source tree relative langName, source))

def symbolsWithSource (ps : Parsers) (relative : Path) : Except String (Parsers × Option (List Symbol × Str)) :=
  match languageForFile relative with
  | some language => symbolsBuiltin G d root name langFilter ps relative language
  | none =>
    match languageNameForFile relative with
    | none => .ok (ps, none)
    | some langName => .ok (symbolsRuntime G d root name langFilter ps relative langName)

/-- The loop of `find_first_symbol_with_source`. -/
def findFirst : Parsers → List Path → Except String (Option Symbol × Option Str)
  | _, [] => .ok (none, none)
  | ps, f :: files =>
    match symbolsWithSource G d root name langFilter ps f with
    | .error e => .error e
    | .ok (ps', none) => findFirst ps' files
    | .ok (ps', some (symbols, source)) =>
      match firstMatch name symbols with
      | some symbol => .ok (some symbol, some source)
      | none => findFirst ps' files

def findFirstSymbolWithSource (files : List Path) : Except String (Option Symbol × Option Str) :=
  findFirst G d root name langFilter ⟨none, none⟩ files

end Find

/-! ## One file -/

section File

variable (G : Grammars) (d : Disk) (root : Path) (name : Str) (langFilter : Option Language)

/-- The text of a file that is read and mentions the name. -/
def mentioning (f : Path) : Option Str := (d.readToString (root.join f)).filter fun source => (find name source).isSome

/-- What a file of a built-in language gives, whatever parser is kept. -/
def builtinIn (f : Path) (language : Language) : Except String (Option (List Symbol × Str)) :=
  if langFilter.any (language != ·) then .ok none
  else
    match mentioning d root name f with
    | none => .ok none
    | some source =>
      match G.forLanguage language with
      | .error e => .error e
      | .ok parser => .ok ((parser source).map fun tree => (G.extractSymbols source tree f language, source))

/-- The same of a file of a runtime language. -/
def runtimeIn (f : Path) (langName : String) : Option (List Symbol × Str) :=
  if langFilter.isSome then none
  else
    match mentioning d root name f with
    | none => none
    | some source =>
      match G.forName langName with
      | .error _ => none
      | .ok parser => (parser source).map fun tree => (G.extractSymbolsByName source tree f langName, source)

def symbolsIn (f : Path) : Except String (Option (List Symbol × Str)) :=
  match languageForFile f with
  | some language => builtinIn G d root name langFilter f language
  | none => .ok ((languageNameForFile f).bind (runtimeIn G d root name langFilter f))

/-- The file ends a search: it is of a built-in language that is asked for and whose
    grammar does not load, and mentions the name. -/
def Stops (f : Path) : Prop :=
  ∃ language, languageForFile f = some language ∧ langFilter.any (language != ·) = false ∧
    (mentioning d root name f).isSome = true ∧ ∃ e, G.forLanguage language = .error e

variable {G d root name langFilter}

theorem mentioning_none {f : Path} (h : mentioning d root name f = none) : d.readToString (root.join f) = none ∨
    ∃ source, d.readToString (root.join f) = some source ∧ (find name source).isNone = true := by
  unfold mentioning at h
  cases hread : d.readToString (root.join f) with
  | none => exact .inl rfl
  | some source =>
    rw [hread, Option.filter_eq_none_iff] at h
    exact .inr ⟨source, rfl, by simpa using h source rfl⟩

theorem mentioning_some {f : Path} {source : Str} (h : mentioning d root name f = some source) :
    d.readToString (root.join f) = some source ∧ (find name source).isNone = false := by
  obtain ⟨hread, hfind⟩ := Option.filter_eq_some_iff.mp h
  refine ⟨hread, ?_⟩
  cases hfound : find name source with
  | none => simp [hfound] at hfind
  | some at_ => rfl

theorem builtinIn_error_iff {f : Path} {language : Language} :
    (∃ e, builtinIn G d root name langFilter f language = .error e) ↔ langFilter.any (language != ·) = false ∧
      (mentioning d root name f).isSome = true ∧ ∃ e, G.forLanguage language = .error e := by
  unfold builtinIn
  cases hfilter : langFilter.any (language != ·) with
  | true => simp
  | false =>
    cases hsource : mentioning d root name f with
    | none => simp
    | some source => cases hparser : G.forLanguage language <;> simp

theorem stops_iff {f : Path} : Stops G d root name langFilter f ↔ ∃ e, symbolsIn G d root name langFilter f = .error e := by
  unfold Stops symbolsIn
  cases hl : languageForFile f with
  | none => simp
  | some language => simp [builtinIn_error_iff]

theorem builtinIn_missing {f : Path} {language : Language} (hmissing : (G.forLanguage language).toOption = none) :
    builtinIn G d root name langFilter f language = .ok none ∨ ∃ e, builtinIn G d root name langFilter f language = .error e := by
  unfold builtinIn
  split
  · exact .inl rfl
  · split
    · exact .inl rfl
    · cases hparser : G.forLanguage language with
      | error e => exact .inr ⟨e, rfl⟩
      | ok parser =>
        rw [hparser] at hmissing
        cases hmissing

theorem runtimeIn_missing {f : Path} {langName : String} (hmissing : (G.forName langName).toOption = none) :
    runtimeIn G d root name langFilter f langName = none := by
  unfold runtimeIn
  split
  · rfl
  · split
    · rfl
    · cases hparser : G.forName langName with
      | error e => rfl
      | ok parser =>
        rw [hparser] at hmissing
        cases hmissing

/-- A file whose grammar is missing is skipped unless it ends the search. -/
theorem symbolsIn_missing {f : Path} (hmissing : grammarFor G f = none) (h : ¬ Stops G d root name langFilter f) :
    symbolsIn G d root name langFilter f = .ok none := by
  rw [stops_iff, symbolsIn] at h
  rw [symbolsIn]
  rw [grammarFor] at hmissing
  cases hl : languageForFile f with
  | some language =>
    rw [hl] at hmissing h
    exact (builtinIn_missing hmissing).resolve_right h
  | none =>
    rw [hl] at hmissing
    cases hn : languageNameForFile f with
    | none => rfl
    | some langName =>
      rw [hn] at hmissing
      exact congrArg Except.ok (runtimeIn_missing hmissing)

end File

/-! ## The loops without their parsers -/

section Loops

variable {G : Grammars} {d : Disk} {root : Path} {name : Str} {langFilter : Option Language}

variable (G d root name langFilter) in
/-- The matches that `find_symbols_by_name` takes from a file. -/
def matchesIn (f : Path) : List Symbol :=
  match symbolsIn G d root name langFilter f with
  | .ok (some (symbols, _)) => collectMatchingSymbols symbols name
  | _ => []

theorem matchesIn_ok {f : Path} {r : Option (List Symbol × Str)} (h : symbolsIn G d root name langFilter f = .ok r) :
    matchesIn G d root name langFilter f = (r.map fun r => collectMatchingSymbols r.1 name).getD [] := by
  rw [matchesIn, h]
  cases r <;> rfl

variable (G) in
/-- A step of a loop: it fails as the file does, or gives what the file gives and keeps
    its parsers right. -/
inductive Agrees : Except String (Option (List Symbol × Str)) → Except String (Parsers × Option (List Symbol × Str)) → Prop where
  | fail (e : String) : Agrees (.error e) (.error e)
  | step {ps : Parsers} (r : Option (List Symbol × Str)) (_ : Kept G ⟨[], ps.current, ps.runtime⟩) :
      Agrees (.ok r) (.ok (ps, r))

theorem symbolsBuiltin_agrees {ps : Parsers} (hk : Kept G ⟨[], ps.current, ps.runtime⟩) (f : Path) (language : Language) :
    Agrees G (builtinIn G d root name langFilter f language) (symbolsBuiltin G d root name langFilter ps f language) := by
  unfold builtinIn symbolsBuiltin
  rw [getOrCreateParser, getOrCreate_eq hk.current]
  cases hfilter : langFilter.any (language != ·) with
  | true => exact .step none hk
  | false =>
    cases hm : mentioning d root name f with
    | none =>
      rcases mentioning_none hm with hread | ⟨source, hread, hfind⟩
      · simpa only [hread] using .step none hk
      · simpa only [hread, hfind] using .step none hk
    | some source =>
      obtain ⟨hread, hfind⟩ := mentioning_some hm
      simp only [hread, hfind]
      cases hparser : G.forLanguage language with
      | error e => exact .fail e
      | ok parser =>
        refine .step _ ⟨fun l g he => ?_, hk.runtime⟩
        cases he
        exact hparser

theorem symbolsRuntime_agrees {ps : Parsers} (hk : Kept G ⟨[], ps.current, ps.runtime⟩) (f : Path) (langName : String) :
    Agrees G (.ok (runtimeIn G d root name langFilter f langName))
      (.ok (symbolsRuntime G d root name langFilter ps f langName)) := by
  unfold runtimeIn symbolsRuntime
  rw [getOrCreateRuntimeParser, getOrCreate_eq hk.runtime]
  cases hfilter : langFilter.isSome with
  | true => exact .step none hk
  | false =>
    cases hm : mentioning d root name f with
    | none =>
      rcases mentioning_none hm with hread | ⟨source, hread, hfind⟩
      · simpa only [hread] using .step none hk
      · simpa only [hread, hfind] using .step none hk
    | some source =>
      obtain ⟨hread, hfind⟩ := mentioning_some hm
      simp only [hread, hfind, Bool.false_eq_true, if_false]
      cases hparser : G.forName langName with
      | error e => exact .step none hk
      | ok parser =>
        refine .step _ ⟨hk.current, fun n g he => ?_⟩
        cases he
        exact hparser

/-- What a loop makes of a file is what the file gives. -/
theorem symbolsWithSource_agrees {ps : Parsers} (hk : Kept G ⟨[], ps.current, ps.runtime⟩) (f : Path) :
    Agrees G (symbolsIn G d root name langFilter f) (symbolsWithSource G d root name langFilter ps f) := by
  unfold symbolsIn symbolsWithSource
  cases languageForFile f with
  | some language => exact symbolsBuiltin_agrees hk f language
  | none =>
    cases languageNameForFile f with
    | none => exact .step none hk
    | some langName => exact symbolsRuntime_agrees hk f langName

/-! ## All symbols -/

variable (name) in
/-- The matches of a file are added. -/
def Search.add (st : Search) (r : Parsers × Option (List Symbol × Str)) : Search :=
  ⟨st.found ++ (r.2.map fun r => collectMatchingSymbols r.1 name).getD [], r.1.current, r.1.runtime⟩

theorem Search.add_none (st : Search) : st.add name (⟨st.currentParser, st.runtimeParser⟩, none) = st := by
  simp [Search.add]

theorem searchBuiltin_eq (st : Search) (f : Path) (language : Language) :
    searchBuiltin G d root name langFilter st f language =
      (symbolsBuiltin G d root name langFilter ⟨st.currentParser, st.runtimeParser⟩ f language).map (st.add name) := by
  have hskip : (.ok st : Except String Search) = .ok (st.add name (⟨st.currentParser, st.runtimeParser⟩, none)) := by
    rw [Search.add_none]
  unfold searchBuiltin symbolsBuiltin
  cases langFilter.any (language != ·) with
  | true => exact hskip
  | false =>
    cases d.readToString (root.join f) with
    | none => exact hskip
    | some source =>
      dsimp only
      cases (find name source).isNone with
      | true => exact hskip
      | false =>
        cases getOrCreateParser G st.currentParser language with
        | error e => rfl
        | ok parser => cases hparse : parser source <;> simp [Except.map, Search.add, hparse]

theorem searchRuntime_eq (st : Search) (f : Path) (langName : String) :
    searchRuntime G d root name langFilter st f langName =
      st.add name (symbolsRuntime G d root name langFilter ⟨st.currentParser, st.runtimeParser⟩ f langName) := by
  unfold searchRuntime symbolsRuntime
  cases langFilter.isSome with
  | true => exact st.add_none.symm
  | false =>
    cases d.readToString (root.join f) with
    | none => exact st.add_none.symm
    | some source =>
      dsimp only
      cases (find name source).isNone with
      | true => exact st.add_none.symm
      | false =>
        cases getOrCreateRuntimeParser G st.runtimeParser langName with
        | error e => exact st.add_none.symm
        | ok parser => cases hparse : parser source <;> simp [Search.add, hparse]

/-- The two loops make the same of a file. -/
theorem searchFile_eq (st : Search) (f : Path) : searchFile G d root name langFilter st f =
    (symbolsWithSource G d root name langFilter ⟨st.currentParser, st.runtimeParser⟩ f).map (st.add name) := by
  unfold searchFile symbolsWithSource
  cases languageForFile f with
  | some language => exact searchBuiltin_eq st f language
  | none =>
    cases languageNameForFile f with
    | none => exact congrArg Except.ok st.add_none.symm
    | some langName => exact congrArg Except.ok (searchRuntime_eq st f langName)

/-- A search is the matches of its files, and fails when a file stops it. -/
theorem searchFiles_run {files : List Path} : ∀ {st : Search}, Kept G st →
    ((∃ f ∈ files, Stops G d root name langFilter f) →
      ∃ e, files.foldlM (searchFile G d root name langFilter) st = .error e) ∧
    ((∀ f ∈ files, ¬ Stops G d root name langFilter f) →
      ∃ st', files.foldlM (searchFile G d root name langFilter) st = .ok st' ∧
        st'.found = st.found ++ files.flatMap (matchesIn G d root name langFilter)) := by
  induction files with
  | nil =>
    intro st _
    exact ⟨by simp, fun _ => ⟨st, rfl, (List.append_nil _).symm⟩⟩
  | cons f files ih =>
    intro st hk
    have hstep := @symbolsWithSource_agrees G d root name langFilter ⟨st.currentParser, st.runtimeParser⟩
      ⟨hk.current, hk.runtime⟩ f
    rw [List.foldlM_cons, searchFile_eq]
    generalize hfile : symbolsIn G d root name langFilter f = file at hstep
    generalize symbolsWithSource G d root name langFilter ⟨st.currentParser, st.runtimeParser⟩ f = result at hstep
    cases hstep with
    | fail e =>
      refine ⟨fun _ => ⟨e, rfl⟩, fun h => ?_⟩
      exact absurd (stops_iff.mpr ⟨e, hfile⟩) (h f List.mem_cons_self)
    | step r hkept =>
      have hgo : ¬ Stops G d root name langFilter f := by
        rw [stops_iff, hfile]
        intro hcase
        obtain ⟨e, he⟩ := hcase
        cases he
      obtain ⟨hfail, hok⟩ := @ih (st.add name (_, r)) ⟨hkept.current, hkept.runtime⟩
      constructor
      · intro hcase
        obtain ⟨g, hg, hstops⟩ := hcase
        rcases List.mem_cons.mp hg with rfl | hg
        · exact absurd hstops hgo
        · exact hfail ⟨g, hg, hstops⟩
      · intro h
        obtain ⟨st', hrun, hfound⟩ := hok fun g hg => h g (List.mem_cons_of_mem _ hg)
        refine ⟨st', hrun, ?_⟩
        rw [hfound, Search.add, List.flatMap_cons, matchesIn_ok hfile, List.append_assoc]

theorem searchFilesForSymbol_error {files : List Path} (h : ∃ f ∈ files, Stops G d root name langFilter f) :
    ∃ e, searchFilesForSymbol G d root name langFilter files = .error e := by
  obtain ⟨e, he⟩ := (@searchFiles_run G d root name langFilter files ⟨[], none, none⟩ ⟨by simp, by simp⟩).1 h
  exact ⟨e, by rw [searchFilesForSymbol, he]; rfl⟩

theorem searchFilesForSymbol_ok {files : List Path} (h : ∀ f ∈ files, ¬ Stops G d root name langFilter f) :
    searchFilesForSymbol G d root name langFilter files = .ok (files.flatMap (matchesIn G d root name langFilter)) := by
  obtain ⟨st, hrun, hfound⟩ := (@searchFiles_run G d root name langFilter files ⟨[], none, none⟩ ⟨by simp, by simp⟩).2 h
  rw [searchFilesForSymbol, hrun]
  exact congrArg Except.ok hfound

/-! ## The first symbol -/

theorem firstMatch_eq (symbols : List Symbol) :
    firstMatch name symbols = (collectMatchingSymbols symbols name).head? := by
  induction symbols with
  | nil => rfl
  | cons s symbols ih =>
    rw [firstMatch, collectMatchingSymbols, List.flatMap_cons]
    by_cases hself : s.kind ≠ .impl ∧ s.name = name
    · rw [if_pos hself, if_pos hself]
      rfl
    · rw [if_neg hself, if_neg hself, List.nil_append, List.head?_append, List.head?_filter, ih]
      cases s.children.find? (·.name = name) <;> rfl

variable (G d root name langFilter) in
/-- The result of the loop when it ends at a file. -/
def resultIn (f : Path) : Option (Except String (Option Symbol × Option Str)) :=
  match symbolsIn G d root name langFilter f with
  | .error e => some (.error e)
  | .ok none => none
  | .ok (some (symbols, source)) => (firstMatch name symbols).map fun symbol => .ok (some symbol, some source)

/-- The first file at which the loop ends gives its result. -/
theorem findFirst_eq : ∀ {files : List Path} {ps : Parsers}, Kept G ⟨[], ps.current, ps.runtime⟩ →
    findFirst G d root name langFilter ps files =
      (files.findSome? (resultIn G d root name langFilter)).getD (.ok (none, none))
  | [], _, _ => rfl
  | f :: files, ps, hk => by
    have hstep := @symbolsWithSource_agrees G d root name langFilter ps hk f
    rw [findFirst, List.findSome?_cons, resultIn]
    generalize symbolsIn G d root name langFilter f = file at hstep
    generalize symbolsWithSource G d root name langFilter ps f = result at hstep
    cases hstep with
    | fail e => rfl
    | step r hkept =>
      have ih := @findFirst_eq files _ hkept
      cases r with
      | none => exact ih
      | some r =>
        dsimp only
        cases firstMatch name r.1 with
        | none => exact ih
        | some symbol => rfl

theorem findFirstSymbolWithSource_eq (files : List Path) : findFirstSymbolWithSource G d root name langFilter files =
    (files.findSome? (resultIn G d root name langFilter)).getD (.ok (none, none)) :=
  findFirst_eq ⟨by simp, by simp⟩

theorem resultIn_stops {f : Path} (h : Stops G d root name langFilter f) :
    ∃ e, resultIn G d root name langFilter f = some (.error e) := by
  obtain ⟨e, he⟩ := stops_iff.mp h
  exact ⟨e, by rw [resultIn, he]⟩

/-- The loop goes on behind a file that has no match and does not stop it. -/
theorem resultIn_none_iff {f : Path} : resultIn G d root name langFilter f = none ↔
    ¬ Stops G d root name langFilter f ∧ matchesIn G d root name langFilter f = [] := by
  rw [stops_iff, resultIn, matchesIn]
  cases symbolsIn G d root name langFilter f with
  | error e => simp
  | ok r => cases r <;> simp [firstMatch_eq]

theorem resultIn_error {f : Path} {e : String} (h : resultIn G d root name langFilter f = some (.error e)) :
    Stops G d root name langFilter f := by
  rw [stops_iff]
  rw [resultIn] at h
  cases hfile : symbolsIn G d root name langFilter f with
  | error e' => exact ⟨e', rfl⟩
  | ok r =>
    rw [hfile] at h
    cases r with
    | none => cases h
    | some r =>
      obtain ⟨symbol, -, he⟩ := Option.map_eq_some_iff.mp h
      cases he

variable (G d root name langFilter) in
/-- A file stops the loop before a match ends it. -/
def FailsFirst (files : List Path) : Prop :=
  ∃ before f behind, files = before ++ f :: behind ∧ (∀ g ∈ before, matchesIn G d root name langFilter g = []) ∧
    Stops G d root name langFilter f

theorem failsFirst_cons {f : Path} {files : List Path} : FailsFirst G d root name langFilter (f :: files) ↔
    Stops G d root name langFilter f ∨
      matchesIn G d root name langFilter f = [] ∧ FailsFirst G d root name langFilter files := by
  constructor
  · intro h
    obtain ⟨before, g, behind, hfiles, hbefore, hstops⟩ := h
    cases before with
    | nil =>
      obtain ⟨rfl, -⟩ := List.cons.inj hfiles
      exact .inl hstops
    | cons f' before =>
      obtain ⟨rfl, hrest⟩ := List.cons.inj hfiles
      obtain ⟨hnone, hbefore⟩ := List.forall_mem_cons.mp hbefore
      exact .inr ⟨hnone, before, g, behind, hrest, hbefore, hstops⟩
  · intro h
    rcases h with hstops | ⟨hnone, before, g, behind, rfl, hbefore, hstops⟩
    · exact ⟨[], f, files, rfl, by simp, hstops⟩
    · exact ⟨f :: before, g, behind, rfl, List.forall_mem_cons.mpr ⟨hnone, hbefore⟩, hstops⟩

theorem findFirst_error_iff (files : List Path) :
    (∃ e, findFirstSymbolWithSource G d root name langFilter files = .error e) ↔
      FailsFirst G d root name langFilter files := by
  rw [findFirstSymbolWithSource_eq]
  induction files with
  | nil => simp [FailsFirst]
  | cons f files ih =>
    rw [failsFirst_cons, List.findSome?_cons]
    cases hresult : resultIn G d root name langFilter f with
    | none =>
      obtain ⟨hgo, hnone⟩ := resultIn_none_iff.mp hresult
      simpa [hgo, hnone] using ih
    | some result =>
      cases result with
      | error e => exact iff_of_true ⟨e, rfl⟩ (.inl (resultIn_error hresult))
      | ok r =>
        have hgo : ¬ Stops G d root name langFilter f := by
          intro hstops
          obtain ⟨e, he⟩ := resultIn_stops hstops
          rw [hresult] at he
          cases he
        refine iff_of_false (by simp) ?_
        intro h
        rcases h with hstops | ⟨hnone, -⟩
        · exact hgo hstops
        · rw [resultIn_none_iff.mpr ⟨hgo, hnone⟩] at hresult
          cases hresult

end Loops

/-! ## A file more -/

section Added

variable {G : Grammars} {d d' : Disk} {root : Path} {name : Str} {langFilter : Option Language} {scope : Option Path}
  {before behind : List Path} {f : Path}

/-- The second project is the first with a file more, which is discovered between the
    others. -/
structure Added (d d' : Disk) (root : Path) (scope : Option Path) (before : List Path) (f : Path) (behind : List Path) :
    Prop where
  old : discoverFiles d root scope = .ok (before ++ behind)
  new : discoverFiles d' root scope = .ok (before ++ f :: behind)
  others : ∀ g ∈ before ++ behind, d'.readToString (root.join g) = d.readToString (root.join g)

variable (G d d' root name langFilter scope before f behind) in
/-- With the file more, no result becomes an error and no match is lost. -/
structure HidesNothing : Prop where
  byName : ∀ found, findSymbolsByName G d root name langFilter scope = .ok found →
    ∃ found', findSymbolsByName G d' root name langFilter scope = .ok found' ∧ ∀ s ∈ found, s ∈ found'
  first : ∀ symbol source, findFirstSymbolWithSource G d root name langFilter (before ++ behind) = .ok (symbol, source) →
    ∃ symbol' source', findFirstSymbolWithSource G d' root name langFilter (before ++ f :: behind) = .ok (symbol', source') ∧
      ∀ s, symbol = some s → symbol' = some s

theorem symbolsIn_congr {g : Path} (h : d'.readToString (root.join g) = d.readToString (root.join g)) :
    symbolsIn G d' root name langFilter g = symbolsIn G d root name langFilter g := by
  unfold symbolsIn builtinIn runtimeIn mentioning
  rw [h]

theorem stops_congr {g : Path} (h : d'.readToString (root.join g) = d.readToString (root.join g)) :
    Stops G d' root name langFilter g ↔ Stops G d root name langFilter g := by
  rw [stops_iff, stops_iff, symbolsIn_congr h]

theorem matchesIn_congr {g : Path} (h : d'.readToString (root.join g) = d.readToString (root.join g)) :
    matchesIn G d' root name langFilter g = matchesIn G d root name langFilter g := by
  rw [matchesIn, matchesIn, symbolsIn_congr h]

theorem resultIn_congr {g : Path} (h : d'.readToString (root.join g) = d.readToString (root.join g)) :
    resultIn G d' root name langFilter g = resultIn G d root name langFilter g := by
  rw [resultIn, resultIn, symbolsIn_congr h]

theorem findSymbolsByName_error {files : List Path} (hfiles : discoverFiles d root scope = .ok files)
    (h : ∃ g ∈ files, Stops G d root name langFilter g) :
    ∃ e, findSymbolsByName G d root name langFilter scope = .error e := by
  obtain ⟨msg, hmsg⟩ := searchFilesForSymbol_error h
  exact ⟨.parser msg, by rw [findSymbolsByName, hfiles]; dsimp only; rw [hmsg]⟩

theorem findSymbolsByName_ok {files : List Path} (hfiles : discoverFiles d root scope = .ok files)
    (h : ∀ g ∈ files, ¬ Stops G d root name langFilter g) : findSymbolsByName G d root name langFilter scope =
      .ok (stableSort symbolKey (files.flatMap (matchesIn G d root name langFilter))) := by
  rw [findSymbolsByName, hfiles]
  dsimp only
  rw [searchFilesForSymbol_ok h]

/-- The search for all symbols loses something exactly when the file stops it and no
    other file did before. -/
theorem byName_iff (h : Added d d' root scope before f behind) :
    (∀ found, findSymbolsByName G d root name langFilter scope = .ok found →
        ∃ found', findSymbolsByName G d' root name langFilter scope = .ok found' ∧ ∀ s ∈ found, s ∈ found') ↔
      ¬ Stops G d' root name langFilter f ∨ ∃ g ∈ before ++ behind, Stops G d root name langFilter g := by
  by_cases hold : ∃ g ∈ before ++ behind, Stops G d root name langFilter g
  · obtain ⟨e, he⟩ := findSymbolsByName_error h.old hold
    refine iff_of_true (fun found hfound => ?_) (.inr hold)
    rw [he] at hfound
    cases hfound
  · have hgo : ∀ g ∈ before ++ behind, ¬ Stops G d root name langFilter g := fun g hg hstops => hold ⟨g, hg, hstops⟩
    have hok := findSymbolsByName_ok h.old hgo
    rw [or_iff_left hold]
    constructor
    · intro hkept hstops
      obtain ⟨found', hfound', -⟩ := hkept _ hok
      obtain ⟨e, he⟩ := findSymbolsByName_error h.new ⟨f, by simp, hstops⟩
      rw [he] at hfound'
      cases hfound'
    · intro hf found hfound
      have hgo' : ∀ g ∈ before ++ f :: behind, ¬ Stops G d' root name langFilter g := by
        intro g hg
        rcases List.mem_append.mp hg with hg | hg
        · rw [stops_congr (h.others g (List.mem_append_left _ hg))]
          exact hgo g (List.mem_append_left _ hg)
        · rcases List.mem_cons.mp hg with rfl | hg
          · exact hf
          · rw [stops_congr (h.others g (List.mem_append_right _ hg))]
            exact hgo g (List.mem_append_right _ hg)
      refine ⟨_, findSymbolsByName_ok h.new hgo', fun s hs => ?_⟩
      obtain rfl := Except.ok.inj (hok.symm.trans hfound)
      rw [mem_stableSort, List.mem_flatMap] at hs ⊢
      obtain ⟨g, hg, hs⟩ := hs
      refine ⟨g, ?_, by rwa [matchesIn_congr (h.others g hg)]⟩
      rcases List.mem_append.mp hg with hg | hg
      · exact List.mem_append_left _ hg
      · exact List.mem_append_right _ (List.mem_cons_of_mem _ hg)

theorem firstResult_congr : ∀ {files : List Path}, (∀ g ∈ files, d'.readToString (root.join g) = d.readToString (root.join g)) →
    files.findSome? (resultIn G d' root name langFilter) = files.findSome? (resultIn G d root name langFilter)
  | [], _ => rfl
  | g :: files, h => by
    obtain ⟨hg, hfiles⟩ := List.forall_mem_cons.mp h
    rw [List.findSome?_cons, List.findSome?_cons, resultIn_congr hg, firstResult_congr hfiles]

/-- A file that is skipped, or comes behind a match, does not show in the first symbol. -/
theorem findFirst_added (h : Added d d' root scope before f behind)
    (hf : resultIn G d' root name langFilter f = none ∨ (before.findSome? (resultIn G d root name langFilter)).isSome = true) :
    findFirstSymbolWithSource G d' root name langFilter (before ++ f :: behind) =
      findFirstSymbolWithSource G d root name langFilter (before ++ behind) := by
  obtain ⟨hbefore, hbehind⟩ := List.forall_mem_append.mp h.others
  rw [findFirstSymbolWithSource_eq, findFirstSymbolWithSource_eq, List.findSome?_append, List.findSome?_append,
    firstResult_congr hbefore, List.findSome?_cons]
  rcases hf with hnone | hsome
  · rw [hnone, firstResult_congr hbehind]
  · obtain ⟨result, hresult⟩ := Option.isSome_iff_exists.mp hsome
    rw [hresult]
    rfl

/-- The search for the first symbol loses something exactly when the file stops it, with
    no match before and no other file that stops it first. -/
theorem first_iff (h : Added d d' root scope before f behind) (hmissing : grammarFor G f = none) :
    (∀ symbol source, findFirstSymbolWithSource G d root name langFilter (before ++ behind) = .ok (symbol, source) →
        ∃ symbol' source', findFirstSymbolWithSource G d' root name langFilter (before ++ f :: behind) = .ok (symbol', source') ∧
          ∀ s, symbol = some s → symbol' = some s) ↔
      ¬ Stops G d' root name langFilter f ∨ (∃ g ∈ before, matchesIn G d root name langFilter g ≠ []) ∨
        FailsFirst G d root name langFilter (before ++ behind) := by
  constructor
  · intro hkept
    by_contra hno
    rw [not_or, not_or, not_not] at hno
    obtain ⟨hstops, hbefore, hfails⟩ := hno
    cases hold : findFirstSymbolWithSource G d root name langFilter (before ++ behind) with
    | error e => exact hfails ((findFirst_error_iff _).mp ⟨e, hold⟩)
    | ok r =>
      obtain ⟨symbol', source', hnew, -⟩ := hkept r.1 r.2 hold
      have hnew' : FailsFirst G d' root name langFilter (before ++ f :: behind) := by
        refine ⟨before, f, behind, rfl, fun g hg => ?_, hstops⟩
        rw [matchesIn_congr (h.others g (List.mem_append_left _ hg))]
        by_contra hmatch
        exact hbefore ⟨g, hg, hmatch⟩
      obtain ⟨e, he⟩ := (findFirst_error_iff _).mpr hnew'
      rw [he] at hnew
      cases hnew
  · rintro hcases symbol source hold
    refine ⟨symbol, source, ?_, fun s hs => hs⟩
    rw [← hold]
    refine findFirst_added h ?_
    rcases hcases with hgo | ⟨g, hg, hmatch⟩ | hfails
    · refine .inl (resultIn_none_iff.mpr ⟨hgo, ?_⟩)
      rw [matchesIn, symbolsIn_missing hmissing hgo]
    · refine .inr (List.findSome?_isSome_iff.mpr ⟨g, hg, ?_⟩)
      rw [Option.isSome_iff_ne_none]
      exact fun hnone => hmatch (resultIn_none_iff.mp hnone).2
    · obtain ⟨e, he⟩ := (findFirst_error_iff _).mpr hfails
      rw [he] at hold
      cases hold

/-- A file whose grammar is missing hides nothing else exactly when it does not stop a
    search, or others stop both before it shows. -/
theorem hides_nothing_iff (h : Added d d' root scope before f behind) (hmissing : grammarFor G f = none) :
    HidesNothing G d d' root name langFilter scope before behind f ↔
      ¬ Stops G d' root name langFilter f ∨
        (∃ g ∈ before ++ behind, Stops G d root name langFilter g) ∧
          ((∃ g ∈ before, matchesIn G d root name langFilter g ≠ []) ∨
            FailsFirst G d root name langFilter (before ++ behind)) := by
  rw [or_and_left, ← byName_iff h, ← first_iff h hmissing]
  exact ⟨fun hn => ⟨hn.byName, hn.first⟩, fun hn => ⟨hn.1, hn.2⟩⟩

/-- A scan leaves the file out, and is as it was. -/
theorem scan_added (h : Added d d' root scope before f behind) (hmissing : grammarFor G (root.join f) = none) :
    scanProject (toolchain G) d' root scope = scanProject (toolchain G) d root scope := by
  have hskip : scanSingleFile (toolchain G) d' root f = none := by
    rw [grammarFor] at hmissing
    cases hl : languageForFile (root.join f) with
    | none => simp [scanSingleFile, hl]
    | some language =>
      rw [hl] at hmissing
      simp [scanSingleFile, toolchain, hl, hmissing]
  have hothers : ∀ {files : List Path}, (∀ g ∈ files, d'.readToString (root.join g) = d.readToString (root.join g)) →
      files.filterMap (scanSingleFile (toolchain G) d' root) = files.filterMap (scanSingleFile (toolchain G) d root) :=
    fun hfiles => List.filterMap_congr fun g hg => by rw [scanSingleFile, scanSingleFile, hfiles g hg]
  obtain ⟨hbefore, hbehind⟩ := List.forall_mem_append.mp h.others
  rw [scanProject, scanProject, h.old, h.new, Except.map, Except.map, List.filterMap_append, List.filterMap_append,
    List.filterMap_cons_none hskip, hothers hbefore, hothers hbehind]

end Added

/-! ## A file without a grammar -/

/-- The Rust package is installed, and no other. -/
def rustGrammars : Grammars where
  load name :=
    if name = "rust" then
      .ok fun _ => some ⟨"source_file", none, 0, 13, ⟨0, 0⟩, ⟨0, 13⟩, true, false, false,
        [⟨"function_item", none, 0, 13, ⟨0, 0⟩, ⟨0, 13⟩, true, false, false,
          [.leaf "visibility_modifier" none 0 0 0 3 true, .leaf "identifier" (some "name") 0 7 7 1 true,
            .leaf "parameters" (some "parameters") 0 8 8 2 true, .leaf "block" (some "body") 0 11 11 2 true]⟩]⟩
    else .error "no grammar"
  extractSymbols _ _ file _ := [⟨str "f", .function, file, 1, 0, 1, .public_, [], none, none, some (str "pub fn f()")⟩]
  extractRuntime _ _ _ _ := []

def rustFile : Path := [.normal "a.rs"]

def tomlFile : Path := [.normal "b.toml"]

def rustProject : Disk := plainDisk [(projectRoot ++ rustFile, ⟨str "pub fn f() {}", 1000000000⟩)]

def tomlProject : Disk := plainDisk
  [(projectRoot ++ rustFile, ⟨str "pub fn f() {}", 1000000000⟩), (projectRoot ++ tomlFile, ⟨str "f = 1", 1000000000⟩)]

theorem tomlFile_added : Added rustProject tomlProject projectRoot none [rustFile] tomlFile [] where
  old := rfl
  new := rfl
  others := by decide

theorem hides_nothing_iff_toml :
    HidesNothing rustGrammars rustProject tomlProject projectRoot (str "f") none none [rustFile] [] tomlFile ↔
      ¬ Stops rustGrammars tomlProject projectRoot (str "f") none tomlFile ∨
        (∃ g ∈ [rustFile] ++ [], Stops rustGrammars rustProject projectRoot (str "f") none g) ∧
          ((∃ g ∈ [rustFile], matchesIn rustGrammars rustProject projectRoot (str "f") none g ≠ []) ∨
            FailsFirst rustGrammars rustProject projectRoot (str "f") none ([rustFile] ++ [])) :=
  hides_nothing_iff tomlFile_added rfl

/-- `f` is found in `a.rs`; with a TOML file that mentions it, and no grammar for TOML, it
    is not. -/
theorem a_toml_file_hides_a_match :
    Added rustProject tomlProject projectRoot none [rustFile] tomlFile [] ∧ grammarFor rustGrammars tomlFile = none ∧
      ¬ HidesNothing rustGrammars rustProject tomlProject projectRoot (str "f") none none [rustFile] [] tomlFile := by
  refine ⟨tomlFile_added, rfl, fun hhides => ?_⟩
  have hold : findSymbolsByName rustGrammars rustProject projectRoot (str "f") none none =
      .ok [⟨str "f", .function, rustFile, 1, 0, 1, .public_, [], none, none, some (str "pub fn f()")⟩] := by rfl
  have hnew : findSymbolsByName rustGrammars tomlProject projectRoot (str "f") none none = .error (.parser "no grammar") := by
    rfl
  obtain ⟨found', hfound', -⟩ := hhides.byName _ hold
  rw [hnew] at hfound'
  cases hfound'

end CodeQuery.Cli
