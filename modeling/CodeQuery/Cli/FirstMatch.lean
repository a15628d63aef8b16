/-
  CodeQuery.Cli.FirstMatch — the first match is the head of all matches
  (`codequery-cli/src/commands/common.rs`, `find_first_symbol_with_source` and
  `search_files_for_symbol`).

  Two loops written apart go through the files, each with a parser kept for the last
  built-in and one for the last runtime language. `first_match_agrees`: where the full
  search succeeds, the other gives the first of its matches with the source of the file
  it was found in, or nothing when there is none; and at every file that either loop
  comes to, the parser at hand is that of the file's own language.
-/

import CodeQuery.Cli.FindSymbols

namespace CodeQuery.Cli

open CodeQuery.Core CodeQuery.Parse CodeQuery.Text CodeQuery.Index CodeQuery.Data

section Loops

variable {G : Grammars} {d : Disk} {root : Path} {name : Str} {langFilter : Option Language}

/-! ## The parser of a file -/

variable (G) in
/-- The parser that a loop with these parsers takes for a file of a known language. -/
def parserFor (ps : Parsers) (f : Path) : Option (Except String Grammar) :=
  match languageForFile f with
  | some language => some (getOrCreateParser G ps.current language)
  | none => (languageNameForFile f).map (getOrCreateRuntimeParser G ps.runtime)

variable (G) in
/-- A new parser of the file's own language. -/
def ownParser (f : Path) : Option (Except String Grammar) :=
  match languageForFile f with
  | some language => some (G.forLanguage language)
  | none => (languageNameForFile f).map G.forName

variable (G d root name langFilter) in
/-- `find_first_symbol_with_source` has gone through the files without returning, and
    keeps these parsers. -/
inductive Passed : List Path → Parsers → Prop
  | start : Passed [] ⟨none, none⟩
  | next {before : List Path} {ps ps' : Parsers} {f : Path} {r : Option (List Symbol × Str)} : Passed before ps →
      symbolsWithSource G d root name langFilter ps f = .ok (ps', r) → (∀ p ∈ r, firstMatch name p.1 = none) →
      Passed (before ++ [f]) ps'

theorem parserFor_eq {ps : Parsers} (hk : Kept G ⟨[], ps.current, ps.runtime⟩) (f : Path) :
    parserFor G ps f = ownParser G f := by
  unfold parserFor ownParser
  cases languageForFile f with
  | some language => exact congrArg some (getOrCreate_eq hk.current language)
  | none =>
    cases languageNameForFile f with
    | none => rfl
    | some langName => exact congrArg some (getOrCreate_eq hk.runtime langName)

theorem searchFiles_kept {files : List Path} : ∀ {st st' : Search}, Kept G st →
    files.foldlM (searchFile G d root name langFilter) st = .ok st' → Kept G st' := by
  induction files with
  | nil =>
    intro st st' hk h
    cases h
    exact hk
  | cons f files ih =>
    intro st st' hk h
    rw [List.foldlM_cons] at h
    cases hf : searchFile G d root name langFilter st f with
    | error e =>
      rw [hf] at h
      cases h
    | ok mid =>
      rw [hf] at h
      exact ih (searchFile_turn hk hf).kept h

theorem passed_kept {before : List Path} {ps : Parsers} (h : Passed G d root name langFilter before ps) :
    Kept G ⟨[], ps.current, ps.runtime⟩ := by
  induction h with
  | start => exact ⟨by simp, by simp⟩
  | @next before ps ps' f r _ hstep _ ih =>
    have hagrees := @symbolsWithSource_agrees G d root name langFilter ps ih f
    rw [hstep] at hagrees
    generalize symbolsIn G d root name langFilter f = file at hagrees
    cases hagrees with
    | step _ hkept => exact hkept

/-- What is left to do behind files that were passed. -/
theorem findFirst_passed {before : List Path} {ps : Parsers} (h : Passed G d root name langFilter before ps)
    (behind : List Path) : findFirstSymbolWithSource G d root name langFilter (before ++ behind) =
      findFirst G d root name langFilter ps behind := by
  induction h generalizing behind with
  | start => rfl
  | @next before ps ps' f r _ hstep hnone ih =>
    rw [List.append_assoc, ih, List.singleton_append, findFirst, hstep]
    cases r with
    | none => rfl
    | some p =>
      dsimp only
      rw [hnone p rfl]

/-! ## The match of a file -/

theorem builtinIn_some {f : Path} {language : Language} {symbols : List Symbol} {source : Str}
    (h : builtinIn G d root name langFilter f language = .ok (some (symbols, source))) :
    ∃ parser tree, d.readToString (root.join f) = some source ∧ G.forLanguage language = .ok parser ∧
      parser source = some tree ∧ symbols = G.extractSymbols source tree f language := by
  unfold builtinIn at h
  split at h
  · cases h
  · cases hm : mentioning d root name f with
    | none =>
      rw [hm] at h
      cases h
    | some text =>
      rw [hm] at h
      cases hparser : G.forLanguage language with
      | error e =>
        rw [hparser] at h
        cases h
      | ok parser =>
        rw [hparser] at h
        obtain ⟨tree, htree, he⟩ := Option.map_eq_some_iff.mp (Except.ok.inj h)
        cases he
        exact ⟨parser, tree, (mentioning_some hm).1, rfl, htree, rfl⟩

theorem runtimeIn_some {f : Path} {langName : String} {symbols : List Symbol} {source : Str}
    (h : runtimeIn G d root name langFilter f langName = some (symbols, source)) :
    ∃ parser tree, d.readToString (root.join f) = some source ∧ G.forName langName = .ok parser ∧
      parser source = some tree ∧ symbols = G.extractSymbolsByName source tree f langName := by
  unfold runtimeIn at h
  split at h
  · cases h
  · cases hm : mentioning d root name f with
    | none =>
      rw [hm] at h
      cases h
    | some text =>
      rw [hm] at h
      cases hparser : G.forName langName with
      | error e =>
        rw [hparser] at h
        cases h
      | ok parser =>
        rw [hparser] at h
        obtain ⟨tree, htree, he⟩ := Option.map_eq_some_iff.mp h
        cases he
        exact ⟨parser, tree, (mentioning_some hm).1, rfl, htree, rfl⟩

/-- What a file gives was read from it, and parsed as its own language. -/
theorem symbolsIn_some {f : Path} {symbols : List Symbol} {source : Str}
    (h : symbolsIn G d root name langFilter f = .ok (some (symbols, source))) :
    d.readToString (root.join f) = some source ∧
      ∀ s ∈ collectMatchingSymbols symbols name, FoundIn G d root name s f := by
  unfold symbolsIn at h
  cases hl : languageForFile f with
  | some language =>
    rw [hl] at h
    obtain ⟨parser, tree, hread, hparser, htree, rfl⟩ := builtinIn_some h
    exact ⟨hread, fun s hs => .builtin language parser source tree hl hparser hread htree hs⟩
  | none =>
    rw [hl] at h
    obtain ⟨langName, hn, hruntime⟩ := Option.bind_eq_some_iff.mp (Except.ok.inj h)
    obtain ⟨parser, tree, hread, hparser, htree, rfl⟩ := runtimeIn_some hruntime
    exact ⟨hread, fun s hs => .runtime langName parser source tree hl hn hparser hread htree hs⟩

/-- A file with a match ends the loop with its first. -/
theorem resultIn_match {f : Path} {s : Symbol} {rest : List Symbol}
    (h : matchesIn G d root name langFilter f = s :: rest) : ∃ source, d.readToString (root.join f) = some source ∧
      FoundIn G d root name s f ∧ resultIn G d root name langFilter f = some (.ok (some s, some source)) := by
  unfold matchesIn at h
  unfold resultIn
  cases hfile : symbolsIn G d root name langFilter f with
  | error e =>
    rw [hfile] at h
    cases h
  | ok r =>
    rw [hfile] at h
    cases r with
    | none => cases h
    | some p =>
      obtain ⟨hread, hfound⟩ := symbolsIn_some hfile
      dsimp only at h ⊢
      refine ⟨p.2, hread, hfound s (by rw [h]; exact List.mem_cons_self), ?_⟩
      rw [firstMatch_eq, h]
      rfl

/-- Among files that do not stop it, the loop ends at the first that has a match. -/
theorem findSome_resultIn {files : List Path} (hgo : ∀ f ∈ files, ¬ Stops G d root name langFilter f) :
    match files.flatMap (matchesIn G d root name langFilter) with
    | [] => files.findSome? (resultIn G d root name langFilter) = none
    | s :: _ => ∃ f ∈ files, ∃ source, d.readToString (root.join f) = some source ∧ FoundIn G d root name s f ∧
        files.findSome? (resultIn G d root name langFilter) = some (.ok (some s, some source)) := by
  induction files with
  | nil => rfl
  | cons f files ih =>
    obtain ⟨hf, hrest⟩ := List.forall_mem_cons.mp hgo
    have ih := ih hrest
    rw [List.flatMap_cons, List.findSome?_cons]
    cases hmatch : matchesIn G d root name langFilter f with
    | nil =>
      rw [resultIn_none_iff.mpr ⟨hf, hmatch⟩, List.nil_append]
      cases hall : files.flatMap (matchesIn G d root name langFilter) with
      | nil =>
        rw [hall] at ih
        exact ih
      | cons s rest =>
        rw [hall] at ih
        obtain ⟨g, hg, source, hread, hfound, hresult⟩ := ih
        exact ⟨g, List.mem_cons_of_mem _ hg, source, hread, hfound, hresult⟩
    | cons s rest =>
      obtain ⟨source, hread, hfound, hresult⟩ := resultIn_match hmatch
      rw [hresult]
      exact ⟨f, List.mem_cons_self, source, hread, hfound, rfl⟩

theorem stops_none_of_ok {files : List Path} {found : List Symbol}
    (h : searchFilesForSymbol G d root name langFilter files = .ok found) :
    (∀ f ∈ files, ¬ Stops G d root name langFilter f) ∧ found = files.flatMap (matchesIn G d root name langFilter) := by
  have hgo : ∀ f ∈ files, ¬ Stops G d root name langFilter f := by
    intro f hf hstops
    obtain ⟨e, he⟩ := searchFilesForSymbol_error ⟨f, hf, hstops⟩
    rw [he] at h
    cases h
  rw [searchFilesForSymbol_ok hgo] at h
  exact ⟨hgo, (Except.ok.inj h).symm⟩

/-! ## The two searches -/

variable (G d root name langFilter) in
/-- Whatever files either loop has gone through, the parser it takes for the next is that
    of the file's own language. -/
structure OwnParsers (files : List Path) : Prop where
  all : ∀ before f behind st, files = before ++ f :: behind →
    before.foldlM (searchFile G d root name langFilter) ⟨[], none, none⟩ = .ok st →
    parserFor G ⟨st.currentParser, st.runtimeParser⟩ f = ownParser G f
  first : ∀ before f behind ps, files = before ++ f :: behind → Passed G d root name langFilter before ps →
    findFirstSymbolWithSource G d root name langFilter files = findFirst G d root name langFilter ps (f :: behind) ∧
      parserFor G ps f = ownParser G f

theorem ownParsers (files : List Path) : OwnParsers G d root name langFilter files where
  all before f behind st _ h := parserFor_eq
    ⟨(searchFiles_kept ⟨by simp, by simp⟩ h).current, (searchFiles_kept ⟨by simp, by simp⟩ h).runtime⟩ f
  first before f behind ps hfiles h := by
    rw [hfiles]
    exact ⟨findFirst_passed h (f :: behind), parserFor_eq (passed_kept h) f⟩

/-- Where the full search succeeds, the first-match search finds its first match, with the
    source of the file it is in, and nothing exactly when there is none. -/
theorem first_match_agrees (files : List Path) (found : List Symbol)
    (h : searchFilesForSymbol G d root name langFilter files = .ok found) :
    (findFirstSymbolWithSource G d root name langFilter files = .ok (none, none) ↔ found = []) ∧
      (∀ s, found.head? = some s → ∃ f ∈ files, ∃ source, d.readToString (root.join f) = some source ∧
        FoundIn G d root name s f ∧
        findFirstSymbolWithSource G d root name langFilter files = .ok (some s, some source)) ∧
      OwnParsers G d root name langFilter files := by
  obtain ⟨hgo, rfl⟩ := stops_none_of_ok h
  have hfirst := findSome_resultIn hgo
  rw [findFirstSymbolWithSource_eq]
  cases hall : files.flatMap (matchesIn G d root name langFilter) with
  | nil =>
    rw [hall] at hfirst
    rw [hfirst]
    exact ⟨by simp, by simp, ownParsers files⟩
  | cons s rest =>
    rw [hall] at hfirst
    obtain ⟨f, hf, source, hread, hfound, hresult⟩ := hfirst
    rw [hresult]
    refine ⟨by simp, ?_, ownParsers files⟩
    intro s' hs
    cases hs
    exact ⟨f, hf, source, hread, hfound, rfl⟩

end Loops

/-! ## A project of two languages -/

/-- Elixir's package is installed too, and its rules find nothing. -/
def mixedGrammars : Grammars where
  load name := if name = "elixir" then .ok fun _ => some (.leaf "source" none 0 0 0 5 true) else rustGrammars.load name
  extractSymbols := rustGrammars.extractSymbols
  extractRuntime := rustGrammars.extractRuntime

def exFile : Path := [.normal "c.ex"]

def mixedProject : Disk := plainDisk
  [(projectRoot ++ exFile, ⟨str "def f", 1000000000⟩), (projectRoot ++ rustFile, ⟨str "pub fn f() {}", 1000000000⟩)]

def rustSymbol : Symbol := ⟨str "f", .function, rustFile, 1, 0, 1, .public_, [], none, none, some (str "pub fn f()")⟩

theorem first_match_agrees_mixed :
    (findFirstSymbolWithSource mixedGrammars mixedProject projectRoot (str "f") none [exFile, rustFile, exFile, rustFile] =
        .ok (none, none) ↔ [rustSymbol, rustSymbol] = []) ∧
      (∀ s, [rustSymbol, rustSymbol].head? = some s → ∃ f ∈ [exFile, rustFile, exFile, rustFile],
        ∃ source, mixedProject.readToString (projectRoot.join f) = some source ∧
          FoundIn mixedGrammars mixedProject projectRoot (str "f") s f ∧
          findFirstSymbolWithSource mixedGrammars mixedProject projectRoot (str "f") none
            [exFile, rustFile, exFile, rustFile] = .ok (some s, some source)) ∧
      OwnParsers mixedGrammars mixedProject projectRoot (str "f") none [exFile, rustFile, exFile, rustFile] :=
  first_match_agrees [exFile, rustFile, exFile, rustFile] [rustSymbol, rustSymbol] rfl

end CodeQuery.Cli
