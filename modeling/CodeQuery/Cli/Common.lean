/-
  CodeQuery.Cli.Common — the search of the narrow commands
  (`codequery-cli/src/commands/common.rs`).

  The search goes through the discovered files one by one, with a parser kept for the
  last language: the built-in language of a file, or else the grammar of its registry
  name. The scan knows the built-in languages alone, so it covers what the search sees
  exactly when no file is parsed by its registry name (`scan_covers_iff`);
  `an_elixir_file_is_not_scanned` is one that is.
-/

import CodeQuery.Index.ScannerProofs
import CodeQuery.Index.SymbolIndex
import CodeQuery.Parse.Parser

namespace CodeQuery.Cli

open CodeQuery.Core CodeQuery.Parse CodeQuery.Text CodeQuery.Index

/-! ## The search -/

/-- The symbols of that name but impl blocks, and the children of that name. -/
def collectMatchingSymbols (symbols : List Symbol) (query : Str) : List Symbol :=
  symbols.flatMap fun s =>
    (if s.kind ≠ .impl ∧ s.name = query then [s] else []) ++ s.children.filter (·.name = query)

/-- The current parser when it is the key's, else a new one; the caller keeps it. -/
def getOrCreate {κ : Type} [DecidableEq κ] (create : κ → Except String Grammar) (current : Option (κ × Grammar))
    (key : κ) : Except String Grammar :=
  match current with
  | some (k, g) => if k = key then .ok g else create key
  | none => create key

structure Search where
  found : List Symbol
  currentParser : Option (Language × Grammar)
  runtimeParser : Option (String × Grammar)

section Search

variable (G : Grammars) (d : Disk) (root : Path) (name : Str) (langFilter : Option Language)

def getOrCreateParser (current : Option (Language × Grammar)) (language : Language) : Except String Grammar :=
  getOrCreate G.forLanguage current language

def getOrCreateRuntimeParser (current : Option (String × Grammar)) (langName : String) : Except String Grammar :=
  getOrCreate G.forName current langName

def searchBuiltin (st : Search) (relative : Path) (language : Language) : Except String Search :=
  if langFilter.any (language != ·) then .ok st
  else
    match d.readToString (root.join relative) with
    | none => .ok st
    | some source =>
      if (find name source).isNone then .ok st
      else
        match getOrCreateParser G st.currentParser language with
        | .error e => .error e
        | .ok parser =>
          let matched := match parser source with
            | none => []
            | some tree => collectMatchingSymbols (G.extractSymbols source tree relative language) name
          .ok { st with found := st.found ++ matched, currentParser := some (language, parser) }

/-- Unlike the built-in languages', a grammar that does not load is no error. -/
def searchRuntime (st : Search) (relative : Path) (langName : String) : Search :=
  if langFilter.isSome then st
  else
    match d.readToString (root.join relative) with
    | none => st
    | some source =>
      if (find name source).isNone then st
      else
        match getOrCreateRuntimeParser G st.runtimeParser langName with
        | .error _ => st
        | .ok parser =>
          let matched := match parser source with
            | none => []
            | some tree => collectMatchingSymbols (G.extractSymbolsByName source tree relative langName) name
          { st with found := st.found ++ matched, runtimeParser := some (langName, parser) }

/-- One turn of the loop. -/
def searchFile (st : Search) (relative : Path) : Except String Search :=
  match languageForFile relative with
  | some language => searchBuiltin G d root name langFilter st relative language
  | none =>
    match languageNameForFile relative with
    | none => .ok st
    | some langName => .ok (searchRuntime G d root name langFilter st relative langName)

def searchFilesForSymbol (files : List Path) : Except String (List Symbol) :=
  (files.foldlM (searchFile G d root name langFilter) ⟨[], none, none⟩).map (·.found)

end Search

/-- What a scan calls of the grammars. -/
def toolchain (G : Grammars) : Toolchain :=
  ⟨fun language source => (G.forLanguage language).toOption.bind (· source), G.extractSymbols⟩

/-! ## Where a found symbol comes from -/

section Found

variable {G : Grammars} {d : Disk} {root : Path} {name : Str} {langFilter : Option Language}

variable (G d root name) in
/-- The symbol matches in the file, parsed as its built-in or its registry language. -/
inductive FoundIn (s : Symbol) (f : Path) : Prop where
  | builtin (language : Language) (parser : Grammar) (source : Str) (tree : Node) (_ : languageForFile f = some language)
      (_ : G.forLanguage language = .ok parser) (_ : d.readToString (root.join f) = some source)
      (_ : parser source = some tree)
      (_ : s ∈ collectMatchingSymbols (G.extractSymbols source tree f language) name)
  | runtime (langName : String) (parser : Grammar) (source : Str) (tree : Node) (_ : languageForFile f = none)
      (_ : languageNameForFile f = some langName) (_ : G.forName langName = .ok parser)
      (_ : d.readToString (root.join f) = some source) (_ : parser source = some tree)
      (_ : s ∈ collectMatchingSymbols (G.extractSymbolsByName source tree f langName) name)

variable (G) in
/-- A kept parser is what making a new one would give. -/
structure Kept (st : Search) : Prop where
  current : ∀ language parser, st.currentParser = some (language, parser) → G.forLanguage language = .ok parser
  runtime : ∀ langName parser, st.runtimeParser = some (langName, parser) → G.forName langName = .ok parser

theorem getOrCreate_eq {κ : Type} [DecidableEq κ] {create : κ → Except String Grammar} {current : Option (κ × Grammar)}
    (h : ∀ k g, current = some (k, g) → create k = .ok g) (key : κ) : getOrCreate create current key = create key := by
  unfold getOrCreate
  split
  · rename_i k g
    split
    · rename_i he
      rw [← he, h k g rfl]
    · rfl
  · rfl

variable (G d root name) in
/-- What one turn does: parsers stay right, and what is new was found in its file. -/
structure Turn (st st' : Search) (f : Path) : Prop where
  kept : Kept G st'
  found : ∀ s ∈ st'.found, s ∈ st.found ∨ FoundIn G d root name s f

theorem Turn.skip {st : Search} {f : Path} (h : Kept G st) : Turn G d root name st st f := ⟨h, fun _ => .inl⟩

theorem searchBuiltin_turn {st st' : Search} {f : Path} {language : Language} (hk : Kept G st)
    (hl : languageForFile f = some language)
    (h : searchBuiltin G d root name langFilter st f language = .ok st') : Turn G d root name st st' f := by
  unfold searchBuiltin at h
  split at h
  · cases h; exact .skip hk
  · split at h
    · cases h; exact .skip hk
    · rename_i source hsource
      split at h
      · cases h; exact .skip hk
      · rw [getOrCreateParser, getOrCreate_eq hk.current] at h
        split at h
        · cases h
        · rename_i parser hparser
          cases h
          refine ⟨⟨?_, hk.runtime⟩, ?_⟩
          · intro l g he
            cases he
            exact hparser
          · intro s hs
            rcases List.mem_append.mp hs with hs | hs
            · exact .inl hs
            · split at hs
              · cases hs
              · rename_i tree htree
                exact .inr (.builtin language parser source tree hl hparser hsource htree hs)

theorem searchRuntime_turn {st : Search} {f : Path} {langName : String} (hk : Kept G st)
    (hl : languageForFile f = none) (hn : languageNameForFile f = some langName) :
    Turn G d root name st (searchRuntime G d root name langFilter st f langName) f := by
  unfold searchRuntime
  split
  · exact .skip hk
  · split
    · exact .skip hk
    · rename_i source hsource
      split
      · exact .skip hk
      · rw [getOrCreateRuntimeParser, getOrCreate_eq hk.runtime]
        split
        · exact .skip hk
        · rename_i parser hparser
          refine ⟨⟨hk.current, ?_⟩, ?_⟩
          · intro l g he
            cases he
            exact hparser
          · intro s hs
            rcases List.mem_append.mp hs with hs | hs
            · exact .inl hs
            · split at hs
              · cases hs
              · rename_i tree htree
                exact .inr (.runtime langName parser source tree hl hn hparser hsource htree hs)

theorem searchFile_turn {st st' : Search} {f : Path} (hk : Kept G st)
    (h : searchFile G d root name langFilter st f = .ok st') : Turn G d root name st st' f := by
  unfold searchFile at h
  split at h
  · rename_i language hl
    exact searchBuiltin_turn hk hl h
  · rename_i hl
    split at h
    · cases h; exact .skip hk
    · rename_i langName hn
      cases h
      exact searchRuntime_turn hk hl hn

theorem searchFiles_found {files : List Path} : ∀ {st st' : Search}, Kept G st →
    files.foldlM (searchFile G d root name langFilter) st = .ok st' →
    ∀ s ∈ st'.found, s ∈ st.found ∨ ∃ f ∈ files, FoundIn G d root name s f := by
  induction files with
  | nil =>
    intro st st' _ h s hs
    cases h
    exact .inl hs
  | cons f files ih =>
    intro st st' hk h s hs
    rw [List.foldlM_cons] at h
    cases hf : searchFile G d root name langFilter st f with
    | error e => rw [hf] at h; cases h
    | ok mid =>
      rw [hf] at h
      have hturn := searchFile_turn hk hf
      rcases ih hturn.kept h s hs with hs | ⟨f', hf', hs⟩
      · rcases hturn.found s hs with hs | hs
        · exact .inl hs
        · exact .inr ⟨f, List.mem_cons_self .., hs⟩
      · exact .inr ⟨f', List.mem_cons_of_mem _ hf', hs⟩

theorem searchFilesForSymbol_found {files : List Path} {found : List Symbol}
    (h : searchFilesForSymbol G d root name langFilter files = .ok found) :
    ∀ s ∈ found, ∃ f ∈ files, FoundIn G d root name s f := by
  intro s hs
  unfold searchFilesForSymbol at h
  cases hfold : files.foldlM (searchFile G d root name langFilter) ⟨[], none, none⟩ with
  | error e => rw [hfold] at h; cases h
  | ok st =>
    rw [hfold] at h
    cases h
    have hkept : Kept G ⟨[], none, none⟩ := ⟨by simp, by simp⟩
    rcases searchFiles_found hkept hfold s hs with hs | hs
    · cases hs
    · exact hs

end Found

/-! ## What the scan covers -/

theorem collectMatchingSymbols_subset {symbols : List Symbol} {query : Str} :
    ∀ s ∈ collectMatchingSymbols symbols query, s ∈ SymbolIndex.flattenAll symbols := by
  intro s h
  obtain ⟨t, ht, hs⟩ := List.mem_flatMap.mp h
  rcases List.mem_append.mp hs with hs | hs
  · split at hs
    · rw [List.mem_singleton.mp hs]
      exact SymbolIndex.mem_flattenAll ht
    · cases hs
  · exact SymbolIndex.child_mem_flattenAll ht (List.mem_filter.mp hs).1

section Covers

variable (G : Grammars) (d : Disk) (root : Path)

/-- The grammar of a file's language: a built-in one, or else the registry's. -/
def grammarFor (p : Path) : Option Grammar :=
  match languageForFile p with
  | some language => (G.forLanguage language).toOption
  | none => (languageNameForFile p).bind fun name => (G.forName name).toOption

/-- The file's text is readable, and the grammar of its language is there and parses it. -/
def Parses (f : Path) : Prop :=
  ∃ parser source, grammarFor G (root.join f) = some parser ∧ d.readToString (root.join f) = some source ∧
    (parser source).isSome = true

variable {G d root}

theorem languageNameForFile_join {f : Path} (h : (languageNameForFile f).isSome = true) :
    languageForFile (root.join f) = languageForFile f ∧ languageNameForFile (root.join f) = languageNameForFile f := by
  have hext : f.extension.isSome = true := Option.isSome_of_isSome_bind h
  simp only [languageForFile, languageNameForFile, Path.extension_join root hext, and_self]

theorem languageForFile_join {f : Path} {language : Language} (h : languageForFile f = some language) :
    languageForFile (root.join f) = some language := by
  have hext : f.extension.isSome = true := Option.isSome_of_isSome_bind (by rw [← languageForFile, h]; rfl)
  rw [← h, languageForFile, languageForFile, Path.extension_join root hext]

theorem scanSingleFile_builtin {f : Path} {language : Language} {parser : Grammar} {source : Str} {tree : Node}
    (hl : languageForFile (root.join f) = some language) (hparser : G.forLanguage language = .ok parser)
    (hsource : d.readToString (root.join f) = some source) (htree : parser source = some tree) :
    scanSingleFile (toolchain G) d root f = some ⟨f, G.extractSymbols source tree f language, source, tree⟩ := by
  simp only [scanSingleFile, toolchain, hl, hsource, hparser, Except.toOption, htree, Option.bind_eq_bind,
    Option.bind_some]

/-- A file that parses is scanned if and only if its language is a built-in one. -/
theorem scanSingleFile_isSome_iff {f : Path} (h : Parses G d root f) :
    (scanSingleFile (toolchain G) d root f).isSome = true ↔ (languageForFile (root.join f)).isSome = true := by
  obtain ⟨parser, source, hg, hsource, htree⟩ := h
  cases hl : languageForFile (root.join f) with
  | none => simp [scanSingleFile, hl]
  | some language =>
    obtain ⟨tree, htree⟩ := Option.isSome_iff_exists.mp htree
    have hparser : G.forLanguage language = .ok parser := by
      simp only [grammarFor, hl] at hg
      cases hf : G.forLanguage language with
      | error e => rw [hf] at hg; cases hg
      | ok g => rw [hf] at hg; cases hg; rfl
    rw [scanSingleFile_builtin hl hparser hsource htree]
    rfl

variable {scope : Option Path} {files : List Path} {scan : List FileSymbols}

theorem mem_scan_iff {T : Toolchain} (hd : discoverFiles d root scope = .ok files)
    (hs : scanProject T d root scope = .ok scan) {fs : FileSymbols} :
    fs ∈ scan ↔ ∃ f ∈ files, scanSingleFile T d root f = some fs := by
  simp only [scanProject, hd, Except.map, Except.ok.injEq] at hs
  rw [← hs, mem_sortByFile, List.mem_filterMap]

/-- What is found in a scanned file is in the index. -/
theorem mem_fromScan {s : Symbol} {fs : FileSymbols} (hfs : fs ∈ scan) (h : s ∈ SymbolIndex.flattenAll fs.symbols) :
    s ∈ (SymbolIndex.fromScan scan).symbols := by
  rw [SymbolIndex.fromScan_symbols]
  exact List.mem_flatMap.mpr ⟨fs, hfs, h⟩

theorem FoundIn.parses {name : Str} {s : Symbol} {f : Path} (h : FoundIn G d root name s f) : Parses G d root f := by
  cases h with
  | builtin language parser source tree hl hparser hsource htree hs =>
    refine ⟨parser, source, ?_, hsource, by rw [htree]; rfl⟩
    simp only [grammarFor, languageForFile_join hl, hparser, Except.toOption]
  | runtime langName parser source tree hl hn hparser hsource htree hs =>
    have hjoin := @languageNameForFile_join root f (by rw [hn]; rfl)
    refine ⟨parser, source, ?_, hsource, by rw [htree]; rfl⟩
    simp only [grammarFor, hjoin, hl, hn, hparser, Option.bind_some, Except.toOption]

/-- The scan has an entry for each file that parses, and so every symbol the search
    finds, if and only if each of them is of a built-in language. -/
theorem scan_covers_iff (hd : discoverFiles d root scope = .ok files)
    (hs : scanProject (toolchain G) d root scope = .ok scan) :
    ((∀ f ∈ files, Parses G d root f → ∃ fs ∈ scan, fs.file = f) ∧
      ∀ name langFilter found, searchFilesForSymbol G d root name langFilter files = .ok found →
        ∀ s ∈ found, s ∈ (SymbolIndex.fromScan scan).symbols) ↔
    ∀ f ∈ files, Parses G d root f → (languageForFile (root.join f)).isSome = true := by
  refine ⟨fun h f hf hparses => ?_, fun h => ?_⟩
  · obtain ⟨fs, hfs, he⟩ := h.1 f hf hparses
    have hscan := mem_scanProject hs hfs
    rw [he] at hscan
    rw [← scanSingleFile_isSome_iff hparses, hscan]
    rfl
  · refine ⟨?_, ?_⟩
    · intro f hf hparses
      obtain ⟨fs, hfs⟩ := Option.isSome_iff_exists.mp ((scanSingleFile_isSome_iff hparses).mpr (h f hf hparses))
      exact ⟨fs, (mem_scan_iff hd hs).mpr ⟨f, hf, hfs⟩, scanSingleFile_file hfs⟩
    · intro name langFilter found hfound s hmem
      obtain ⟨f, hf, hin⟩ := searchFilesForSymbol_found hfound s hmem
      have hbuiltin := h f hf hin.parses
      cases hin with
      | builtin language parser source tree hl hparser hsource htree hs' =>
        have hscan := scanSingleFile_builtin (languageForFile_join hl) hparser hsource htree
        exact mem_fromScan ((mem_scan_iff hd hs).mpr ⟨f, hf, hscan⟩) (collectMatchingSymbols_subset s hs')
      | runtime langName parser source tree hl hn hparser hsource htree hs' =>
        -- a file parsed by its registry name has no built-in language
        rw [(languageNameForFile_join (by rw [hn]; rfl)).1, hl] at hbuiltin
        cases hbuiltin

end Covers

/-! ## A file of a runtime language -/

/-- The Elixir package is installed. -/
def elixirGrammars : Grammars where
  load name := if name = "elixir" then .ok fun _ => some (.leaf "source" none 0 0 0 0 true) else .error "no grammar"
  extractSymbols _ _ _ _ := []
  extractRuntime _ _ file _ :=
    [⟨str "f", .function, file, 1, 0, 1, .public_, [], none, none, some (str "def f")⟩]

def elixirDisk : Disk := plainDisk [(projectRoot ++ [.normal "a.ex"], ⟨str "def f, do: 1", 1000000000⟩)]

def elixirFile : Path := [.normal "a.ex"]

def elixirSymbol : Symbol :=
  ⟨str "f", .function, elixirFile, 1, 0, 1, .public_, [], none, none, some (str "def f")⟩

theorem elixir_discovered : discoverFiles elixirDisk projectRoot none = .ok [elixirFile] := by rfl

theorem elixir_scanned : scanProject (toolchain elixirGrammars) elixirDisk projectRoot none = .ok [] := by rfl

/-- The search finds `f` in `a.ex`; the scan has no entry of the file, and the index no `f`. -/
theorem an_elixir_file_is_not_scanned :
    discoverFiles elixirDisk projectRoot none = .ok [elixirFile] ∧
      scanProject (toolchain elixirGrammars) elixirDisk projectRoot none = .ok [] ∧
      Parses elixirGrammars elixirDisk projectRoot elixirFile ∧
      (¬ ∃ fs ∈ ([] : List FileSymbols), fs.file = elixirFile) ∧
      searchFilesForSymbol elixirGrammars elixirDisk projectRoot (str "f") none [elixirFile] = .ok [elixirSymbol] ∧
      elixirSymbol ∉ (SymbolIndex.fromScan []).symbols := by
  refine ⟨elixir_discovered, elixir_scanned, ⟨_, _, rfl, rfl, rfl⟩, ?_, by rfl, ?_⟩
  · intro h
    obtain ⟨_, hfs, _⟩ := h
    cases hfs
  · intro h
    cases h

theorem scan_covers_iff_elixir :
    ((∀ f ∈ [elixirFile], Parses elixirGrammars elixirDisk projectRoot f → ∃ fs ∈ ([] : List FileSymbols), fs.file = f) ∧
      ∀ name langFilter found,
        searchFilesForSymbol elixirGrammars elixirDisk projectRoot name langFilter [elixirFile] = .ok found →
        ∀ s ∈ found, s ∈ (SymbolIndex.fromScan []).symbols) ↔
    ∀ f ∈ [elixirFile], Parses elixirGrammars elixirDisk projectRoot f →
      (languageForFile (projectRoot.join f)).isSome = true :=
  scan_covers_iff elixir_discovered elixir_scanned

end CodeQuery.Cli
