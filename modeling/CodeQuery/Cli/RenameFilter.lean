/-
  CodeQuery.Cli.RenameFilter — the language filter of a rename (see `CodeQuery.Cli.Rename`).

  The loop over the scanned files leaves out those of other languages; the loop over the
  definitions, which the index gives for the whole scan, does not ask. An edit is then
  either a reference's, in a file of the language, or a definition's, in any file
  (`mem_computedEdits`). `planned_confined_iff` says which definitions that spares: those
  whose line does not hold the name. One name in two languages is
  `a_filtered_rename_edits_the_other_language`.
-/

import CodeQuery.Cli.RenameSafety
import CodeQuery.Index.Extracted
import CodeQuery.Text.Search

namespace CodeQuery.Cli

open CodeQuery.Core CodeQuery.Text CodeQuery.Index CodeQuery.Parse

section Filter

variable (scan : List FileSymbols) (root : Path) (langFilter : Option Language) (oldName newName : String)

/-- Under a filter, the file is of its language. -/
def OfFilter (file : Path) : Prop := ∀ language ∈ langFilter, entryLanguage root file = some language

/-- Every edit lies in a file of the language the filter names. -/
def Confined (edits : List TextEdit) : Prop := ∀ e ∈ edits, OfFilter root langFilter e.file

/-- No line that a definition of the name starts on, in a file of another language, holds
    the name. The blocks of an `impl` are no definitions to rename. -/
def NothingElsewhere : Prop :=
  ∀ d ∈ definitionsOf scan oldName, d.kind ≠ .impl → ¬ OfFilter root langFilter d.file →
    ∀ line, lineOf scan d.file d.line = some line → ∀ column, ¬ str oldName <+: line.drop column

variable {scan root langFilter oldName newName}

/-- The first loop is confined. -/
theorem scanReferences_ofFilter {r : Reference} (h : r ∈ scanReferences scan root langFilter) :
    OfFilter root langFilter r.file := by
  obtain ⟨entry, _, hr⟩ := List.mem_flatMap.mp h
  split at hr
  · cases hr
  · rename_i language hlanguage
    split at hr
    · cases hr
    · rename_i hkept
      obtain ⟨hfile, _, _⟩ := extractReferences_wf hr
      intro filter hfilter
      rw [Option.mem_def.mp hfilter, Option.any_some, bne_iff_ne, ne_eq, not_not] at hkept
      rw [hfile, hlanguage, hkept]

theorem referenceEdit_ofFilter {r : Reference} (hr : r ∈ scanReferences scan root langFilter) {e : TextEdit}
    (he : referenceEdit oldName newName r = some e) : OfFilter root langFilter e.file := by
  obtain ⟨_, rfl⟩ := referenceEdit_some.mp he
  exact scanReferences_ofFilter hr

/-- The second writes where a definition stands and its line holds the name. -/
theorem definitionEdit_file {d : Symbol} {e : TextEdit} (he : definitionEdit scan oldName newName d = some e) :
    d.kind ≠ .impl ∧ e.file = d.file ∧
      ∃ line, lineOf scan d.file d.line = some line ∧ ∃ column, str oldName <+: line.drop column := by
  obtain ⟨hkind, line, hline, column, hfind, rfl⟩ := definitionEdit_some.mp he
  exact ⟨hkind, rfl, line, hline, column, (find_eq_some_iff.mp hfind).2.1⟩

variable (newName) in
theorem definitionEdit_of_held {d : Symbol} (hkind : d.kind ≠ .impl) {line : Str}
    (hline : lineOf scan d.file d.line = some line) {column : Nat} (hheld : str oldName <+: line.drop column) :
    ∃ e, definitionEdit scan oldName newName d = some e ∧ e.file = d.file := by
  cases hfind : find (str oldName) line with
  | none => exact absurd hheld (find_eq_none_iff.mp hfind column)
  | some first => exact ⟨_, definitionEdit_some.mpr ⟨hkind, line, hline, first, hfind, rfl⟩, rfl⟩

variable (newName) in
theorem computed_confined_iff :
    Confined root langFilter (computedEdits scan root langFilter oldName newName (definitionsOf scan oldName)) ↔
      NothingElsewhere scan root langFilter oldName := by
  constructor
  · intro h d hd hkind hother line hline column hheld
    obtain ⟨e, he, hfile⟩ := definitionEdit_of_held newName hkind hline hheld
    exact hother (hfile ▸ h e (mem_computedEdits.mpr (.inr ⟨d, hd, he⟩)))
  · intro h e he
    rcases mem_computedEdits.mp he with ⟨r, hr, hre⟩ | ⟨d, hd, hde⟩
    · exact referenceEdit_ofFilter hr hre
    · obtain ⟨hkind, hfile, line, hline, column, hheld⟩ := definitionEdit_file hde
      by_contra hother
      exact h d hd hkind (hfile ▸ hother) line hline column hheld

end Filter

/-- For every scan, filter and name, all edits that are planned lie in files of the
    filter's language if and only if no definition elsewhere has the name on its line. -/
theorem planned_confined_iff (scan : List FileSymbols) (root : Path) (langFilter : Option Language)
    (oldName newName : String) :
    (∀ edits, planEdits scan root langFilter oldName newName = .ok edits → Confined root langFilter edits) ↔
      NothingElsewhere scan root langFilter oldName := by
  unfold planEdits
  split
  · rename_i hnone
    -- without a definition nothing is planned
    have hempty : definitionsOf scan oldName = [] := List.isEmpty_iff.mp hnone
    exact iff_of_true (fun edits he => by cases he) (fun d hd => by rw [hempty] at hd; cases hd)
  · rw [← computed_confined_iff newName]
    constructor
    · intro h
      exact h _ rfl
    · intro h edits he
      cases he
      exact h

/-! ## One name in two languages -/

def rustSource : Str := str "fn run() \x7b\x7d"

def rustTree : Node :=
  ⟨"source_file", none, 0, 11, ⟨0, 0⟩, ⟨0, 11⟩, true, false, false,
    [⟨"function_item", none, 0, 11, ⟨0, 0⟩, ⟨0, 11⟩, true, false, false,
      [.leaf "fn" none 0 0 0 2 false, .leaf "identifier" (some "name") 0 3 3 3 true,
        ⟨"parameters", some "parameters", 6, 8, ⟨0, 6⟩, ⟨0, 8⟩, true, false, false,
          [.leaf "(" none 0 6 6 1 false, .leaf ")" none 0 7 7 1 false]⟩,
        ⟨"block", some "body", 9, 11, ⟨0, 9⟩, ⟨0, 11⟩, true, false, false,
          [.leaf "\x7b" none 0 9 9 1 false, .leaf "\x7d" none 0 10 10 1 false]⟩]⟩]⟩

def pythonSource : Str := str "def run(): pass"

def pythonTree : Node :=
  ⟨"module", none, 0, 15, ⟨0, 0⟩, ⟨0, 15⟩, true, false, false,
    [⟨"function_definition", none, 0, 15, ⟨0, 0⟩, ⟨0, 15⟩, true, false, false,
      [.leaf "def" none 0 0 0 3 false, .leaf "identifier" (some "name") 0 4 4 3 true,
        ⟨"parameters", some "parameters", 7, 9, ⟨0, 7⟩, ⟨0, 9⟩, true, false, false,
          [.leaf "(" none 0 7 7 1 false, .leaf ")" none 0 8 8 1 false]⟩,
        .leaf ":" none 0 9 9 1 false,
        ⟨"block", some "body", 11, 15, ⟨0, 11⟩, ⟨0, 15⟩, true, false, false,
          [⟨"pass_statement", none, 11, 15, ⟨0, 11⟩, ⟨0, 15⟩, true, false, false,
            [.leaf "pass" none 0 11 11 4 false]⟩]⟩]⟩]⟩

def plainTexts : TextsOf := fun _ _ _ _ => ⟨.public_, none, none, none⟩

def twoLanguageTools : Toolchain :=
  tools (fun language _ => if language = .rust then some rustTree else some pythonTree) plainTexts

def twoLanguages : Disk :=
  plainDisk [(projectRoot ++ [.normal "a.rs"], ⟨rustSource, 1000000000⟩),
    (projectRoot ++ [.normal "b.py"], ⟨pythonSource, 1000000000⟩)]

def rustEntry : FileSymbols :=
  ⟨[.normal "a.rs"], extractSymbols plainTexts rustSource rustTree [.normal "a.rs"] .rust, rustSource, rustTree⟩

def pythonEntry : FileSymbols :=
  ⟨[.normal "b.py"], extractSymbols plainTexts pythonSource pythonTree [.normal "b.py"] .python, pythonSource, pythonTree⟩

theorem twoLanguages_scanned :
    (scanProjectCached twoLanguageTools twoLanguages projectRoot none false .kept none).1 =
      .ok [rustEntry, pythonEntry] := by
  rfl

def bothRenamed : List TextEdit := [⟨[.normal "a.rs"], 1, 3, 1, 6, "go"⟩, ⟨[.normal "b.py"], 1, 4, 1, 7, "go"⟩]

/-- A rename of `run` to `go` in the Rust files alone also edits the Python function. -/
theorem a_filtered_rename_edits_the_other_language :
    (scanProjectCached twoLanguageTools twoLanguages projectRoot none false .kept none).1 =
        .ok [rustEntry, pythonEntry] ∧
      planEdits [rustEntry, pythonEntry] projectRoot (some .rust) "run" "go" = .ok bothRenamed ∧
      entryLanguage projectRoot [.normal "b.py"] = some .python ∧
      ¬ Confined projectRoot (some .rust) bothRenamed := by
  refine ⟨twoLanguages_scanned, by rfl, by rfl, fun hconfined => ?_⟩
  have hrust : entryLanguage projectRoot [.normal "b.py"] = some .rust :=
    hconfined ⟨[.normal "b.py"], 1, 4, 1, 7, "go"⟩ (by simp [bothRenamed]) .rust rfl
  exact absurd hrust (by decide)

end CodeQuery.Cli
