/-
  CodeQuery.Cli.RenameReach — which definitions a rename reaches (see `CodeQuery.Cli.Rename`).

  A definition's edit is searched on the line where its symbol starts, at the first
  place that holds the old name; the references have edits of their own. `reached_iff`
  says when the name of a definition gets an edit: one of the two meets it. A symbol
  starts where its node does, with a decorator or a return type on a line of its own
  before the name: `a_decorated_function_is_not_renamed`.
-/

import CodeQuery.Cli.RenameSafety
import CodeQuery.Index.Extracted
import CodeQuery.Index.OwnUses

namespace CodeQuery.Cli

open CodeQuery.Core CodeQuery.Text CodeQuery.Index CodeQuery.Parse

/-- The edit's span is the name's, which stands at the place. -/
structure CoversName (e : TextEdit) (file : Path) (name : Str) (place : Point) : Prop where
  file : e.file = file
  line : e.line = place.row + 1
  column : e.column = place.column
  endLine : e.endLine = e.line
  endColumn : e.endColumn = e.column + name.length

section Reach

variable (scan : List FileSymbols) (root : Path) (langFilter : Option Language) (oldName newName : String)

/-- A definition of the name starts on the place's line, and the line first holds the
    name at the place. -/
def FoundOnLine (file : Path) (place : Point) : Prop :=
  ∃ s ∈ definitionsOf scan oldName, s.kind ≠ .impl ∧ s.file = file ∧ s.line = place.row + 1 ∧
    ∃ line, lineOf scan file (place.row + 1) = some line ∧ find (str oldName) line = some place.column

/-- A reference is recorded at the place, and the word there is the name. -/
def FoundAsReference (file : Path) (place : Point) : Prop :=
  ∃ r ∈ scanReferences scan root langFilter, r.file = file ∧ r.line = place.row + 1 ∧ r.column = place.column ∧
    extractNameAtColumn r.context r.column = some (str oldName)

end Reach

variable {scan : List FileSymbols} {root : Path} {langFilter : Option Language} {oldName newName : String}

theorem editAt_covers (file : Path) (place : Point) :
    CoversName (editAt oldName newName file (place.row + 1) place.column) file (str oldName) place :=
  ⟨rfl, rfl, rfl, rfl, rfl⟩

theorem definitionEdit_covers {file : Path} {place : Point} :
    (∃ s ∈ definitionsOf scan oldName, ∃ e, definitionEdit scan oldName newName s = some e ∧
      CoversName e file (str oldName) place) ↔ FoundOnLine scan oldName file place := by
  constructor
  · intro h
    obtain ⟨s, hs, e, he, hcovers⟩ := h
    obtain ⟨hkind, line, hline, column, hfind, rfl⟩ := definitionEdit_some.mp he
    have hfile : s.file = file := hcovers.file
    have hrow : s.line = place.row + 1 := hcovers.line
    have hcolumn : column = place.column := hcovers.column
    rw [hfile, hrow] at hline
    exact ⟨s, hs, hkind, hfile, hrow, line, hline, hcolumn ▸ hfind⟩
  · intro h
    obtain ⟨s, hs, hkind, rfl, hrow, line, hline, hfind⟩ := h
    refine ⟨s, hs, editAt oldName newName s.file s.line place.column, ?_, hrow ▸ editAt_covers s.file place⟩
    exact definitionEdit_some.mpr ⟨hkind, line, hrow ▸ hline, place.column, hfind, rfl⟩

theorem referenceEdit_covers {file : Path} {place : Point} :
    (∃ r ∈ scanReferences scan root langFilter, ∃ e, referenceEdit oldName newName r = some e ∧
      CoversName e file (str oldName) place) ↔ FoundAsReference scan root langFilter oldName file place := by
  constructor
  · intro h
    obtain ⟨r, hr, e, he, hcovers⟩ := h
    obtain ⟨hread, rfl⟩ := referenceEdit_some.mp he
    exact ⟨r, hr, hcovers.file, hcovers.line, hcovers.column, hread⟩
  · intro h
    obtain ⟨r, hr, rfl, hrow, hcolumn, hread⟩ := h
    refine ⟨r, hr, editAt oldName newName r.file r.line r.column, referenceEdit_some.mpr ⟨hread, rfl⟩, ?_⟩
    rw [hrow, hcolumn]
    exact editAt_covers r.file place

/-- A definition whose name is first held by the line its node starts on is reached by its
    own symbol. -/
theorem foundOnLine_own {texts : TextsOf} {fs : FileSymbols} (hfs : fs ∈ scan) {source : Str} {tree : Node}
    {language : Language} (hfrom : ExtractedFrom texts fs source tree language) {d : Definition}
    (hd : d ∈ definitionsIn source tree fs.file language) (hname : d.name = str oldName) (hkind : d.kind ≠ .impl)
    {place : Point} (hrow : d.node.startPosition.row = place.row) {line : Str}
    (hline : lineOf scan fs.file (place.row + 1) = some line) (hfind : find (str oldName) line = some place.column) :
    FoundOnLine scan oldName fs.file place := by
  refine ⟨d.toSymbol (texts source tree language) fs.file, ?_, ?_, ?_, ?_, line, hline, hfind⟩
  · rw [definitionsOf, ← hname]
    exact mem_findByName hfs hfrom hd
  · rw [Definition.toSymbol_kind]
    exact hkind
  · exact Definition.toSymbol_file ..
  · rw [Definition.toSymbol_line, hrow]

/-- For every definition of the old name in a scanned file, an edit covers its name if
    and only if a definition's line first holds the name there or a reference is
    recorded there. The files of every scan are such (`scanned_extracted`). -/
theorem reached_iff {texts : TextsOf} {fs : FileSymbols} (hfs : fs ∈ scan) {source : Str} {tree : Node}
    {language : Language} (hfrom : ExtractedFrom texts fs source tree language) {d : Definition}
    (hd : d ∈ definitionsIn source tree fs.file language) (hname : d.name = str oldName) :
    d.toSymbol (texts source tree language) fs.file ∈ definitionsOf scan oldName ∧
      ∃ edits, planEdits scan root langFilter oldName newName = .ok edits ∧
        ∀ place, d.namePlace = some place →
          ((∃ e ∈ edits, CoversName e fs.file d.name place) ↔
            FoundOnLine scan oldName fs.file place ∨ FoundAsReference scan root langFilter oldName fs.file place) := by
  have hfound : d.toSymbol (texts source tree language) fs.file ∈ definitionsOf scan oldName := by
    rw [definitionsOf, ← hname]
    exact mem_findByName hfs hfrom hd
  have hsome : (definitionsOf scan oldName).isEmpty = false := by
    rw [List.isEmpty_eq_false_iff]
    exact List.ne_nil_of_mem hfound
  refine ⟨hfound, _, by rw [planEdits, hsome, if_neg Bool.false_ne_true], fun place _ => ?_⟩
  rw [hname, ← definitionEdit_covers, ← referenceEdit_covers]
  constructor
  · intro h
    obtain ⟨e, he, hcovers⟩ := h
    rcases mem_computedEdits.mp he with ⟨r, hr, hedit⟩ | ⟨s, hs, hedit⟩
    · exact .inr ⟨r, hr, e, hedit, hcovers⟩
    · exact .inl ⟨s, hs, e, hedit, hcovers⟩
  · intro h
    rcases h with ⟨s, hs, e, hedit, hcovers⟩ | ⟨r, hr, e, hedit, hcovers⟩
    · exact ⟨e, mem_computedEdits.mpr (.inr ⟨s, hs, hedit⟩), hcovers⟩
    · exact ⟨e, mem_computedEdits.mpr (.inl ⟨r, hr, hedit⟩), hcovers⟩

/-! ## A decorator -/

def decoratedSource : Str := str "@dec\ndef f(): pass"

def decoratedFunction : Node :=
  ⟨"decorated_definition", none, 0, 18, ⟨0, 0⟩, ⟨1, 13⟩, true, false, false,
    [⟨"decorator", none, 0, 4, ⟨0, 0⟩, ⟨0, 4⟩, true, false, false,
        [.leaf "@" none 0 0 0 1 false, .leaf "identifier" none 0 1 1 3 true]⟩,
      ⟨"function_definition", some "definition", 5, 18, ⟨1, 0⟩, ⟨1, 13⟩, true, false, false,
        [.leaf "def" none 1 0 5 3 false, .leaf "identifier" (some "name") 1 4 9 1 true,
          ⟨"parameters", some "parameters", 10, 12, ⟨1, 5⟩, ⟨1, 7⟩, true, false, false,
            [.leaf "(" none 1 5 10 1 false, .leaf ")" none 1 6 11 1 false]⟩,
          .leaf ":" none 1 7 12 1 false,
          ⟨"block", some "body", 14, 18, ⟨1, 9⟩, ⟨1, 13⟩, true, false, false,
            [⟨"pass_statement", none, 14, 18, ⟨1, 9⟩, ⟨1, 13⟩, true, false, false,
              [.leaf "pass" none 1 9 14 4 false]⟩]⟩]⟩]⟩

def decoratedTree : Node :=
  ⟨"module", none, 0, 18, ⟨0, 0⟩, ⟨1, 13⟩, true, false, false, [decoratedFunction]⟩

def noTexts : TextsOf := fun _ _ _ _ => ⟨.public_, none, none, none⟩

def decoratedTools : Toolchain := tools (fun _ _ => some decoratedTree) noTexts

def decoratedDisk : Disk := plainDisk [(projectRoot ++ [.normal "a.py"], ⟨decoratedSource, 1000000000⟩)]

def decoratedEntry : FileSymbols where
  file := [.normal "a.py"]
  symbols := extractSymbols noTexts decoratedSource decoratedTree [.normal "a.py"] .python
  source := decoratedSource
  tree := decoratedTree

def decoratedDefinition : Definition := .leaf .function decoratedFunction (str "f", ⟨1, 4⟩)

theorem decorated_scanned :
    (scanProjectCached decoratedTools decoratedDisk projectRoot none false .kept none).1 = .ok [decoratedEntry] := by
  rfl

theorem decorated_definitions :
    definitionsIn decoratedSource decoratedTree [.normal "a.py"] .python = [decoratedDefinition] := by
  rfl

/-- The symbol starts at the decorator, whose line does not hold `f`: the function is
    found, and nothing of it is renamed. -/
theorem a_decorated_function_is_not_renamed :
    (scanProjectCached decoratedTools decoratedDisk projectRoot none false .kept none).1 = .ok [decoratedEntry] ∧
      definitionsIn decoratedSource decoratedTree [.normal "a.py"] .python = [decoratedDefinition] ∧
      decoratedDefinition.name = str "f" ∧ decoratedDefinition.kind ≠ .impl ∧
      decoratedDefinition.namePlace = some ⟨1, 4⟩ ∧
      (definitionsOf [decoratedEntry] "f").length = 1 ∧
      planEdits [decoratedEntry] projectRoot none "f" "g" = .ok [] :=
  ⟨decorated_scanned, decorated_definitions, rfl, by decide, rfl, by decide, by rfl⟩

theorem reached_iff_decorated :
    decoratedDefinition.toSymbol (noTexts decoratedSource decoratedTree .python) decoratedEntry.file ∈
        definitionsOf [decoratedEntry] "f" ∧
      ∃ edits, planEdits [decoratedEntry] projectRoot none "f" "g" = .ok edits ∧
        ∀ place, decoratedDefinition.namePlace = some place →
          ((∃ e ∈ edits, CoversName e decoratedEntry.file decoratedDefinition.name place) ↔
            FoundOnLine [decoratedEntry] "f" decoratedEntry.file place ∨
              FoundAsReference [decoratedEntry] projectRoot none "f" decoratedEntry.file place) :=
  @reached_iff [decoratedEntry] projectRoot none "f" "g" noTexts decoratedEntry List.mem_cons_self decoratedSource
    decoratedTree .python rfl decoratedDefinition
    (by
      show decoratedDefinition ∈ definitionsIn decoratedSource decoratedTree [.normal "a.py"] .python
      rw [decorated_definitions]
      exact List.mem_cons_self)
    rfl

end CodeQuery.Cli
