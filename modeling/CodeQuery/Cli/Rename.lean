/-
  CodeQuery.Cli.Rename — the rename command (`codequery-cli/src/commands/rename.rs`).

  `planEdits` is `run` up to the sorted and deduplicated edits: one for each reference
  whose text at its column is the old name, one for each definition, at the first place
  its line holds the old name. `applyEdits` writes them, file after file, in the order
  a hash map gives the files (`FileOrder`), with the failures of the file system as
  `Faults`. The printed form of the result is not modelled.
-/

import CodeQuery.Core.Query
import CodeQuery.Data.Groups
import CodeQuery.Index.Refs
import CodeQuery.Index.SymbolIndex
import CodeQuery.Text.Lines
import CodeQuery.Text.Splice

namespace CodeQuery.Cli

open CodeQuery.Core CodeQuery.Text CodeQuery.Index CodeQuery.Data

/-! ## The edits -/

/-- The run of word bytes from a column on. -/
def extractNameAtColumn (line : Str) (column : Nat) : Option Str :=
  if column ≥ line.length then none
  else
    let name := (line.drop column).takeWhile isWordByte
    if name.isEmpty then none else some name

/-- The language a scanned file's references are extracted in; without one it is
    skipped. -/
def entryLanguage (root file : Path) : Option Language :=
  let absolute := root.join file
  (languageForFile absolute).or ((languageNameForFile absolute).bind Language.fromName)

section Plan

variable (scan : List FileSymbols) (root : Path) (langFilter : Option Language) (oldName newName : String)

/-- The references of the scan, of the files the language filter leaves. -/
def scanReferences : List Reference :=
  scan.flatMap fun entry =>
    match entryLanguage root entry.file with
    | none => []
    | some language =>
      if langFilter.any (language != ·) then []
      else extractReferences entry.source entry.tree entry.file language

/-- An edit of the old name's length at a place. -/
def editAt (file : Path) (line column : Nat) : TextEdit :=
  ⟨file, line, column, line, column + (str oldName).length, newName⟩

def referenceEdit (r : Reference) : Option TextEdit :=
  if extractNameAtColumn r.context r.column = some (str oldName) then
    some (editAt oldName newName r.file r.line r.column)
  else none

/-- `source_map.get`: a later entry of a file replaces an earlier one. -/
def sourceOf (file : Path) : Option Str := (scan.reverse.find? (·.file = file)).map (·.source)

/-- The line of a file, 1-based; line 0 is taken for line 1. -/
def lineOf (file : Path) (line : Nat) : Option Str := (sourceOf scan file).bind fun source => (lines source)[line - 1]?

def definitionEdit (d : Symbol) : Option TextEdit :=
  if d.kind = .impl then none
  else
    (lineOf scan d.file d.line).bind fun lineText =>
      (find (str oldName) lineText).map (editAt oldName newName d.file d.line)

def editKey (e : TextEdit) : Path ×ₗ ℕ ×ₗ ℕ := toLex (e.file, toLex (e.line, e.column))

def sortEdits (l : List TextEdit) : List TextEdit := l.insertionSort (editKey · ≤ editKey ·)

/-- `Vec::dedup_by` behind a retained element: what repeats it is dropped. -/
def dedupFrom (e : TextEdit) : List TextEdit → List TextEdit
  | [] => []
  | a :: l => if a.file = e.file ∧ a.line = e.line ∧ a.column = e.column then dedupFrom e l else a :: dedupFrom a l

def dedupEdits : List TextEdit → List TextEdit
  | [] => []
  | a :: l => a :: dedupFrom a l

def computedEdits (definitions : List Symbol) : List TextEdit :=
  dedupEdits (sortEdits ((scanReferences scan root langFilter).filterMap (referenceEdit oldName newName) ++
    definitions.filterMap (definitionEdit scan oldName newName)))

def definitionsOf : List Symbol := (SymbolIndex.fromScan scan).findByName (str oldName)

inductive RenameError where
  | discover (e : DiscoverError)
  /-- `symbol not found: {old_name}`. -/
  | symbolNotFound (name : String)
  | io
  deriving DecidableEq, Repr

def planEdits : Except RenameError (List TextEdit) :=
  if (definitionsOf scan oldName).isEmpty then .error (.symbolNotFound oldName)
  else .ok (computedEdits scan root langFilter oldName newName (definitionsOf scan oldName))

end Plan

/-! ## Applying them -/

/-- The texts on disk, by absolute path. -/
abbrev Files := Path → Option Str

/-- How `fs::write` fails: the file cannot be opened, or, once it is emptied, only a
    part of the text is written. -/
inductive WriteFault where
  | notOpened
  | brokeOff (written : Nat)
  deriving DecidableEq, Repr

structure Faults where
  readFails : Path → Bool
  writeFails : Path → Option WriteFault

inductive Exit where
  | ok
  | err
  | panicked
  deriving DecidableEq, Repr

def readToString (faults : Faults) (files : Files) (p : Path) : Option Str :=
  if faults.readFails p then none else (files p).filter fun s => (fromUtf8 s).isSome

/-- One edit of a file's lines; `none` is a panic (the difference of the columns
    overflows, or the span is off a character boundary). An edit out of range is
    skipped. -/
def applyToLines (ls : List Str) (e : TextEdit) : Option (List Str) :=
  match ls[e.line - 1]? with
  | none => some ls
  | some line =>
    if e.endColumn < e.column then none
    else if e.column + (e.endColumn - e.column) ≤ line.length then
      (replaceRange line ⟨e.column, e.endColumn, str e.newText⟩).map fun line' => ls.set (e.line - 1) line'
    else some ls

/-- By line, then by column. -/
def lineKey (e : TextEdit) : ℕ ×ₗ ℕ := toLex (e.line, e.column)

/-- The edits of a file, last place first. -/
def sortReverse (l : List TextEdit) : List TextEdit := l.insertionSort (lineKey · ≥ lineKey ·)

/-- The content written back for a file's edits. -/
def editedContent (content : Str) (fileEdits : List TextEdit) : Option Str :=
  ((sortReverse fileEdits).foldlM applyToLines (lines content)).map (rejoin (content.getLast? == some lf))

def Files.update (files : Files) (p : Path) (s : Str) : Files := fun q => if q = p then some s else files q

def applyGroups (root : Path) (faults : Faults) : List (Sigma fun _ : Path => List TextEdit) → Files → Exit × Files
  | [], files => (.ok, files)
  | ⟨file, fileEdits⟩ :: rest, files =>
    let absPath := root.join file
    match readToString faults files absPath with
    | none => (.err, files)
    | some content =>
      match editedContent content fileEdits with
      | none => (.panicked, files)
      | some newContent =>
        match faults.writeFails absPath with
        | some .notOpened => (.err, files)
        | some (.brokeOff n) => (.err, files.update absPath (newContent.take n))
        | none => applyGroups root faults rest (files.update absPath newContent)

def byFile (edits : List TextEdit) : Groups Path TextEdit := Groups.groupBy TextEdit.file edits

/-- An order the files' groups can be visited in. -/
structure FileOrder (edits : List TextEdit) where
  groups : List (Sigma fun _ : Path => List TextEdit)
  perm : groups.Perm (byFile edits).entries

def applyEdits (root : Path) (faults : Faults) (edits : List TextEdit) (order : FileOrder edits) (files : Files) :
    Exit × Files :=
  applyGroups root faults order.groups files

/-! ## The command -/

structure RenameResult where
  oldName : String
  newName : String
  edits : List TextEdit
  filesAffected : Nat
  applied : Bool
  resolution : Resolution
  deriving DecidableEq, Repr

/-- `--apply` applies, `--dry-run` previews; with neither, the resolution decides. -/
def shouldApply (forceApply dryRun : Bool) (resolution : Resolution) : Bool :=
  if forceApply then true
  else if dryRun then false
  else resolution == .semantic || resolution == .resolved

structure Args where
  oldName : String
  newName : String
  forceApply : Bool
  dryRun : Bool
  scope : Option Path
  langFilter : Option Language
  deriving Repr

/-- `run` behind its scan; `none` is a panic. -/
def run (root : Path) (args : Args) (scan : Except DiscoverError (List FileSymbols)) (faults : Faults)
    (order : (edits : List TextEdit) → FileOrder edits) (files : Files) :
    Option (Except RenameError RenameResult) × Files :=
  match scan with
  | .error e => (some (.error (.discover e)), files)
  | .ok entries =>
    match planEdits entries root args.langFilter args.oldName args.newName with
    | .error e => (some (.error e), files)
    | .ok edits =>
      let resolution := Resolution.syntactic
      let applied := shouldApply args.forceApply args.dryRun resolution
      let result : RenameResult :=
        ⟨args.oldName, args.newName, edits, (edits.map TextEdit.file).dedup.length, applied, resolution⟩
      if applied then
        match applyEdits root faults edits (order edits) files with
        | (.ok, files') => (some (.ok result), files')
        | (.err, files') => (some (.error .io), files')
        | (.panicked, files') => (none, files')
      else (some (.ok result), files)

/-- Nothing is written without `--apply`: the resolution is always syntactic. -/
theorem run_without_apply (root : Path) (args : Args) (scan : Except DiscoverError (List FileSymbols)) (faults : Faults)
    (order : (edits : List TextEdit) → FileOrder edits) (files : Files) (h : args.forceApply = false) :
    (run root args scan faults order files).2 = files := by
  have hno : shouldApply args.forceApply args.dryRun .syntactic = false := by
    rw [h]; cases args.dryRun <;> rfl
  unfold run
  split
  · rfl
  · split
    · rfl
    · simp only [hno, Bool.false_eq_true, if_false]

end CodeQuery.Cli
