/-
  CodeQuery.Cli.Refs — the refs and the callers commands
  (`codequery-cli/src/commands/refs.rs`, `callers.rs`).

  Both put the references of the resolver before those found by name at places it does
  not cover, which a hash map gives in any order, and sort by file and line. The refs
  command first drops resolved references whose definition is none of the symbol's,
  and last adds each definition on whose line there is no reference. `Output` is what
  is handed to be printed.
-/

import CodeQuery.Cli.Rename
import CodeQuery.Resolve.Resolver

namespace CodeQuery.Cli.Refs

open CodeQuery.Core CodeQuery.Text CodeQuery.Index CodeQuery.Data CodeQuery.Resolve

/-! ## References by name -/

def fileLanguage (file : Path) : Option Language :=
  (languageForFile file).or ((languageNameForFile file).bind Language.fromName)

def extracted (fs : FileSymbols) : List Reference :=
  match fileLanguage fs.file with
  | none => []
  | some language => extractReferences fs.source fs.tree fs.file language

section Syntactic

variable (alnum : Char → Bool) (scan : List FileSymbols) (symbol : Str) (wanted : Reference → Bool)

def refNameMatches (r : Reference) (source : Str) : Bool :=
  match (lines source)[r.line - 1]? with
  | none => false
  | some lineText =>
    if r.column ≥ lineText.length then false else leadingIdentifier alnum (lineText.drop r.column) == symbol

/-- The references that match the name, of the kinds wanted. -/
def syntacticRefs : List Reference :=
  scan.flatMap fun fs => (extracted fs).filter fun r => wanted r && refNameMatches alnum symbol r fs.source

/-- No slice of a line, at a reference of the kinds wanted, panics. -/
def allSliceable : Bool := scan.all fun fs => (extracted fs).all fun r => !wanted r || sliceable fs.source r

/-- `syntactic_map`. -/
abbrev syntacticMap : AList fun _ : Location => Reference :=
  indexBy Reference.location (syntacticRefs alnum scan symbol wanted)

def definitions : List Symbol := (SymbolIndex.fromScan scan).findByName symbol

/-! ## Merging -/

/-- The highest tier present. -/
def topResolution (references : List ResolvedReference) : Resolution :=
  if references.any (·.resolution == .semantic) then .semantic
  else if references.any (·.resolution == .resolved) then .resolved
  else .syntactic

/-- The source line, if there is one. -/
def contextAt (file : Path) (line : Nat) : Str := (lineOf scan file line).getD []

def toReference (rr : ResolvedReference) : Reference :=
  ((syntacticMap alnum scan symbol wanted).lookup rr.location).getD
    ⟨rr.refFile, rr.refLine, rr.refColumn, .call, contextAt scan rr.refFile rr.refLine, none, none⟩

/-- No reference is at the place. -/
def uncovered (cascade : List Reference) (loc : Location) : Bool := !(cascade.map Reference.location).contains loc

/-- The resolver's references, then those by name where it has none. -/
def merge (references : List ResolvedReference) (entries : Iteration (syntacticMap alnum scan symbol wanted)) :
    List Reference :=
  let cascade := references.map (toReference alnum scan symbol wanted)
  cascade ++ entries.values (uncovered cascade)

end Syntactic

/-- By file, then by line. -/
def sortRefs (l : List Reference) : List Reference := stableSort (fun r => Location.fileLine r.location) l

structure Output where
  definitions : List Symbol
  references : List Reference
  resolution : Resolution

/-! ## refs -/

/-- A resolved reference is kept when its definition is in a file of the symbol's
    definitions, or in its own file. -/
def keeps (defs : List Symbol) (rr : ResolvedReference) : Bool :=
  match rr.resolution with
  | .resolved =>
    match rr.defFile with
    | some df => (defs.map Symbol.file).contains df || df == rr.refFile
    | none => true
  | _ => true

def crossCheck (defs : List Symbol) (references : List ResolvedReference) : List ResolvedReference :=
  if defs.isEmpty then references else references.filter (keeps defs)

def definitionRef (scan : List FileSymbols) (d : Symbol) : Reference :=
  ⟨d.file, d.line, d.column, .definition, contextAt scan d.file d.line, none, none⟩

/-- The definitions on whose line there is no reference, as references. -/
def definitionRefs (scan : List FileSymbols) (defs : List Symbol) (refs : List Reference) : List Reference :=
  (defs.filter fun d => !(refs.map fun r => Location.fileLine r.location).contains (Location.fileLine d.location)).map
    (definitionRef scan)

def everyKind : Reference → Bool := fun _ => true

section Run

variable (alnum : Char → Bool) (scan : List FileSymbols) (symbol : Str)

def allRefs (references : List ResolvedReference) (entries : Iteration (syntacticMap alnum scan symbol everyKind)) :
    List Reference :=
  let merged := sortRefs (merge alnum scan symbol everyKind references entries)
  sortRefs (merged ++ definitionRefs scan (definitions scan symbol) merged)

/-- `run` behind its scan and its resolver, up to printing; `none` is a panic. -/
def run (result : List ResolvedReference) (entries : Iteration (syntacticMap alnum scan symbol everyKind)) :
    Option Output :=
  if allSliceable scan everyKind then
    let references := crossCheck (definitions scan symbol) result
    some ⟨definitions scan symbol, allRefs alnum scan symbol references entries, topResolution references⟩
  else none

end Run

/-! ## callers -/

def isCall (r : Reference) : Bool := r.kind == .call

/-- With a definition, what the cascade found by name is left to the merge. -/
def retainResolved (defs : List Symbol) (references : List ResolvedReference) : List ResolvedReference :=
  if defs.isEmpty then references
  else references.filter fun rr => rr.resolution == .resolved || rr.resolution == .semantic

section Callers

variable (alnum : Char → Bool) (scan : List FileSymbols) (symbol : Str)

def callRefs (references : List ResolvedReference) (entries : Iteration (syntacticMap alnum scan symbol isCall)) :
    List Reference :=
  sortRefs (merge alnum scan symbol isCall references entries)

/-- `run` of the callers command. -/
def runCallers (result : List ResolvedReference) (entries : Iteration (syntacticMap alnum scan symbol isCall)) :
    Option Output :=
  if allSliceable scan isCall then
    let references := retainResolved (definitions scan symbol) result
    some ⟨definitions scan symbol, callRefs alnum scan symbol references entries, topResolution references⟩
  else none

end Callers

/-! ## With the resolver -/

section Command

variable (alnum : Char → Bool) (G : StackGraphs) (scan : List FileSymbols) (symbol : Str)

/-- `resolve_with_cascade`: what a language server answered, or else the stack graphs. -/
def resolveWithCascade (semantic : Option (List ResolvedReference)) (groups : Iteration (groupByLanguage scan)) :
    Option (List ResolvedReference) :=
  match semantic with
  | some references => some references
  | none => resolveRefs alnum G symbol groups

/-- What the refs command has from its resolver. -/
def refsResult (semantic : Option (List ResolvedReference)) (groups : Iteration (groupByLanguage scan)) :
    Option (List ResolvedReference) :=
  if (definitions scan symbol).isEmpty then resolveRefs alnum G symbol groups
  else resolveWithCascade alnum G scan symbol semantic groups

def callersResult (semantic : Option (List ResolvedReference)) (groups : Iteration (groupByLanguage scan)) :
    Option (List ResolvedReference) :=
  if (definitions scan symbol).isEmpty then resolveCallers alnum G symbol groups
  else resolveWithCascade alnum G scan symbol semantic groups

/-- The refs command over a scan, with the orders of its hash maps. -/
def refsCommand (semantic : Option (List ResolvedReference)) (groups : Iteration (groupByLanguage scan))
    (entries : Iteration (syntacticMap alnum scan symbol everyKind)) : Option Output :=
  (refsResult alnum G scan symbol semantic groups).bind fun result => run alnum scan symbol result entries

def callersCommand (semantic : Option (List ResolvedReference)) (groups : Iteration (groupByLanguage scan))
    (entries : Iteration (syntacticMap alnum scan symbol isCall)) : Option Output :=
  (callersResult alnum G scan symbol semantic groups).bind fun result => runCallers alnum scan symbol result entries

end Command

end CodeQuery.Cli.Refs
