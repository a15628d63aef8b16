/-
  CodeQuery.Parse.ExtractEngine — extraction by the rules of an `extract.toml`
  (`codequery-parse/src/extract_engine.rs`, `codequery-core/src/extract_config.rs`).

  A rule is a query of the grammar's, and says which of its captures are the name and
  the body. A grammar gives a query its capture names, and its matches in a tree; a node
  captured comes with the way to it, since a rule may look at the comments before it.
-/

import CodeQuery.Core.SymbolKind
import CodeQuery.Parse.Tree

namespace CodeQuery.Parse

open CodeQuery.Core CodeQuery.Text

/-! ## Configurations and grammars -/

structure SymbolRule where
  kind : String
  query : String
  name : String
  body : Option String
  doc : Option String
  visibility : Option String

structure ExtractConfig where
  /-- `language.name`. -/
  languageName : String
  symbols : List SymbolRule

/-- A node in its tree: its ancestors, the nearest first, each with the index of its
    child on the way. -/
structure Spot where
  node : Node
  above : List (Node × Nat)

namespace Spot

def parent (s : Spot) : Option Spot :=
  match s.above with
  | [] => none
  | (p, _) :: above => some ⟨p, above⟩

def prevSibling (s : Spot) : Option Node :=
  match s.above with
  | [] => none
  | (_, 0) :: _ => none
  | (p, i + 1) :: _ => p.children[i]?

/-- The siblings before the node, the nearest first. -/
def before (s : Spot) : List Node :=
  match s.above with
  | [] => []
  | (p, i) :: _ => (p.children.take i).reverse

end Spot

structure Capture where
  index : Nat
  spot : Spot

/-- A compiled query: its capture names, and the captures of each of its matches. -/
structure Query where
  captureNames : List String
  run : Node → Str → List (List Capture)

/-- `Query::new`, which fails on a query that is none of the grammar's. -/
structure QueryLanguage where
  query : String → Option Query

/-! ## Rules -/

structure CompiledRule where
  kind : SymbolKind
  query : Query
  nameCapture : String
  bodyCapture : Option String
  docStrategy : Option String
  visibilityStrategy : Option String

structure CompiledExtractor where
  rules : List CompiledRule

def stripAt (s : String) : String :=
  match s.toList with
  | '@' :: t => String.ofList t
  | _ => s

def SymbolRule.compile (grammar : QueryLanguage) (rule : SymbolRule) : Option CompiledRule := do
  let kind ← parseSymbolKind rule.kind
  let query ← grammar.query rule.query
  some ⟨kind, query, stripAt rule.name, rule.body.map stripAt, rule.doc, rule.visibility⟩

/-- A rule of no known kind, or whose query fails, is left out. -/
def CompiledExtractor.compile (config : ExtractConfig) (grammar : QueryLanguage) : CompiledExtractor :=
  ⟨config.symbols.filterMap (SymbolRule.compile grammar)⟩

/-! ## Matches -/

def captureSpot (query : Query) (captures : List Capture) (captureName : String) : Option Spot := do
  let idx ← query.captureNames.findIdx? (· == captureName)
  (captures.find? (·.index == idx)).map (·.spot)

def captureText (query : Query) (captures : List Capture) (captureName : String) (source : Str) : Option Str :=
  (captureSpot query captures captureName).bind (·.node.utf8Text source)

def determineVisibility (rule : CompiledRule) (name : Str) : Visibility :=
  match rule.visibilityStrategy with
  | some "underscore_prefix" => if name.head? = some 95 then .private_ else .public_
  | some "pub_keyword" => .public_
  | _ => .public_

def isComment (n : Node) : Bool := n.kind == "comment" || n.kind == "line_comment"

/-- The nearest ancestor with a comment right before it gives that comment. -/
def commentAbove (source : Str) : List (Node × Nat) → Option Str
  | [] => none
  | (p, _) :: above =>
    match (Spot.prevSibling ⟨p, above⟩).bind fun prev => if isComment prev then prev.utf8Text source else none with
    | some text => some text
    | none => commentAbove source above

/-- The comments directly before a node; with none there, the one before a construct it
    is in. -/
def extractPrecedingComments (s : Spot) (source : Str) : Option Str :=
  match s.above with
  | [] => none
  | _ :: _ =>
    let comments := (s.before.takeWhile isComment).filterMap (·.utf8Text source)
    if comments.isEmpty then commentAbove source s.above else some ([lf].intercalate comments.reverse)

def extractDoc (rule : CompiledRule) (captures : List Capture) (source : Str) : Option Str :=
  match rule.docStrategy with
  | some "preceding_comment" =>
    (captureSpot rule.query captures rule.nameCapture).bind (extractPrecedingComments · source)
  | some "docstring" => captureText rule.query captures "doc" source
  | _ => none

/-- The line, the column and the last line: those of the name, up to the body's end when
    there is one. -/
def matchRange (rule : CompiledRule) (captures : List Capture) : Nat × Nat × Nat :=
  match captureSpot rule.query captures rule.nameCapture with
  | some s =>
    let body := rule.bodyCapture.bind (captureSpot rule.query captures)
    (s.node.startPosition.row + 1, s.node.startPosition.column, ((body.getD s).node.endPosition.row + 1))
  | none => (1, 0, 1)

def matchSymbol (rule : CompiledRule) (source : Str) (file : Path) (captures : List Capture) : Option Symbol :=
  (captureText rule.query captures rule.nameCapture source).map fun name =>
    let (line, column, endLine) := matchRange rule captures
    { name := name
      kind := rule.kind
      file := file
      line := line
      column := column
      endLine := endLine
      visibility := determineVisibility rule name
      children := []
      doc := extractDoc rule captures source
      body := rule.bodyCapture.bind (captureText rule.query captures · source)
      signature := none }

def extractWithRule (rule : CompiledRule) (source : Str) (tree : Node) (file : Path) : List Symbol :=
  (rule.query.run tree source).filterMap (matchSymbol rule source file)

def CompiledExtractor.extract (e : CompiledExtractor) (source : Str) (tree : Node) (file : Path) : List Symbol :=
  e.rules.flatMap (extractWithRule · source tree file)

def extractWithConfigUncached (config : ExtractConfig) (source : Str) (tree : Node) (file : Path)
    (grammar : QueryLanguage) : List Symbol :=
  (CompiledExtractor.compile config grammar).extract source tree file

/-- The rules that do not compile have no part in it. -/
theorem extractWithConfigUncached_eq (config : ExtractConfig) (source : Str) (tree : Node) (file : Path)
    (grammar : QueryLanguage) :
    extractWithConfigUncached config source tree file grammar =
      config.symbols.flatMap fun rule =>
        ((rule.compile grammar).map (extractWithRule · source tree file)).getD [] := by
  rw [extractWithConfigUncached, CompiledExtractor.extract, CompiledExtractor.compile]
  induction config.symbols with
  | nil => rfl
  | cons rule rules ih =>
    rw [List.filterMap_cons, List.flatMap_cons]
    cases rule.compile grammar with
    | none => exact ih
    | some compiled => exact congrArg _ ih

end CodeQuery.Parse
