/-
  CodeQuery.Parse.Definition — what an extractor makes of a definition
  (`codequery-parse/src/languages.rs`, `languages/*.rs`).

  Every extractor reads a definition's name and kind and the node whose range the
  symbol gets; its children are found the same way. Where the name stands is no field of
  a symbol; it is kept beside it here. The texts of a symbol and its visibility decide
  nothing about the others, so they are given to `toSymbol` from outside.
-/

import CodeQuery.Core.Symbol
import CodeQuery.Parse.Tree
import CodeQuery.Text.Chars
import CodeQuery.Text.Utf8

namespace CodeQuery.Parse

open CodeQuery.Core CodeQuery.Text

structure Definition where
  name : Str
  kind : SymbolKind
  /-- The node that the symbol's lines and its column are of. -/
  node : Node
  /-- Ghost: where the name starts; a name that the extractor makes up has no place. -/
  namePlace : Option Point
  children : List Definition
  deriving Repr

/-- A definition without children, by its name and the name's place. -/
def Definition.leaf (kind : SymbolKind) (node : Node) (name : Str × Point) : Definition :=
  ⟨name.1, kind, node, some name.2, []⟩

/-- The rest of a symbol. -/
structure Texts where
  visibility : Visibility
  doc : Option Str
  body : Option Str
  signature : Option Str

mutual

def Definition.toSymbol (texts : Definition → Texts) (file : Path) : Definition → Symbol
  | d@⟨name, kind, node, _, children⟩ =>
    { name := name
      kind := kind
      file := file
      line := node.startPosition.row + 1
      column := node.startPosition.column
      endLine := node.endPosition.row + 1
      visibility := (texts d).visibility
      children := toSymbols texts file children
      doc := (texts d).doc
      body := (texts d).body
      signature := (texts d).signature }

def toSymbols (texts : Definition → Texts) (file : Path) : List Definition → List Symbol
  | [] => []
  | d :: ds => d.toSymbol texts file :: toSymbols texts file ds

end

section Symbols

variable (texts : Definition → Texts) (file : Path) (d : Definition)

@[simp] theorem Definition.toSymbol_name : (d.toSymbol texts file).name = d.name := by
  cases d; rw [Definition.toSymbol]

@[simp] theorem Definition.toSymbol_kind : (d.toSymbol texts file).kind = d.kind := by
  cases d; rw [Definition.toSymbol]

@[simp] theorem Definition.toSymbol_file : (d.toSymbol texts file).file = file := by
  cases d; rw [Definition.toSymbol]

@[simp] theorem Definition.toSymbol_line : (d.toSymbol texts file).line = d.node.startPosition.row + 1 := by
  cases d; rw [Definition.toSymbol]

end Symbols

mutual

/-- A definition, then what it holds. -/
def Definition.preorder : Definition → List Definition
  | d@⟨_, _, _, _, children⟩ => d :: preorderDefinitions children

def preorderDefinitions : List Definition → List Definition
  | [] => []
  | d :: ds => d.preorder ++ preorderDefinitions ds

end

/-! ## Names -/

/-- Where a text that starts at the place ends. -/
def Point.after (place : Point) (text : Str) : Point :=
  text.foldl (fun p b => if b = lf then ⟨p.row + 1, 0⟩ else ⟨p.row, p.column + 1⟩) place

/-- The bytes in front that are `b`, taken away. -/
def trimStartMatches (b : UInt8) (s : Str) : Str := s.dropWhile (· == b)

def trimEndMatches (b : UInt8) (s : Str) : Str := (s.reverse.dropWhile (· == b)).reverse

def trimMatches (b : UInt8) (s : Str) : Str := trimEndMatches b (trimStartMatches b s)

/-- The blanks in front of a text, and the text without the blanks at its ends. -/
def trimBlanks (s : Str) : Str × Str :=
  match fromUtf8 s with
  | none => ([], s)
  | some t => (str (.ofList (t.toList.takeWhile isWhitespace)), str (.ofList (trim t.toList)))

/-- The children that are neither errors nor put in by the parser. -/
def Node.soundChildren (n : Node) : List Node := n.children.filter fun c => !(c.isError || c.isMissing)

section Names

variable (source : Str)

/-- A node's text, and where it starts. -/
def nodeText (n : Node) : Option (Str × Point) := (n.utf8Text source).map (·, n.startPosition)

def nodeTrimmedText (n : Node) : Option (Str × Point) :=
  (n.utf8Text source).map fun text => ((trimBlanks text).2, n.startPosition.after (trimBlanks text).1)

/-- A node's text without the bytes `b` at its ends. -/
def nodeTextWithout (b : UInt8) (n : Node) : Option (Str × Point) :=
  (n.utf8Text source).map fun text =>
    (trimMatches b text, n.startPosition.after (text.take (text.length - (trimStartMatches b text).length)))

/-- `source[node.start_byte()..node.end_byte()]`. -/
def nodeSource (n : Node) : Str := (source.take n.endByte).drop n.startByte

/-- `node_field_text`. -/
def nodeFieldText (n : Node) (field : String) : Option (Str × Point) :=
  (n.childByFieldName field).bind (nodeText source)

end Names

end CodeQuery.Parse
