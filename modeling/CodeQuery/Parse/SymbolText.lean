/-
  CodeQuery.Parse.SymbolText — the texts of a symbol (`codequery-parse/src/languages/*.rs`).

  Every extractor has helpers of its own for the body, the signature and the doc comment;
  those that more than one of them has are here. What they look for is ASCII, so they are
  on bytes; blanks are trimmed as Unicode has them.
-/

import CodeQuery.Parse.Definition
import CodeQuery.Text.Lines

namespace CodeQuery.Parse

open CodeQuery.Core CodeQuery.Text

/-! ## Blanks -/

/-- A function of characters, on the bytes of a text. -/
def onChars (f : List Char → List Char) (s : Str) : Str :=
  match fromUtf8 s with
  | none => s
  | some t => str (.ofList (f t.toList))

def trimText : Str → Str := onChars trim

def trimTextStart : Str → Str := onChars trimStart

def trimTextEnd : Str → Str := onChars trimEnd

/-- `lines().next().unwrap_or("")`. -/
def firstLine (s : Str) : Str := (lines s).head?.getD []

/-! ## Bodies -/

/-- `extract_body`. -/
def extractBody (source : Str) (node : Node) : Str := nodeSource source node

/-! ## Signatures -/

def braceOpen : UInt8 := 123
def angleOpen : UInt8 := 60
def angleClose : UInt8 := 62
def parenOpen : UInt8 := 40
def parenClose : UInt8 := 41
def semicolon : UInt8 := 59
def colon : UInt8 := 58

/-- `saturating_add(1)`. -/
def deeper (depth : Nat) : Nat := min (depth + 1) (2 ^ 32 - 1)

/-- The first brace that is in no angle brackets and, where parentheses are looked at, in
    no parentheses. -/
def findBraceFrom (parens : Bool) (angle paren pos : Nat) : Str → Option Nat
  | [] => none
  | b :: rest =>
    if b = angleOpen then findBraceFrom parens (deeper angle) paren (pos + 1) rest
    else if b = angleClose then findBraceFrom parens (angle - 1) paren (pos + 1) rest
    else if parens ∧ b = parenOpen then findBraceFrom parens angle (deeper paren) (pos + 1) rest
    else if parens ∧ b = parenClose then findBraceFrom parens angle (paren - 1) (pos + 1) rest
    else if b = braceOpen ∧ angle = 0 ∧ paren = 0 then some pos
    else findBraceFrom parens angle paren (pos + 1) rest

/-- `find_top_level_brace` of Rust, C++ and Java. -/
def findTopLevelBrace (text : Str) : Option Nat := findBraceFrom false 0 0 0 text

/-- What is in front of the brace. -/
def beforeBrace (brace : Option Nat) (body otherwise : Str) : Str :=
  match brace with
  | some pos => trimText (body.take pos)
  | none => otherwise

/-- `extract_fn_signature`, by where the brace is. -/
def fnSignature (brace : Option Nat) (body : Str) : Str :=
  beforeBrace brace body (trimText (trimEndMatches semicolon (trimText body)))

def headerSignature (brace : Option Nat) (body : Str) : Str := beforeBrace brace body (trimText (firstLine body))

def singleLineSignature (body : Str) : Str := trimText (trimEndMatches semicolon (firstLine body))

/-- The first line that begins with the keyword. -/
def keywordSignature (keyword body : Str) : Str :=
  match (lines body).find? fun line => keyword.isPrefixOf (trimTextStart line) with
  | some line => trimTextEnd (trimTextStart line)
  | none => trimTextEnd (firstLine body)

/-! ## Doc comments -/

section Docs

variable (source : Str)

/-- The comments in front, the nearest first: to the first sibling that is no doc comment
    and not gone over. -/
def docLines (commentKind : String) (goneOver : List String) (isDoc : Str → Bool) : List Node → List Str
  | [] => []
  | sib :: before =>
    if sib.kind = commentKind then
      match sib.utf8Text source with
      | none => []
      | some text =>
        if isDoc (trimTextEnd text) then trimTextEnd text :: docLines commentKind goneOver isDoc before else []
    else if goneOver.contains sib.kind then docLines commentKind goneOver isDoc before
    else []

/-- In the source's order. -/
def joinDoc (ls : List Str) : Option Str := if ls.isEmpty then none else some (joinLines ls.reverse)

end Docs

/-! ## Children -/

section Children

variable {α : Type*} (f : List Node → Node → List α)

/-- The loop over some nodes, each with those in front of it, the nearest first; errors
    and what the parser put in are gone over. -/
def eachChild (before : List Node) : List Node → List α
  | [] => []
  | c :: cs => (if c.isError || c.isMissing then [] else f before c) ++ eachChild (c :: before) cs

end Children

/-! ## Symbols -/

section SymbolAt

variable (file : Path) (node : Node) (name : Str) (kind : SymbolKind) (visibility : Visibility)
  (children : List Symbol) (doc : Option Str) (body signature : Str)

/-- The literal that every extractor ends with: the lines and the column are of one node,
    the texts are given. -/
def symbolAt : Symbol where
  name := name
  kind := kind
  file := file
  line := node.startPosition.row + 1
  column := node.startPosition.column
  endLine := node.endPosition.row + 1
  visibility := visibility
  children := children
  doc := doc
  body := some body
  signature := some signature

end SymbolAt

end CodeQuery.Parse
