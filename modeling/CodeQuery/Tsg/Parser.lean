/-
  CodeQuery.Tsg.Parser — the parser of graph rules (`tree-sitter-graph/src/parser.rs`).

  The parser goes through the characters of a file once, and keeps the offset and the location of
  the next one (`Cursor`). It is a recursive descent: an expression is parsed with the parser
  of its parts, a statement with the parser of its block, each nested to some depth. Queries and
  regular expressions are compiled elsewhere (`Grammar`); of a query the parser only finds where
  it ends.

  What it gives is what the checker and the executions work on: the globals, the inherited
  variables, the shorthands and the stanzas of a file. A name, once parsed, has no location of
  its own here, only the variables of statements and the edges have.
-/

import CodeQuery.Data.Results
import CodeQuery.Text.Chars
import CodeQuery.Text.Identifiers
import CodeQuery.Tsg.Checker

namespace CodeQuery.Tsg

/-- Advance over a character. -/
def Location.advance (l : Location) (c : Char) : Location := if c = '\n' then ⟨l.row + 1, 0⟩ else ⟨l.row, l.column + 1⟩

end CodeQuery.Tsg

namespace CodeQuery.Tsg.Parser

open Checker

/-- The letters of every script, among its letters and digits. -/
structure Letters extends Text.Alphanumeric where
  isAlphabetic : Char → Bool
  alphanumeric : ∀ c, isAlphabetic c = true → isAlphanumeric c = true
  ofAscii : ∀ c : Char, c.toNat < 128 → isAlphabetic c = c.isAlpha ∧ isAlphanumeric c = c.isAlphanum
  notWhitespace : ∀ c, isAlphanumeric c = true → Text.isWhitespace c = false

/-- A query that was compiled: how many patterns it has, and its captures. -/
structure Query where
  patternCount : Nat
  captures : List (Identifier × Quantifier)

/-- Where a query cannot be compiled. -/
structure QueryError where
  row : Nat
  column : Nat
  offset : Nat

/-- What the parser is given: the classes of characters, and the compilers of queries and of regular
    expressions. -/
structure Grammar where
  letters : Letters
  newQuery : List Char → Except QueryError Query
  newRegex : Regex → Bool

inductive ParseError where
  | expectedQuantifier (location : Location)
  | expectedToken (token : String) (location : Location)
  | expectedVariable (location : Location)
  | expectedUnscopedVariable (location : Location)
  | invalidRegex (pattern : String) (location : Location)
  | invalidRegexCapture (location : Location)
  | queryError (error : QueryError)
  | unexpectedCharacter (c : Char) (within : String) (location : Location)
  | unexpectedEOF (location : Location)
  | unexpectedKeyword (keyword : String) (location : Location)
  | unexpectedLiteral (literal : String) (location : Location)
  | unexpectedQueryPatterns (location : Location)
  | check (error : CheckError)
  /-- A number that does not fit, the queries of all stanzas that do not compile as one, or a query
      without the capture that was put behind it. -/
  | panicked
  | outOfFuel

/-! ## The cursor -/

/-- The characters that are left, with the offset in bytes and the location of the first of them. -/
structure Cursor where
  rest : List Char
  offset : Nat
  location : Location

namespace Cursor

def start (source : List Char) : Cursor := ⟨source, 0, ⟨0, 0⟩⟩

/-- The cursor after a number of characters. -/
def pass : Nat → Cursor → Cursor
  | 0, s => s
  | n + 1, s =>
    match s.rest with
    | [] => s
    | c :: rest => pass n ⟨rest, s.offset + c.utf8Size, s.location.advance c⟩

end Cursor

abbrev Parsing : Type → Type := StateT Cursor (Except ParseError)

def peek : Parsing Char := fun s =>
  match s.rest with
  | [] => .error (.unexpectedEOF s.location)
  | c :: _ => .ok (c, s)

def tryPeek : Parsing (Option Char) := fun s => .ok (s.rest.head?, s)

def next : Parsing Char := fun s =>
  match s.rest with
  | [] => .error (.unexpectedEOF s.location)
  | c :: _ => .ok (c, s.pass 1)

def location : Parsing Location := fun s => .ok (s.location, s)

/-- How many characters of blanks and comments there are, in a comment or not. -/
def blanks : Bool → List Char → Nat
  | _, [] => 0
  | true, c :: rest => blanks (c != '\n') rest + 1
  | false, c :: rest =>
    if c = ';' then blanks true rest + 1
    else if Text.isWhitespace c then blanks false rest + 1
    else 0

def consumeWhitespace : Parsing Unit := fun s => .ok ((), s.pass (blanks false s.rest))

/-- The characters as long as they are of a kind. -/
def consumeWhile (f : Char → Bool) : Parsing (List Char) := fun s =>
  let taken := s.rest.takeWhile f
  .ok (taken, s.pass taken.length)

def consumeToken (token : String) : Parsing Unit := fun s =>
  if token.toList.isPrefixOf s.rest then .ok ((), s.pass token.length) else .error (.expectedToken token s.location)

/-- Whether a token could be consumed. -/
def tryToken (token : String) : Parsing Bool := fun s =>
  match consumeToken token s with
  | .ok (_, s') => .ok (true, s')
  | .error _ => .ok (false, s)

variable (G : Grammar)

def isIdentStart (c : Char) : Bool := c == '_' || G.letters.isAlphabetic c

def isIdent (c : Char) : Bool := c == '_' || c == '-' || G.letters.isAlphanumeric c

/-! ## Names, strings and numbers -/

/-- The rest of a name whose first character is next. -/
def nameOf (within : String) : Parsing String := do
  let c ← next
  if isIdentStart G c then do
    let cs ← consumeWhile (isIdent G)
    return String.ofList (c :: cs)
  else do
    let l ← location
    throw (.unexpectedCharacter c within l)

def parseName (within : String) : Parsing String := nameOf G within

def parseIdentifier (within : String) : Parsing Identifier := parseName G within

/-- The character that an escape stands for. -/
def unescape (c : Char) : Char :=
  if c = '0' then '\x00' else if c = 'n' then '\n' else if c = 'r' then '\r' else if c = 't' then '\t' else c

/-- The characters of a string up to its closing quote, behind a backslash or not, and how many
    characters it took. -/
def stringBody : Bool → List Char → Option (List Char × Nat)
  | _, [] => none
  | true, c :: rest => (stringBody false rest).map fun r => (unescape c :: r.1, r.2 + 1)
  | false, c :: rest =>
    if c = '"' then some ([], 1)
    else if c = '\\' then (stringBody true rest).map fun r => (r.1, r.2 + 1)
    else (stringBody false rest).map fun r => (c :: r.1, r.2 + 1)

def parseStringBody : Parsing String := fun s =>
  match stringBody false s.rest with
  | none => .error (.unexpectedEOF (s.pass s.rest.length).location)
  | some (value, n) => .ok (String.ofList value, s.pass n)

def parseString : Parsing String := do
  consumeToken "\""
  parseStringBody

/-- The digits that are next, as a number below a bound. -/
def number (bound : Nat) (digits : List Char) : Except ParseError Nat :=
  if Nat.ofDigitChars 10 digits 0 < bound then .ok (Nat.ofDigitChars 10 digits 0) else .error .panicked

def parseIntegerConstant : Parsing Expression := do
  let digits ← consumeWhile Char.isDigit
  let value ← liftM (number (2 ^ 32) digits)
  return .integerConstant value

def parseRegexCapture : Parsing Expression := do
  let l ← location
  consumeToken "$"
  let digits ← consumeWhile Char.isDigit
  if digits = [] then throw (.invalidRegexCapture l)
  else do
    let matchIndex ← liftM (number (2 ^ 64) digits)
    return .regexCapture matchIndex

def parseLiteral : Parsing Expression := do
  let l ← location
  consumeToken "#"
  let literal ← parseName G "literal"
  if literal = "false" then return .falseLiteral
  else if literal = "null" then return .nullLiteral
  else if literal = "true" then return .trueLiteral
  else throw (.unexpectedLiteral literal l)

def parseCapture : Parsing Expression := do
  consumeToken "@"
  let name ← nameOf G "query capture"
  return .capture name

/-! ## Expressions -/

/-- An expression with the location it has; one that has none, with the location of its first character. -/
abbrev Located : Type := Expression × Location

section Parts

-- the parser of an expression inside another
variable (expression : Parsing Located)

def parseVariable : Parsing Variable := do
  let l ← location
  let e ← expression
  match e.1 with
  | .scopedVariable scope name => return .scoped scope name e.2
  | .unscopedVariable name => return .unscoped name e.2
  | _ => throw (.expectedVariable l)

def parseUnscopedVariable : Parsing Identifier := do
  let var ← parseVariable expression
  match var with
  | .unscoped name _ => return name
  | .scoped _ _ l => throw (.expectedUnscopedVariable l)

/-- The parameters of a call, up to its closing parenthesis. -/
def parseParameters : Nat → Parsing (List Expression)
  | 0 => throw .outOfFuel
  | n + 1 => do
    let c ← peek
    if c = ')' then return []
    else do
      let e ← expression
      consumeWhitespace
      let es ← parseParameters n
      return e.1 :: es

/-- Run a loop with a bound: each turn takes a character at least. -/
def bounded {α : Type} (loop : Nat → Parsing α) : Parsing α := fun s => loop (s.rest.length + 1) s

def parseCall : Parsing Expression := do
  consumeToken "("
  consumeWhitespace
  let function ← parseIdentifier G "function name"
  consumeWhitespace
  let parameters ← bounded (parseParameters expression)
  consumeToken ")"
  return .call function parameters

/-- The elements behind the first, up to the end marker. A comma may be the last. -/
def parseSequence (marker : Char) : Nat → Parsing (List Expression)
  | 0 => throw .outOfFuel
  | n + 1 => do
    let c ← peek
    if c = marker then return []
    else do
      let e ← expression
      consumeWhitespace
      let c' ← peek
      if c' = marker then return [e.1]
      else do
        consumeToken ","
        consumeWhitespace
        let es ← parseSequence marker n
        return e.1 :: es

/-- A list or a set, by its brackets: a literal or a comprehension. -/
def parseCollection (opening closing : String) (marker : Char) (literal : List Expression → Expression)
    (comprehension : Expression → Identifier → Expression → Expression) : Parsing Expression := do
  consumeToken opening
  consumeWhitespace
  let isEmpty ← tryToken closing
  if isEmpty then return literal []
  else do
    let first ← expression
    consumeWhitespace
    let isSingle ← tryToken closing
    if isSingle then return literal [first.1]
    else do
      let isLiteral ← tryToken ","
      if isLiteral then do
        consumeWhitespace
        let elements ← bounded (parseSequence expression marker)
        consumeWhitespace
        consumeToken closing
        return literal (first.1 :: elements)
      else do
        consumeToken "for"
        consumeWhitespace
        let var ← parseUnscopedVariable expression
        consumeWhitespace
        consumeToken "in"
        consumeWhitespace
        let value ← expression
        consumeWhitespace
        consumeToken closing
        return comprehension first.1 var value.1

def parseList : Parsing Expression := parseCollection expression "[" "]" ']' .listLiteral .listComprehension

def parseSet : Parsing Expression := parseCollection expression "\x7b" "\x7d" '\x7d' .setLiteral .setComprehension

/-- What an expression is up to the first dot, by its first character. -/
def parseByChar (c : Char) (l : Location) : Parsing Expression :=
  if c = '#' then parseLiteral G
  else if c = '"' then do
    let text ← parseString
    return .stringConstant text
  else if c = '@' then parseCapture G
  else if c = '$' then parseRegexCapture
  else if c = '(' then parseCall G expression
  else if c = '[' then parseList expression
  else if c = '\x7b' then parseSet expression
  else if c.isDigit then parseIntegerConstant
  else if isIdentStart G c then do
    let name ← parseIdentifier G "variable name"
    return .unscopedVariable name
  else throw (.unexpectedCharacter c "expression" l)

def parsePrimary : Parsing Located := do
  let l ← location
  let c ← peek
  let e ← parseByChar G expression c l
  return (e, l)

end Parts

/-- The scoped variables behind an expression, each a dot and a name. -/
def parseScoped : Nat → Located → Parsing Located
  | 0, _ => throw .outOfFuel
  | n + 1, e => do
    let c ← tryPeek
    if c = some '.' then do
      let _ ← next
      consumeWhitespace
      let l ← location
      let name ← parseIdentifier G "scoped variable name"
      consumeWhitespace
      parseScoped n (.scopedVariable e.1 name, l)
    else return e

/-- An expression, with others nested in it to a depth. -/
def parseLocated : Nat → Parsing Located
  | 0 => throw .outOfFuel
  | depth + 1 => do
    let e ← parsePrimary G (parseLocated depth)
    consumeWhitespace
    bounded fun n => parseScoped G n e

/-- An expression: every expression nested in another takes a character at least. -/
def parseExpression : Parsing Located := bounded (parseLocated G)

/-! ## Statements -/

def parseAttribute : Parsing Attribute := do
  let name ← parseIdentifier G "attribute name"
  consumeWhitespace
  let c ← tryPeek
  if c = some '=' then do
    consumeToken "="
    consumeWhitespace
    let value ← parseExpression G
    return ⟨name, value.1⟩
  else return ⟨name, .trueLiteral⟩

/-- Items with commas between them. -/
def parseCommaSeparated {α : Type} (item : Parsing α) : Nat → Parsing (List α)
  | 0 => throw .outOfFuel
  | n + 1 => do
    let a ← item
    consumeWhitespace
    let c ← tryPeek
    if c = some ',' then do
      let _ ← next
      consumeWhitespace
      let as ← parseCommaSeparated item n
      return a :: as
    else return [a]

def parseAttributes : Parsing (List Attribute) := bounded (parseCommaSeparated (parseAttribute G))

/-- The expression of a condition without a word before it. -/
def parseBare (l : Location) : Parsing Located := fun s =>
  match parseExpression G s with
  | .ok r => .ok r
  | .error .outOfFuel => .error .outOfFuel
  | .error .panicked => .error .panicked
  | .error _ => .error (.expectedToken "(some|none)? EXPRESSION" l)

/-- A condition. A variable whose name begins with one of the two words is read as the word and a
    shorter name. -/
def parseCondition : Parsing Condition := do
  let l ← location
  let isSome ← tryToken "some"
  if isSome then do
    consumeWhitespace
    let e ← parseExpression G
    consumeWhitespace
    return .some e.1
  else do
    let isNone ← tryToken "none"
    if isNone then do
      consumeWhitespace
      let e ← parseExpression G
      consumeWhitespace
      return .none e.1
    else do
      let e ← parseBare G l
      consumeWhitespace
      return .bool e.1

def parseConditions : Parsing (List Condition) := bounded (parseCommaSeparated (parseCondition G))

section Blocks

-- the parser of a statement inside another
variable (statement : Parsing Statement)

/-- Items up to a closing brace. -/
def untilBrace {α : Type} (item : Parsing α) : Nat → Parsing (List α)
  | 0 => throw .outOfFuel
  | n + 1 => do
    let c ← peek
    if c = '\x7d' then return []
    else do
      let a ← item
      consumeWhitespace
      let as ← untilBrace item n
      return a :: as

def parseStatements : Parsing (List Statement) := do
  consumeToken "\x7b"
  consumeWhitespace
  let statements ← bounded (untilBrace statement)
  consumeToken "\x7d"
  return statements

/-- An arm of a scan. -/
def parseScanArm : Parsing (Regex × List Statement) := do
  let l ← location
  let pattern ← parseString
  if G.newRegex pattern then do
    consumeWhitespace
    let statements ← parseStatements statement
    return (pattern, statements)
  else throw (.invalidRegex pattern l)

/-- An arm of a conditional behind its keyword. -/
def parseIfArm : Parsing (List Condition × List Statement) := do
  consumeWhitespace
  let conditions ← parseConditions G
  consumeWhitespace
  let statements ← parseStatements statement
  consumeWhitespace
  return (conditions, statements)

/-- The arms behind the first one, the last of which may have no conditions. -/
def parseIfArms : Nat → Parsing (List (List Condition × List Statement))
  | 0 => throw .outOfFuel
  | n + 1 => do
    let isElif ← tryToken "elif"
    if isElif then do
      let arm ← parseIfArm G statement
      let arms ← parseIfArms n
      return arm :: arms
    else do
      let isElse ← tryToken "else"
      if isElse then do
        consumeWhitespace
        let statements ← parseStatements statement
        consumeWhitespace
        return [([], statements)]
      else return []

/-- The variable and the value of a declaration or an assignment. -/
def parseBinding (make : Variable → Expression → Statement) : Parsing Statement := do
  let var ← parseVariable (parseExpression G)
  consumeWhitespace
  consumeToken "="
  consumeWhitespace
  let value ← parseExpression G
  return make var value.1

/-- The element of an attribute statement, and its attributes. -/
def parseAttr : Parsing Statement := do
  consumeToken "("
  consumeWhitespace
  let element ← parseExpression G
  consumeWhitespace
  let c ← peek
  if c = '-' then do
    consumeToken "->"
    consumeWhitespace
    let sink ← parseExpression G
    consumeWhitespace
    consumeToken ")"
    consumeWhitespace
    let attributes ← parseAttributes G
    return .addEdgeAttribute element.1 sink.1 attributes
  else do
    consumeWhitespace
    consumeToken ")"
    consumeWhitespace
    let attributes ← parseAttributes G
    return .addGraphNodeAttribute element.1 attributes

/-- What follows the keyword of a statement. -/
def parseKeyword (keyword : String) (l : Location) : Parsing Statement :=
  if keyword = "let" then parseBinding G .declareImmutable
  else if keyword = "var" then parseBinding G .declareMutable
  else if keyword = "set" then parseBinding G .assign
  else if keyword = "node" then do
    let node ← parseVariable (parseExpression G)
    return .createGraphNode node
  else if keyword = "edge" then do
    let source ← parseExpression G
    consumeWhitespace
    consumeToken "->"
    consumeWhitespace
    let sink ← parseExpression G
    return .createEdge source.1 sink.1 l
  else if keyword = "attr" then parseAttr G
  else if keyword = "print" then do
    let values ← bounded (parseCommaSeparated (parseExpression G))
    consumeWhitespace
    return .print (values.map Prod.fst)
  else if keyword = "scan" then do
    let value ← parseExpression G
    consumeWhitespace
    consumeToken "\x7b"
    consumeWhitespace
    let arms ← bounded (untilBrace (parseScanArm G statement))
    consumeToken "\x7d"
    return .scan value.1 arms
  else if keyword = "if" then do
    let arm ← parseIfArm G statement
    let arms ← bounded (parseIfArms G statement)
    return .ifs (arm :: arms)
  else if keyword = "for" then do
    consumeWhitespace
    let var ← parseUnscopedVariable (parseExpression G)
    consumeWhitespace
    consumeToken "in"
    consumeWhitespace
    let value ← parseExpression G
    consumeWhitespace
    let statements ← parseStatements statement
    return .forIn var value.1 statements
  else throw (.unexpectedKeyword keyword l)

end Blocks

/-- A statement, with others nested in it to a depth. -/
def parseNested : Nat → Parsing Statement
  | 0 => throw .outOfFuel
  | depth + 1 => do
    let l ← location
    let keyword ← parseName G "keyword"
    consumeWhitespace
    parseKeyword G (parseNested depth) keyword l

def parseStatement : Parsing Statement := bounded (parseNested G)

/-! ## Stanzas and files -/

inductive QueryState where
  | plain
  | string
  | escape
  | comment

/-- How many characters of a query are left before the brace that opens the statements. Parentheses
    have no part in it. -/
def queryLength : QueryState → List Char → Option Nat
  | _, [] => none
  | .escape, _ :: rest => (queryLength .string rest).map (· + 1)
  | .string, c :: rest =>
    (queryLength (if c = '\\' then .escape else if c = '"' ∨ c = '\n' then .plain else .string) rest).map (· + 1)
  | .comment, c :: rest => (queryLength (if c = '\n' then .plain else .comment) rest).map (· + 1)
  | .plain, c :: rest =>
    if c = '\x7b' then some 0
    else (queryLength (if c = '"' then .string else if c = ';' then .comment else .plain) rest).map (· + 1)

def fullMatch : String := "__tsg__full_match"

/-- What is compiled of a query: its text, and a capture of the full match. -/
def withFullMatch (query : List Char) : List Char := query ++ '@' :: fullMatch.toList

/-- The query has a capture of the full match, which is looked up. -/
def Query.hasFullMatch (q : Query) : Bool := q.captures.any fun c => c.1 = fullMatch

/-- An error in a query that begins where the cursor stands: the first row of the query is part of a
    row of the file. -/
def QueryError.shift (e : QueryError) (s : Cursor) : QueryError :=
  ⟨e.row + s.location.row, if e.row = 0 then e.column + s.location.column else e.column, e.offset + s.offset⟩

/-- A query, compiled with a capture of the full match, and its source. -/
def parseQuery : Parsing (Query × List Char) := fun s =>
  match queryLength .plain s.rest with
  | none => .error (.unexpectedEOF (s.pass s.rest.length).location)
  | some n =>
    let source := withFullMatch (s.rest.take n)
    match G.newQuery source with
    | .error e => .error (.queryError (e.shift s))
    | .ok query =>
      if 1 < query.patternCount then .error (.unexpectedQueryPatterns s.location)
      else if query.hasFullMatch then .ok ((query, source), s.pass n)
      else .error .panicked

/-- A stanza, with the source of its query. The capture of the full match is none of its captures. -/
def parseStanza : Parsing (Stanza × List Char) := do
  let query ← parseQuery G
  consumeWhitespace
  let statements ← parseStatements (parseStatement G)
  return (⟨query.1.captures.filter fun c => c.1 ≠ fullMatch, statements⟩, query.2)

def parseQuantifier : Parsing Quantifier := do
  let c ← tryPeek
  match c with
  | none => return .one
  | some c => do
    let _ ← next
    if c = '?' then return .zeroOrOne
    else if c = '*' then return .zeroOrMore
    else if c = '+' then return .oneOrMore
    else if Text.isWhitespace c then return .one
    else do
      let l ← location
      throw (.expectedQuantifier l)

def parseGlobal : Parsing Global := do
  let name ← parseIdentifier G "global variable"
  let quantifier ← parseQuantifier
  consumeWhitespace
  let hasDefault ← tryToken "="
  if hasDefault then do
    consumeWhitespace
    let default ← parseString
    return ⟨name, quantifier, some default⟩
  else return ⟨name, quantifier, none⟩

def parseShorthand : Parsing (Identifier × AttributeShorthand) := do
  let name ← parseIdentifier G "shorthand name"
  consumeWhitespace
  consumeToken "="
  consumeWhitespace
  let var ← parseUnscopedVariable (parseExpression G)
  consumeWhitespace
  consumeToken "=>"
  consumeWhitespace
  let attributes ← parseAttributes G
  return (name, ⟨var, attributes⟩)

/-- A file as it is parsed, with the sources of its queries one after another. -/
structure ParsedFile where
  shorthands : Identifier → Option AttributeShorthand
  globals : List Global
  inheritedVariables : List Identifier
  stanzas : List Stanza
  querySource : List Char

namespace ParsedFile

def new : ParsedFile := ⟨fun _ => none, [], [], [], []⟩

def addShorthand (f : ParsedFile) (sh : Identifier × AttributeShorthand) : ParsedFile :=
  { f with shorthands := Function.update f.shorthands sh.1 (some sh.2) }

def addGlobal (f : ParsedFile) (g : Global) : ParsedFile := { f with globals := f.globals ++ [g] }

def addInherited (f : ParsedFile) (name : Identifier) : ParsedFile :=
  { f with inheritedVariables := f.inheritedVariables ++ [name] }

def addStanza (f : ParsedFile) (stanza : Stanza × List Char) : ParsedFile :=
  { f with stanzas := f.stanzas ++ [stanza.1], querySource := f.querySource ++ stanza.2 ++ ['\n'] }

end ParsedFile

/-- One declaration or stanza of a file. -/
def parseItem (file : ParsedFile) : Parsing ParsedFile := do
  let isAttribute ← tryToken "attribute"
  if isAttribute then do
    consumeWhitespace
    let sh ← parseShorthand G
    return file.addShorthand sh
  else do
    let isGlobal ← tryToken "global"
    if isGlobal then do
      consumeWhitespace
      let g ← parseGlobal G
      return file.addGlobal g
    else do
      let isInherit ← tryToken "inherit"
      if isInherit then do
        consumeWhitespace
        consumeToken "."
        let name ← parseIdentifier G "inherit"
        return file.addInherited name
      else do
        let stanza ← parseStanza G
        return file.addStanza stanza

def parseItems : Nat → ParsedFile → Parsing ParsedFile
  | 0, _ => throw .outOfFuel
  | n + 1, file => do
    let c ← tryPeek
    match c with
    | none => return file
    | some _ => do
      let file' ← parseItem G file
      consumeWhitespace
      parseItems n file'

/-- Parse a file. The queries of its stanzas are compiled once more as one. -/
def parseIntoFile (file : ParsedFile) : Parsing ParsedFile := do
  consumeWhitespace
  let file' ← bounded fun n => parseItems G n file
  match G.newQuery file'.querySource with
  | .error _ => throw .panicked
  | .ok _ => return file'

/-- For the first stanza the checker looks up the capture of the full match in the query of all, behind
    the globals. -/
def lacksFullMatch (file : ParsedFile) : Bool :=
  !file.stanzas.isEmpty && (declareGlobals file.globals fun _ => none).isOk &&
    match G.newQuery file.querySource with
    | .error _ => false
    | .ok query => !query.hasFullMatch

/-- Parse a file and check it. -/
def fromStr (regexMatch : Regex → List Char → Option RegexMatch) (source : List Char) : Except ParseError ParsedFile := do
  let r ← parseIntoFile G .new (.start source)
  if lacksFullMatch G r.1 then .error .panicked
  else
    match (File.mk r.1.globals r.1.stanzas).check regexMatch with
    | .error e => .error (.check e)
    | .ok _ => .ok r.1

end CodeQuery.Tsg.Parser
