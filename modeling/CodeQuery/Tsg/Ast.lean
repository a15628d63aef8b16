/-
  CodeQuery.Tsg.Ast — the syntax of graph rules, and what an execution of them is given
  (`tree-sitter-graph/src/ast.rs`, `variables.rs`, `execution.rs`).

  A file of rules is a list of stanzas. Each match of a stanza's query is executed by its
  statements, under a configuration: the functions, the global variables, the names for
  debug attributes, the regular expressions' matcher, the syntax tree (by each node's
  ancestors), and the file's own inherited variables and attribute shorthands. The text
  of an expression (`displayExpression`) is what a debug attribute names a variable by. Local
  variables live in nested environments (`Scopes`), the innermost first.
-/

import Mathlib.Data.Nat.Digits.Defs
import CodeQuery.Tsg.Graph

namespace CodeQuery.Tsg

inductive Quantifier where
  | zero
  | zeroOrOne
  | zeroOrMore
  | one
  | oneOrMore
deriving DecidableEq

structure Location where
  row : Nat
  column : Nat
deriving DecidableEq

/-- An expression. The two kinds of variable are cases of their own. -/
inductive Expression where
  | falseLiteral
  | nullLiteral
  | trueLiteral
  | integerConstant (value : Nat)
  | stringConstant (value : String)
  | listLiteral (elements : List Expression)
  | setLiteral (elements : List Expression)
  | listComprehension (element : Expression) (var : Identifier) (value : Expression)
  | setComprehension (element : Expression) (var : Identifier) (value : Expression)
  | capture (name : Identifier)
  | scopedVariable (scope : Expression) (name : Identifier)
  | unscopedVariable (name : Identifier)
  | call (function : Identifier) (parameters : List Expression)
  | regexCapture (matchIndex : Nat)

/-! ## The text of an expression -/

/-- How an expression is written: which characters of a string stand as they are, and whether the truth
    values have their sharp sign, as in a file, or not, as they are displayed. -/
structure Form where
  printable : Char → Bool
  sharp : Bool

section Text

variable (printable : Char → Bool) (form : Form)

/-- A character with an escape of its own. -/
def isNamed (c : Char) : Bool := c == '\x00' || c == '\t' || c == '\r' || c == '\n' || c == '\\' || c == '"'

/-- The letter of a character's own escape. -/
def escapeName (c : Char) : Char :=
  if c = '\x00' then '0' else if c = '\t' then 't' else if c = '\r' then 'r' else if c = '\n' then 'n' else c

/-- The number of a character as it is shown behind a backslash. -/
def numbered (c : Char) : List Char := 'u' :: '\x7b' :: ((Nat.digits 16 c.toNat).reverse.map Nat.digitChar ++ ['\x7d'])

/-- A character in the debug form of a string. -/
def debugChar (c : Char) : List Char :=
  if isNamed c then ['\\', escapeName c] else if printable c then [c] else '\\' :: numbered c

/-- `{:?}` of a string. -/
def debugString (s : String) : List Char := '"' :: (s.toList.flatMap (debugChar printable) ++ ['"'])

def truthText : Bool → String → List Char
  | true, name => '#' :: name.toList
  | false, name => name.toList

mutual

/-- `Display` of an expression, and its text in a file. -/
def displayExpression : Expression → List Char
  | .falseLiteral => truthText form.sharp "false"
  | .nullLiteral => '#' :: "null".toList
  | .trueLiteral => truthText form.sharp "true"
  | .integerConstant value => Nat.toDigits 10 value
  | .stringConstant value => debugString form.printable value
  | .listLiteral elements => '[' :: (displaySequence elements ++ [']'])
  | .setLiteral elements => '\x7b' :: (displaySequence elements ++ ['\x7d'])
  | .listComprehension element var value =>
    "[ ".toList ++ (displayExpression element ++
      (" for ".toList ++ (var.toList ++ (" in ".toList ++ (displayExpression value ++ " ]".toList)))))
  | .setComprehension element var value =>
    "\x7b ".toList ++ (displayExpression element ++
      (" for ".toList ++ (var.toList ++ (" in ".toList ++ (displayExpression value ++ " \x7d".toList)))))
  | .capture name => '@' :: name.toList
  | .scopedVariable scope name => displayExpression scope ++ '.' :: name.toList
  | .unscopedVariable name => name.toList
  | .call function parameters => '(' :: (function.toList ++ (displayArguments parameters ++ [')']))
  | .regexCapture matchIndex => '$' :: Nat.toDigits 10 matchIndex

/-- Elements with commas between them. -/
def displaySequence : List Expression → List Char
  | [] => []
  | e :: es => displayExpression e ++ displayTail es

/-- Elements with a comma before each. -/
def displayTail : List Expression → List Char
  | [] => []
  | e :: es => ", ".toList ++ (displayExpression e ++ displayTail es)

/-- Arguments with a space before each. -/
def displayArguments : List Expression → List Char
  | [] => []
  | e :: es => ' ' :: (displayExpression e ++ displayArguments es)

end

end Text

/-- A variable that a statement declares or assigns. -/
inductive Variable where
  | scoped (scope : Expression) (name : Identifier) (location : Location)
  | unscoped (name : Identifier) (location : Location)

/-- `Display` of a variable. -/
def Variable.display (printable : Char → Bool) : Variable → String
  | .scoped scope name _ => String.ofList (displayExpression ⟨printable, false⟩ (.scopedVariable scope name))
  | .unscoped name _ => name

/-! ## Statements, and what executes them -/

structure Attribute where
  name : Identifier
  value : Expression

structure AttributeShorthand where
  var : Identifier
  attributes : List Attribute

inductive Condition where
  | some (value : Expression)
  | none (value : Expression)
  | bool (value : Expression)

/-- A regular expression by its source. -/
abbrev Regex : Type := String

/-- A statement. An arm of a scan is its regular expression and its statements, an arm of a
    conditional its conditions and its statements. -/
inductive Statement where
  | declareImmutable (var : Variable) (value : Expression)
  | declareMutable (var : Variable) (value : Expression)
  | assign (var : Variable) (value : Expression)
  | createGraphNode (node : Variable)
  | addGraphNodeAttribute (node : Expression) (attributes : List Attribute)
  | createEdge (source sink : Expression) (location : Location)
  | addEdgeAttribute (source sink : Expression) (attributes : List Attribute)
  | scan (value : Expression) (arms : List (Regex × List Statement))
  | print (values : List Expression)
  | ifs (arms : List (List Condition × List Statement))
  | forIn (var : Identifier) (value : Expression) (statements : List Statement)

/-- A stanza, with the captures of its query. -/
structure Stanza where
  captures : List (Identifier × Quantifier)
  statements : List Statement

/-- The nodes that a match of a query gives to its captures, and the node of the whole match. -/
structure QueryMatch where
  full : SyntaxNodeRef
  nodes : Identifier → List SyntaxNodeRef

structure Global where
  name : Identifier
  quantifier : Quantifier
  default : Option String

/-- What a regular expression matches: where, and the text of each group. -/
structure RegexMatch where
  start : Nat
  stop : Nat
  groups : List (Option String)

/-- What an execution is given. -/
structure Config where
  /-- The functions, by name; a call may fail. What one gives depends on its arguments and the syntax
      tree, and none changes the graph. So are those of the standard library, but for `node`, which
      adds a graph node. -/
  call : Identifier → List Value → Option Value
  globals : Identifier → Option Value
  locationAttr : Option Identifier
  variableNameAttr : Option Identifier
  matchNodeAttr : Option Identifier
  /-- The characters that the debug form of a string shows as they are. -/
  printable : Char → Bool
  regexMatch : Regex → List Char → Option RegexMatch
  /-- The ancestors of a node, the nearest first. -/
  ancestors : SyntaxNodeRef → List SyntaxNodeRef
  inheritedVariables : List Identifier
  shorthands : Identifier → Option AttributeShorthand

/-- The surroundings of a statement. -/
structure Context where
  config : Config
  stanza : Stanza
  mat : QueryMatch
  regexCaptures : List String

namespace Value

/-- The value of a capture, by its quantifier. -/
def fromNodes (nodes : List SyntaxNodeRef) : Quantifier → Except ExecutionError Value
  | .zero => .error .panicked
  | .one =>
    match nodes with
    | [] => .error .panicked
    | n :: _ => .ok (.syntaxNode n)
  | .zeroOrMore => .ok (.list (nodes.map .syntaxNode))
  | .oneOrMore => .ok (.list (nodes.map .syntaxNode))
  | .zeroOrOne =>
    match nodes with
    | [] => .ok .null
    | n :: _ => .ok (.syntaxNode n)

end Value

namespace Context

/-- The value of a capture; the checker gave the capture its quantifier. -/
def capture (ctx : Context) (name : Identifier) : Except ExecutionError Value :=
  match ctx.stanza.captures.lookup name with
  | none => .error .panicked
  | some quantifier => Value.fromNodes (ctx.mat.nodes name) quantifier

/-- The surroundings of a shorthand's attributes. The checker leaves shorthands out, so their
    captures have no quantifier. -/
def ofShorthand (ctx : Context) : Context := { ctx with stanza := { ctx.stanza with captures := [] } }

end Context

/-! ## Debug attributes -/

def locationText (l : Location) : String := "line " ++ toString (l.row + 1) ++ " column " ++ toString (l.column + 1)

namespace Attributes

/-- Add an attribute under a name that may not be configured. -/
def addOptional (a : Attributes) (name : Option Identifier) (value : Value) : Except ExecutionError Attributes :=
  match name with
  | none => .ok a
  | some name => a.add name value

end Attributes

/-- The debug attributes of an edge. -/
def edgeDebugAttrs (config : Config) (location : Location) (a : Attributes) : Except ExecutionError Attributes :=
  a.addOptional config.locationAttr (.string (locationText location))

namespace Variable

def location : Variable → Location
  | .scoped _ _ l => l
  | .unscoped _ l => l

/-- The debug attributes of the node created for a variable, and the node of the match. -/
def nodeAttrs (v : Variable) (config : Config) (full : SyntaxNodeRef) : Except ExecutionError Attributes := do
  let a ← Attributes.empty.addOptional config.variableNameAttr (.string (v.display config.printable))
  let a ← a.addOptional config.locationAttr (.string (locationText v.location))
  a.addOptional config.matchNodeAttr (.syntaxNode full)

end Variable

/-! ## Local variables -/

/-- One environment: each variable's value, and whether it can be assigned. -/
abbrev VariableMap (V : Type) : Type := Identifier → Option (V × Bool)

/-- Nested environments, the innermost first. -/
abbrev Scopes (V : Type) : Type := List (VariableMap V)

inductive VariableError where
  | cannotAssignImmutableVariable
  | variableAlreadyDefined
  | undefinedVariable
deriving DecidableEq

namespace Scopes

variable {V : Type}

def new : Scopes V := [fun _ => none]

def nested (s : Scopes V) : Scopes V := (fun _ => none) :: s

def get : Scopes V → Identifier → Option V
  | [], _ => none
  | m :: s, name =>
    match m name with
    | some v => some v.1
    | none => get s name

def add (s : Scopes V) (name : Identifier) (value : V) (isMutable : Bool) : Except VariableError (Scopes V) :=
  match s with
  | [] => .error .undefinedVariable
  | m :: s =>
    match m name with
    | none => .ok (Function.update m name (some (value, isMutable)) :: s)
    | some _ => .error .variableAlreadyDefined

def set : Scopes V → Identifier → V → Except VariableError (Scopes V)
  | [], _, _ => .error .undefinedVariable
  | m :: s, name, value =>
    match m name with
    | none =>
      match set s name value with
      | .error e => .error e
      | .ok s' => .ok (m :: s')
    | some (_, true) => .ok (Function.update m name (some (value, true)) :: s)
    | some (_, false) => .error .cannotAssignImmutableVariable

end Scopes

namespace Config

variable {V : Type}

def callFunction (config : Config) (function : Identifier) (arguments : List Value) : Except ExecutionError Value :=
  match config.call function arguments with
  | some v => .ok v
  | none => .error (.functionFailed function)

/-- Declare a local variable; one that hides a global is refused. -/
def addLocal (config : Config) (s : Scopes V) (name : Identifier) (value : V) (isMutable : Bool) :
    Except ExecutionError (Scopes V) :=
  match config.globals name with
  | some _ => .error (.duplicateVariable name)
  | none =>
    match s.add name value isMutable with
    | .error _ => .error (.duplicateVariable name)
    | .ok s' => .ok s'

/-- Assign a local variable. -/
def setLocal (config : Config) (s : Scopes V) (name : Identifier) (value : V) : Except ExecutionError (Scopes V) :=
  match config.globals name with
  | some _ => .error (.cannotAssignImmutableVariable name)
  | none =>
    match s.set name value with
    | .error _ => .error (if (s.get name).isSome then .cannotAssignImmutableVariable name else .undefinedVariable name)
    | .ok s' => .ok s'

end Config

/-- The globals that are declared: each is given, or has a default; a list is checked to be one. -/
def checkGlobals : List Global → (Identifier → Option Value) → Except ExecutionError (Identifier → Option Value)
  | [], globals => .ok globals
  | g :: gs, globals =>
    match globals g.name with
    | none =>
      match g.default with
      | some d => checkGlobals gs (Function.update globals g.name (some (.string d)))
      | none => .error (.missingGlobalVariable g.name)
    | some value =>
      if g.quantifier = .zeroOrMore ∨ g.quantifier = .oneOrMore then
        match value.intoList with
        | .error _ => .error (.expectedList (some g.name))
        | .ok _ => checkGlobals gs globals
      else checkGlobals gs globals

/-! ## Scans -/

/-- The match of each arm with the rest of the text. A match of nothing is an error. -/
def armMatches (config : Config) (rest : List Char) : List Regex → Except ExecutionError (List (Option RegexMatch))
  | [] => .ok []
  | r :: rs =>
    match config.regexMatch r rest with
    | none => (armMatches config rest rs).map (none :: ·)
    | some m => if m.stop ≤ m.start then .error .emptyRegexCapture else (armMatches config rest rs).map (some m :: ·)

/-- The earliest match, of the first arm that has it. -/
def earliest {α : Type} : List (Option RegexMatch × α) → Option (RegexMatch × α)
  | [] => none
  | (none, _) :: rest => earliest rest
  | (some m, a) :: rest =>
    match earliest rest with
    | none => some (m, a)
    | some (m', a') => if m'.start < m.start then some (m', a') else some (m, a)

/-- The text of the groups, a group that took no part being empty. -/
def RegexMatch.texts (m : RegexMatch) : List String := m.groups.map fun g => g.getD ""

/-- The loop of a scan over the rest of the text: the arm with the earliest match is run, and the
    scan goes on after the match. The bound counts characters. -/
def scanLoop {σ : Type} (config : Config) (regexes : List Regex) (arms : List (List String → σ → Except ExecutionError σ)) :
    Nat → List Char → σ → Except ExecutionError σ
  | _, [], st => .ok st
  | 0, _ :: _, _ => .error .outOfFuel
  | fuel + 1, c :: rest, st => do
    let ms ← armMatches config (c :: rest) regexes
    match earliest (ms.zip arms) with
    | none => .ok st
    | some (m, arm) => do
      let st' ← arm m.texts st
      scanLoop config regexes arms fuel ((c :: rest).drop m.stop) st'

/-- A scan of a text. Every match takes a character, so the length is bound enough. -/
def scanText {σ : Type} (config : Config) (regexes : List Regex) (arms : List (List String → σ → Except ExecutionError σ))
    (text : String) (st : σ) : Except ExecutionError σ :=
  scanLoop config regexes arms text.toList.length text.toList st

end CodeQuery.Tsg
