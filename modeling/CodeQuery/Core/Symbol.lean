/-
  CodeQuery.Core.Symbol — symbols, references and text edits.
-/

import CodeQuery.Core.Path
import CodeQuery.Text.Bytes

namespace CodeQuery.Core

open CodeQuery.Text (Str)

/-- A file, a 1-based line and a 0-based column. -/
abbrev Location := Path × Nat × Nat

def Location.fileLine (loc : Location) : Path ×ₗ ℕ := toLex (loc.1, loc.2.1)

/-- A kind whose name is a word of Lean's has an underscore after it. -/
inductive SymbolKind where
  | function | method | struct | class_ | trait | interface | enum | type | const | static | module_ | impl | test
  | macro_ | variable_
  | namespace_ | package | record | signature | mixin | extension | export_ | port | exception | event
  | resource | data | output | config | rule | stage | label | route | block | service | message
  | section_ | element | environment | property | table | view | procedure | index | field | file | hunk | alias_
  deriving DecidableEq, Repr

inductive Visibility where
  | public_
  | private_
  | crate
  deriving DecidableEq, Repr

structure Symbol where
  name : Str
  kind : SymbolKind
  file : Path
  /-- 1-based. -/
  line : Nat
  /-- 0-based, the symbol's start: not its name's. -/
  column : Nat
  endLine : Nat
  visibility : Visibility
  children : List Symbol
  doc : Option Str
  body : Option Str
  signature : Option Str
  deriving Repr

def Symbol.location (s : Symbol) : Location := (s.file, s.line, s.column)

inductive ReferenceKind where
  | call
  | typeUsage
  | import_
  | assignment
  | definition
  deriving DecidableEq, Repr

structure Reference where
  file : Path
  /-- 1-based. -/
  line : Nat
  /-- 0-based. -/
  column : Nat
  kind : ReferenceKind
  /-- The source line. -/
  context : Str
  caller : Option Str
  callerKind : Option SymbolKind
  deriving DecidableEq, Repr

def Reference.location (r : Reference) : Location := (r.file, r.line, r.column)

structure TextEdit where
  file : Path
  line : Nat
  column : Nat
  endLine : Nat
  endColumn : Nat
  newText : String
  deriving DecidableEq, Repr

end CodeQuery.Core
