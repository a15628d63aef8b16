/-
  CodeQuery.Parse.Tree — syntax trees as the tree-sitter API shows them.

  A node carries the field its parent holds it in, so `child_by_field_name` is a
  search of the children; `parent` is passed down by whoever walks the tree.
-/

import CodeQuery.Text.Bytes

namespace CodeQuery.Parse

open CodeQuery.Text

/-- A zero-based row and a byte column in it. -/
structure Point where
  row : Nat
  column : Nat
  deriving DecidableEq, Repr

structure Node where
  kind : String
  field : Option String
  startByte : Nat
  endByte : Nat
  startPosition : Point
  endPosition : Point
  isNamed : Bool
  isError : Bool
  isMissing : Bool
  children : List Node
  deriving Repr

def Node.childByFieldName (n : Node) (f : String) : Option Node := n.children.find? (·.field == some f)

/-- `utf8_text(source).ok()`: the bytes of the node, which are a text when it starts
    and ends on character boundaries. -/
def Node.utf8Text (n : Node) (source : Str) : Option Str :=
  if n.startByte ≤ n.endByte ∧ n.endByte ≤ source.length ∧
      (n.startByte = n.endByte ∨ isCharBoundary source n.startByte ∧ isCharBoundary source n.endByte) then
    some ((source.take n.endByte).drop n.startByte)
  else none

mutual

/-- A node, then what is below it. -/
def Node.preorder : Node → List Node
  | n@⟨_, _, _, _, _, _, _, _, _, cs⟩ => n :: preorderAll cs

def preorderAll : List Node → List Node
  | [] => []
  | c :: cs => c.preorder ++ preorderAll cs

end

/-- A leaf on one row, as grammars give identifiers and tokens. -/
def Node.leaf (kind : String) (field : Option String) (row column startByte length : Nat) (named : Bool) : Node :=
  ⟨kind, field, startByte, startByte + length, ⟨row, column⟩, ⟨row, column + length⟩, named, false, false, []⟩

end CodeQuery.Parse
