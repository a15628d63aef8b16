/-
  CodeQuery.Parse.Languages.Json — `codequery-parse/src/languages/json.rs`.
-/

import CodeQuery.Parse.Definition

namespace CodeQuery.Parse.Json

open CodeQuery.Core CodeQuery.Text

def quote : UInt8 := 34

section Extract

variable (source : Str)

/-- A key, without its quotes, that has a value. -/
def extractPair (node : Node) : Option Definition :=
  ((node.childByFieldName "key").bind (nodeTextWithout source quote)).bind fun name =>
    (node.childByFieldName "value").map fun value =>
      let kind := match value.kind with
        | "object" => .module_
        | "array" => .type
        | _ => .const
      .leaf kind node name

def extractObjectKeys (node : Node) : List Definition :=
  (node.children.filter (·.kind == "pair")).filterMap (extractPair source)

def isValue (node : Node) : Bool := node.kind == "object" || node.kind == "array"

/-- The value of a document. -/
def valueNode (root : Node) : Option Node :=
  if root.kind == "document" then root.children.find? isValue else if isValue root then some root else none

def extractSymbols (tree : Node) : List Definition :=
  match valueNode tree with
  | some obj => if obj.kind == "object" then extractObjectKeys source obj else []
  | none => []

end Extract

end CodeQuery.Parse.Json
