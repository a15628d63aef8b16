/-
  CodeQuery.Parse.Languages.Lua — `codequery-parse/src/languages/lua.rs`.
-/

import CodeQuery.Parse.Definition

namespace CodeQuery.Parse.Lua

open CodeQuery.Text

variable (source : Str)

/-- The name of a function, `M.name` in one; any other form is `anonymous`. -/
def extractFunctionName (node : Node) : Str × Option Point :=
  match node.childByFieldName "name" with
  | none => (str "anonymous", none)
  | some nameNode =>
    match nameNode.kind with
    | "identifier" | "dot_index_expression" =>
      ((nameNode.utf8Text source).getD [], some nameNode.startPosition)
    | _ => (str "anonymous", none)

/-- The last identifier among the variables, and whether a value is a table. -/
def parseAssignmentStatement (node : Node) : Option (Str × Point) × Bool :=
  node.children.foldl (fun (name, hasTable) child =>
    match child.kind with
    | "variable_list" =>
      (child.children.foldl (fun name inner => if inner.kind == "identifier" then nodeText source inner else name) name,
        hasTable)
    | "expression_list" => (name, hasTable || child.children.any (·.kind == "table_constructor"))
    | _ => (name, hasTable)) (none, false)

def extractVariableSymbol (node : Node) : List Definition :=
  node.children.flatMap fun child =>
    match child.kind with
    | "assignment_statement" =>
      match parseAssignmentStatement source child with
      | (some name, true) => if name.1.isEmpty then [] else [.leaf .module_ node name]
      | _ => []
    | _ => []

def extractTopLevel (node : Node) : List Definition :=
  match node.kind with
  | "function_declaration" =>
    let (name, place) := extractFunctionName source node
    [⟨name, .function, node, place, []⟩]
  | "variable_declaration" => extractVariableSymbol source node
  | _ => []

def extractSymbols (tree : Node) : List Definition := tree.soundChildren.flatMap (extractTopLevel source)

end CodeQuery.Parse.Lua
