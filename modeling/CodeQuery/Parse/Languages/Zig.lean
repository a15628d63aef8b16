/-
  CodeQuery.Parse.Languages.Zig — `codequery-parse/src/languages/zig.rs`.
-/

import CodeQuery.Parse.Definition

namespace CodeQuery.Parse.Zig

open CodeQuery.Core CodeQuery.Text

section Extract

variable (source : Str)

/-- The first child that tells; an import is no symbol. -/
def determineVariableKind (node : Node) : Option SymbolKind :=
  let telling := ["struct_declaration", "union_declaration", "enum_declaration", "builtin_function"]
  match (node.children.map (·.kind)).find? (telling.contains ·) with
  | some "struct_declaration" | some "union_declaration" => some .struct
  | some "enum_declaration" => some .enum
  | some "builtin_function" => none
  | _ => some .const

def findIdentifierChild (node : Node) : Option (Str × Point) :=
  (node.children.find? (·.kind == "identifier")).bind (nodeText source)

def extractVariableDeclaration (node : Node) : Option Definition :=
  (findIdentifierChild source node).bind fun name => (determineVariableKind node).map fun kind => .leaf kind node name

def quote : UInt8 := 34

/-- The first string's text without its quotes; a test without one gets a name. -/
def extractTestName (node : Node) : Str × Option Point :=
  match node.children.find? (·.kind == "string") with
  | none => (str "unnamed_test", none)
  | some string =>
    match nodeTextWithout source quote string with
    | none => ([], none)
    | some (name, place) => (name, some place)

def extractTopLevel (node : Node) : Option Definition :=
  match node.kind with
  | "function_declaration" => (nodeFieldText source node "name").map (.leaf .function node)
  | "variable_declaration" => extractVariableDeclaration source node
  | "test_declaration" =>
    let (name, place) := extractTestName source node
    some ⟨name, .test, node, place, []⟩
  | _ => none

def extractSymbols (tree : Node) : List Definition := tree.soundChildren.filterMap (extractTopLevel source)

end Extract

end CodeQuery.Parse.Zig
