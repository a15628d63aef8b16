/-
  CodeQuery.Parse.Languages.TypeScript — `codequery-parse/src/languages/typescript.rs`,
  the extractor of JavaScript too.
-/

import CodeQuery.Parse.Definition

namespace CodeQuery.Parse.TypeScript

open CodeQuery.Core CodeQuery.Text

section Extract

variable (source : Str)

def extractClassMethods (classNode : Node) : List Definition :=
  match classNode.childByFieldName "body" with
  | none => []
  | some body => (body.soundChildren.filter (·.kind == "method_definition")).flatMap fun child =>
    ((nodeFieldText source child "name").map (.leaf .method child)).toList

def extractClass (node : Node) : Option Definition :=
  (nodeFieldText source node "name").map fun (name, place) =>
    ⟨name, .class_, node, some place, extractClassMethods source node⟩

/-- A name of a `const`; the range is the whole declaration's. -/
def extractDeclarator (node child : Node) : Option Definition :=
  (nodeFieldText source child "name").map fun name =>
    let isArrow := (child.childByFieldName "value").any (·.kind == "arrow_function")
    .leaf (if isArrow then .function else .const) node name

def extractLexicalDeclaration (node : Node) : List Definition :=
  if node.children.any (·.kind == "const") then
    (node.children.filter (·.kind == "variable_declarator")).filterMap (extractDeclarator source node)
  else []

def extractDeclaration (node : Node) : List Definition :=
  match node.kind with
  | "function_declaration" => ((nodeFieldText source node "name").map (.leaf .function node)).toList
  | "class_declaration" => (extractClass source node).toList
  | "interface_declaration" => ((nodeFieldText source node "name").map (.leaf .interface node)).toList
  | "type_alias_declaration" => ((nodeFieldText source node "name").map (.leaf .type node)).toList
  | "enum_declaration" => ((nodeFieldText source node "name").map (.leaf .enum node)).toList
  | "lexical_declaration" => extractLexicalDeclaration source node
  | _ => []

def extractTopLevel (node : Node) : List Definition :=
  match node.kind with
  | "export_statement" => ((node.childByFieldName "declaration").toList).flatMap (extractDeclaration source)
  | _ => extractDeclaration source node

def extractSymbols (tree : Node) : List Definition := tree.soundChildren.flatMap (extractTopLevel source)

end Extract

end CodeQuery.Parse.TypeScript
