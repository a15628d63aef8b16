/-
  CodeQuery.Parse.Languages.Go — `codequery-parse/src/languages/go.rs`.
-/

import CodeQuery.Parse.Definition

namespace CodeQuery.Parse.Go

open CodeQuery.Core CodeQuery.Text

def isTestFile (file : Path) : Bool := file.fileName.any fun name => "_test.go".toList.isSuffixOf name.toList

section Extract

variable (source : Str)

/-- A type spec or a type alias; the range is the spec's. -/
def extractTypeSpec (child : Node) : Option Definition :=
  match child.kind with
  | "type_spec" =>
    (nodeFieldText source child "name").map fun name =>
      let kind := match (child.childByFieldName "type").map (·.kind) with
        | some "struct_type" => .struct
        | some "interface_type" => .interface
        | _ => .type
      .leaf kind child name
  | "type_alias" => (nodeFieldText source child "name").map (.leaf .type child)
  | _ => none

def extractTypeDeclaration (node : Node) : List Definition := node.children.filterMap (extractTypeSpec source)

def extractConstSpec (spec : Node) : Option Definition := (nodeFieldText source spec "name").map (.leaf .const spec)

def extractConstDeclaration (node : Node) : List Definition :=
  (node.children.filter (·.kind == "const_spec")).filterMap (extractConstSpec source)

def extractVarSpec (spec : Node) : Option Definition := (nodeFieldText source spec "name").map (.leaf .static spec)

def extractVarDeclaration (node : Node) : List Definition :=
  node.children.flatMap fun child =>
    match child.kind with
    | "var_spec" => (extractVarSpec source child).toList
    | "var_spec_list" => (child.children.filter (·.kind == "var_spec")).filterMap (extractVarSpec source)
    | _ => []

def extractTopLevel (isTestFile : Bool) (node : Node) : List Definition :=
  match node.kind with
  | "function_declaration" =>
    (nodeFieldText source node "name").toList.map fun name =>
      .leaf (if isTestFile && (str "Test").isPrefixOf name.1 then .test else .function) node name
  | "method_declaration" => (nodeFieldText source node "name").toList.map (.leaf .method node)
  | "type_declaration" => extractTypeDeclaration source node
  | "const_declaration" => extractConstDeclaration source node
  | "var_declaration" => extractVarDeclaration source node
  | _ => []

def extractSymbols (file : Path) (tree : Node) : List Definition :=
  tree.soundChildren.flatMap (extractTopLevel source (isTestFile file))

end Extract

end CodeQuery.Parse.Go
