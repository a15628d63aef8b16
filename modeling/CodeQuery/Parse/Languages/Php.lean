/-
  CodeQuery.Parse.Languages.Php — `codequery-parse/src/languages/php.rs`.
-/

import CodeQuery.Parse.Definition

namespace CodeQuery.Parse.Php

open CodeQuery.Core CodeQuery.Text

section Extract

variable (source : Str)

def findName (node : Node) : Option (Str × Point) :=
  (node.children.find? (·.kind == "name")).bind (nodeText source)

/-- The names of a `const`, at the top or in a class; the range is the whole
    declaration's. -/
def extractConstDeclaration (node : Node) : List Definition :=
  (node.children.filter (·.kind == "const_element")).flatMap fun child =>
    ((findName source child).map (.leaf .const node)).toList

def extractNamespace (node : Node) : Option Definition :=
  ((node.children.find? (·.kind == "namespace_name")).bind (nodeText source)).map (.leaf .module_ node)

def extractMember (member : Node) : List Definition :=
  match member.kind with
  | "method_declaration" => ((findName source member).map (.leaf .method member)).toList
  | "const_declaration" => extractConstDeclaration source member
  | _ => []

def extractDeclarationMembers (node : Node) : List Definition :=
  (node.children.filter (·.kind == "declaration_list")).flatMap fun list =>
    list.soundChildren.flatMap (extractMember source)

def extractType (kind : SymbolKind) (node : Node) : Option Definition :=
  (findName source node).map fun (name, place) => ⟨name, kind, node, some place, extractDeclarationMembers source node⟩

def extractTopLevel (node : Node) : List Definition :=
  match node.kind with
  | "function_definition" => ((findName source node).map (.leaf .function node)).toList
  | "class_declaration" => (extractType source .class_ node).toList
  | "interface_declaration" => (extractType source .interface node).toList
  | "trait_declaration" => (extractType source .trait node).toList
  | "const_declaration" => extractConstDeclaration source node
  | "namespace_definition" => (extractNamespace source node).toList
  | _ => []

def extractSymbols (tree : Node) : List Definition := tree.soundChildren.flatMap (extractTopLevel source)

end Extract

end CodeQuery.Parse.Php
