/-
  CodeQuery.Parse.Languages.Swift — `codequery-parse/src/languages/swift.rs`.
-/

import CodeQuery.Parse.Definition

namespace CodeQuery.Parse.Swift

open CodeQuery.Core CodeQuery.Text

section Extract

variable (source : Str)

def nodeIdentifier (node : Node) : Option (Str × Point) :=
  (node.children.find? (·.kind == "simple_identifier")).bind (nodeText source)

def nodeTypeIdentifier (node : Node) : Option (Str × Point) :=
  (node.children.find? (·.kind == "type_identifier")).bind (nodeText source)

def extractMethod (node : Node) : Option Definition := (nodeIdentifier source node).map (.leaf .method node)

/-- The methods in a class's or a protocol's body. -/
def extractMembers (bodyKind methodKind : String) (node : Node) : List Definition :=
  (node.children.filter (·.kind == bodyKind)).flatMap fun body =>
    (body.soundChildren.filter (·.kind == methodKind)).filterMap (extractMethod source)

def extractClassBodyMembers : Node → List Definition := extractMembers source "class_body" "function_declaration"

def extractProtocolMembers : Node → List Definition :=
  extractMembers source "protocol_body" "protocol_function_declaration"

/-- The last of the children that is one of the four words. -/
def declarationKeyword (node : Node) : Option String :=
  ((node.children.map (·.kind)).filter (["class", "struct", "enum", "extension"].contains ·)).getLast?

/-- The first type's name that has a text. -/
def declarationName (node : Node) : Option (Str × Point) :=
  (node.children.filter fun c => c.kind == "type_identifier" || c.kind == "user_type").findSome? (nodeText source)

def extractClassDeclaration (node : Node) : Option Definition :=
  (declarationName source node).bind fun (name, place) =>
    match declarationKeyword node with
    | some "class" => some ⟨name, .class_, node, some place, extractClassBodyMembers source node⟩
    | some "struct" => some ⟨name, .struct, node, some place, extractClassBodyMembers source node⟩
    | some "enum" => some ⟨name, .enum, node, some place, []⟩
    | some "extension" => some ⟨name, .module_, node, some place, extractClassBodyMembers source node⟩
    | _ => none

def extractTopLevel (node : Node) : Option Definition :=
  match node.kind with
  | "function_declaration" => (nodeIdentifier source node).map (.leaf .function node)
  | "class_declaration" => extractClassDeclaration source node
  | "protocol_declaration" =>
    (nodeTypeIdentifier source node).map fun (name, place) =>
      ⟨name, .interface, node, some place, extractProtocolMembers source node⟩
  | _ => none

def extractSymbols (tree : Node) : List Definition := tree.soundChildren.filterMap (extractTopLevel source)

end Extract

end CodeQuery.Parse.Swift
