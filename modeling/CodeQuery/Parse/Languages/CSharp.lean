/-
  CodeQuery.Parse.Languages.CSharp — `codequery-parse/src/languages/csharp.rs`.
-/

import CodeQuery.Parse.Definition

namespace CodeQuery.Parse.CSharp

open CodeQuery.Core CodeQuery.Text

section Extract

variable (source : Str)

def findIdentifier (node : Node) : Option (Str × Point) :=
  (node.children.find? (·.kind == "identifier")).bind (nodeText source)

def extractNamespace (node : Node) : Option Definition :=
  ((node.children.find? fun c => c.kind == "qualified_name" || c.kind == "identifier").bind (nodeText source)).map
    (.leaf .module_ node)

def extractMember (member : Node) : Option Definition :=
  match member.kind with
  | "method_declaration" | "constructor_declaration" => (findIdentifier source member).map (.leaf .method member)
  | "property_declaration" => (findIdentifier source member).map (.leaf .static member)
  | _ => none

def extractClassMembers (node : Node) : List Definition :=
  (node.children.filter (·.kind == "declaration_list")).flatMap fun list =>
    list.soundChildren.filterMap (extractMember source)

/-- A class, a struct, an interface or an enumeration. -/
def extractType (node : Node) : Option Definition :=
  (findIdentifier source node).bind fun (name, place) =>
    match node.kind with
    | "class_declaration" => some ⟨name, .class_, node, some place, extractClassMembers source node⟩
    | "struct_declaration" => some ⟨name, .struct, node, some place, extractClassMembers source node⟩
    | "interface_declaration" => some ⟨name, .interface, node, some place, extractClassMembers source node⟩
    | "enum_declaration" => some ⟨name, .enum, node, some place, []⟩
    | _ => none

mutual

/-- What `extract_from_node` makes of one child. -/
def extractFromChild (topLevel : Bool) : Node → List Definition
  | n@⟨kind, _, _, _, _, _, _, _, _, cs⟩ =>
    match kind with
    | "namespace_declaration" => (extractNamespace source n).toList ++ extractNamespaceBody cs
    | "class_declaration" | "struct_declaration" | "interface_declaration" | "enum_declaration" =>
      (extractType source n).toList
    | _ => if topLevel then extractFromChildren false cs else []

/-- The loop of `extract_from_node`. -/
def extractFromChildren (topLevel : Bool) : List Node → List Definition
  | [] => []
  | c :: cs =>
    (if c.isError || c.isMissing then [] else extractFromChild topLevel c) ++ extractFromChildren topLevel cs

def extractNamespaceBody : List Node → List Definition
  | [] => []
  | ⟨kind, _, _, _, _, _, _, _, _, inner⟩ :: cs =>
    (if kind = "declaration_list" then extractFromChildren false inner else []) ++ extractNamespaceBody cs

end

def extractFromNode (node : Node) (topLevel : Bool) : List Definition :=
  extractFromChildren source topLevel node.children

def extractSymbols (tree : Node) : List Definition := extractFromNode source tree true

end Extract

end CodeQuery.Parse.CSharp
