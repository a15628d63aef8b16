/-
  CodeQuery.Parse.Languages.Kotlin — `codequery-parse/src/languages/kotlin.rs`.
-/

import CodeQuery.Parse.Definition

namespace CodeQuery.Parse.Kotlin

open CodeQuery.Core CodeQuery.Text

section Extract

variable (source : Str)

def nodeIdentifier (node : Node) : Option (Str × Point) :=
  (node.children.find? fun c => c.kind == "identifier" || c.kind == "simple_identifier").bind (nodeText source)

def extractMethod (node : Node) : Option Definition := (nodeIdentifier source node).map (.leaf .method node)

/-- The name is the whole `variable_declaration`, its type with it. -/
def extractProperty (node : Node) : Option Definition :=
  ((node.children.find? (·.kind == "variable_declaration")).bind (nodeText source)).map (.leaf .const node)

def extractMember (member : Node) : Option Definition :=
  match member.kind with
  | "function_declaration" => extractMethod source member
  | "property_declaration" => extractProperty source member
  | _ => none

def extractClassBodyMembers (node : Node) : List Definition :=
  (node.children.filter (·.kind == "class_body")).flatMap fun body => body.soundChildren.filterMap (extractMember source)

/-- A class modifier among the modifiers has the word in it. -/
def hasClassModifier (word : String) (node : Node) : Bool :=
  (node.children.filter (·.kind == "modifiers")).any fun modifiers =>
    (modifiers.children.filter (·.kind == "class_modifier")).any fun m =>
      (find (str word) ((m.utf8Text source).getD [])).isSome

def extractClassDeclaration (node : Node) : Option Definition :=
  (nodeIdentifier source node).map fun (name, place) =>
    if hasClassModifier source "enum" node then ⟨name, .enum, node, some place, []⟩
    else if node.children.any (·.kind == "interface") then
      ⟨name, .interface, node, some place, extractClassBodyMembers source node⟩
    else if hasClassModifier source "data" node then ⟨name, .struct, node, some place, []⟩
    else ⟨name, .class_, node, some place, extractClassBodyMembers source node⟩

def extractTopLevel (node : Node) : Option Definition :=
  match node.kind with
  | "function_declaration" => (nodeIdentifier source node).map (.leaf .function node)
  | "class_declaration" => extractClassDeclaration source node
  | "object_declaration" =>
    (nodeIdentifier source node).map fun (name, place) =>
      ⟨name, .module_, node, some place, extractClassBodyMembers source node⟩
  | _ => none

def extractSymbols (tree : Node) : List Definition := tree.soundChildren.filterMap (extractTopLevel source)

end Extract

end CodeQuery.Parse.Kotlin
