/-
  CodeQuery.Parse.Languages.Scala — `codequery-parse/src/languages/scala.rs`.
-/

import CodeQuery.Parse.Definition

namespace CodeQuery.Parse.Scala

open CodeQuery.Core CodeQuery.Text

section Extract

variable (source : Str)

def nodeIdentifier (node : Node) : Option (Str × Point) :=
  (node.children.find? (·.kind == "identifier")).bind (nodeText source)

def extractMember (member : Node) : Option Definition :=
  match member.kind with
  | "function_definition" | "function_declaration" => (nodeIdentifier source member).map (.leaf .method member)
  | "val_definition" => (nodeIdentifier source member).map (.leaf .const member)
  | _ => none

def extractTemplateBodyMembers (node : Node) : List Definition :=
  (node.children.filter (·.kind == "template_body")).flatMap fun body => body.soundChildren.filterMap (extractMember source)

def extractTopLevel (node : Node) : Option Definition :=
  (nodeIdentifier source node).bind fun (name, place) =>
    match node.kind with
    | "class_definition" =>
      if node.children.any (·.kind == "case") then some ⟨name, .struct, node, some place, []⟩
      else some ⟨name, .class_, node, some place, extractTemplateBodyMembers source node⟩
    | "trait_definition" => some ⟨name, .trait, node, some place, extractTemplateBodyMembers source node⟩
    | "object_definition" => some ⟨name, .module_, node, some place, extractTemplateBodyMembers source node⟩
    | "function_definition" => some ⟨name, .function, node, some place, []⟩
    | "val_definition" => some ⟨name, .const, node, some place, []⟩
    | _ => none

def extractSymbols (tree : Node) : List Definition := tree.soundChildren.filterMap (extractTopLevel source)

end Extract

end CodeQuery.Parse.Scala
