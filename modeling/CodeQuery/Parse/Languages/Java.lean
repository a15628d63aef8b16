/-
  CodeQuery.Parse.Languages.Java — `codequery-parse/src/languages/java.rs`.
-/

import CodeQuery.Parse.Definition

namespace CodeQuery.Parse.Java

open CodeQuery.Core CodeQuery.Text

section Extract

variable (source : Str)

def extractPackageName (node : Node) : Option (Str × Point) :=
  (node.children.find? fun child => child.kind == "scoped_identifier" || child.kind == "identifier").bind
    (nodeText source)

def extractPackage (node : Node) : Option Definition := (extractPackageName source node).map (.leaf .module_ node)

def nodeName (node : Node) : Option (Str × Point) := nodeFieldText source node "name"

def extractMethod (node : Node) : Option Definition := (nodeName source node).map (.leaf .method node)

/-- Whether `static` and `final` are among the modifiers. -/
def hasStaticAndFinal (modifiers : Node) : Bool × Bool :=
  (modifiers.children.any (·.kind == "static"), modifiers.children.any (·.kind == "final"))

/-- The first declarator that has a name gives the field's. -/
def extractFieldName (node : Node) : Option (Str × Point) :=
  (node.children.find? fun child => child.kind == "variable_declarator" && (child.childByFieldName "name").isSome).bind
    (nodeFieldText source · "name")

/-- Static fields only. -/
def extractField (node : Node) : Option Definition :=
  (node.children.find? (·.kind == "modifiers")).bind fun modifiers =>
    match hasStaticAndFinal modifiers with
    | (false, _) => none
    | (true, isFinal) => (extractFieldName source node).map (.leaf (if isFinal then .const else .static) node)

def extractClassMembers (classNode : Node) : List Definition :=
  match classNode.childByFieldName "body" with
  | none => []
  | some body => body.soundChildren.filterMap fun child =>
    match child.kind with
    | "method_declaration" | "constructor_declaration" => extractMethod source child
    | "field_declaration" => extractField source child
    | _ => none

def extractInterfaceMembers (ifaceNode : Node) : List Definition :=
  match ifaceNode.childByFieldName "body" with
  | none => []
  | some body => (body.soundChildren.filter (·.kind == "method_declaration")).filterMap (extractMethod source)

def extractTypeDeclaration (node : Node) : Option Definition :=
  (nodeName source node).bind fun (name, place) =>
    match node.kind with
    | "class_declaration" => some ⟨name, .class_, node, some place, extractClassMembers source node⟩
    | "interface_declaration" => some ⟨name, .interface, node, some place, extractInterfaceMembers source node⟩
    | "enum_declaration" => some ⟨name, .enum, node, some place, []⟩
    | "annotation_type_declaration" => some ⟨name, .type, node, some place, []⟩
    | _ => none

def extractSymbols (tree : Node) : List Definition :=
  tree.soundChildren.filterMap fun child =>
    match child.kind with
    | "package_declaration" => extractPackage source child
    | "class_declaration" | "interface_declaration" | "enum_declaration" | "annotation_type_declaration" =>
      extractTypeDeclaration source child
    | _ => none

end Extract

end CodeQuery.Parse.Java
