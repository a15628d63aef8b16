/-
  CodeQuery.Parse.Languages.Rust — `codequery-parse/src/languages/rust.rs`.
-/

import CodeQuery.Parse.Definition

namespace CodeQuery.Parse.Rust

open CodeQuery.Core CodeQuery.Text

section Extract

variable (source : Str)

/-- `test` among the identifiers of an attribute. -/
def attributeContainsTest (attr : Node) : Bool :=
  (attr.children.filter (·.kind == "attribute")).any fun child =>
    (child.children.filter (·.kind == "identifier")).any fun inner => inner.utf8Text source == some (str "test")

/-- The siblings in front, the nearest first: attributes and comments are gone over. -/
def hasTestAttribute : List Node → Bool
  | [] => false
  | sib :: before =>
    match sib.kind with
    | "attribute_item" => attributeContainsTest source sib || hasTestAttribute before
    | "line_comment" | "block_comment" => hasTestAttribute before
    | _ => false

/-- The text of a type, or two texts with `for` between; the second stands at no place
    of its own. -/
def extractImplName (node : Node) : Option (Str × Option Point) :=
  (node.childByFieldName "type").bind fun typeNode => (nodeText source typeNode).bind fun (typeName, place) =>
    match node.childByFieldName "trait" with
    | none => some (typeName, some place)
    | some traitNode => (traitNode.utf8Text source).map fun traitName => (traitName ++ str " for " ++ typeName, none)

def extractImplMethods (implNode : Node) : List Definition :=
  match implNode.childByFieldName "body" with
  | none => []
  | some body => (body.soundChildren.filter (·.kind == "function_item")).filterMap fun child =>
    (nodeFieldText source child "name").map (.leaf .method child)

def extractTopLevel (before : List Node) (node : Node) : Option Definition :=
  match node.kind with
  | "function_item" =>
    (nodeFieldText source node "name").map (.leaf (if hasTestAttribute source before then .test else .function) node)
  | "struct_item" => (nodeFieldText source node "name").map (.leaf .struct node)
  | "enum_item" => (nodeFieldText source node "name").map (.leaf .enum node)
  | "trait_item" => (nodeFieldText source node "name").map (.leaf .trait node)
  | "impl_item" =>
    (extractImplName source node).map fun (name, place) => ⟨name, .impl, node, place, extractImplMethods source node⟩
  | "type_item" => (nodeFieldText source node "name").map (.leaf .type node)
  | "const_item" => (nodeFieldText source node "name").map (.leaf .const node)
  | "static_item" => (nodeFieldText source node "name").map (.leaf .static node)
  | "mod_item" => (nodeFieldText source node "name").map (.leaf .module_ node)
  | _ => none

/-- The children, with those in front of each, the nearest first. -/
def extractChildren (before : List Node) : List Node → List Definition
  | [] => []
  | c :: cs =>
    (if c.isError || c.isMissing then [] else (extractTopLevel source before c).toList) ++ extractChildren (c :: before) cs

def extractSymbols (tree : Node) : List Definition := extractChildren source [] tree.children

end Extract

end CodeQuery.Parse.Rust
