/-
  CodeQuery.Parse.Languages.Python — `codequery-parse/src/languages/python.rs`.
-/

import CodeQuery.Parse.Definition

namespace CodeQuery.Parse.Python

open CodeQuery.Core CodeQuery.Text

def isTestFunction (name : Str) : Bool := (str "test_").isPrefixOf name

/-- Upper-case letters, digits and underscores, with a letter among them. -/
def isScreamingSnakeCase (name : Str) : Bool :=
  let upper (b : UInt8) := 'A'.toNat ≤ b.toNat && b.toNat ≤ 'Z'.toNat
  let digit (b : UInt8) := '0'.toNat ≤ b.toNat && b.toNat ≤ '9'.toNat
  !name.isEmpty && name.all (fun b => upper b || digit b || b.toNat == '_'.toNat) && name.any upper

section Extract

variable (source : Str)

def extractFunction (node : Node) (isMethod : Bool) : Option Definition :=
  (nodeFieldText source node "name").map fun name =>
    let kind := if isTestFunction name.1 then .test else if isMethod then .method else .function
    .leaf kind node name

/-- The inner function of a decorated method; the range is the outer node's. -/
def extractDecoratedMethod (node : Node) : List Definition :=
  node.children.flatMap fun child =>
    match child.kind with
    | "function_definition" => ((nodeFieldText source child "name").map (.leaf .method node)).toList
    | _ => []

def extractClassMethods (classNode : Node) : List Definition :=
  match classNode.childByFieldName "body" with
  | none => []
  | some body => body.soundChildren.flatMap fun child =>
    match child.kind with
    | "function_definition" => (extractFunction source child true).toList
    | "decorated_definition" => extractDecoratedMethod source child
    | _ => []

def extractClass (node : Node) : Option Definition :=
  (nodeFieldText source node "name").map fun (name, place) =>
    ⟨name, .class_, node, some place, extractClassMethods source node⟩

def extractDecorated (node : Node) : List Definition :=
  node.children.flatMap fun child =>
    match child.kind with
    | "function_definition" =>
      ((nodeFieldText source child "name").map fun name =>
        Definition.leaf (if isTestFunction name.1 then .test else .function) node name).toList
    | "class_definition" =>
      ((nodeFieldText source child "name").map fun (name, place) =>
        (⟨name, .class_, node, some place, extractClassMethods source child⟩ : Definition)).toList
    | _ => []

/-- `NAME = value`: the first assignment in the statement decides. -/
def extractModuleConstant (node : Node) : Option Definition :=
  match node.children.find? (·.kind == "assignment") with
  | none => none
  | some child =>
    match child.childByFieldName "left" with
    | none => none
    | some left =>
      if left.kind != "identifier" then none
      else
        match nodeText source left with
        | none => none
        | some name => if isScreamingSnakeCase name.1 then some (.leaf .const node name) else none

def extractTopLevel (node : Node) : List Definition :=
  match node.kind with
  | "function_definition" => (extractFunction source node false).toList
  | "class_definition" => (extractClass source node).toList
  | "decorated_definition" => extractDecorated source node
  | "expression_statement" => (extractModuleConstant source node).toList
  | _ => []

def extractSymbols (tree : Node) : List Definition := tree.soundChildren.flatMap (extractTopLevel source)

end Extract

end CodeQuery.Parse.Python
