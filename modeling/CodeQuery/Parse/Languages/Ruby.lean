/-
  CodeQuery.Parse.Languages.Ruby — `codequery-parse/src/languages/ruby.rs`.
-/

import CodeQuery.Parse.Definition

namespace CodeQuery.Parse.Ruby

open CodeQuery.Core CodeQuery.Text

section Extract

variable (source : Str)

def findIdentifier (node : Node) : Option (Str × Point) :=
  (node.children.find? (·.kind == "identifier")).bind (nodeText source)

def findConstantName (node : Node) : Option (Str × Point) :=
  (node.children.find? fun c => c.kind == "constant" || c.kind == "scope_resolution").bind (nodeText source)

def extractMethod (node : Node) (isMethod : Bool) : Option Definition :=
  (findIdentifier source node).map (.leaf (if isMethod then .method else .function) node)

def extractSingletonMethod (node : Node) : Option Definition :=
  (findIdentifier source node).map (.leaf .function node)

/-- `NAME = value`. -/
def extractConstantAssignment (node : Node) : Option Definition :=
  node.children.head?.bind fun left =>
    if left.kind != "constant" then none else (nodeText source left).map (.leaf .const node)

mutual

/-- `extract_class` and, with another kind, `extract_module`. -/
def extractContainer (symbolKind : SymbolKind) : Node → Option Definition
  | n@⟨_, _, _, _, _, _, _, _, _, cs⟩ =>
    let children := extractBodyMethods cs
    (findConstantName source n).map fun (name, place) => ⟨name, symbolKind, n, some place, children⟩

/-- The methods in every `body_statement` among the nodes. -/
def extractBodyMethods : List Node → List Definition
  | [] => []
  | ⟨kind, _, _, _, _, _, _, _, _, inner⟩ :: cs =>
    (if kind = "body_statement" then extractInBody inner else []) ++ extractBodyMethods cs

def extractInBody : List Node → List Definition
  | [] => []
  | c :: cs =>
    (if c.isError || c.isMissing then []
      else match c.kind with
        | "method" => (extractMethod source c true).toList
        | "singleton_method" => (extractSingletonMethod source c).toList
        | "class" => (extractContainer .class_ c).toList
        | "assignment" => (extractConstantAssignment source c).toList
        | _ => []) ++ extractInBody cs

end

def extractTopLevel (node : Node) : Option Definition :=
  match node.kind with
  | "method" => extractMethod source node false
  | "singleton_method" => extractSingletonMethod source node
  | "class" => extractContainer source .class_ node
  | "module" => extractContainer source .module_ node
  | "assignment" => extractConstantAssignment source node
  | _ => none

def extractSymbols (tree : Node) : List Definition := tree.soundChildren.filterMap (extractTopLevel source)

end Extract

end CodeQuery.Parse.Ruby
