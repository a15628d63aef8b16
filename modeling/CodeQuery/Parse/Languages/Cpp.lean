/-
  CodeQuery.Parse.Languages.Cpp — `codequery-parse/src/languages/cpp.rs`.
-/

import CodeQuery.Parse.Languages.C

namespace CodeQuery.Parse.Cpp

open CodeQuery.Text
open CodeQuery.Parse.C (openParen closeParen star isPreprocConditional)

section Extract

variable (source : Str)

mutual

/-- `find_function_declarator`: the first in the tree's order. -/
def findFunctionDeclarator : Node → Option Node
  | n@⟨kind, _, _, _, _, _, _, _, _, cs⟩ => if kind = "function_declarator" then some n else findInAll cs

def findInAll : List Node → Option Node
  | [] => none
  | c :: cs => (findFunctionDeclarator c).or (findInAll cs)

end

/-- `extract_function_name`, of a definition and of a method's declaration. -/
def extractFunctionName (node : Node) : Option (Str × Point) :=
  ((node.childByFieldName "declarator").bind findFunctionDeclarator).bind fun funcDecl =>
    (funcDecl.childByFieldName "declarator").bind (nodeText source)

def extractTypedefName (node : Node) : Option (Str × Point) :=
  (node.childByFieldName "declarator").bind fun declarator =>
    if declarator.kind = "function_declarator" then
      (declarator.childByFieldName "declarator").bind fun inner =>
        (nodeText source inner).map fun (text, place) =>
          let opened := trimStartMatches star (trimStartMatches openParen text)
          (trimEndMatches closeParen opened, ⟨place.row, place.column + (text.length - opened.length)⟩)
    else nodeText source declarator

def extractDeclarationName (node : Node) : Option (Str × Point) :=
  (node.childByFieldName "declarator").bind fun declarator =>
    match declarator.kind with
    | "init_declarator" => (declarator.childByFieldName "declarator").bind (nodeText source)
    | _ => nodeText source declarator

def extractMethodDeclaration (node : Node) : Option Definition :=
  (extractFunctionName source node).map (.leaf .method node)

def extractClassMembers (classNode : Node) : List Definition :=
  match classNode.childByFieldName "body" with
  | none => []
  | some body => body.soundChildren.flatMap fun child =>
    match child.kind with
    | "function_definition" => ((extractFunctionName source child).map (.leaf .method child)).toList
    | "declaration" | "field_declaration" => (extractMethodDeclaration source child).toList
    | _ => []

/-- `::` in a name: an out-of-class definition of a method. -/
def isQualified (name : Str) : Bool := (find (str "::") name).isSome

mutual

/-- `extract_node`. -/
def extractNode : Node → List Definition
  | n@⟨kind, _, _, _, _, _, _, _, _, cs⟩ =>
    match kind with
    | "function_definition" =>
      ((extractFunctionName source n).filter (!isQualified ·.1)).toList.map (.leaf .function n)
    | "class_specifier" =>
      (nodeFieldText source n "name").toList.map fun (name, place) =>
        ⟨name, .class_, n, some place, extractClassMembers source n⟩
    | "struct_specifier" => (C.withBody n (nodeFieldText source n "name")).toList.map (.leaf .struct n)
    | "enum_specifier" => (C.withBody n (nodeFieldText source n "name")).toList.map (.leaf .enum n)
    | "namespace_definition" =>
      let children := namespaceBody cs
      (nodeFieldText source n "name").toList.map fun (name, place) => ⟨name, .module_, n, some place, children⟩
    | "type_definition" => (extractTypedefName source n).toList.map (.leaf .type n)
    | "alias_declaration" => (nodeFieldText source n "name").toList.map (.leaf .type n)
    | "declaration" => (extractDeclarationName source n).toList.map (.leaf .static n)
    | "preproc_def" | "preproc_function_def" => (nodeFieldText source n "name").toList.map (.leaf .const n)
    | _ => []

/-- What is in the child held as `body`. -/
def namespaceBody : List Node → List Definition
  | [] => []
  | ⟨_, field, _, _, _, _, _, _, _, inner⟩ :: cs =>
    if field = some "body" then extractNodes inner else namespaceBody cs

def extractNodes : List Node → List Definition
  | [] => []
  | c :: cs => (if c.isError || c.isMissing then [] else extractNode c) ++ extractNodes cs

end

mutual

def walkChildren : Node → List Definition
  | ⟨_, _, _, _, _, _, _, _, _, cs⟩ => walkAll cs

def walkAll : List Node → List Definition
  | [] => []
  | c :: cs =>
    (if c.isError || c.isMissing then []
      else if isPreprocConditional c.kind then walkChildren c
      else extractNode source c) ++ walkAll cs

end

def extractSymbols (tree : Node) : List Definition := walkChildren source tree

end Extract

end CodeQuery.Parse.Cpp
