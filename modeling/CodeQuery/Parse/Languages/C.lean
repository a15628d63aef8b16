/-
  CodeQuery.Parse.Languages.C — `codequery-parse/src/languages/c.rs`.
-/

import CodeQuery.Parse.Definition

namespace CodeQuery.Parse.C

open CodeQuery.Text

def openParen : UInt8 := 40
def closeParen : UInt8 := 41
def star : UInt8 := 42

section Extract

variable (source : Str)

mutual

/-- `extract_innermost_identifier`. -/
def extractInnermostIdentifier : Node → Option (Str × Point)
  | n@⟨kind, _, _, _, _, _, _, _, _, cs⟩ =>
    if kind = "pointer_declarator" then innermostOfDeclarator cs else nodeText source n

/-- The same of the child held as `declarator`. -/
def innermostOfDeclarator : List Node → Option (Str × Point)
  | [] => none
  | c :: cs => if c.field = some "declarator" then extractInnermostIdentifier c else innermostOfDeclarator cs

end

mutual

/-- The loop of `extract_function_name`, which takes off pointers. -/
def unwrapPointers : Node → Option Node
  | n@⟨kind, _, _, _, _, _, _, _, _, cs⟩ => if kind = "pointer_declarator" then unwrapDeclarator cs else some n

def unwrapDeclarator : List Node → Option Node
  | [] => none
  | c :: cs => if c.field = some "declarator" then unwrapPointers c else unwrapDeclarator cs

end

def extractFunctionName (node : Node) : Option (Str × Point) :=
  ((node.childByFieldName "declarator").bind unwrapPointers).bind fun declarator =>
    (declarator.childByFieldName "declarator").bind (extractInnermostIdentifier source)

/-- `(*name)` is the name of a function pointer type; its place is behind what is taken
    off. -/
def extractTypedefName (node : Node) : Option (Str × Point) :=
  (node.childByFieldName "declarator").bind fun declarator =>
    if declarator.kind = "function_declarator" then
      (declarator.childByFieldName "declarator").bind fun inner =>
        (nodeText source inner).map fun (text, place) =>
          let opened := trimStartMatches star (trimStartMatches openParen text)
          (trimEndMatches closeParen opened, ⟨place.row, place.column + (text.length - opened.length)⟩)
    else nodeText source declarator

def extractDeclarationName (node : Node) : Option (Str × Point) :=
  (node.childByFieldName "declarator").bind fun declarator =>
    match declarator.kind with
    | "init_declarator" => (declarator.childByFieldName "declarator").bind (extractInnermostIdentifier source)
    | "identifier" => nodeText source declarator
    | _ => extractInnermostIdentifier source declarator

/-- A definition that counts only with a body. -/
def withBody (node : Node) (name : Option (Str × Point)) : Option (Str × Point) :=
  name.filter fun _ => (node.childByFieldName "body").isSome

def extractTopLevel (node : Node) : Option Definition :=
  match node.kind with
  | "function_definition" => (extractFunctionName source node).map (.leaf .function node)
  | "struct_specifier" => (withBody node (nodeFieldText source node "name")).map (.leaf .struct node)
  | "enum_specifier" => (withBody node (nodeFieldText source node "name")).map (.leaf .enum node)
  | "type_definition" => (extractTypedefName source node).map (.leaf .type node)
  | "declaration" => (extractDeclarationName source node).map (.leaf .static node)
  | "preproc_def" | "preproc_function_def" => (nodeFieldText source node "name").map (.leaf .const node)
  | _ => none

def isPreprocConditional (kind : String) : Bool := ["preproc_ifdef", "preproc_if", "preproc_elif"].contains kind

mutual

/-- `walk_children`: conditionals are gone into. -/
def walkChildren : Node → List Definition
  | ⟨_, _, _, _, _, _, _, _, _, cs⟩ => walkAll cs

def walkAll : List Node → List Definition
  | [] => []
  | c :: cs =>
    (if c.isError || c.isMissing then []
      else if isPreprocConditional c.kind then walkChildren c
      else (extractTopLevel source c).toList) ++ walkAll cs

end

def extractSymbols (tree : Node) : List Definition := walkChildren source tree

end Extract

end CodeQuery.Parse.C
