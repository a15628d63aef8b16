/-
  CodeQuery.Parse.Symbols.Python — the symbols of a Python file, with their texts
  (`codequery-parse/src/languages/python.rs`).

  What is decorated has its range and its body from the outer node, its signature and its
  docstring from the inner one.
-/

import CodeQuery.Parse.Languages.Python
import CodeQuery.Parse.Ranges

namespace CodeQuery.Parse.Symbols.Python

open CodeQuery.Core CodeQuery.Text
open CodeQuery.Parse.Python (isScreamingSnakeCase isTestFunction)

def pythonVisibility (name : Str) : Visibility := if (str "_").isPrefixOf name then .private_ else .public_

section Texts

variable (source : Str)

def extractSignature (node : Node) (kind : SymbolKind) : Str :=
  let bodyText := nodeSource source node
  match kind with
  | .function | .method | .test => keywordSignature (str "def ") bodyText
  | .class_ => keywordSignature (str "class ") bodyText
  | .const => trimTextEnd (firstLine bodyText)
  | _ => firstLine bodyText

/-- The first statement of the body that is no comment, when it is a string. -/
def extractDocstring (node : Node) : Option Str :=
  (node.childByFieldName "body").bind fun body =>
    (body.children.find? (·.kind != "comment")).bind fun child =>
      if child.kind = "expression_statement" then
        (child.children.find? fun inner => inner.kind == "string" || inner.kind == "concatenated_string").bind
          (·.utf8Text source)
      else none

end Texts

section Extract

variable (source : Str) (file : Path)

def extractFunction (node : Node) (isMethod : Bool) : Option Symbol :=
  (nodeFieldText source node "name").map fun (name, _) =>
    let kind := if isTestFunction name then .test else if isMethod then .method else .function
    symbolAt file node name kind (pythonVisibility name) [] (extractDocstring source node) (extractBody source node)
      (extractSignature source node kind)

def extractDecoratedMethod (node : Node) : List Symbol :=
  node.children.flatMap fun child =>
    match child.kind with
    | "function_definition" =>
      ((nodeFieldText source child "name").map fun (name, _) =>
        symbolAt file node name .method (pythonVisibility name) [] (extractDocstring source child)
          (extractBody source node) (extractSignature source child .method)).toList
    | _ => []

def extractClassMethods (classNode : Node) : List Symbol :=
  match classNode.childByFieldName "body" with
  | none => []
  | some body => body.soundChildren.flatMap fun child =>
    match child.kind with
    | "function_definition" => (extractFunction source file child true).toList
    | "decorated_definition" => extractDecoratedMethod source file child
    | _ => []

def extractClass (node : Node) : Option Symbol :=
  (nodeFieldText source node "name").map fun (name, _) =>
    symbolAt file node name .class_ (pythonVisibility name) (extractClassMethods source file node)
      (extractDocstring source node) (extractBody source node) (extractSignature source node .class_)

def extractDecorated (node : Node) : List Symbol :=
  node.children.flatMap fun child =>
    match child.kind with
    | "function_definition" =>
      ((nodeFieldText source child "name").map fun (name, _) =>
        let kind := if isTestFunction name then .test else .function
        symbolAt file node name kind (pythonVisibility name) [] (extractDocstring source child)
          (extractBody source node) (extractSignature source child kind)).toList
    | "class_definition" =>
      ((nodeFieldText source child "name").map fun (name, _) =>
        symbolAt file node name .class_ (pythonVisibility name) (extractClassMethods source file child)
          (extractDocstring source child) (extractBody source node) (extractSignature source child .class_)).toList
    | _ => []

def extractModuleConstant (node : Node) : Option Symbol :=
  match node.children.find? (·.kind == "assignment") with
  | none => none
  | some child =>
    match child.childByFieldName "left" with
    | none => none
    | some left =>
      if left.kind != "identifier" then none
      else
        match nodeText source left with
        | none => none
        | some (name, _) =>
          if isScreamingSnakeCase name then
            some (symbolAt file node name .const (pythonVisibility name) [] none (extractBody source node)
              (extractSignature source node .const))
          else none

def extractTopLevel (node : Node) : List Symbol :=
  match node.kind with
  | "function_definition" => (extractFunction source file node false).toList
  | "class_definition" => (extractClass source file node).toList
  | "decorated_definition" => extractDecorated source file node
  | "expression_statement" => (extractModuleConstant source file node).toList
  | _ => []

def extractSymbols (tree : Node) : List Symbol := tree.soundChildren.flatMap (extractTopLevel source file)

end Extract

/-! ## One node for each symbol -/

section Renders

variable {source : Str} {file : Path}

theorem extractFunction_renders (node : Node) (isMethod : Bool) :
    List.Forall₂ (RendersBelow source file node) (Parse.Python.extractFunction source node isMethod).toList
      (extractFunction source file node isMethod).toList :=
  forall₂_map_toList _ fun (name, place) => rendersBelow_symbolAt name _ (some place) _ _ _ .nil

theorem extractDecoratedMethod_renders (node : Node) :
    List.Forall₂ (RendersBelow source file node) (Parse.Python.extractDecoratedMethod source node)
      (extractDecoratedMethod source file node) := by
  refine forall₂_flatMap node.children fun child _ => ?_
  generalize child.kind = kind
  split
  · exact forall₂_map_toList _ fun (name, place) => rendersBelow_symbolAt name .method (some place) _ _ _ .nil
  · simp [*]

theorem extractClassMethods_renders (node : Node) :
    List.Forall₂ (RendersBelow source file node) (Parse.Python.extractClassMethods source node)
      (extractClassMethods source file node) := by
  rw [Parse.Python.extractClassMethods, extractClassMethods]
  cases hbody : node.childByFieldName "body" with
  | none => exact .nil
  | some body =>
    show List.Forall₂ _ (List.flatMap _ _) (List.flatMap _ _)
    rw [soundChildren_flatMap, soundChildren_flatMap]
    refine forall₂_mono (field_mem_preorder hbody) (forall₂_children fun _ child _ => ?_)
    generalize child.kind = kind
    split
    · exact extractFunction_renders child true
    · exact extractDecoratedMethod_renders child
    · simp [*]

theorem extractClass_renders (node : Node) :
    List.Forall₂ (RendersBelow source file node) (Parse.Python.extractClass source node).toList
      (extractClass source file node).toList :=
  forall₂_map_toList _ fun (name, place) =>
    rendersBelow_symbolAt name .class_ (some place) _ _ _ (extractClassMethods_renders node)

/-- The methods of a decorated class are below the class, so below what is around it. -/
theorem extractDecorated_renders (node : Node) :
    List.Forall₂ (RendersBelow source file node) (Parse.Python.extractDecorated source node)
      (extractDecorated source file node) := by
  refine forall₂_flatMap node.children fun child hchild => ?_
  generalize child.kind = kind
  split
  · exact forall₂_map_toList _ fun (name, place) => rendersBelow_symbolAt name _ (some place) _ _ _ .nil
  · exact forall₂_map_toList _ fun (name, place) =>
      rendersBelow_symbolAt name .class_ (some place) _ _ _
        (forall₂_mono (child_mem_preorder hchild) (extractClassMethods_renders child))
  · simp [*]

theorem extractModuleConstant_renders (node : Node) :
    List.Forall₂ (RendersBelow source file node) (Parse.Python.extractModuleConstant source node).toList
      (extractModuleConstant source file node).toList := by
  rw [Parse.Python.extractModuleConstant, extractModuleConstant]
  cases node.children.find? (·.kind == "assignment") with
  | none => exact .nil
  | some child =>
    cases hleft : child.childByFieldName "left" with
    | none => simp [hleft]
    | some left =>
      cases htext : nodeText source left with
      | none => simp [hleft, htext]
      | some name =>
        by_cases hplain : (left.kind != "identifier") = true
        · simp [hleft, hplain]
        · by_cases hname : isScreamingSnakeCase name.1 = true
          · simp only [hleft, htext, hplain, hname]
            exact .cons (rendersBelow_symbolAt name.1 .const (some name.2) _ _ _ .nil) .nil
          · simp [hleft, htext, hname]

theorem extractSymbols_renders (tree : Node) :
    List.Forall₂ (RendersBelow source file tree) (Parse.Python.extractSymbols source tree)
      (extractSymbols source file tree) := by
  rw [Parse.Python.extractSymbols, extractSymbols, soundChildren_flatMap, soundChildren_flatMap]
  refine forall₂_children fun _ child _ => ?_
  rw [Parse.Python.extractTopLevel, extractTopLevel]
  generalize child.kind = kind
  split
  · exact extractFunction_renders child false
  · exact extractClass_renders child
  · exact extractDecorated_renders child
  · exact extractModuleConstant_renders child
  · simp [*]

end Renders

end CodeQuery.Parse.Symbols.Python
