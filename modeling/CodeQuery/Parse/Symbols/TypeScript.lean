/-
  CodeQuery.Parse.Symbols.TypeScript — the symbols of a TypeScript or JavaScript file,
  with their texts (`codequery-parse/src/languages/typescript.rs`).

  Every name of a `const` has the range and the body of the whole declaration. The
  comments of what is exported are those in front of the `export`.
-/

import CodeQuery.Parse.Languages.TypeScript
import CodeQuery.Parse.Ranges

namespace CodeQuery.Parse.Symbols.TypeScript

open CodeQuery.Core CodeQuery.Text

section Texts

variable (source : Str)

/-- The first brace that is in no brackets and no parentheses. -/
def findTopLevelBrace (text : Str) : Option Nat := findBraceFrom true 0 0 0 text

def extractClassSignature (body : Str) : Str :=
  match findTopLevelBrace body with
  | some pos => trimText (body.take pos) ++ str " \x7b ... \x7d"
  | none => trimText (firstLine body)

def extractSignature (node : Node) (kind : SymbolKind) : Str :=
  let bodyText := nodeSource source node
  match kind with
  | .function | .method => fnSignature (findTopLevelBrace bodyText) bodyText
  | .class_ => extractClassSignature bodyText
  | .type | .const => singleLineSignature bodyText
  | _ => bodyText

def modifierVisibility (modifier : Node) : Option Visibility :=
  (modifier.utf8Text source).bind fun text =>
    if text = str "public" then some .public_
    else if text = str "private" ∨ text = str "protected" then some .private_
    else none

def extractMethodVisibility (node : Node) : Visibility :=
  ((node.children.filter (·.kind == "accessibility_modifier")).findSome? (modifierVisibility source)).getD .public_

def extractDocComment (before : List Node) : Option Str :=
  joinDoc (docLines source "comment" []
    (fun text => ["///", "/**", "//"].any fun p => (str p).isPrefixOf text) before)

end Texts

section Extract

variable (source : Str) (file : Path)

/-- A declaration that has a name and no children. -/
def named (kind : SymbolKind) (visibility : Visibility) (before : List Node) (node : Node) : Option Symbol :=
  (nodeFieldText source node "name").map fun (name, _) =>
    symbolAt file node name kind visibility [] (extractDocComment source before) (extractBody source node)
      (extractSignature source node kind)

def extractClassMethods (classNode : Node) : List Symbol :=
  match classNode.childByFieldName "body" with
  | none => []
  | some body =>
    eachChild (fun before child =>
      if child.kind == "method_definition" then
        (named source file .method (extractMethodVisibility source child) before child).toList
      else []) [] body.children

def extractClass (visibility : Visibility) (before : List Node) (node : Node) : Option Symbol :=
  (nodeFieldText source node "name").map fun (name, _) =>
    symbolAt file node name .class_ visibility (extractClassMethods source file node) (extractDocComment source before)
      (extractBody source node) (extractSignature source node .class_)

/-- A name of a `const`; the texts are the whole declaration's. -/
def extractDeclarator (visibility : Visibility) (before : List Node) (node child : Node) : Option Symbol :=
  (nodeFieldText source child "name").map fun (name, _) =>
    let isArrow := (child.childByFieldName "value").any (·.kind == "arrow_function")
    let kind := if isArrow then .function else .const
    symbolAt file node name kind visibility [] (extractDocComment source before) (extractBody source node)
      (extractSignature source node kind)

def extractLexicalDeclaration (visibility : Visibility) (before : List Node) (node : Node) : List Symbol :=
  if node.children.any (·.kind == "const") then
    (node.children.filter (·.kind == "variable_declarator")).filterMap
      (extractDeclarator source file visibility before node)
  else []

def extractDeclaration (visibility : Visibility) (before : List Node) (node : Node) : List Symbol :=
  match node.kind with
  | "function_declaration" => (named source file .function visibility before node).toList
  | "class_declaration" => (extractClass source file visibility before node).toList
  | "interface_declaration" => (named source file .interface visibility before node).toList
  | "type_alias_declaration" => (named source file .type visibility before node).toList
  | "enum_declaration" => (named source file .enum visibility before node).toList
  | "lexical_declaration" => extractLexicalDeclaration source file visibility before node
  | _ => []

def extractTopLevel (before : List Node) (node : Node) : List Symbol :=
  match node.kind with
  | "export_statement" =>
    (node.childByFieldName "declaration").toList.flatMap (extractDeclaration source file .public_ before)
  | _ => extractDeclaration source file .private_ before node

def extractSymbols (tree : Node) : List Symbol := eachChild (extractTopLevel source file) [] tree.children

end Extract

/-! ## One node for each symbol -/

section Renders

variable {source : Str} {file : Path}

theorem named_renders (kind : SymbolKind) (visibility : Visibility) (before : List Node) (node : Node) :
    List.Forall₂ (RendersBelow source file node) ((nodeFieldText source node "name").map (.leaf kind node)).toList
      (named source file kind visibility before node).toList :=
  forall₂_map_toList _ fun (name, place) => rendersBelow_symbolAt name kind (some place) _ _ _ .nil

theorem extractClassMethods_renders (node : Node) :
    List.Forall₂ (RendersBelow source file node) (Parse.TypeScript.extractClassMethods source node)
      (extractClassMethods source file node) := by
  rw [Parse.TypeScript.extractClassMethods, extractClassMethods]
  cases hbody : node.childByFieldName "body" with
  | none => exact .nil
  | some body =>
    show List.Forall₂ _ (List.flatMap _ _) _
    rw [soundChildren_filter_flatMap]
    refine forall₂_mono (field_mem_preorder hbody) (forall₂_children fun before child _ => ?_)
    split
    · exact named_renders .method _ before child
    · exact .nil

theorem extractClass_renders (visibility : Visibility) (before : List Node) (node : Node) :
    List.Forall₂ (RendersBelow source file node) (Parse.TypeScript.extractClass source node).toList
      (extractClass source file visibility before node).toList :=
  forall₂_map_toList _ fun (name, place) =>
    rendersBelow_symbolAt name .class_ (some place) _ _ _ (extractClassMethods_renders node)

/-- All names of a declaration are at the declaration's node. -/
theorem extractLexicalDeclaration_renders (visibility : Visibility) (before : List Node) (node : Node) :
    List.Forall₂ (RendersBelow source file node) (Parse.TypeScript.extractLexicalDeclaration source node)
      (extractLexicalDeclaration source file visibility before node) := by
  rw [Parse.TypeScript.extractLexicalDeclaration, extractLexicalDeclaration]
  split
  · rw [List.filterMap_eq_flatMap_toList, List.filterMap_eq_flatMap_toList]
    exact forall₂_flatMap _ fun child _ =>
      forall₂_map_toList _ fun (name, place) => rendersBelow_symbolAt name _ (some place) _ _ _ .nil
  · exact .nil

theorem extractDeclaration_renders (visibility : Visibility) (before : List Node) (node : Node) :
    List.Forall₂ (RendersBelow source file node) (Parse.TypeScript.extractDeclaration source node)
      (extractDeclaration source file visibility before node) := by
  rw [Parse.TypeScript.extractDeclaration, extractDeclaration]
  generalize node.kind = kind
  split
  case h_2 => exact extractClass_renders visibility before node
  case h_6 => exact extractLexicalDeclaration_renders visibility before node
  case h_7 => simp [*]
  all_goals exact named_renders _ visibility before node

theorem extractTopLevel_renders (before : List Node) (node : Node) :
    List.Forall₂ (RendersBelow source file node) (Parse.TypeScript.extractTopLevel source node)
      (extractTopLevel source file before node) := by
  by_cases hexport : node.kind = "export_statement"
  · rw [Parse.TypeScript.extractTopLevel, extractTopLevel, hexport]
    refine forall₂_flatMap _ fun declaration hdeclaration => ?_
    exact forall₂_mono (field_mem_preorder (Option.mem_toList.mp hdeclaration))
      (extractDeclaration_renders .public_ before declaration)
  · have hdefinitions : Parse.TypeScript.extractTopLevel source node =
        Parse.TypeScript.extractDeclaration source node := by
      unfold Parse.TypeScript.extractTopLevel
      split
      · contradiction
      · rfl
    have hsymbols : extractTopLevel source file before node =
        extractDeclaration source file .private_ before node := by
      unfold extractTopLevel
      split
      · contradiction
      · rfl
    rw [hdefinitions, hsymbols]
    exact extractDeclaration_renders .private_ before node

theorem extractSymbols_renders (tree : Node) :
    List.Forall₂ (RendersBelow source file tree) (Parse.TypeScript.extractSymbols source tree)
      (extractSymbols source file tree) := by
  rw [Parse.TypeScript.extractSymbols, extractSymbols, soundChildren_flatMap]
  exact forall₂_children fun before child _ => extractTopLevel_renders before child

end Renders

end CodeQuery.Parse.Symbols.TypeScript
