/-
  CodeQuery.Parse.Symbols.Java — the symbols of a Java file, with their texts
  (`codequery-parse/src/languages/java.rs`).
-/

import CodeQuery.Parse.Languages.Java
import CodeQuery.Parse.Ranges

namespace CodeQuery.Parse.Symbols.Java

open CodeQuery.Core CodeQuery.Text
open CodeQuery.Parse.Java (extractFieldName extractPackageName hasStaticAndFinal nodeName)

section Texts

variable (source : Str)

def extractSignature (node : Node) (kind : SymbolKind) : Str :=
  let bodyText := nodeSource source node
  match kind with
  | .method => fnSignature (findTopLevelBrace bodyText) bodyText
  | .class_ | .interface | .enum | .type => headerSignature (findTopLevelBrace bodyText) bodyText
  | .const | .static => singleLineSignature bodyText
  | .module_ => trimText (trimEndMatches semicolon bodyText)
  | _ => bodyText

def parseModifiersVisibility (modifiers : Node) : Visibility :=
  (modifiers.children.findSome? fun child =>
    match child.kind with
    | "public" => some .public_
    | "private" => some .private_
    | "protected" => some .crate
    | _ => none).getD .crate

/-- The first modifiers decide; without any it is the package's. -/
def extractVisibility (node : Node) : Visibility :=
  ((node.children.find? (·.kind == "modifiers")).map parseModifiersVisibility).getD .crate

/-- The block comment in front: line comments are gone over. -/
def extractJavadoc : List Node → Option Str
  | [] => none
  | sib :: before =>
    match sib.kind with
    | "block_comment" =>
      (sib.utf8Text source).bind fun text => if (str "/**").isPrefixOf (trimText text) then some (trimText text) else none
    | "line_comment" => extractJavadoc before
    | _ => none

end Texts

section Extract

variable (source : Str) (file : Path)

def extractPackage (node : Node) : Option Symbol :=
  (extractPackageName source node).map fun (name, _) =>
    symbolAt file node name .module_ .public_ [] none (extractBody source node) (extractSignature source node .module_)

def extractMethod (before : List Node) (node : Node) : Option Symbol :=
  (nodeName source node).map fun (name, _) =>
    symbolAt file node name .method (extractVisibility node) [] (extractJavadoc source before) (extractBody source node)
      (extractSignature source node .method)

def extractField (before : List Node) (node : Node) : Option Symbol :=
  (node.children.find? (·.kind == "modifiers")).bind fun modifiers =>
    match hasStaticAndFinal modifiers with
    | (false, _) => none
    | (true, isFinal) =>
      let kind := if isFinal then .const else .static
      (extractFieldName source node).map fun (name, _) =>
        symbolAt file node name kind (extractVisibility node) [] (extractJavadoc source before)
          (extractBody source node) (extractSignature source node kind)

def extractClassMembers (classNode : Node) : List Symbol :=
  match classNode.childByFieldName "body" with
  | none => []
  | some body =>
    eachChild (fun before child =>
      (match child.kind with
      | "method_declaration" | "constructor_declaration" => extractMethod source file before child
      | "field_declaration" => extractField source file before child
      | _ => none).toList) [] body.children

def extractInterfaceMembers (ifaceNode : Node) : List Symbol :=
  match ifaceNode.childByFieldName "body" with
  | none => []
  | some body =>
    eachChild (fun before child =>
      if child.kind == "method_declaration" then (extractMethod source file before child).toList else []) []
      body.children

def extractTypeDeclaration (before : List Node) (node : Node) : Option Symbol :=
  (nodeName source node).bind fun (name, _) =>
    let declared (kind : SymbolKind) (children : List Symbol) :=
      symbolAt file node name kind (extractVisibility node) children (extractJavadoc source before)
        (extractBody source node) (extractSignature source node kind)
    match node.kind with
    | "class_declaration" => some (declared .class_ (extractClassMembers source file node))
    | "interface_declaration" => some (declared .interface (extractInterfaceMembers source file node))
    | "enum_declaration" => some (declared .enum [])
    | "annotation_type_declaration" => some (declared .type [])
    | _ => none

def extractSymbols (tree : Node) : List Symbol :=
  eachChild (fun before child =>
    (match child.kind with
    | "package_declaration" => extractPackage source file child
    | "class_declaration" | "interface_declaration" | "enum_declaration" | "annotation_type_declaration" =>
      extractTypeDeclaration source file before child
    | _ => none).toList) [] tree.children

end Extract

/-! ## One node for each symbol -/

section Renders

variable {source : Str} {file : Path}

theorem extractPackage_renders (node : Node) :
    List.Forall₂ (RendersBelow source file node) (Parse.Java.extractPackage source node).toList
      (extractPackage source file node).toList :=
  forall₂_map_toList _ fun (name, place) => rendersBelow_symbolAt name .module_ (some place) _ _ _ .nil

theorem extractMethod_renders (before : List Node) (node : Node) :
    List.Forall₂ (RendersBelow source file node) (Parse.Java.extractMethod source node).toList
      (extractMethod source file before node).toList :=
  forall₂_map_toList _ fun (name, place) => rendersBelow_symbolAt name .method (some place) _ _ _ .nil

theorem extractField_renders (before : List Node) (node : Node) :
    List.Forall₂ (RendersBelow source file node) (Parse.Java.extractField source node).toList
      (extractField source file before node).toList := by
  rw [Parse.Java.extractField, extractField]
  cases node.children.find? (·.kind == "modifiers") with
  | none => exact .nil
  | some modifiers =>
    rw [Option.bind_some, Option.bind_some]
    obtain ⟨isStatic, isFinal⟩ := hasStaticAndFinal modifiers
    cases isStatic with
    | false => exact .nil
    | true => exact forall₂_map_toList _ fun (name, place) => rendersBelow_symbolAt name _ (some place) _ _ _ .nil

theorem extractClassMembers_renders (node : Node) :
    List.Forall₂ (RendersBelow source file node) (Parse.Java.extractClassMembers source node)
      (extractClassMembers source file node) := by
  rw [Parse.Java.extractClassMembers, extractClassMembers]
  cases hbody : node.childByFieldName "body" with
  | none => exact .nil
  | some body =>
    show List.Forall₂ _ (List.filterMap _ _) _
    rw [soundChildren_filterMap]
    refine forall₂_mono (field_mem_preorder hbody) (forall₂_children fun before child _ => ?_)
    generalize child.kind = kind
    split
    · exact extractMethod_renders before child
    · exact extractMethod_renders before child
    · exact extractField_renders before child
    · simp [*]

theorem extractInterfaceMembers_renders (node : Node) :
    List.Forall₂ (RendersBelow source file node) (Parse.Java.extractInterfaceMembers source node)
      (extractInterfaceMembers source file node) := by
  rw [Parse.Java.extractInterfaceMembers, extractInterfaceMembers]
  cases hbody : node.childByFieldName "body" with
  | none => exact .nil
  | some body =>
    show List.Forall₂ _ (List.filterMap _ _) _
    rw [List.filterMap_eq_flatMap_toList, soundChildren_filter_flatMap]
    refine forall₂_mono (field_mem_preorder hbody) (forall₂_children fun before child _ => ?_)
    split
    · exact extractMethod_renders before child
    · exact .nil

theorem extractTypeDeclaration_renders (before : List Node) (node : Node) :
    List.Forall₂ (RendersBelow source file node) (Parse.Java.extractTypeDeclaration source node).toList
      (extractTypeDeclaration source file before node).toList := by
  rw [Parse.Java.extractTypeDeclaration, extractTypeDeclaration]
  cases nodeName source node with
  | none => exact .nil
  | some name =>
    obtain ⟨name, place⟩ := name
    have hdeclared := fun kind {ds ss} (h : List.Forall₂ (RendersBelow source file node) ds ss) =>
      rendersBelow_symbolAt name kind (some place) (extractVisibility node) (extractJavadoc source before)
        (extractSignature source node kind) h
    dsimp only [Option.bind_some]
    generalize node.kind = kind
    split
    · exact .cons (hdeclared .class_ (extractClassMembers_renders node)) .nil
    · exact .cons (hdeclared .interface (extractInterfaceMembers_renders node)) .nil
    · exact .cons (hdeclared .enum .nil) .nil
    · exact .cons (hdeclared .type .nil) .nil
    · simp [*]

theorem extractSymbols_renders (tree : Node) :
    List.Forall₂ (RendersBelow source file tree) (Parse.Java.extractSymbols source tree)
      (extractSymbols source file tree) := by
  rw [Parse.Java.extractSymbols, extractSymbols, soundChildren_filterMap]
  refine forall₂_children fun before child _ => ?_
  generalize child.kind = kind
  split
  case h_1 => exact extractPackage_renders child
  case h_6 => simp [*]
  all_goals exact extractTypeDeclaration_renders before child

end Renders

end CodeQuery.Parse.Symbols.Java
