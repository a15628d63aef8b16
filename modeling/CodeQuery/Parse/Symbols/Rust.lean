/-
  CodeQuery.Parse.Symbols.Rust — the symbols of a Rust file, with their texts
  (`codequery-parse/src/languages/rust.rs`).
-/

import CodeQuery.Parse.Languages.Rust
import CodeQuery.Parse.Ranges

namespace CodeQuery.Parse.Symbols.Rust

open CodeQuery.Core CodeQuery.Text
open CodeQuery.Parse.Rust (extractImplName hasTestAttribute)

section Texts

variable (source : Str)

def extractModSignature (body : Str) : Str := beforeBrace (findTopLevelBrace body) body (singleLineSignature body)

def extractSignature (node : Node) (kind : SymbolKind) : Str :=
  let bodyText := nodeSource source node
  match kind with
  | .function | .method | .test => fnSignature (findTopLevelBrace bodyText) bodyText
  | .struct | .enum | .trait | .class_ | .interface => bodyText
  | .impl => headerSignature (findTopLevelBrace bodyText) bodyText
  | .type | .const | .static => singleLineSignature bodyText
  | .module_ => extractModSignature bodyText
  | _ => singleLineSignature bodyText

/-- What a `visibility_modifier` says; one in another form is gone over. -/
def modifierVisibility (modifier : Node) : Option Visibility :=
  let text := (modifier.utf8Text source).getD []
  if ["pub(crate)", "pub(super)", "pub(in"].any fun p => (str p).isPrefixOf text then some .crate
  else if text = str "pub" then some .public_
  else none

def extractVisibility (node : Node) : Visibility :=
  ((node.children.filter (·.kind == "visibility_modifier")).findSome? (modifierVisibility source)).getD .private_

def extractDocComment (before : List Node) : Option Str :=
  joinDoc (docLines source "line_comment" ["attribute_item"] (str "///").isPrefixOf before)

end Texts

section Extract

variable (source : Str) (file : Path)

/-- A definition that has a name and no children. -/
def named (kind : SymbolKind) (before : List Node) (node : Node) : Option Symbol :=
  (nodeFieldText source node "name").map fun (name, _) =>
    symbolAt file node name kind (extractVisibility source node) [] (extractDocComment source before)
      (extractBody source node) (extractSignature source node kind)

def extractImplMethods (implNode : Node) : List Symbol :=
  match implNode.childByFieldName "body" with
  | none => []
  | some body =>
    eachChild (fun before child =>
      if child.kind == "function_item" then (named source file .method before child).toList else []) [] body.children

def extractTopLevel (before : List Node) (node : Node) : Option Symbol :=
  match node.kind with
  | "function_item" => named source file (if hasTestAttribute source before then .test else .function) before node
  | "struct_item" => named source file .struct before node
  | "enum_item" => named source file .enum before node
  | "trait_item" => named source file .trait before node
  | "impl_item" =>
    (extractImplName source node).map fun (name, _) =>
      symbolAt file node name .impl .private_ (extractImplMethods source file node) (extractDocComment source before)
        (extractBody source node) (extractSignature source node .impl)
  | "type_item" => named source file .type before node
  | "const_item" => named source file .const before node
  | "static_item" => named source file .static before node
  | "mod_item" => named source file .module_ before node
  | _ => none

def extractSymbols (tree : Node) : List Symbol :=
  eachChild (fun before child => (extractTopLevel source file before child).toList) [] tree.children

end Extract

/-! ## One node for each symbol -/

section Renders

variable {source : Str} {file : Path}

theorem named_renders (kind : SymbolKind) (before : List Node) (node : Node) :
    List.Forall₂ (RendersBelow source file node) ((nodeFieldText source node "name").map (.leaf kind node)).toList
      (named source file kind before node).toList :=
  forall₂_map_toList _ fun name => rendersBelow_symbolAt name.1 kind (some name.2) _ _ _ .nil

theorem extractImplMethods_renders (node : Node) :
    List.Forall₂ (RendersBelow source file node) (Parse.Rust.extractImplMethods source node)
      (extractImplMethods source file node) := by
  rw [Parse.Rust.extractImplMethods, extractImplMethods]
  cases hbody : node.childByFieldName "body" with
  | none => exact .nil
  | some body =>
    show List.Forall₂ _ (List.filterMap _ _) _
    rw [List.filterMap_eq_flatMap_toList, soundChildren_filter_flatMap]
    refine forall₂_mono (field_mem_preorder hbody) (forall₂_children fun before child _ => ?_)
    split
    · exact named_renders .method before child
    · exact .nil

theorem extractTopLevel_renders (before : List Node) (node : Node) :
    List.Forall₂ (RendersBelow source file node) (Parse.Rust.extractTopLevel source before node).toList
      (extractTopLevel source file before node).toList := by
  rw [Parse.Rust.extractTopLevel, extractTopLevel]
  generalize node.kind = kind
  split
  case h_5 =>
    exact forall₂_map_toList _ fun (name, place) =>
      rendersBelow_symbolAt name .impl place _ _ _ (extractImplMethods_renders node)
  case h_10 => simp [*]
  all_goals exact named_renders _ before node

/-- The loop over definitions is the same loop. -/
theorem extractChildren_eq (before cs : List Node) : Parse.Rust.extractChildren source before cs =
    eachChild (fun before child => (Parse.Rust.extractTopLevel source before child).toList) before cs := by
  induction cs generalizing before with
  | nil => rfl
  | cons c cs ih => rw [Parse.Rust.extractChildren, eachChild, ih]

/-- The symbols are those of the definitions, each at its definition's node. -/
theorem extractSymbols_renders (tree : Node) :
    List.Forall₂ (RendersBelow source file tree) (Parse.Rust.extractSymbols source tree) (extractSymbols source file tree) := by
  rw [Parse.Rust.extractSymbols, extractSymbols, extractChildren_eq]
  exact forall₂_children fun before child _ => extractTopLevel_renders before child

end Renders

end CodeQuery.Parse.Symbols.Rust
