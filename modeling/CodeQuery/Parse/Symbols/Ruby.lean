/-
  CodeQuery.Parse.Symbols.Ruby — the symbols of a Ruby file, with their texts
  (`codequery-parse/src/languages/ruby.rs`).
-/

import CodeQuery.Parse.Languages.Ruby
import CodeQuery.Parse.Ranges

namespace CodeQuery.Parse.Symbols.Ruby

open CodeQuery.Core CodeQuery.Text
open CodeQuery.Parse.Ruby (findConstantName findIdentifier)

def rubyVisibility (name : Str) : Visibility := if (str "_").isPrefixOf name then .private_ else .public_

section Texts

variable (source : Str)

def extractSignature (node : Node) (kind : SymbolKind) : Str :=
  let bodyText := nodeSource source node
  match kind with
  | .function | .method => trimTextEnd (firstLine bodyText)
  | .class_ => keywordSignature (str "class") bodyText
  | .module_ => keywordSignature (str "module") bodyText
  | .const => trimTextEnd (firstLine bodyText)
  | _ => firstLine bodyText

def extractComment (before : List Node) : Option Str := joinDoc (docLines source "comment" [] (fun _ => true) before)

end Texts

section Extract

variable (source : Str) (file : Path)

/-- A symbol whose name tells its visibility. -/
def symbolNamed (kind : SymbolKind) (children : List Symbol) (before : List Node) (node : Node) (name : Str × Point) :
    Symbol :=
  symbolAt file node name.1 kind (rubyVisibility name.1) children (extractComment source before)
    (extractBody source node) (extractSignature source node kind)

def extractMethod (before : List Node) (node : Node) (isMethod : Bool) : Option Symbol :=
  (findIdentifier source node).map (symbolNamed source file (if isMethod then .method else .function) [] before node)

def extractSingletonMethod (before : List Node) (node : Node) : Option Symbol :=
  (findIdentifier source node).map (symbolNamed source file .function [] before node)

def extractConstantAssignment (node : Node) : Option Symbol :=
  node.children.head?.bind fun left =>
    if left.kind != "constant" then none
    else (nodeText source left).map fun (name, _) =>
      symbolAt file node name .const .public_ [] none (extractBody source node) (extractSignature source node .const)

mutual

/-- `extract_class` and, with another kind, `extract_module`. -/
def extractContainer (symbolKind : SymbolKind) (before : List Node) : Node → Option Symbol
  | n@⟨_, _, _, _, _, _, _, _, _, cs⟩ =>
    let children := extractBodyMethods cs
    (findConstantName source n).map (symbolNamed source file symbolKind children before n)

/-- The methods in every `body_statement` among the nodes. -/
def extractBodyMethods : List Node → List Symbol
  | [] => []
  | ⟨kind, _, _, _, _, _, _, _, _, inner⟩ :: cs =>
    (if kind = "body_statement" then extractInBody [] inner else []) ++ extractBodyMethods cs

def extractInBody (before : List Node) : List Node → List Symbol
  | [] => []
  | c :: cs =>
    (if c.isError || c.isMissing then []
      else match c.kind with
        | "method" => (extractMethod source file before c true).toList
        | "singleton_method" => (extractSingletonMethod source file before c).toList
        | "class" => (extractContainer .class_ before c).toList
        | "assignment" => (extractConstantAssignment source file c).toList
        | _ => []) ++ extractInBody (c :: before) cs

end

def extractTopLevel (before : List Node) (node : Node) : Option Symbol :=
  match node.kind with
  | "method" => extractMethod source file before node false
  | "singleton_method" => extractSingletonMethod source file before node
  | "class" => extractContainer source file .class_ before node
  | "module" => extractContainer source file .module_ before node
  | "assignment" => extractConstantAssignment source file node
  | _ => none

def extractSymbols (tree : Node) : List Symbol :=
  eachChild (fun before child => (extractTopLevel source file before child).toList) [] tree.children

end Extract

/-! ## One node for each symbol -/

section Renders

variable {source : Str} {file : Path}

theorem symbolNamed_renders (kind : SymbolKind) (before : List Node) (n : Node) {ds : List Definition} {ss : List Symbol}
    (h : List.Forall₂ (RendersBelow source file n) ds ss) (name : Str × Point) :
    RendersBelow source file n ⟨name.1, kind, n, some name.2, ds⟩ (symbolNamed source file kind ss before n name) :=
  rendersBelow_symbolAt name.1 kind (some name.2) _ _ _ h

theorem extractMethod_renders (before : List Node) (node : Node) (isMethod : Bool) :
    List.Forall₂ (RendersBelow source file node) (Parse.Ruby.extractMethod source node isMethod).toList
      (extractMethod source file before node isMethod).toList :=
  forall₂_map_toList _ (symbolNamed_renders _ before node .nil)

theorem extractSingletonMethod_renders (before : List Node) (node : Node) :
    List.Forall₂ (RendersBelow source file node) (Parse.Ruby.extractSingletonMethod source node).toList
      (extractSingletonMethod source file before node).toList :=
  forall₂_map_toList _ (symbolNamed_renders .function before node .nil)

theorem extractConstantAssignment_renders (node : Node) :
    List.Forall₂ (RendersBelow source file node) (Parse.Ruby.extractConstantAssignment source node).toList
      (extractConstantAssignment source file node).toList := by
  rw [Parse.Ruby.extractConstantAssignment, extractConstantAssignment]
  cases node.children.head? with
  | none => exact .nil
  | some left =>
    rw [Option.bind_some, Option.bind_some]
    split
    · exact .nil
    · exact forall₂_map_toList _ fun (name, place) => rendersBelow_symbolAt name .const (some place) _ _ _ .nil

mutual

theorem extractContainer_renders (symbolKind : SymbolKind) (before : List Node) : ∀ n : Node,
    List.Forall₂ (RendersBelow source file n) (Parse.Ruby.extractContainer source symbolKind n).toList
      (extractContainer source file symbolKind before n).toList
  | ⟨_, _, _, _, _, _, _, _, _, cs⟩ => by
    rw [Parse.Ruby.extractContainer, extractContainer]
    exact forall₂_map_toList _
      (symbolNamed_renders symbolKind before _ (extractBodyMethods_renders cs fun _ hc => hc))

theorem extractBodyMethods_renders {parent : Node} : ∀ cs : List Node, (∀ c ∈ cs, c ∈ parent.children) →
    List.Forall₂ (RendersBelow source file parent) (Parse.Ruby.extractBodyMethods source cs)
      (extractBodyMethods source file cs)
  | [], _ => .nil
  | ⟨kind, _, _, _, _, _, _, _, _, inner⟩ :: cs, h => by
    rw [Parse.Ruby.extractBodyMethods, extractBodyMethods]
    refine List.rel_append ?_ (extractBodyMethods_renders cs fun d hd => h d (List.mem_cons_of_mem _ hd))
    split
    · exact forall₂_mono (child_mem_preorder (h _ List.mem_cons_self)) (extractInBody_renders [] inner fun _ hc => hc)
    · exact .nil

theorem extractInBody_renders {parent : Node} (before : List Node) : ∀ cs : List Node, (∀ c ∈ cs, c ∈ parent.children) →
    List.Forall₂ (RendersBelow source file parent) (Parse.Ruby.extractInBody source cs)
      (extractInBody source file before cs)
  | [], _ => .nil
  | c :: cs, h => by
    rw [Parse.Ruby.extractInBody, extractInBody]
    refine List.rel_append ?_ (extractInBody_renders _ cs fun d hd => h d (List.mem_cons_of_mem _ hd))
    refine forall₂_mono (child_mem_preorder (h c List.mem_cons_self)) ?_
    have hcontainer := extractContainer_renders .class_ before c
    split
    · exact .nil
    · generalize c.kind = kind
      split
      · exact extractMethod_renders before c true
      · exact extractSingletonMethod_renders before c
      · exact hcontainer
      · exact extractConstantAssignment_renders c
      · simp [*]

end

theorem extractTopLevel_renders (before : List Node) (node : Node) :
    List.Forall₂ (RendersBelow source file node) (Parse.Ruby.extractTopLevel source node).toList
      (extractTopLevel source file before node).toList := by
  rw [Parse.Ruby.extractTopLevel, extractTopLevel]
  generalize node.kind = kind
  split
  · exact extractMethod_renders before node false
  · exact extractSingletonMethod_renders before node
  · exact extractContainer_renders .class_ before node
  · exact extractContainer_renders .module_ before node
  · exact extractConstantAssignment_renders node
  · simp [*]

theorem extractSymbols_renders (tree : Node) :
    List.Forall₂ (RendersBelow source file tree) (Parse.Ruby.extractSymbols source tree)
      (extractSymbols source file tree) := by
  rw [Parse.Ruby.extractSymbols, extractSymbols, soundChildren_filterMap]
  exact forall₂_children fun before child _ => extractTopLevel_renders before child

end Renders

end CodeQuery.Parse.Symbols.Ruby
