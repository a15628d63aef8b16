/-
  CodeQuery.Parse.Symbols.CSharp — the symbols of a C# file, with their texts
  (`codequery-parse/src/languages/csharp.rs`).
-/

import CodeQuery.Parse.Languages.CSharp
import CodeQuery.Parse.Ranges

namespace CodeQuery.Parse.Symbols.CSharp

open CodeQuery.Core CodeQuery.Text
open CodeQuery.Parse.CSharp (findIdentifier)

section Texts

variable (source : Str)

/-- The first brace, wherever it stands. -/
def findBrace (text : Str) : Option Nat := find [braceOpen] text

def extractSignature (node : Node) (kind : SymbolKind) : Str :=
  let bodyText := nodeSource source node
  match kind with
  | .function | .method => fnSignature (findBrace bodyText) bodyText
  | .class_ | .struct | .interface | .enum => headerSignature (findBrace bodyText) bodyText
  | .module_ => headerSignature (findBrace bodyText) bodyText
  | _ => firstLine bodyText

/-- What a `modifier` says; one of another kind is gone over. -/
def modifierVisibility (modifier : Node) : Option Visibility :=
  (modifier.utf8Text source).bind fun text =>
    if text = str "public" then some .public_
    else if text = str "internal" then some .crate
    else if text = str "private" ∨ text = str "protected" then some .private_
    else none

def csharpVisibility (node : Node) : Visibility :=
  ((node.children.filter (·.kind == "modifier")).findSome? (modifierVisibility source)).getD .private_

def extractDocComment (before : List Node) : Option Str :=
  joinDoc (docLines source "comment" [] (str "///").isPrefixOf before)

end Texts

section Extract

variable (source : Str) (file : Path)

def extractNamespace (node : Node) : Option Symbol :=
  ((node.children.find? fun c => c.kind == "qualified_name" || c.kind == "identifier").bind (nodeText source)).map
    fun (name, _) =>
      symbolAt file node name .module_ .public_ [] none (extractBody source node) (extractSignature source node .module_)

/-- `extract_method` and `extract_constructor`. -/
def extractMethod (before : List Node) (node : Node) : Option Symbol :=
  (findIdentifier source node).map fun (name, _) =>
    symbolAt file node name .method (csharpVisibility source node) [] (extractDocComment source before)
      (extractBody source node) (extractSignature source node .method)

def extractProperty (before : List Node) (node : Node) : Option Symbol :=
  (findIdentifier source node).map fun (name, _) =>
    symbolAt file node name .static (csharpVisibility source node) [] (extractDocComment source before)
      (extractBody source node) (trimText (firstLine (extractBody source node)))

def extractMember (before : List Node) (member : Node) : Option Symbol :=
  match member.kind with
  | "method_declaration" | "constructor_declaration" => extractMethod source file before member
  | "property_declaration" => extractProperty source file before member
  | _ => none

def extractClassMembers (node : Node) : List Symbol :=
  (node.children.filter (·.kind == "declaration_list")).flatMap fun list =>
    eachChild (fun before member => (extractMember source file before member).toList) [] list.children

/-- `extract_class`, `extract_struct`, `extract_interface` and `extract_enum`. -/
def extractType (before : List Node) (node : Node) : Option Symbol :=
  (findIdentifier source node).bind fun (name, _) =>
    let declared (kind : SymbolKind) (children : List Symbol) :=
      symbolAt file node name kind (csharpVisibility source node) children (extractDocComment source before)
        (extractBody source node) (extractSignature source node kind)
    match node.kind with
    | "class_declaration" => some (declared .class_ (extractClassMembers source file node))
    | "struct_declaration" => some (declared .struct (extractClassMembers source file node))
    | "interface_declaration" => some (declared .interface (extractClassMembers source file node))
    | "enum_declaration" => some (declared .enum [])
    | _ => none

mutual

/-- What `extract_from_node` makes of one child. -/
def extractFromChild (topLevel : Bool) (before : List Node) : Node → List Symbol
  | n@⟨kind, _, _, _, _, _, _, _, _, cs⟩ =>
    match kind with
    | "namespace_declaration" => (extractNamespace source file n).toList ++ extractNamespaceBody cs
    | "class_declaration" | "struct_declaration" | "interface_declaration" | "enum_declaration" =>
      (extractType source file before n).toList
    | _ => if topLevel then extractFromChildren false [] cs else []

/-- The loop of `extract_from_node`. -/
def extractFromChildren (topLevel : Bool) (before : List Node) : List Node → List Symbol
  | [] => []
  | c :: cs =>
    (if c.isError || c.isMissing then [] else extractFromChild topLevel before c) ++
      extractFromChildren topLevel (c :: before) cs

def extractNamespaceBody : List Node → List Symbol
  | [] => []
  | ⟨kind, _, _, _, _, _, _, _, _, inner⟩ :: cs =>
    (if kind = "declaration_list" then extractFromChildren false [] inner else []) ++ extractNamespaceBody cs

end

def extractSymbols (tree : Node) : List Symbol := extractFromChildren source file true [] tree.children

end Extract

/-! ## One node for each symbol -/

section Renders

variable {source : Str} {file : Path}

theorem extractNamespace_renders (node : Node) :
    List.Forall₂ (RendersBelow source file node) (Parse.CSharp.extractNamespace source node).toList
      (extractNamespace source file node).toList :=
  forall₂_map_toList _ fun (name, place) => rendersBelow_symbolAt name .module_ (some place) _ _ _ .nil

theorem extractMember_renders (before : List Node) (member : Node) :
    List.Forall₂ (RendersBelow source file member) (Parse.CSharp.extractMember source member).toList
      (extractMember source file before member).toList := by
  rw [Parse.CSharp.extractMember, extractMember]
  generalize member.kind = kind
  split
  case h_4 => simp [*]
  all_goals exact forall₂_map_toList _ fun name : Str × Point =>
    rendersBelow_symbolAt name.1 _ (some name.2) _ _ _ .nil

theorem extractClassMembers_renders (node : Node) :
    List.Forall₂ (RendersBelow source file node) (Parse.CSharp.extractClassMembers source node)
      (extractClassMembers source file node) := by
  refine forall₂_flatMap _ fun list hlist => ?_
  rw [soundChildren_filterMap]
  exact forall₂_mono (child_mem_preorder (List.mem_filter.mp hlist).1)
    (forall₂_children fun before member _ => extractMember_renders before member)

theorem extractType_renders (before : List Node) (node : Node) :
    List.Forall₂ (RendersBelow source file node) (Parse.CSharp.extractType source node).toList
      (extractType source file before node).toList := by
  rw [Parse.CSharp.extractType, extractType]
  cases findIdentifier source node with
  | none => exact .nil
  | some name =>
    obtain ⟨name, place⟩ := name
    have hdeclared := fun kind {ds ss} (h : List.Forall₂ (RendersBelow source file node) ds ss) =>
      rendersBelow_symbolAt name kind (some place) (csharpVisibility source node) (extractDocComment source before)
        (extractSignature source node kind) h
    dsimp only [Option.bind_some]
    generalize node.kind = kind
    split
    · exact .cons (hdeclared .class_ (extractClassMembers_renders node)) .nil
    · exact .cons (hdeclared .struct (extractClassMembers_renders node)) .nil
    · exact .cons (hdeclared .interface (extractClassMembers_renders node)) .nil
    · exact .cons (hdeclared .enum .nil) .nil
    · simp [*]

mutual

/-- What a namespace holds is beside its symbol and not under it. -/
theorem extractFromChild_renders (topLevel : Bool) (before : List Node) : ∀ n : Node,
    List.Forall₂ (RendersBelow source file n) (Parse.CSharp.extractFromChild source topLevel n)
      (extractFromChild source file topLevel before n)
  | ⟨kind, _, _, _, _, _, _, _, _, cs⟩ => by
    unfold Parse.CSharp.extractFromChild extractFromChild
    split
    case h_1 =>
      exact List.rel_append (extractNamespace_renders _) (extractNamespaceBody_renders cs fun _ hc => hc)
    case h_6 =>
      cases topLevel with
      | false => simp [*]
      | true =>
        simp only [*]
        exact extractFromChildren_renders false [] cs fun _ hc => hc
    all_goals exact extractType_renders before _

theorem extractFromChildren_renders {parent : Node} (topLevel : Bool) (before : List Node) : ∀ cs : List Node,
    (∀ c ∈ cs, c ∈ parent.children) →
      List.Forall₂ (RendersBelow source file parent) (Parse.CSharp.extractFromChildren source topLevel cs)
        (extractFromChildren source file topLevel before cs)
  | [], _ => .nil
  | c :: cs, h => by
    rw [Parse.CSharp.extractFromChildren, extractFromChildren]
    refine List.rel_append ?_ (extractFromChildren_renders topLevel _ cs fun d hd => h d (List.mem_cons_of_mem _ hd))
    split
    · exact .nil
    · exact forall₂_mono (child_mem_preorder (h c List.mem_cons_self)) (extractFromChild_renders topLevel before c)

theorem extractNamespaceBody_renders {parent : Node} : ∀ cs : List Node, (∀ c ∈ cs, c ∈ parent.children) →
    List.Forall₂ (RendersBelow source file parent) (Parse.CSharp.extractNamespaceBody source cs)
      (extractNamespaceBody source file cs)
  | [], _ => .nil
  | ⟨kind, _, _, _, _, _, _, _, _, inner⟩ :: cs, h => by
    rw [Parse.CSharp.extractNamespaceBody, extractNamespaceBody]
    refine List.rel_append ?_ (extractNamespaceBody_renders cs fun d hd => h d (List.mem_cons_of_mem _ hd))
    split
    · exact forall₂_mono (child_mem_preorder (h _ List.mem_cons_self))
        (extractFromChildren_renders false [] inner fun _ hc => hc)
    · exact .nil

end

theorem extractSymbols_renders (tree : Node) :
    List.Forall₂ (RendersBelow source file tree) (Parse.CSharp.extractSymbols source tree)
      (extractSymbols source file tree) :=
  extractFromChildren_renders true [] tree.children fun _ hc => hc

end Renders

end CodeQuery.Parse.Symbols.CSharp
