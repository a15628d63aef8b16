/-
  CodeQuery.Parse.Symbols.Cpp — the symbols of a C++ file, with their texts
  (`codequery-parse/src/languages/cpp.rs`).
-/

import CodeQuery.Parse.Languages.Cpp
import CodeQuery.Parse.Ranges

namespace CodeQuery.Parse.Symbols.Cpp

open CodeQuery.Core CodeQuery.Text
open CodeQuery.Parse.C (isPreprocConditional withBody)
open CodeQuery.Parse.Cpp (extractDeclarationName extractFunctionName extractTypedefName isQualified)

section Texts

variable (source : Str)

def extractSignature (node : Node) (kind : SymbolKind) : Str :=
  let bodyText := nodeSource source node
  match kind with
  | .function | .method => fnSignature (findTopLevelBrace bodyText) bodyText
  | .module_ => headerSignature (findTopLevelBrace bodyText) bodyText
  | .type | .static | .const => singleLineSignature bodyText
  | _ => bodyText

/-- `protected` is nearest to a crate's. -/
def parseAccessSpecifier (node : Node) : Visibility :=
  let text := trimText (trimEndMatches colon ((node.utf8Text source).getD []))
  if text = str "public" then .public_ else if text = str "protected" then .crate else .private_

def extractDocComment (before : List Node) : Option Str := joinDoc (docLines source "comment" [] (fun _ => true) before)

end Texts

section Extract

variable (source : Str) (file : Path)

/-- A definition by its name. -/
def symbolNamed (kind : SymbolKind) (visibility : Visibility) (children : List Symbol) (before : List Node) (node : Node)
    (name : Str × Point) : Symbol :=
  symbolAt file node name.1 kind visibility children (extractDocComment source before) (extractBody source node)
    (extractSignature source node kind)

def extractMethodDeclaration (visibility : Visibility) (before : List Node) (node : Node) : Option Symbol :=
  (extractFunctionName source node).map fun name =>
    symbolAt file node name.1 .method visibility [] (extractDocComment source before) (extractBody source node)
      (singleLineSignature (extractBody source node))

/-- What the loop of `extract_class_members` makes of a child. -/
def memberAt (visibility : Visibility) (before : List Node) (child : Node) : List Symbol :=
  match child.kind with
  | "function_definition" =>
    ((extractFunctionName source child).map (symbolNamed source file .method visibility [] before child)).toList
  | "declaration" | "field_declaration" => (extractMethodDeclaration source file visibility before child).toList
  | _ => []

/-- The loop, which keeps the visibility that the last specifier gave. -/
def membersAmong (visibility : Visibility) (before : List Node) : List Node → List Symbol
  | [] => []
  | c :: cs =>
    if c.isError || c.isMissing then membersAmong visibility (c :: before) cs
    else
      memberAt source file visibility before c ++
        membersAmong (if c.kind = "access_specifier" then parseAccessSpecifier source c else visibility) (c :: before) cs

def extractClassMembers (classNode : Node) : List Symbol :=
  match classNode.childByFieldName "body" with
  | none => []
  | some body => membersAmong source file .private_ [] body.children

mutual

/-- `extract_node`. -/
def extractNode (defaultVisibility : Visibility) (before : List Node) : Node → List Symbol
  | n@⟨kind, _, _, _, _, _, _, _, _, cs⟩ =>
    match kind with
    | "function_definition" =>
      ((extractFunctionName source n).filter (!isQualified ·.1)).toList.map
        (symbolNamed source file .function defaultVisibility [] before n)
    | "class_specifier" =>
      (nodeFieldText source n "name").toList.map
        (symbolNamed source file .class_ defaultVisibility (extractClassMembers source file n) before n)
    | "struct_specifier" =>
      (withBody n (nodeFieldText source n "name")).toList.map
        (symbolNamed source file .struct defaultVisibility [] before n)
    | "enum_specifier" =>
      (withBody n (nodeFieldText source n "name")).toList.map
        (symbolNamed source file .enum defaultVisibility [] before n)
    | "namespace_definition" =>
      let children := namespaceBody cs
      (nodeFieldText source n "name").toList.map (symbolNamed source file .module_ .public_ children before n)
    | "type_definition" =>
      (extractTypedefName source n).toList.map (symbolNamed source file .type defaultVisibility [] before n)
    | "alias_declaration" =>
      (nodeFieldText source n "name").toList.map (symbolNamed source file .type defaultVisibility [] before n)
    | "declaration" =>
      (extractDeclarationName source n).toList.map (symbolNamed source file .static defaultVisibility [] before n)
    | "preproc_def" | "preproc_function_def" =>
      (nodeFieldText source n "name").toList.map (symbolNamed source file .const .public_ [] before n)
    | _ => []

/-- What is in the child held as `body`. -/
def namespaceBody : List Node → List Symbol
  | [] => []
  | ⟨_, field, _, _, _, _, _, _, _, inner⟩ :: cs =>
    if field = some "body" then extractNodes [] inner else namespaceBody cs

def extractNodes (before : List Node) : List Node → List Symbol
  | [] => []
  | c :: cs =>
    (if c.isError || c.isMissing then [] else extractNode .public_ before c) ++ extractNodes (c :: before) cs

end

mutual

def walkChildren (defaultVisibility : Visibility) : Node → List Symbol
  | ⟨_, _, _, _, _, _, _, _, _, cs⟩ => walkAll defaultVisibility [] cs

def walkAll (defaultVisibility : Visibility) (before : List Node) : List Node → List Symbol
  | [] => []
  | c :: cs =>
    (if c.isError || c.isMissing then []
      else if isPreprocConditional c.kind then walkChildren defaultVisibility c
      else extractNode source file defaultVisibility before c) ++ walkAll defaultVisibility (c :: before) cs

end

def extractSymbols (tree : Node) : List Symbol := walkChildren source file .public_ tree

end Extract

/-! ## One node for each symbol -/

section Renders

variable {source : Str} {file : Path}

theorem symbolNamed_renders (kind : SymbolKind) (visibility : Visibility) (before : List Node) (n : Node)
    {ds : List Definition} {ss : List Symbol} (h : List.Forall₂ (RendersBelow source file n) ds ss) (name : Str × Point) :
    RendersBelow source file n ⟨name.1, kind, n, some name.2, ds⟩
      (symbolNamed source file kind visibility ss before n name) :=
  rendersBelow_symbolAt name.1 kind (some name.2) visibility _ _ h

theorem extractMethodDeclaration_renders (visibility : Visibility) (before : List Node) (node : Node) :
    List.Forall₂ (RendersBelow source file node) (Parse.Cpp.extractMethodDeclaration source node).toList
      (extractMethodDeclaration source file visibility before node).toList :=
  forall₂_map_toList _ fun (name, place) => rendersBelow_symbolAt name .method (some place) _ _ _ .nil

/-- The visibility has no part in what the members are. -/
theorem membersAmong_renders {g : Node → List Definition} {parent : Node}
    (hg : ∀ visibility before c,
      List.Forall₂ (RendersBelow source file c) (g c) (memberAt source file visibility before c))
    (visibility : Visibility) (before cs : List Node) (h : ∀ c ∈ cs, c ∈ parent.children) :
    List.Forall₂ (RendersBelow source file parent) (eachChild (fun _ => g) before cs)
      (membersAmong source file visibility before cs) := by
  induction cs generalizing visibility before with
  | nil => exact .nil
  | cons c cs ih =>
    have hrest := fun v => ih v (c :: before) fun d hd => h d (List.mem_cons_of_mem _ hd)
    rw [eachChild, membersAmong]
    split
    · rw [List.nil_append]
      exact hrest visibility
    · exact List.rel_append
        (forall₂_mono (child_mem_preorder (h c List.mem_cons_self)) (hg visibility before c)) (hrest _)

theorem extractClassMembers_renders (node : Node) :
    List.Forall₂ (RendersBelow source file node) (Parse.Cpp.extractClassMembers source node)
      (extractClassMembers source file node) := by
  rw [Parse.Cpp.extractClassMembers, extractClassMembers]
  cases hbody : node.childByFieldName "body" with
  | none => exact .nil
  | some body =>
    show List.Forall₂ _ (List.flatMap _ _) _
    rw [soundChildren_flatMap]
    refine forall₂_mono (field_mem_preorder hbody)
      (membersAmong_renders (fun visibility before c => ?_) .private_ [] body.children fun _ hc => hc)
    rw [memberAt]
    generalize c.kind = kind
    split
    · exact forall₂_map_toList _ (symbolNamed_renders .method visibility before c .nil)
    · exact extractMethodDeclaration_renders visibility before c
    · exact extractMethodDeclaration_renders visibility before c
    · simp [*]

mutual

theorem extractNode_renders (visibility : Visibility) (before : List Node) : ∀ n : Node,
    List.Forall₂ (RendersBelow source file n) (Parse.Cpp.extractNode source n)
      (extractNode source file visibility before n)
  | ⟨kind, _, _, _, _, _, _, _, _, cs⟩ => by
    unfold Parse.Cpp.extractNode extractNode
    split
    case h_2 => exact forall₂_map_map _ (symbolNamed_renders .class_ _ before _ (extractClassMembers_renders _))
    case h_5 =>
      exact forall₂_map_map _ (symbolNamed_renders .module_ _ before _ (namespaceBody_renders cs fun _ hc => hc))
    case h_11 => simp [*]
    all_goals exact forall₂_map_map _ (symbolNamed_renders _ _ before _ .nil)

theorem namespaceBody_renders {parent : Node} : ∀ cs : List Node, (∀ c ∈ cs, c ∈ parent.children) →
    List.Forall₂ (RendersBelow source file parent) (Parse.Cpp.namespaceBody source cs) (namespaceBody source file cs)
  | [], _ => .nil
  | ⟨_, field, _, _, _, _, _, _, _, inner⟩ :: cs, h => by
    rw [Parse.Cpp.namespaceBody, namespaceBody]
    split
    · exact forall₂_mono (child_mem_preorder (h _ List.mem_cons_self)) (extractNodes_renders [] inner fun _ hc => hc)
    · exact namespaceBody_renders cs fun d hd => h d (List.mem_cons_of_mem _ hd)

theorem extractNodes_renders {parent : Node} (before : List Node) : ∀ cs : List Node, (∀ c ∈ cs, c ∈ parent.children) →
    List.Forall₂ (RendersBelow source file parent) (Parse.Cpp.extractNodes source cs)
      (extractNodes source file before cs)
  | [], _ => .nil
  | c :: cs, h => by
    rw [Parse.Cpp.extractNodes, extractNodes]
    refine List.rel_append ?_ (extractNodes_renders _ cs fun d hd => h d (List.mem_cons_of_mem _ hd))
    split
    · exact .nil
    · exact forall₂_mono (child_mem_preorder (h c List.mem_cons_self)) (extractNode_renders .public_ before c)

end

mutual

theorem walkChildren_renders (visibility : Visibility) : ∀ n : Node,
    List.Forall₂ (RendersBelow source file n) (Parse.Cpp.walkChildren source n) (walkChildren source file visibility n)
  | ⟨_, _, _, _, _, _, _, _, _, cs⟩ => by
    rw [Parse.Cpp.walkChildren, walkChildren]
    exact walkAll_renders visibility [] cs fun _ hc => hc

theorem walkAll_renders {parent : Node} (visibility : Visibility) (before : List Node) : ∀ cs : List Node,
    (∀ c ∈ cs, c ∈ parent.children) →
      List.Forall₂ (RendersBelow source file parent) (Parse.Cpp.walkAll source cs) (walkAll source file visibility before cs)
  | [], _ => .nil
  | c :: cs, h => by
    have hc := child_mem_preorder (h c List.mem_cons_self)
    rw [Parse.Cpp.walkAll, walkAll]
    refine List.rel_append ?_ (walkAll_renders visibility _ cs fun d hd => h d (List.mem_cons_of_mem _ hd))
    split
    · exact .nil
    · split
      · exact forall₂_mono hc (walkChildren_renders visibility c)
      · exact forall₂_mono hc (extractNode_renders visibility before c)

end

theorem extractSymbols_renders (tree : Node) :
    List.Forall₂ (RendersBelow source file tree) (Parse.Cpp.extractSymbols source tree)
      (extractSymbols source file tree) := walkChildren_renders .public_ tree

end Renders

end CodeQuery.Parse.Symbols.Cpp
