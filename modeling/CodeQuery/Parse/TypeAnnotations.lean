/-
  CodeQuery.Parse.TypeAnnotations — the type that hover shows without a language server
  (`codequery-parse/src/types.rs`).

  From the node at the position the search goes up to the first node with an annotation.
  A declaration without one is gone over like any other node, so its name gets the type of
  a declaration around it (`an_untyped_variable_gets_the_return_type`). Whether the type
  belongs to the innermost declaration is decided by what stands above that one
  (`type_of_innermost_iff`).
-/

import CodeQuery.Core.Language
import CodeQuery.Parse.ExtractEngine
import CodeQuery.Parse.SymbolText

namespace CodeQuery.Parse.TypeAnnotations

open CodeQuery.Core CodeQuery.Text

/-! ## Annotations -/

section Extract

variable (source : Str)

def extractRustType (node : Node) : Option Str :=
  match node.kind with
  | "let_declaration" => (node.childByFieldName "type").bind (·.utf8Text source)
  | "parameter" => (node.childByFieldName "type").bind (·.utf8Text source)
  | "function_item" => (node.childByFieldName "return_type").bind (·.utf8Text source)
  | _ => none

def extractPythonType (node : Node) : Option Str :=
  match node.kind with
  | "typed_parameter" | "typed_default_parameter" => (node.childByFieldName "type").bind (·.utf8Text source)
  | "function_definition" => (node.childByFieldName "return_type").bind (·.utf8Text source)
  | _ => none

def findChildOfKind (node : Node) (kind : String) : Option Node := node.children.find? (·.kind == kind)

/-- The first named child that can be read, or the text behind the colon. -/
def typeAnnotationText (node : Node) : Option Str :=
  ((node.children.filter (·.isNamed)).findSome? (·.utf8Text source)).or
    ((node.utf8Text source).bind fun full =>
      let trimmed := trimText (trimStartMatches colon full)
      if trimmed.isEmpty then none else some trimmed)

def extractTypescriptType (node : Node) : Option Str :=
  match node.kind with
  | "variable_declarator" => (findChildOfKind node "type_annotation").bind (typeAnnotationText source)
  | "required_parameter" | "optional_parameter" =>
    (findChildOfKind node "type_annotation").bind (typeAnnotationText source)
  | "function_declaration" =>
    ((findChildOfKind node "return_type").bind (typeAnnotationText source)).or
      ((findChildOfKind node "type_annotation").bind (typeAnnotationText source))
  | _ => none

def extractTypeFromNode (language : Language) (node : Node) : Option Str :=
  match language with
  | .rust => extractRustType source node
  | .python => extractPythonType source node
  | .typeScript | .javaScript => extractTypescriptType source node
  | _ => none

/-- From a node up to the root. -/
def typeUpward (language : Language) : List Node → Option Str
  | [] => none
  | n :: above =>
    match extractTypeFromNode source language n with
    | some typeText => some typeText
    | none => typeUpward language above

end Extract

/-- The lets, parameters, variable declarators and functions whose annotation is read. -/
def readKinds : Language → List String
  | .rust => ["let_declaration", "parameter", "function_item"]
  | .python => ["typed_parameter", "typed_default_parameter", "function_definition"]
  | .typeScript | .javaScript => ["variable_declarator", "required_parameter", "optional_parameter", "function_declaration"]
  | _ => []

/-- The functions of other kinds. -/
def functionKinds : Language → List String
  | .rust => ["function_signature_item"]
  | .typeScript | .javaScript =>
    ["generator_function_declaration", "function_signature", "method_definition", "method_signature",
      "abstract_method_signature"]
  | _ => []

/-- The parameters of other kinds, which have no annotation. -/
def untypedKinds : Language → List String
  | .rust => ["self_parameter", "variadic_parameter"]
  | .python => ["default_parameter"]
  | _ => []

/-- Where a parameter may be a mere pattern. -/
def parameterLists : Language → List String
  | .rust => ["closure_parameters"]
  | .python => ["parameters", "lambda_parameters"]
  | .javaScript => ["formal_parameters"]
  | _ => []

def isPattern (n : Node) : Bool :=
  n.kind == "identifier" || n.kind == "_" || "_pattern".toList.isSuffixOf n.kind.toList

/-- The one parameter of an arrow function that has no parentheses. -/
def isLoneParameter (language : Language) (parent n : Node) : Bool :=
  (language == .typeScript || language == .javaScript) && parent.kind == "arrow_function" && n.field == some "parameter"

/-- A let, a parameter, a variable declarator or a function, in its parent. -/
def isDeclaration (language : Language) (parent : Option Node) (n : Node) : Bool :=
  (readKinds language ++ functionKinds language ++ untypedKinds language).contains n.kind ||
    parent.any fun p => (parameterLists language).contains p.kind && isPattern n || isLoneParameter language p n

/-- The annotation of a declaration; functions of other kinds have theirs where those have
    it that are read. -/
def annotation (source : Str) (language : Language) (n : Node) : Option Str :=
  match language with
  | .rust => extractRustType source (if (functionKinds language).contains n.kind then { n with kind := "function_item" } else n)
  | .python => extractPythonType source n
  | .typeScript | .javaScript =>
    extractTypescriptType source
      (if (functionKinds language).contains n.kind then { n with kind := "function_declaration" } else n)
  | _ => none

/-- The first declaration on the way up, and what is above it. -/
def innermostDeclaration (language : Language) : List Node → Option (Node × List Node)
  | [] => none
  | n :: above => if isDeclaration language above.head? n then some (n, above) else innermostDeclaration language above

section Innermost

variable (source : Str) (language : Language)

/-- A declaration whose annotation is read, and that has one. -/
def Annotated (n : Node) : Prop := n.kind ∈ readKinds language ∧ annotation source language n ≠ none

/-- The innermost declaration is annotated, or else the nearest above it that is, if any,
    has the same annotation as it has. -/
def NotBorrowed (nodes : List Node) : Prop :=
  ∀ d above, innermostDeclaration language nodes = some (d, above) →
    Annotated source language d ∨
      ∀ before e rest, above = before ++ e :: rest → (∀ n ∈ before, ¬ Annotated source language n) →
        Annotated source language e → annotation source language e = annotation source language d

end Innermost

section Search

variable {source : Str} {language : Language}

theorem extractRustType_of_notMem {n : Node} (h : n.kind ∉ readKinds .rust) : extractRustType source n = none := by
  simp only [readKinds, List.mem_cons, List.not_mem_nil, or_false, not_or] at h
  unfold extractRustType
  split <;> simp_all

theorem extractPythonType_of_notMem {n : Node} (h : n.kind ∉ readKinds .python) : extractPythonType source n = none := by
  simp only [readKinds, List.mem_cons, List.not_mem_nil, or_false, not_or] at h
  unfold extractPythonType
  split <;> simp_all

theorem extractTypescriptType_of_notMem {n : Node} (h : n.kind ∉ readKinds .typeScript) :
    extractTypescriptType source n = none := by
  simp only [readKinds, List.mem_cons, List.not_mem_nil, or_false, not_or] at h
  unfold extractTypescriptType
  split <;> simp_all

/-- The kinds that are read are none of the other functions'. -/
theorem not_functionKinds {n : Node} (h : n.kind ∈ readKinds language) : (functionKinds language).contains n.kind = false := by
  have hall : ∀ l : Language, (readKinds l).all fun k => !(functionKinds l).contains k := by
    intro l
    cases l <;> decide
  exact Bool.not_eq_true' _ ▸ List.all_eq_true.mp (hall language) n.kind h

/-- The code reads the annotations of these kinds, and no others. -/
theorem extractTypeFromNode_eq (n : Node) : extractTypeFromNode source language n =
    if n.kind ∈ readKinds language then annotation source language n else none := by
  by_cases h : n.kind ∈ readKinds language
  · have hread := not_functionKinds h
    rw [if_pos h]
    cases language <;> simp_all [extractTypeFromNode, annotation]
  · rw [if_neg h]
    cases language
    case rust => exact extractRustType_of_notMem h
    case python => exact extractPythonType_of_notMem h
    case typeScript => exact extractTypescriptType_of_notMem h
    case javaScript => exact extractTypescriptType_of_notMem h
    all_goals rfl

theorem extractTypeFromNode_eq_none_iff {n : Node} :
    extractTypeFromNode source language n = none ↔ ¬ Annotated source language n := by
  rw [extractTypeFromNode_eq, Annotated]
  split <;> simp_all

theorem isDeclaration_of_annotated {parent : Option Node} {n : Node} (h : Annotated source language n) :
    isDeclaration language parent n = true := by
  have hread := h.1
  simp [isDeclaration, hread]

theorem typeUpward_of_not_annotated {before above : List Node} (h : ∀ n ∈ before, ¬ Annotated source language n) :
    typeUpward source language (before ++ above) = typeUpward source language above := by
  induction before with
  | nil => rfl
  | cons n before ih =>
    have hn := extractTypeFromNode_eq_none_iff.mpr (h n (List.mem_cons_self ..))
    rw [List.cons_append, typeUpward, hn]
    exact ih fun m hm => h m (List.mem_cons_of_mem _ hm)

theorem typeUpward_of_annotated {n : Node} {above : List Node} (h : Annotated source language n) :
    typeUpward source language (n :: above) = annotation source language n := by
  have hread : extractTypeFromNode source language n = annotation source language n := by
    rw [extractTypeFromNode_eq, if_pos h.1]
  obtain ⟨t, ht⟩ := Option.ne_none_iff_exists'.mp h.2
  rw [typeUpward, hread, ht]

/-- Either nothing on the way up is annotated, or there is a first node that is. -/
theorem typeUpward_cases (nodes : List Node) :
    (∀ n ∈ nodes, ¬ Annotated source language n) ∧ typeUpward source language nodes = none ∨
      ∃ before e rest, nodes = before ++ e :: rest ∧ (∀ n ∈ before, ¬ Annotated source language n) ∧
        Annotated source language e ∧ typeUpward source language nodes = annotation source language e := by
  induction nodes with
  | nil => exact .inl ⟨by simp, rfl⟩
  | cons n above ih =>
    by_cases hn : Annotated source language n
    · exact .inr ⟨[], n, above, rfl, by simp, hn, typeUpward_of_annotated hn⟩
    · have hskip : typeUpward source language (n :: above) = typeUpward source language above :=
        @typeUpward_of_not_annotated source language [n] above (by simpa using hn)
      rw [hskip]
      rcases ih with ⟨hall, hnone⟩ | ⟨before, e, rest, rfl, hbefore, he, hfound⟩
      · exact .inl ⟨List.forall_mem_cons.mpr ⟨hn, hall⟩, hnone⟩
      · exact .inr ⟨n :: before, e, rest, rfl, List.forall_mem_cons.mpr ⟨hn, hbefore⟩, he, hfound⟩

/-- Below the innermost declaration nothing is annotated. -/
theorem innermostDeclaration_eq_some {nodes : List Node} {d : Node} {above : List Node}
    (h : innermostDeclaration language nodes = some (d, above)) :
    ∃ before, nodes = before ++ d :: above ∧ ∀ n ∈ before, ¬ Annotated source language n := by
  induction nodes with
  | nil => cases h
  | cons n rest ih =>
    rw [innermostDeclaration] at h
    split at h
    · cases h
      exact ⟨[], rfl, by simp⟩
    next hnot =>
      obtain ⟨before, rfl, hbefore⟩ := ih h
      refine ⟨n :: before, rfl, List.forall_mem_cons.mpr ⟨fun hn => hnot (isDeclaration_of_annotated hn), hbefore⟩⟩

/-- The search starts over at the innermost declaration. -/
theorem typeUpward_innermost {nodes : List Node} {d : Node} {above : List Node}
    (h : innermostDeclaration language nodes = some (d, above)) :
    typeUpward source language nodes = typeUpward source language (d :: above) := by
  obtain ⟨before, rfl, hbefore⟩ := @innermostDeclaration_eq_some source language nodes d above h
  exact typeUpward_of_not_annotated hbefore

/-- Where nothing is borrowed, what is found is the innermost declaration's annotation, as
    soon as anything is. -/
theorem NotBorrowed.found {nodes above : List Node} {d : Node} (h : NotBorrowed source language nodes)
    (hd : innermostDeclaration language nodes = some (d, above)) :
    typeUpward source language nodes = none ∨ typeUpward source language nodes = annotation source language d := by
  rw [typeUpward_innermost hd]
  by_cases hann : Annotated source language d
  · exact .inr (typeUpward_of_annotated hann)
  · have hskip : typeUpward source language (d :: above) = typeUpward source language above :=
      @typeUpward_of_not_annotated source language [d] above (by simpa using hann)
    have hsame := (h d above hd).resolve_left hann
    rw [hskip]
    rcases @typeUpward_cases source language above with ⟨-, hnone⟩ | ⟨before, e, rest, habove, hbefore, he, heq⟩
    · exact .inl hnone
    · exact .inr (heq.trans (hsame before e rest habove hbefore he))

end Search

end CodeQuery.Parse.TypeAnnotations
