/-
  CodeQuery.Parse.NameNodes — the names of C# and Ruby declarations
  (`find_identifier` of `codequery-parse/src/languages/csharp.rs` and `ruby.rs`).

  The name is looked for by its kind: it is the first identifier among the children. A
  return type or a receiver in front of the name may be one too, and an operator or a
  setter is none (`names_of_other_nodes`). A declaration has a symbol of its own name
  exactly where the extractor comes to it and the first identifier reads like the name
  (`named_by_name_node_iff`).
-/

import CodeQuery.Parse.DeclarationPlaces
import CodeQuery.Parse.Extraction

namespace CodeQuery.Parse.NameNodes

open CodeQuery.Core CodeQuery.Text

/-! ## Declarations -/

/-- The extractors that are looked at. -/
inductive NameLanguage where
  | csharp
  | ruby
  deriving DecidableEq, Repr

def NameLanguage.language : NameLanguage → Language
  | csharp => .cSharp
  | ruby => .ruby

/-- Members and types of C#, methods of Ruby. -/
def declarationKinds : NameLanguage → List String
  | .csharp =>
    CSharp.memberKinds ++ CSharp.typeKinds ++ ["record_declaration", "record_struct_declaration", "delegate_declaration"]
  | .ruby => ["method", "singleton_method"]

section Names

variable (source : Str) (tree n : Node)

/-- The extractor looks where the declaration stands. -/
def ComesTo : NameLanguage → Prop
  | .csharp => CSharp.ComesToType tree n ∨ CSharp.ComesToMember source tree n
  | .ruby => Ruby.ComesToMethod source tree n

/-- The text of the name child. -/
def ownName : Option Str := (n.childByFieldName "name").bind (·.utf8Text source)

/-- The first child that is an identifier is the name, or reads like it. -/
def IdentifierIsName : Prop :=
  ∃ before c after name, n.children = before ++ c :: after ∧ (∀ b ∈ before, b.kind ≠ "identifier") ∧
    c.kind = "identifier" ∧ c.utf8Text source = some name ∧ ownName source n = some name

/-- There is a symbol of the declaration, with that name. -/
def NamedByNameNode (texts : TextsOf) (file : Path) (l : NameLanguage) : Prop :=
  ∃ s, (s, n) ∈ (Extraction.builtin l.language texts).bodies source tree file ∧ ownName source n = some s.name

end Names

section FirstIdentifier

variable {source : Str} {tree n : Node} {name : Str}

theorem findIdentifier_eq_some_iff : (∃ place, CSharp.findIdentifier source n = some (name, place)) ↔
    ∃ before c after, n.children = before ++ c :: after ∧ (∀ b ∈ before, b.kind ≠ "identifier") ∧
      c.kind = "identifier" ∧ c.utf8Text source = some name := by
  constructor
  · intro h
    obtain ⟨place, h⟩ := h
    obtain ⟨c, hfind, htext⟩ := Option.bind_eq_some_iff.mp h
    obtain ⟨hkind, before, after, hchildren, hbefore⟩ := List.find?_eq_some_iff_append.mp hfind
    obtain ⟨text, hread, heq⟩ := Option.map_eq_some_iff.mp htext
    cases heq
    exact ⟨before, c, after, hchildren, fun b hb => by simpa using hbefore b hb, eq_of_beq hkind, hread⟩
  · intro h
    obtain ⟨before, c, after, hchildren, hbefore, hkind, hread⟩ := h
    have hfind : n.children.find? (·.kind == "identifier") = some c :=
      List.find?_eq_some_iff_append.mpr
        ⟨beq_iff_eq.mpr hkind, before, after, hchildren, fun b hb => by simpa using hbefore b hb⟩
    refine ⟨c.startPosition, ?_⟩
    rw [CSharp.findIdentifier, hfind, Option.bind_some, nodeText, hread]
    rfl

theorem identifierIsName_iff : IdentifierIsName source n ↔
    ∃ name, (∃ place, CSharp.findIdentifier source n = some (name, place)) ∧ ownName source n = some name := by
  constructor
  · intro h
    obtain ⟨before, c, after, name, hchildren, hbefore, hkind, hread, hown⟩ := h
    exact ⟨name, findIdentifier_eq_some_iff.mpr ⟨before, c, after, hchildren, hbefore, hkind, hread⟩, hown⟩
  · intro h
    obtain ⟨name, hfound, hown⟩ := h
    obtain ⟨before, c, after, hchildren, hbefore, hkind, hread⟩ := findIdentifier_eq_some_iff.mp hfound
    exact ⟨before, c, after, name, hchildren, hbefore, hkind, hread, hown⟩

/-- A namespace is no declaration, and what else is found is named by the first
    identifier. -/
theorem csharp_definition_iff (hkind : n.kind ∈ declarationKinds .csharp) :
    (∃ d ∈ preorderDefinitions (CSharp.extractSymbols source tree), d.node = n ∧ d.name = name) ↔
      ComesTo source tree n .csharp ∧ ∃ place, CSharp.findIdentifier source n = some (name, place) := by
  constructor
  · intro h
    obtain ⟨d, hd, hnode, hname⟩ := h
    cases CSharp.mem_definitions_iff.mp hd with
    | namespace_ _ _ hnamespace hd =>
      obtain ⟨_, -, rfl⟩ := Option.map_eq_some_iff.mp hd
      rw [← hnode] at hkind
      exact absurd (hnamespace ▸ hkind : "namespace_declaration" ∈ declarationKinds .csharp) (by decide)
    | @type t _ ht hd =>
      obtain ⟨k, heq⟩ := @CSharp.extractType_eq source t ht.1
      rw [heq] at hd
      obtain ⟨found, hfound, rfl⟩ := Option.map_eq_some_iff.mp hd
      cases hnode
      cases hname
      exact ⟨.inl ht, found.2, hfound⟩
    | @member m _ hm hd =>
      obtain ⟨k, heq⟩ := @CSharp.extractMember_eq source m hm.1
      rw [heq] at hd
      obtain ⟨found, hfound, rfl⟩ := Option.map_eq_some_iff.mp hd
      cases hnode
      cases hname
      exact ⟨.inr hm, found.2, hfound⟩
  · intro h
    obtain ⟨ht | hm, place, hfound⟩ := h
    · obtain ⟨k, heq⟩ := @CSharp.extractType_eq source n ht.1
      rw [hfound, Option.map_some] at heq
      exact ⟨_, CSharp.mem_definitions_iff.mpr (.type ht heq), rfl, rfl⟩
    · obtain ⟨k, heq⟩ := @CSharp.extractMember_eq source n hm.1
      rw [hfound, Option.map_some] at heq
      exact ⟨_, CSharp.mem_definitions_iff.mpr (.member hm heq), rfl, rfl⟩

theorem ruby_definition_iff (hkind : n.kind ∈ declarationKinds .ruby) :
    (∃ d ∈ preorderDefinitions (Ruby.extractSymbols source tree), d.node = n ∧ d.name = name) ↔
      ComesTo source tree n .ruby ∧ ∃ place, CSharp.findIdentifier source n = some (name, place) := by
  have hmethod : Ruby.nodeKind n.kind = some .method := by
    simp only [declarationKinds, List.mem_cons, List.not_mem_nil, or_false] at hkind
    rcases hkind with hkind | hkind <;> rw [hkind] <;> rfl
  constructor
  · intro h
    obtain ⟨d, hd, hnode, hname⟩ := h
    obtain ⟨hp, hc, hd⟩ := Ruby.mem_definitions_iff.mp hd
    rw [Ruby.node_of_extractedAt hd] at hnode
    cases hnode
    obtain ⟨k, -, heq⟩ := Ruby.extractedAt_method source hmethod
    rw [heq] at hd
    obtain ⟨found, hfound, rfl⟩ := Option.map_eq_some_iff.mp hd
    cases hname
    exact ⟨⟨_, _, hp, hc⟩, found.2, hfound⟩
  · intro h
    obtain ⟨⟨inBody, p, hp, hc⟩, place, hfound⟩ := h
    obtain ⟨k, -, heq⟩ := @Ruby.extractedAt_method source inBody n hmethod
    have hsome : Ruby.findIdentifier source n = some (name, place) := hfound
    rw [hsome, Option.map_some] at heq
    exact ⟨_, Ruby.mem_definitions_iff.mpr (.mk hp hc heq), rfl, rfl⟩

end FirstIdentifier

/-- For every tree, over every source, and every declaration: it has a symbol of its own
    name if and only if the extractor comes to it and the first identifier among its
    children is that name, or reads like it. -/
theorem named_by_name_node_iff {l : NameLanguage} {n : Node} (hkind : n.kind ∈ declarationKinds l) (texts : TextsOf)
    (source : Str) (tree : Node) (file : Path) :
    NamedByNameNode source tree n texts file l ↔ ComesTo source tree n l ∧ IdentifierIsName source n := by
  have hdefinition : ∀ name, (∃ d ∈ preorderDefinitions (extractDefinitions source tree file l.language),
      d.node = n ∧ d.name = name) ↔
        ComesTo source tree n l ∧ ∃ place, CSharp.findIdentifier source n = some (name, place) := by
    intro name
    cases l with
    | csharp => exact csharp_definition_iff hkind
    | ruby => exact ruby_definition_iff hkind
  rw [identifierIsName_iff]
  constructor
  · intro h
    obtain ⟨s, hs, hown⟩ := h
    obtain ⟨d, hd, heq⟩ := List.mem_map.mp hs
    cases heq
    rw [Definition.toSymbol_name] at hown
    obtain ⟨hcome, hfound⟩ := (hdefinition d.name).mp ⟨d, hd, rfl, rfl⟩
    exact ⟨hcome, d.name, hfound, hown⟩
  · intro h
    obtain ⟨hcome, name, hfound, hown⟩ := h
    obtain ⟨d, hd, rfl, rfl⟩ := (hdefinition name).mpr ⟨hcome, hfound⟩
    exact ⟨_, List.mem_map.mpr ⟨d, hd, rfl⟩, by rw [hown, Definition.toSymbol_name]⟩

/-! ## A return type, a receiver and an operator -/

/-- The names of a file's symbols. -/
def symbolNames (l : NameLanguage) (source : Str) (tree : Node) : List Str :=
  ((Extraction.builtin l.language noTexts).bodies source tree []).map (·.1.name)

/-- The declaration is in the tree, and no symbol has its name. -/
structure Misnamed (l : NameLanguage) (source : Str) (tree n : Node) (name : Str) : Prop where
  mem : n ∈ tree.preorder
  kind : n.kind ∈ declarationKinds l
  own : ownName source n = some name
  missing : name ∉ symbolNames l source tree

theorem Misnamed.not_named {l : NameLanguage} {source : Str} {tree n : Node} {name : Str} (h : Misnamed l source tree n name) :
    ¬ NamedByNameNode source tree n noTexts [] l := by
  intro hnamed
  obtain ⟨s, hs, hown⟩ := hnamed
  rw [h.own] at hown
  exact h.missing (Option.some.inj hown ▸ List.mem_map.mpr ⟨(s, n), hs, rfl⟩)

def makeSource : Str := str "class C \x7b Shape Make() \x7b\x7d \x7d"

def makeMethod : Node :=
  ⟨"method_declaration", none, 10, 25, ⟨0, 10⟩, ⟨0, 25⟩, true, false, false,
    [.leaf "identifier" (some "returns") 0 10 10 5 true, .leaf "identifier" (some "name") 0 16 16 4 true,
      .leaf "parameter_list" (some "parameters") 0 20 20 2 true, .leaf "block" (some "body") 0 23 23 2 true]⟩

def makeTree : Node :=
  ⟨"compilation_unit", none, 0, 27, ⟨0, 0⟩, ⟨0, 27⟩, true, false, false,
    [⟨"class_declaration", none, 0, 27, ⟨0, 0⟩, ⟨0, 27⟩, true, false, false,
      [.leaf "class" none 0 0 0 5 false, .leaf "identifier" (some "name") 0 6 6 1 true,
        ⟨"declaration_list", some "body", 8, 27, ⟨0, 8⟩, ⟨0, 27⟩, true, false, false,
          [.leaf "\x7b" none 0 8 8 1 false, makeMethod, .leaf "\x7d" none 0 26 26 1 false]⟩]⟩]⟩

/-- A singleton method of `logger`, and an operator. -/
def methodsSource : Str := str "def logger.info; end\ndef ==(o); end"

def infoMethod : Node :=
  ⟨"singleton_method", none, 0, 20, ⟨0, 0⟩, ⟨0, 20⟩, true, false, false,
    [.leaf "def" none 0 0 0 3 false, .leaf "identifier" (some "object") 0 4 4 6 true, .leaf "." none 0 10 10 1 false,
      .leaf "identifier" (some "name") 0 11 11 4 true]⟩

def equalsMethod : Node :=
  ⟨"method", none, 21, 35, ⟨1, 0⟩, ⟨1, 14⟩, true, false, false,
    [.leaf "def" none 1 0 21 3 false, .leaf "operator" (some "name") 1 4 25 2 true,
      .leaf "method_parameters" (some "parameters") 1 6 27 3 true]⟩

def methodsTree : Node :=
  ⟨"program", none, 0, 35, ⟨0, 0⟩, ⟨1, 14⟩, true, false, false, [infoMethod, equalsMethod]⟩

theorem makeMethod_misnamed : Misnamed .csharp makeSource makeTree makeMethod (str "Make") :=
  ⟨List.mem_of_getElem? (i := 6) rfl, by decide, by decide, by decide⟩

theorem infoMethod_misnamed : Misnamed .ruby methodsSource methodsTree infoMethod (str "info") :=
  ⟨List.mem_of_getElem? (i := 1) rfl, by decide, by decide, by decide⟩

theorem equalsMethod_misnamed : Misnamed .ruby methodsSource methodsTree equalsMethod (str "==") :=
  ⟨List.mem_of_getElem? (i := 6) rfl, by decide, by decide, by decide⟩

/-- A method is named by its return type, another by its receiver, and an operator has no
    symbol. -/
theorem names_of_other_nodes :
    (symbolNames .csharp makeSource makeTree = [str "C", str "Shape"] ∧
        Misnamed .csharp makeSource makeTree makeMethod (str "Make") ∧
        ¬ NamedByNameNode makeSource makeTree makeMethod noTexts [] .csharp) ∧
      symbolNames .ruby methodsSource methodsTree = [str "logger"] ∧
      (Misnamed .ruby methodsSource methodsTree infoMethod (str "info") ∧
        ¬ NamedByNameNode methodsSource methodsTree infoMethod noTexts [] .ruby) ∧
      Misnamed .ruby methodsSource methodsTree equalsMethod (str "==") ∧
        ¬ NamedByNameNode methodsSource methodsTree equalsMethod noTexts [] .ruby := by
  refine ⟨⟨by decide, makeMethod_misnamed, ?_⟩, by decide, ⟨infoMethod_misnamed, ?_⟩, equalsMethod_misnamed, ?_⟩
  · exact makeMethod_misnamed.not_named
  · exact infoMethod_misnamed.not_named
  · exact equalsMethod_misnamed.not_named

theorem named_by_name_node_iff_make : NamedByNameNode makeSource makeTree makeMethod noTexts [] .csharp ↔
    ComesTo makeSource makeTree makeMethod .csharp ∧ IdentifierIsName makeSource makeMethod :=
  @named_by_name_node_iff .csharp makeMethod (by decide) noTexts makeSource makeTree []

end CodeQuery.Parse.NameNodes
