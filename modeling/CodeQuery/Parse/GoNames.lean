/-
  CodeQuery.Parse.GoNames — the names that a Go file declares
  (`codequery-parse/src/languages/go.rs`).

  Functions, methods and the specs of types, constants and variables each declare names;
  grouped or not, every one of these is come to. Of its names the first has a symbol
  (`extractSymbols_eq`). So there is one symbol for each name if and only if nothing
  declares several (`one_symbol_per_name_iff`), as a spec of constants or variables may
  (`a_spec_of_two_names`).
-/

import CodeQuery.Parse.Languages.Go

namespace CodeQuery.Parse.GoNames

open CodeQuery.Core CodeQuery.Text
open CodeQuery.Parse.Go

/-! ## Declared names -/

/-- The specs of variables are in a list of their own when they are grouped. -/
def varSpecs (child : Node) : List Node :=
  match child.kind with
  | "var_spec" => [child]
  | "var_spec_list" => child.children.filter (·.kind == "var_spec")
  | _ => []

/-- What declares names, at the top. -/
def specsOf (n : Node) : List Node :=
  match n.kind with
  | "function_declaration" | "method_declaration" => [n]
  | "type_declaration" => n.children.filter fun c => c.kind == "type_spec" || c.kind == "type_alias"
  | "const_declaration" => n.children.filter (·.kind == "const_spec")
  | "var_declaration" => n.children.flatMap varSpecs
  | _ => []

def specs (tree : Node) : List Node := tree.soundChildren.flatMap specsOf

/-- The identifiers that a spec declares; the commas between them are in the same field. -/
def names (spec : Node) : List Node := spec.children.filter fun c => c.field == some "name" && c.isNamed

/-- An identifier by its text and its place. -/
def identifierAt (source : Str) (n : Node) : Str × Option Point := ((n.utf8Text source).getD [], some n.startPosition)

/-- All that is declared, in the order of the source. -/
def declared (source : Str) (tree : Node) : List (Str × Option Point) :=
  ((specs tree).flatMap names).map (identifierAt source)

/-- What the grammar and the library promise of a tree: where a spec has names an
    identifier is the first of them, and identifiers can be read. -/
structure WellNamed (source : Str) (tree : Node) : Prop where
  first : ∀ spec ∈ specs tree, spec.childByFieldName "name" = (names spec).head?
  read : ∀ spec ∈ specs tree, ∀ n ∈ names spec, (n.utf8Text source).isSome

/-! ## Symbols of names -/

section Symbols

variable {source : Str}

/-- The name of a definition, and where it stands. -/
def named (d : Definition) : Str × Option Point := (d.name, d.namePlace)

/-- The first name of a spec. -/
def firstName (source : Str) (spec : Node) : List (Str × Option Point) :=
  ((nodeFieldText source spec "name").map fun name => (name.1, some name.2)).toList

theorem map_leaf_named (kind : SymbolKind) (n : Node) :
    (((nodeFieldText source n "name").map (.leaf kind n)).map named).toList = firstName source n := by
  rw [Option.map_map, firstName]
  rfl

/-- A spec of a type has a symbol of some kind. -/
theorem extractTypeSpec_named (c : Node) : ((extractTypeSpec source c).map named).toList =
    if c.kind == "type_spec" || c.kind == "type_alias" then firstName source c else [] := by
  unfold extractTypeSpec
  generalize c.kind = kind
  split
  · rw [Option.map_map, firstName]
    rfl
  · exact map_leaf_named .type c
  next hspec halias =>
    have hno : ¬ (kind = "type_spec" ∨ kind = "type_alias") := fun h => h.elim hspec halias
    simp [hno]

/-- What is made of some of the children, one by one. -/
theorem filterMap_named (cs : List Node) (p : Node → Bool) (f : Node → Option Definition)
    (hf : ∀ c ∈ cs, ((f c).map named).toList = if p c then firstName source c else []) :
    (cs.filterMap f).map named = (cs.filter p).flatMap (firstName source) := by
  induction cs with
  | nil => rfl
  | cons c cs ih =>
    obtain ⟨hc, hcs⟩ := List.forall_mem_cons.mp hf
    rw [List.filterMap_cons, List.filter_cons]
    cases hfc : f c with
    | none =>
      rw [hfc] at hc
      by_cases hp : p c = true
      · rw [if_pos hp] at hc ⊢
        rw [List.flatMap_cons, ← hc]
        exact ih hcs
      · rw [if_neg hp]
        exact ih hcs
    | some d =>
      rw [hfc] at hc
      by_cases hp : p c = true
      · rw [if_pos hp] at hc ⊢
        rw [List.flatMap_cons, ← hc, List.map_cons, ih hcs]
        rfl
      · rw [if_neg hp] at hc
        cases hc

theorem filter_filterMap_named (cs : List Node) (p : Node → Bool) (kind : SymbolKind) :
    ((cs.filter p).filterMap fun c => (nodeFieldText source c "name").map (.leaf kind c)).map named =
      (cs.filter p).flatMap (firstName source) := by
  have hall : (cs.filter p).filter (fun _ => true) = cs.filter p := List.filter_true _
  have hone := @filterMap_named source (cs.filter p) (fun _ => true) _ fun c _ => map_leaf_named kind c
  rwa [hall] at hone

/-- What a child of a `var` declaration gives. -/
def varsAt (source : Str) (child : Node) : List Definition :=
  match child.kind with
  | "var_spec" => (extractVarSpec source child).toList
  | "var_spec_list" => (child.children.filter (·.kind == "var_spec")).filterMap (extractVarSpec source)
  | _ => []

theorem varsAt_named (c : Node) : (varsAt source c).map named = (varSpecs c).flatMap (firstName source) := by
  unfold varsAt varSpecs
  generalize c.kind = kind
  split
  · rw [← Option.toList_map, extractVarSpec, map_leaf_named]
    simp
  · exact filter_filterMap_named c.children (·.kind == "var_spec") .static
  · simp [*]

/-- At the top each spec has a symbol of its first name. -/
theorem extractTopLevel_named (isTestFile : Bool) (n : Node) :
    (extractTopLevel source isTestFile n).map named = (specsOf n).flatMap (firstName source) := by
  unfold extractTopLevel specsOf
  generalize n.kind = kind
  split
  case h_1 =>
    show _ = List.flatMap _ [n]
    rw [List.map_map, List.flatMap_singleton, firstName, Option.toList_map]
    rfl
  case h_2 =>
    show _ = List.flatMap _ [n]
    rw [List.map_map, List.flatMap_singleton, firstName, Option.toList_map]
    rfl
  case h_3 => exact filterMap_named n.children _ _ fun c _ => extractTypeSpec_named c
  case h_4 => exact filter_filterMap_named n.children (·.kind == "const_spec") .const
  case h_5 =>
    show (n.children.flatMap (varsAt source)).map named = List.flatMap _ (List.flatMap _ _)
    rw [List.map_flatMap, List.flatMap_assoc]
    exact congrArg (fun f => n.children.flatMap f) (funext varsAt_named)
  case h_6 => simp [*]

theorem extractSymbols_named (file : Path) (tree : Node) :
    (extractSymbols source file tree).map named = (specs tree).flatMap (firstName source) := by
  rw [extractSymbols, List.map_flatMap, specs, List.flatMap_assoc]
  exact congrArg (fun f => tree.soundChildren.flatMap f) (funext (extractTopLevel_named (isTestFile file)))

/-! ## One name for each spec -/

/-- Of the names of a spec, the first has the symbol. -/
theorem firstName_eq {tree spec : Node} (h : WellNamed source tree) (hspec : spec ∈ specs tree) :
    firstName source spec = ((names spec).take 1).map (identifierAt source) := by
  have hfirst := h.first spec hspec
  rw [firstName, nodeFieldText, hfirst]
  cases hnames : names spec with
  | nil => rfl
  | cons n rest =>
    have hread := h.read spec hspec n (by rw [hnames]; exact List.mem_cons_self)
    obtain ⟨text, htext⟩ := Option.isSome_iff_exists.mp hread
    simp [nodeText, identifierAt, htext]

theorem extractSymbols_eq {tree : Node} (h : WellNamed source tree) (file : Path) :
    (extractSymbols source file tree).map named =
      ((specs tree).flatMap fun spec => (names spec).take 1).map (identifierAt source) := by
  rw [extractSymbols_named, List.map_flatMap]
  exact List.flatMap_congr fun spec hspec => firstName_eq h hspec

end Symbols

section Lists

variable {α β γ : Type*} {f : α → List β}

theorem length_flatMap_take (as : List α) : (as.flatMap fun a => (f a).take 1).length ≤ (as.flatMap f).length := by
  induction as with
  | nil => exact le_rfl
  | cons a as ih =>
    rw [List.flatMap_cons, List.flatMap_cons, List.length_append, List.length_append]
    exact Nat.add_le_add (List.length_take_le' 1 (f a)) ih

/-- The first of each is all there is only where there is one of each at most. -/
theorem flatMap_take_eq_iff (g : β → γ) (as : List α) :
    (as.flatMap fun a => (f a).take 1).map g = (as.flatMap f).map g ↔ ∀ a ∈ as, (f a).length ≤ 1 := by
  constructor
  · intro h
    have hlength := congrArg List.length h
    rw [List.length_map, List.length_map] at hlength
    clear h
    induction as with
    | nil => exact fun a ha => absurd ha List.not_mem_nil
    | cons a as ih =>
      have hle := @length_flatMap_take α β f as
      rw [List.flatMap_cons, List.flatMap_cons, List.length_append, List.length_append, List.length_take] at hlength
      exact List.forall_mem_cons.mpr ⟨by omega, ih (by omega)⟩
  · intro h
    exact congrArg (List.map g) (List.flatMap_congr fun a ha => List.take_of_length_le (h a ha))

end Lists

/-- For every tree, over every source: the symbols are one for each declared name, in the
    source's order, if and only if no spec declares several. -/
theorem one_symbol_per_name_iff {source : Str} {tree : Node} (h : WellNamed source tree) (file : Path) :
    (extractSymbols source file tree).map named = declared source tree ↔ ∀ spec ∈ specs tree, (names spec).length ≤ 1 := by
  rw [extractSymbols_eq h, declared]
  exact flatMap_take_eq_iff _ _

/-! ## Two variables -/

def twoNames : Str := str "var a, b int"

def twoSpec : Node :=
  ⟨"var_spec", none, 4, 12, ⟨0, 4⟩, ⟨0, 12⟩, true, false, false,
    [.leaf "identifier" (some "name") 0 4 4 1 true, .leaf "," none 0 5 5 1 false,
      .leaf "identifier" (some "name") 0 7 7 1 true, .leaf "type_identifier" (some "type") 0 9 9 3 true]⟩

def twoTree : Node :=
  ⟨"source_file", none, 0, 12, ⟨0, 0⟩, ⟨0, 12⟩, true, false, false,
    [⟨"var_declaration", none, 0, 12, ⟨0, 0⟩, ⟨0, 12⟩, true, false, false,
      [.leaf "var" none 0 0 0 3 false, twoSpec]⟩]⟩

theorem wellNamed_twoTree : WellNamed twoNames twoTree := by
  have hspecs : specs twoTree = [twoSpec] := rfl
  constructor
  · rw [hspecs, List.forall_mem_singleton]
    rfl
  · rw [hspecs, List.forall_mem_singleton]
    exact List.forall_mem_cons.mpr ⟨rfl, List.forall_mem_singleton.mpr rfl⟩

/-- Of `a` and `b` only `a` has a symbol. -/
theorem a_spec_of_two_names :
    WellNamed twoNames twoTree ∧ (extractSymbols twoNames [] twoTree).map named = [(str "a", some ⟨0, 4⟩)] ∧
      declared twoNames twoTree = [(str "a", some ⟨0, 4⟩), (str "b", some ⟨0, 7⟩)] ∧
      (extractSymbols twoNames [] twoTree).map named ≠ declared twoNames twoTree := by
  refine ⟨wellNamed_twoTree, ?_, ?_, ?_⟩ <;> decide

theorem one_symbol_per_name_iff_two :
    (extractSymbols twoNames [] twoTree).map named = declared twoNames twoTree ↔
      ∀ spec ∈ specs twoTree, (names spec).length ≤ 1 := one_symbol_per_name_iff wellNamed_twoTree []

end CodeQuery.Parse.GoNames
