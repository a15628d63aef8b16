/-
  CodeQuery.Parse.CppScopes — which functions of a C++ file become symbols.

  Functions stand at namespace scope under namespaces, named or not, and under branches of
  conditionals, in one another to any depth. One loop goes into conditionals, but not into
  `#else`; another goes into namespaces with a name, but into no conditional there. So a
  function is yielded when conditionals without `#else` are around it, and in these
  namespaces with a name only (`functions_extractSymbols`), and all are exactly when each
  stands so (`functions_complete_iff`).
-/

import CodeQuery.Parse.Items

namespace CodeQuery.Parse.Cpp

open CodeQuery.Core CodeQuery.Text
open CodeQuery.Index
open CodeQuery.Parse.C (isPreprocConditional)

/-! ## Functions at namespace scope -/

/-- `#if`, `#ifdef` and `#ifndef`, and their other branches. -/
def branchKinds : List String := ["preproc_if", "preproc_ifdef", "preproc_elif", "preproc_elifdef", "preproc_else"]

/-- The node of a function's name. -/
def functionNameNode (n : Node) : Option Node :=
  ((n.childByFieldName "declarator").bind findFunctionDeclarator).bind (·.childByFieldName "declarator")

section Scopes

variable (source : Str)

/-- The function is named, and not as a member of something. -/
def isUnqualified (n : Node) : Bool :=
  (functionNameNode n).any fun name => !(name.kind == "qualified_identifier" && (name.utf8Text source).any isQualified)

mutual

/-- The functions at namespace scope, each behind the namespaces and the branches that it
    is in. -/
def scopedIn : Node → List (List Node × Node)
  | n@⟨kind, _, _, _, _, _, _, _, _, cs⟩ =>
    if kind = "function_definition" then if isUnqualified source n then [([], n)] else []
    else if kind = "namespace_definition" then (scopedInBody cs).map fun (path, f) => (n :: path, f)
    else if branchKinds.contains kind then (scopedAmong cs).map fun (path, f) => (n :: path, f)
    else []

def scopedInBody : List Node → List (List Node × Node)
  | [] => []
  | ⟨_, field, _, _, _, _, _, _, _, inner⟩ :: cs => if field = some "body" then scopedAmong inner else scopedInBody cs

def scopedAmong : List Node → List (List Node × Node)
  | [] => []
  | c :: cs => (if c.isError || c.isMissing then [] else scopedIn c) ++ scopedAmong cs

end

def scopedFunctions (tree : Node) : List (List Node × Node) := scopedAmong source tree.children

def functionLabel (n : Node) : Label := n.label ((extractFunctionName source n).map (·.1))

/-- Every function at namespace scope yields one symbol. -/
def FunctionsComplete (texts : TextsOf) (file : Path) (tree : Node) : Prop :=
  ((SymbolIndex.flattenAll (Parse.extractSymbols texts source tree file .cpp)).filter (·.kind == .function)).map symbolLabel =
    (scopedFunctions source tree).map fun (_, f) => functionLabel source f

def isNamedNamespace (n : Node) : Bool := n.kind == "namespace_definition" && (nodeFieldText source n "name").isSome

/-- The name can be read and has no `::` in it. -/
def isPlain (n : Node) : Bool := (extractFunctionName source n).any (!isQualified ·.1)

def isSeenInNamespace : List Node × Node → Bool
  | (path, f) => path.all (isNamedNamespace source) && isPlain source f

/-- Conditionals, then namespaces with a name, then the function. -/
def isSeen : List Node × Node → Bool
  | (path, f) => isSeenInNamespace source (path.dropWhile (isPreprocConditional ·.kind), f)

/-! ## Functions among definitions -/

end Scopes

def functionLabels (ds : List Definition) : List Label :=
  ((preorderDefinitions ds).filter (·.kind == .function)).map Definition.label

theorem preorderDefinitions_append (ds ds' : List Definition) :
    preorderDefinitions (ds ++ ds') = preorderDefinitions ds ++ preorderDefinitions ds' := by
  induction ds with
  | nil => rfl
  | cons d ds ih => rw [List.cons_append, preorderDefinitions, preorderDefinitions, ih, List.append_assoc]

theorem functionLabels_append (ds ds' : List Definition) :
    functionLabels (ds ++ ds') = functionLabels ds ++ functionLabels ds' := by
  rw [functionLabels, preorderDefinitions_append, List.filter_append, List.map_append]
  rfl

/-- A definition that is no function gives those in it. -/
theorem functionLabels_singleton {d : Definition} (hkind : d.kind ≠ .function) :
    functionLabels [d] = functionLabels d.children := by
  obtain ⟨name, kind, node, place, children⟩ := d
  have hnot : (kind == .function) = false := beq_eq_false_iff_ne.mpr hkind
  rw [functionLabels, preorderDefinitions, Definition.preorder, preorderDefinitions, List.append_nil, List.filter_cons, hnot]
  rfl

theorem functionLabels_leaf {kind : SymbolKind} (hkind : kind ≠ .function) (n : Node) (name : Option (Str × Point)) :
    functionLabels (name.toList.map (.leaf kind n)) = [] := by
  cases name with
  | none => rfl
  | some name => exact functionLabels_singleton hkind

section Extracted

variable (source : Str)

theorem functionLabels_methods {ds : List Definition} (h : ∀ d ∈ ds, d.kind = .method ∧ d.children = []) :
    functionLabels ds = [] := by
  induction ds with
  | nil => rfl
  | cons d ds ih =>
    obtain ⟨hkind, hnone⟩ := h d List.mem_cons_self
    rw [show d :: ds = [d] ++ ds from rfl, functionLabels_append, ih fun d hd => h d (List.mem_cons_of_mem _ hd),
      functionLabels_singleton (by rw [hkind]; decide), hnone]
    rfl

theorem mem_extractClassMembers {n : Node} {m : Definition} (h : m ∈ extractClassMembers source n) :
    m.kind = .method ∧ m.children = [] := by
  unfold extractClassMembers at h
  split at h
  · exact absurd h List.not_mem_nil
  · obtain ⟨child, _, hm⟩ := List.mem_flatMap.mp h
    have hleaf : m ∈ ((extractFunctionName source child).map (Definition.leaf .method child)).toList := by
      split at hm
      · exact hm
      · exact hm
      · exact hm
      · exact absurd hm List.not_mem_nil
    obtain ⟨name, _, rfl⟩ := Option.map_eq_some_iff.mp (Option.mem_toList.mp hleaf)
    exact ⟨rfl, rfl⟩

/-! ## What is yielded -/

theorem extractNode_function {n : Node} (h : n.kind = "function_definition") : extractNode source n =
    ((extractFunctionName source n).filter (!isQualified ·.1)).toList.map (.leaf .function n) := by
  obtain ⟨kind, _, _, _, _, _, _, _, _, cs⟩ := n
  change kind = _ at h
  subst h
  unfold extractNode
  rfl

theorem extractNode_namespace {n : Node} (h : n.kind = "namespace_definition") : extractNode source n =
    (nodeFieldText source n "name").toList.map fun (name, place) =>
      ⟨name, .module_, n, some place, namespaceBody source n.children⟩ := by
  obtain ⟨kind, _, _, _, _, _, _, _, _, cs⟩ := n
  change kind = _ at h
  subst h
  unfold extractNode
  rfl

/-- No other node has functions under it. -/
theorem extractNode_other {n : Node} (hfunction : n.kind ≠ "function_definition") (hnamespace : n.kind ≠ "namespace_definition") :
    functionLabels (extractNode source n) = [] := by
  obtain ⟨kind, _, _, _, _, _, _, _, _, cs⟩ := n
  unfold extractNode
  split
  case h_1 => exact absurd rfl hfunction
  case h_2 =>
    cases hname : nodeFieldText source _ "name" with
    | none => rfl
    | some name =>
      exact (functionLabels_singleton (by simp)).trans (functionLabels_methods fun m hm => mem_extractClassMembers source hm)
  case h_3 => exact functionLabels_leaf (by decide) _ _
  case h_4 => exact functionLabels_leaf (by decide) _ _
  case h_5 => exact absurd rfl hnamespace
  case h_6 => exact functionLabels_leaf (by decide) _ _
  case h_7 => exact functionLabels_leaf (by decide) _ _
  case h_8 => exact functionLabels_leaf (by decide) _ _
  case h_9 => exact functionLabels_leaf (by decide) _ _
  case h_10 => exact functionLabels_leaf (by decide) _ _
  case h_11 => rfl

theorem scopedIn_function {n : Node} (h : n.kind = "function_definition") :
    scopedIn source n = if isUnqualified source n then [([], n)] else [] := by
  obtain ⟨kind, _, _, _, _, _, _, _, _, cs⟩ := n
  rw [scopedIn, if_pos h]

theorem scopedIn_namespace {n : Node} (h : n.kind = "namespace_definition") :
    scopedIn source n = (scopedInBody source n.children).map fun (path, f) => (n :: path, f) := by
  obtain ⟨kind, _, _, _, _, _, _, _, _, cs⟩ := n
  change kind = _ at h
  subst h
  rw [scopedIn, if_neg (by decide), if_pos rfl]

theorem scopedIn_branch {n : Node} (h : branchKinds.contains n.kind = true) :
    scopedIn source n = (scopedAmong source n.children).map fun (path, f) => (n :: path, f) := by
  obtain ⟨kind, _, _, _, _, _, _, _, _, cs⟩ := n
  change branchKinds.contains kind = true at h
  have hfunction : kind ≠ "function_definition" := by
    rintro rfl
    revert h
    decide
  have hnamespace : kind ≠ "namespace_definition" := by
    rintro rfl
    revert h
    decide
  rw [scopedIn, if_neg hfunction, if_neg hnamespace, if_pos h]

/-- Nothing is seen in a branch in a namespace. -/
theorem scopedIn_other {n : Node} (hfunction : n.kind ≠ "function_definition") (hnamespace : n.kind ≠ "namespace_definition") :
    (scopedIn source n).filter (isSeenInNamespace source) = [] := by
  by_cases hbranch : branchKinds.contains n.kind = true
  · rw [scopedIn_branch source hbranch, List.filter_map]
    have hnot : isNamedNamespace source n = false := by simp [isNamedNamespace, hnamespace]
    have hseen : ∀ placed ∈ scopedAmong source n.children,
        ¬ (isSeenInNamespace source ∘ fun (path, f) => (n :: path, f)) placed = true := by
      intro placed _
      simp [isSeenInNamespace, hnot]
    rw [List.filter_eq_nil_iff.mpr hseen]
    rfl
  · obtain ⟨kind, _, _, _, _, _, _, _, _, cs⟩ := n
    rw [scopedIn, if_neg hfunction, if_neg hnamespace, if_neg hbranch]
    rfl

theorem branchKinds_conditional {kind : String} (h : isPreprocConditional kind = true) : branchKinds.contains kind = true := by
  simp only [isPreprocConditional, List.contains_iff_mem, List.mem_cons, List.not_mem_nil, or_false] at h
  rcases h with rfl | rfl | rfl <;> decide

theorem isPlain_unqualified {n : Node} (h : isPlain source n = true) : isUnqualified source n = true := by
  unfold isPlain extractFunctionName at h
  unfold isUnqualified functionNameNode
  cases hdecl : (n.childByFieldName "declarator").bind findFunctionDeclarator with
  | none => simp [hdecl] at h
  | some decl =>
    cases hname : decl.childByFieldName "declarator" with
    | none => simp [hdecl, hname] at h
    | some name =>
      simp only [hdecl, Option.bind_some, hname, nodeText, Option.any_map] at h
      simp only [Option.bind_some, hname, Option.any_some]
      cases htext : name.utf8Text source with
      | none => simp
      | some text =>
        have hplain : isQualified text = false := by simpa [htext] using h
        simp [hplain]

theorem functionLabels_function {n : Node} (h : n.kind = "function_definition") : functionLabels (extractNode source n) =
    ((scopedIn source n).filter (isSeenInNamespace source)).map fun (_, f) => functionLabel source f := by
  rw [extractNode_function source h, scopedIn_function source h]
  have hunqualified := isPlain_unqualified source (n := n)
  unfold isPlain at hunqualified
  cases hname : extractFunctionName source n with
  | none =>
    split <;> simp [functionLabels, preorderDefinitions, isSeenInNamespace, isPlain, hname]
  | some name =>
    cases hplain : isQualified name.1 with
    | true =>
      rw [Option.filter_some_neg (by simp [hplain])]
      split <;> simp [functionLabels, preorderDefinitions, isSeenInNamespace, isPlain, hname, hplain]
    | false =>
      rw [Option.filter_some_pos (by simp [hplain]), if_pos (hunqualified (by simp [hname, hplain]))]
      simp [functionLabels, preorderDefinitions, Definition.preorder, isSeenInNamespace, isPlain, hname, hplain,
        Definition.leaf, Definition.label, functionLabel]

theorem functionLabels_namespace {n : Node} (h : n.kind = "namespace_definition")
    (hbody : functionLabels (namespaceBody source n.children) =
      ((scopedInBody source n.children).filter (isSeenInNamespace source)).map fun (_, f) => functionLabel source f) :
    functionLabels (extractNode source n) =
      ((scopedIn source n).filter (isSeenInNamespace source)).map fun (_, f) => functionLabel source f := by
  rw [extractNode_namespace source h, scopedIn_namespace source h, List.filter_map]
  have hseen : ∀ placed ∈ scopedInBody source n.children,
      (isSeenInNamespace source ∘ fun (path, f) => (n :: path, f)) placed =
        ((nodeFieldText source n "name").isSome && isSeenInNamespace source placed) := by
    intro placed _
    simp [isSeenInNamespace, isNamedNamespace, h, Bool.and_assoc]
  rw [List.filter_congr hseen]
  cases hname : nodeFieldText source n "name" with
  | none => simp [functionLabels, preorderDefinitions]
  | some name =>
    simp only [Option.toList_some, List.map_cons, List.map_nil, Option.isSome_some, Bool.true_and, List.map_map]
    rw [functionLabels_singleton (by simp)]
    exact hbody

mutual

theorem functionLabels_extractNode : ∀ n : Node, functionLabels (extractNode source n) =
    ((scopedIn source n).filter (isSeenInNamespace source)).map fun (_, f) => functionLabel source f
  | ⟨kind, field, startByte, endByte, startPosition, endPosition, isNamed, isError, isMissing, cs⟩ => by
    by_cases hfunction : kind = "function_definition"
    · exact functionLabels_function source hfunction
    · by_cases hnamespace : kind = "namespace_definition"
      · exact functionLabels_namespace source hnamespace (functionLabels_namespaceBody cs)
      · rw [extractNode_other source hfunction hnamespace, scopedIn_other source hfunction hnamespace]
        rfl

theorem functionLabels_namespaceBody : ∀ cs : List Node, functionLabels (namespaceBody source cs) =
    ((scopedInBody source cs).filter (isSeenInNamespace source)).map fun (_, f) => functionLabel source f
  | [] => rfl
  | ⟨kind, field, startByte, endByte, startPosition, endPosition, isNamed, isError, isMissing, inner⟩ :: cs => by
    rw [namespaceBody, scopedInBody]
    by_cases hbody : field = some "body"
    · rw [if_pos hbody, if_pos hbody]
      exact functionLabels_extractNodes inner
    · rw [if_neg hbody, if_neg hbody]
      exact functionLabels_namespaceBody cs

theorem functionLabels_extractNodes : ∀ cs : List Node, functionLabels (extractNodes source cs) =
    ((scopedAmong source cs).filter (isSeenInNamespace source)).map fun (_, f) => functionLabel source f
  | [] => rfl
  | c :: cs => by
    rw [extractNodes, scopedAmong, functionLabels_append, functionLabels_extractNodes cs, List.filter_append,
      List.map_append]
    by_cases hskip : (c.isError || c.isMissing) = true
    · rw [if_pos hskip, if_pos hskip]
      rfl
    · rw [if_neg hskip, if_neg hskip, functionLabels_extractNode c]

end

theorem scopedIn_path {n f : Node} {path : List Node} (h : (path, f) ∈ scopedIn source n) :
    path = [] ∨ ∃ rest, path = n :: rest := by
  obtain ⟨kind, _, _, _, _, _, _, _, _, cs⟩ := n
  rw [scopedIn] at h
  split at h
  · split at h
    · exact .inl (Prod.mk.inj (List.mem_singleton.mp h)).1
    · exact absurd h List.not_mem_nil
  · split at h
    · obtain ⟨placed, _, hplaced⟩ := List.mem_map.mp h
      exact .inr ⟨_, (Prod.mk.inj hplaced).1.symm⟩
    · split at h
      · obtain ⟨placed, _, hplaced⟩ := List.mem_map.mp h
        exact .inr ⟨_, (Prod.mk.inj hplaced).1.symm⟩
      · exact absurd h List.not_mem_nil

/-- Where the loop over conditionals goes into none, it is the other's node. -/
theorem scopedIn_seen {n : Node} (h : isPreprocConditional n.kind = false) :
    (scopedIn source n).filter (isSeen source) = (scopedIn source n).filter (isSeenInNamespace source) := by
  refine List.filter_congr fun (path, f) hplaced => ?_
  have hpath : path.dropWhile (isPreprocConditional ·.kind) = path := by
    rcases scopedIn_path source hplaced with rfl | ⟨rest, rfl⟩
    · rfl
    · simp [h]
  rw [isSeen, hpath]

mutual

theorem functionLabels_walkChildren : ∀ n : Node, functionLabels (walkChildren source n) =
    ((scopedAmong source n.children).filter (isSeen source)).map fun (_, f) => functionLabel source f
  | ⟨kind, field, startByte, endByte, startPosition, endPosition, isNamed, isError, isMissing, cs⟩ => by
    rw [walkChildren]
    exact functionLabels_walkAll cs

theorem functionLabels_walkAll : ∀ cs : List Node, functionLabels (walkAll source cs) =
    ((scopedAmong source cs).filter (isSeen source)).map fun (_, f) => functionLabel source f
  | [] => rfl
  | c :: cs => by
    rw [walkAll, scopedAmong, functionLabels_append, functionLabels_walkAll cs, List.filter_append, List.map_append]
    by_cases hskip : (c.isError || c.isMissing) = true
    · rw [if_pos hskip, if_pos hskip]
      rfl
    · rw [if_neg hskip, if_neg hskip]
      congr 1
      cases hconditional : isPreprocConditional c.kind with
      | false =>
        rw [if_neg Bool.false_ne_true, scopedIn_seen source hconditional, functionLabels_extractNode source c]
      | true =>
        rw [if_pos rfl, functionLabels_walkChildren c, scopedIn_branch source (branchKinds_conditional hconditional),
          List.filter_map, List.map_map]
        have hseen : ∀ placed ∈ scopedAmong source c.children,
            (isSeen source ∘ fun (path, f) => (c :: path, f)) placed = isSeen source placed := by
          intro placed _
          simp [isSeen, hconditional]
        rw [List.filter_congr hseen]
        rfl

end

/-- The functions that are seen are what is yielded, in their order. -/
theorem functions_extractSymbols (texts : TextsOf) (file : Path) (tree : Node) :
    ((SymbolIndex.flattenAll (Parse.extractSymbols texts source tree file .cpp)).filter (·.kind == .function)).map symbolLabel =
      ((scopedFunctions source tree).filter (isSeen source)).map fun (_, f) => functionLabel source f := by
  rw [Parse.extractSymbols, extractDefinitions, flattenAll_toSymbols, List.filter_map, List.map_map]
  refine Eq.trans ?_ (functionLabels_walkChildren source tree)
  rw [extractSymbols, functionLabels]
  simp [Function.comp_def, symbolLabel_toSymbol]

/-- Every function at namespace scope has its symbol exactly when each is seen: in
    conditionals without `#else`, then in namespaces with a name, and named without
    `::`. -/
theorem functions_complete_iff (texts : TextsOf) (file : Path) (tree : Node) :
    FunctionsComplete source texts file tree ↔ ∀ placed ∈ scopedFunctions source tree, isSeen source placed = true := by
  rw [FunctionsComplete, functions_extractSymbols]
  exact map_filter_eq_map_iff _ _ _

end Extracted

/-! ## A function in an anonymous namespace -/

/-- `namespace { void f() {} }`. -/
def anonymousNamespace : Node :=
  let declarator : Node :=
    ⟨"function_declarator", some "declarator", 17, 20, ⟨0, 17⟩, ⟨0, 20⟩, true, false, false,
      [.leaf "identifier" (some "declarator") 0 17 17 1 true, .leaf "parameter_list" (some "parameters") 0 18 18 2 true]⟩
  let function : Node :=
    ⟨"function_definition", none, 12, 23, ⟨0, 12⟩, ⟨0, 23⟩, true, false, false,
      [.leaf "primitive_type" (some "type") 0 12 12 4 true, declarator,
        .leaf "compound_statement" (some "body") 0 21 21 2 true]⟩
  let body : Node :=
    ⟨"declaration_list", some "body", 10, 25, ⟨0, 10⟩, ⟨0, 25⟩, true, false, false,
      [.leaf "\x7b" none 0 10 10 1 false, function, .leaf "\x7d" none 0 24 24 1 false]⟩
  let namespace_ : Node :=
    ⟨"namespace_definition", none, 0, 25, ⟨0, 0⟩, ⟨0, 25⟩, true, false, false,
      [.leaf "namespace" none 0 0 0 9 false, body]⟩
  ⟨"translation_unit", none, 0, 25, ⟨0, 0⟩, ⟨0, 25⟩, true, false, false, [namespace_]⟩

/-- A namespace without a name is no symbol, and nothing in it is. -/
theorem function_in_anonymous_namespace_has_no_symbol :
    ¬ FunctionsComplete (str "namespace \x7b void f() \x7b\x7d \x7d") (fun _ _ _ _ => ⟨.private_, none, none, none⟩) []
      anonymousNamespace := by
  unfold FunctionsComplete
  decide +kernel

end CodeQuery.Parse.Cpp
