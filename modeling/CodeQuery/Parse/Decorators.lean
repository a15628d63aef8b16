/-
  CodeQuery.Parse.Decorators — decorated definitions of Python
  (`codequery-parse/src/languages/python.rs`).

  Two trees over one source are compared: one is the other with some of its functions,
  classes and methods inside decorated definitions. A symbol that is decorated starts with
  its decorators, and nothing else of it should change.

  It does not for functions and classes. A method whose name begins with `test_` is a test
  only where it is not decorated (`a_decorated_test_is_a_method`), so the symbols are the
  same if and only if no such method is (`decorators_transparent_iff`).
-/

import CodeQuery.Parse.Symbols.Python

namespace CodeQuery.Parse.Decorators

open CodeQuery.Core CodeQuery.Text
open CodeQuery.Parse.Python (isTestFunction)
open CodeQuery.Parse.Symbols.Python

/-! ## Wrapping -/

/-- What stands in front of a definition, which is no definition, and where it starts. -/
structure Decoration where
  decorators : List Node
  startByte : Nat
  startPosition : Point
  noDefinition : ∀ n ∈ decorators, n.kind ≠ "function_definition" ∧ n.kind ≠ "class_definition"

/-- The decorated definition ends where the definition does. -/
def Decoration.around (k : Decoration) (n : Node) : Node :=
  { n with
    kind := "decorated_definition"
    startByte := k.startByte
    startPosition := k.startPosition
    children := k.decorators ++ [{ n with field := some "definition" }] }

section Wrap

variable (deco : Node → Option Decoration)

/-- `deco` says which definitions get decorators, and which ones. -/
def decorate (n inner : Node) : Node :=
  match deco n with
  | none => inner
  | some k => k.around inner

def wrapMethod (n : Node) : Node := if n.kind = "function_definition" then decorate deco n n else n

def wrapBody (n : Node) : Node := if n.field = some "body" then { n with children := n.children.map (wrapMethod deco) } else n

def wrapClass (n : Node) : Node := { n with children := n.children.map (wrapBody deco) }

/-- Of what is decorated already, the methods only. -/
def wrapDecorated (n : Node) : Node := if n.kind = "class_definition" then wrapClass deco n else n

def wrapTopLevel (n : Node) : Node :=
  match n.kind with
  | "function_definition" => decorate deco n n
  | "class_definition" => decorate deco n (wrapClass deco n)
  | "decorated_definition" => { n with children := n.children.map (wrapDecorated deco) }
  | _ => n

def wrapTree (tree : Node) : Node := { tree with children := tree.children.map (wrapTopLevel deco) }

end Wrap

/-! ## What must not change -/

/-- The symbol starts where a definition does that gets decorators. -/
def AtDecorated (deco : Node → Option Decoration) (s : Symbol) : Prop :=
  ∃ n, deco n ≠ none ∧ s.line = n.startPosition.row + 1 ∧ s.column = n.startPosition.column

/-- The line, the column and the body are another only for what gets decorators. -/
inductive Same (deco : Node → Option Decoration) : Symbol → Symbol → Prop where
  | mk {s s' : Symbol} (name : s'.name = s.name) (kind : s'.kind = s.kind) (file : s'.file = s.file)
      (endLine : s'.endLine = s.endLine) (visibility : s'.visibility = s.visibility) (doc : s'.doc = s.doc)
      (signature : s'.signature = s.signature) (children : List.Forall₂ (Same deco) s.children s'.children)
      (place : s'.line = s.line ∧ s'.column = s.column ∧ s'.body = s.body ∨ AtDecorated deco s) : Same deco s s'

section Condition

variable (source : Str)

/-- The classes that a node at the top is or holds. -/
def classesOf (n : Node) : List Node :=
  match n.kind with
  | "class_definition" => [n]
  | "decorated_definition" => n.children.filter (·.kind == "class_definition")
  | _ => []

/-- The functions in the body of a class that has a name. -/
def methodsOf (c : Node) : List Node :=
  if (nodeFieldText source c "name").isNone then []
  else (c.childByFieldName "body").toList.flatMap fun body => body.soundChildren.filter (·.kind == "function_definition")

/-- No method that gets decorators is a test by its name. -/
def NoTestDecorated (deco : Node → Option Decoration) (tree : Node) : Prop :=
  ∀ n ∈ tree.soundChildren, ∀ c ∈ classesOf n, ∀ m ∈ methodsOf source c, deco m ≠ none →
    ∀ name, nodeFieldText source m "name" = some name → isTestFunction name.1 = false

end Condition

/-! ## Lists -/

section Lists

variable {α β γ : Type*} {R : β → γ → Prop}

theorem forall₂_toList_map_iff {f : α → β} {g : α → γ} (o : Option α) :
    List.Forall₂ R (o.map f).toList (o.map g).toList ↔ ∀ a, o = some a → R (f a) (g a) := by
  cases o with
  | none => simp
  | some a => simp

/-- Pieces of equal lengths are related one by one. -/
theorem forall₂_flatMap_iff {f : α → List β} {g : α → List γ} {as : List α} (h : ∀ a ∈ as, (f a).length = (g a).length) :
    List.Forall₂ R (as.flatMap f) (as.flatMap g) ↔ ∀ a ∈ as, List.Forall₂ R (f a) (g a) := by
  refine ⟨fun hall => ?_, forall₂_flatMap as⟩
  induction as with
  | nil => exact fun a ha => absurd ha List.not_mem_nil
  | cons a as ih =>
    obtain ⟨ha, has⟩ := List.forall_mem_cons.mp h
    rw [List.flatMap_cons, List.flatMap_cons] at hall
    have hhead := List.forall₂_take (f a).length hall
    have htail := List.forall₂_drop (f a).length hall
    rw [List.take_left, ha, List.take_left] at hhead
    rw [List.drop_left, ha, List.drop_left] at htail
    exact List.forall_mem_cons.mpr ⟨hhead, ih has htail⟩

end Lists

/-! ## Fields and children of what is wrapped -/

section Wrapped

variable (deco : Node → Option Decoration)

theorem isError_decorate (n inner : Node) : (decorate deco n inner).isError = inner.isError := by
  unfold decorate
  cases deco n <;> rfl

theorem isMissing_decorate (n inner : Node) : (decorate deco n inner).isMissing = inner.isMissing := by
  unfold decorate
  cases deco n <;> rfl

theorem soundChildren_map {f : Node → Node} (hf : ∀ n, (f n).isError = n.isError ∧ (f n).isMissing = n.isMissing)
    (n : Node) : ({ n with children := n.children.map f } : Node).soundChildren = n.soundChildren.map f := by
  rw [Node.soundChildren, Node.soundChildren, List.filter_map]
  congr 2
  funext c
  rw [Function.comp_apply, (hf c).1, (hf c).2]

theorem childByFieldName_map {f : Node → Node} (hf : ∀ n, (f n).field = n.field) (n : Node) (field : String) :
    ({ n with children := n.children.map f } : Node).childByFieldName field = (n.childByFieldName field).map f := by
  rw [Node.childByFieldName, Node.childByFieldName, List.find?_map]
  congr 2
  funext c
  rw [Function.comp_apply, hf c]

theorem field_wrapBody (n : Node) : (wrapBody deco n).field = n.field := by
  unfold wrapBody
  split <;> rfl

theorem kind_decorate (n inner : Node) :
    (decorate deco n inner).kind = inner.kind ∨ (decorate deco n inner).kind = "decorated_definition" := by
  unfold decorate
  cases deco n with
  | none => exact .inl rfl
  | some k => exact .inr rfl

theorem wrapMethod_sound (n : Node) : (wrapMethod deco n).isError = n.isError ∧ (wrapMethod deco n).isMissing = n.isMissing := by
  unfold wrapMethod
  split
  · exact ⟨isError_decorate deco n n, isMissing_decorate deco n n⟩
  · exact ⟨rfl, rfl⟩

theorem wrapTopLevel_sound (n : Node) :
    (wrapTopLevel deco n).isError = n.isError ∧ (wrapTopLevel deco n).isMissing = n.isMissing := by
  unfold wrapTopLevel
  split
  · exact ⟨isError_decorate deco n n, isMissing_decorate deco n n⟩
  · exact ⟨isError_decorate deco n _, isMissing_decorate deco n _⟩
  · exact ⟨rfl, rfl⟩
  · exact ⟨rfl, rfl⟩

/-- Only the body of a class is another. -/
theorem wrapClass_field {field : String} (hfield : field ≠ "body") (n : Node) :
    (wrapClass deco n).childByFieldName field = n.childByFieldName field := by
  rw [wrapClass, childByFieldName_map (field_wrapBody deco)]
  cases hfound : n.childByFieldName field with
  | none => rfl
  | some c =>
    have hc : c.field = some field := by simpa using List.find?_some hfound
    rw [Option.map_some, wrapBody, if_neg (by simp [hc, hfield])]

theorem wrapClass_body (n : Node) : (wrapClass deco n).childByFieldName "body" =
    (n.childByFieldName "body").map fun body => { body with children := body.children.map (wrapMethod deco) } := by
  rw [wrapClass, childByFieldName_map (field_wrapBody deco)]
  cases hfound : n.childByFieldName "body" with
  | none => rfl
  | some c =>
    have hc : c.field = some "body" := by simpa using List.find?_some hfound
    rw [Option.map_some, Option.map_some, wrapBody, if_pos hc]

variable {deco} (source : Str)

theorem nodeFieldText_wrapClass (n : Node) :
    nodeFieldText source (wrapClass deco n) "name" = nodeFieldText source n "name" := by
  rw [nodeFieldText, wrapClass_field deco (by decide), nodeFieldText]

/-- A wrapped function is no comment, and no statement that is an expression. -/
theorem wrapMethod_kind (n : Node) : ((wrapMethod deco n).kind = "comment" ↔ n.kind = "comment") ∧
    (wrapMethod deco n = n ∨ n.kind ≠ "expression_statement" ∧ (wrapMethod deco n).kind ≠ "expression_statement") := by
  unfold wrapMethod
  split
  next hkind =>
    rcases kind_decorate deco n n with hsame | hother
    · rw [hsame, hkind]
      exact ⟨Iff.rfl, .inr ⟨by decide, by decide⟩⟩
    · rw [hother, hkind]
      exact ⟨iff_of_false (by decide) (by decide), .inr ⟨by decide, by decide⟩⟩
  · exact ⟨Iff.rfl, .inl rfl⟩

theorem extractDocstring_wrapClass (n : Node) :
    extractDocstring source (wrapClass deco n) = extractDocstring source n := by
  rw [extractDocstring, extractDocstring, wrapClass_body]
  cases n.childByFieldName "body" with
  | none => rfl
  | some body =>
    have hcomment : (fun c : Node => c.kind != "comment") ∘ wrapMethod deco = fun c => c.kind != "comment" := by
      funext c
      rw [Function.comp_apply, Bool.eq_iff_iff, bne_iff_ne, bne_iff_ne]
      exact not_congr (@wrapMethod_kind deco c).1
    rw [Option.map_some, Option.bind_some, Option.bind_some, List.find?_map, hcomment]
    cases body.children.find? fun c => c.kind != "comment" with
    | none => rfl
    | some c =>
      rw [Option.map_some, Option.bind_some, Option.bind_some]
      rcases (@wrapMethod_kind deco c).2 with hsame | ⟨hplain, hwrapped⟩
      · rw [hsame]
      · rw [if_neg hplain, if_neg hwrapped]

/-- Among the children of a decorated definition only the definition counts. -/
theorem flatMap_around {α : Type*} (k : Decoration) (n : Node) (f : Node → List α)
    (hf : ∀ c, c.kind ≠ "function_definition" → c.kind ≠ "class_definition" → f c = []) :
    (k.around n).children.flatMap f = f { n with field := some "definition" } := by
  have hnone : k.decorators.flatMap f = [] :=
    List.flatMap_eq_nil_iff.mpr fun c hc => hf c (k.noDefinition c hc).1 (k.noDefinition c hc).2
  rw [Decoration.around, List.flatMap_append, hnone, List.nil_append, List.flatMap_singleton]

end Wrapped

/-! ## Symbols -/

section Symbols

variable {deco : Node → Option Decoration} {source : Str} {file : Path}

mutual

theorem Same.refl (s : Symbol) : Same deco s s := by
  cases s with
  | mk name kind file line column endLine visibility children doc body signature =>
    exact .mk rfl rfl rfl rfl rfl rfl rfl (Same.reflAll children) (.inl ⟨rfl, rfl, rfl⟩)

theorem Same.reflAll (ss : List Symbol) : List.Forall₂ (Same deco) ss ss := by
  cases ss with
  | nil => exact .nil
  | cons s ss => exact .cons (Same.refl s) (Same.reflAll ss)

end

theorem same_children {s s' : Symbol} (h : Same deco s s') : List.Forall₂ (Same deco) s.children s'.children := by
  cases h with
  | mk _ _ _ _ _ _ _ children _ => exact children

theorem same_kind {s s' : Symbol} (h : Same deco s s') : s'.kind = s.kind := by
  cases h with
  | mk _ kind _ _ _ _ _ _ _ => exact kind

/-- Two symbols with the same texts but for the body, which end on the same line. -/
theorem same_symbolAt_iff (n n' : Node) (hend : n'.endPosition = n.endPosition) {name : Str} {kind kind' : SymbolKind}
    {visibility : Visibility} {cs cs' : List Symbol} {doc : Option Str} {body body' signature signature' : Str}
    (hsignature : signature' = signature)
    (hplace : n'.startPosition = n.startPosition ∧ body' = body ∨ deco n ≠ none) :
    Same deco (symbolAt file n name kind visibility cs doc body signature)
        (symbolAt file n' name kind' visibility cs' doc body' signature') ↔
      kind' = kind ∧ List.Forall₂ (Same deco) cs cs' := by
  constructor
  · intro h
    exact ⟨same_kind h, same_children h⟩
  · intro h
    obtain ⟨hkind, hchildren⟩ := h
    refine .mk rfl hkind rfl (by simp [symbolAt, hend]) rfl rfl (by simp [symbolAt, hsignature]) hchildren ?_
    rcases hplace with ⟨hstart, hbody⟩ | hdeco
    · exact .inl (by simp [symbolAt, hstart, hbody])
    · exact .inr ⟨n, hdeco, rfl, rfl⟩

/-- What a child of a class's body gives. -/
def memberAt (source : Str) (file : Path) (child : Node) : List Symbol :=
  match child.kind with
  | "function_definition" => (extractFunction source file child true).toList
  | "decorated_definition" => extractDecoratedMethod source file child
  | _ => []

theorem extractClassMethods_eq (c : Node) : extractClassMethods source file c =
    (c.childByFieldName "body").toList.flatMap fun body => body.soundChildren.flatMap (memberAt source file) := by
  rw [extractClassMethods]
  cases c.childByFieldName "body" with
  | none => rfl
  | some body =>
    rw [Option.toList_some, List.flatMap_singleton]
    rfl

theorem memberAt_function {m : Node} (h : m.kind = "function_definition") :
    memberAt source file m = (extractFunction source file m true).toList := by
  rw [memberAt, h]
  rfl

/-- A decorated method is one of its own name. -/
theorem memberAt_around {m : Node} (h : m.kind = "function_definition") (k : Decoration) :
    memberAt source file (k.around m) = ((nodeFieldText source m "name").map fun (name, _) =>
      symbolAt file (k.around m) name .method (pythonVisibility name) [] (extractDocstring source m)
        (extractBody source (k.around m)) (extractSignature source m .method)).toList := by
  show extractDecoratedMethod source file (k.around m) = _
  rw [extractDecoratedMethod, flatMap_around]
  · dsimp only
    rw [h]
    rfl
  · intro c hfunction _
    split
    · contradiction
    · rfl

/-- A test by its name is a method when it is decorated. -/
theorem memberAt_same_iff (m : Node) :
    List.Forall₂ (Same deco) (memberAt source file m) (memberAt source file (wrapMethod deco m)) ↔
      (m.kind = "function_definition" → deco m ≠ none → ∀ name, nodeFieldText source m "name" = some name →
        isTestFunction name.1 = false) := by
  unfold wrapMethod decorate
  split
  next hkind =>
    cases hdeco : deco m with
    | none => exact iff_of_true (Same.reflAll _) fun _ h => absurd rfl h
    | some k =>
      dsimp only
      rw [memberAt_around hkind, memberAt_function hkind, extractFunction, forall₂_toList_map_iff]
      have hplace : deco m ≠ none := by rw [hdeco]; simp
      constructor
      · intro hsame _ _ name hname
        have hmethod := same_kind (hsame name hname)
        by_contra htest
        rw [Bool.not_eq_false] at htest
        simp [symbolAt, htest] at hmethod
      · intro htest name hname
        have hnot := htest hkind (by simp) name hname
        refine (same_symbolAt_iff m (k.around m) rfl ?_ (.inr hplace)).mpr ⟨?_, .nil⟩
        · simp only [hnot]
          rfl
        · simp [hnot]
  next hkind => exact iff_of_true (Same.reflAll _) fun h => absurd h hkind

theorem length_memberAt (m : Node) :
    (memberAt source file m).length = (memberAt source file (wrapMethod deco m)).length := by
  unfold wrapMethod decorate
  split
  next hkind =>
    cases deco m with
    | none => rfl
    | some k =>
      dsimp only
      rw [memberAt_around hkind, memberAt_function hkind, extractFunction]
      cases nodeFieldText source m "name" <;> rfl
  · rfl

/-- The methods of a class stay the same where no test among them is decorated. -/
theorem extractClassMethods_same_iff (c : Node) :
    List.Forall₂ (Same deco) (extractClassMethods source file c) (extractClassMethods source file (wrapClass deco c)) ↔
      ∀ body, c.childByFieldName "body" = some body → ∀ m ∈ body.soundChildren, m.kind = "function_definition" →
        deco m ≠ none → ∀ name, nodeFieldText source m "name" = some name → isTestFunction name.1 = false := by
  rw [extractClassMethods_eq, extractClassMethods_eq, wrapClass_body]
  cases c.childByFieldName "body" with
  | none => simp
  | some body =>
    rw [Option.map_some, Option.toList_some, Option.toList_some, List.flatMap_singleton, List.flatMap_singleton,
      soundChildren_map (wrapMethod_sound deco), List.flatMap_map, forall₂_flatMap_iff fun m _ => length_memberAt m]
    simp only [memberAt_same_iff, Option.some.injEq, forall_eq']

/-- The symbol of a class, at the node that is or holds the class. -/
def classSymbol (source : Str) (file : Path) (outer c : Node) (name : Str × Point) : Symbol :=
  symbolAt file outer name.1 .class_ (pythonVisibility name.1) (extractClassMethods source file c)
    (extractDocstring source c) (extractBody source outer) (extractSignature source c .class_)

theorem class_same_iff (outer outer' c : Node) (hend : outer'.endPosition = outer.endPosition)
    (hplace : outer'.startPosition = outer.startPosition ∧ extractBody source outer' = extractBody source outer ∨
      deco outer ≠ none) :
    List.Forall₂ (Same deco) ((nodeFieldText source c "name").map (classSymbol source file outer c)).toList
        ((nodeFieldText source (wrapClass deco c) "name").map (classSymbol source file outer' (wrapClass deco c))).toList ↔
      ∀ m ∈ methodsOf source c, deco m ≠ none → ∀ name, nodeFieldText source m "name" = some name →
        isTestFunction name.1 = false := by
  rw [nodeFieldText_wrapClass, forall₂_toList_map_iff, methodsOf]
  cases nodeFieldText source c "name" with
  | none => simp
  | some name =>
    have hiff : Same deco (classSymbol source file outer c name) (classSymbol source file outer' (wrapClass deco c) name) ↔
        List.Forall₂ (Same deco) (extractClassMethods source file c) (extractClassMethods source file (wrapClass deco c)) := by
      have hsignature : extractSignature source (wrapClass deco c) .class_ = extractSignature source c .class_ := rfl
      rw [classSymbol, classSymbol, extractDocstring_wrapClass, hsignature, same_symbolAt_iff outer outer' hend rfl hplace]
      exact and_iff_right rfl
    simp only [Option.some.injEq, forall_eq', hiff, extractClassMethods_same_iff, Option.isNone_some, Bool.false_eq_true,
      if_false]
    constructor
    · intro h m hm
      obtain ⟨body, hbody, hm⟩ := List.mem_flatMap.mp hm
      obtain ⟨hsound, hkind⟩ := List.mem_filter.mp hm
      exact h body (Option.mem_toList.mp hbody) m hsound (eq_of_beq hkind)
    · intro h body hbody m hsound hkind
      exact h m (List.mem_flatMap.mpr
        ⟨body, Option.mem_toList.mpr hbody, List.mem_filter.mpr ⟨hsound, beq_iff_eq.mpr hkind⟩⟩)

/-- What a child of a decorated definition gives. -/
def innerAt (source : Str) (file : Path) (outer child : Node) : List Symbol :=
  match child.kind with
  | "function_definition" =>
    ((nodeFieldText source child "name").map fun (name, _) =>
      let kind := if isTestFunction name then .test else .function
      symbolAt file outer name kind (pythonVisibility name) [] (extractDocstring source child) (extractBody source outer)
        (extractSignature source child kind)).toList
  | "class_definition" => ((nodeFieldText source child "name").map (classSymbol source file outer child)).toList
  | _ => []

theorem extractDecorated_eq (n : Node) : extractDecorated source file n = n.children.flatMap (innerAt source file n) := rfl

theorem innerAt_eq_nil {outer c : Node} (hfunction : c.kind ≠ "function_definition") (hclass : c.kind ≠ "class_definition") :
    innerAt source file outer c = [] := by
  unfold innerAt
  split
  · contradiction
  · contradiction
  · rfl

theorem extractTopLevel_around (k : Decoration) (n : Node) :
    extractTopLevel source file (k.around n) = innerAt source file (k.around n) { n with field := some "definition" } := by
  show extractDecorated source file (k.around n) = _
  rw [extractDecorated_eq]
  exact flatMap_around k n _ fun c => innerAt_eq_nil

/-- A decorated function has the name, the kind and the texts that it has alone. -/
theorem function_same {n : Node} (hkind : n.kind = "function_definition") :
    List.Forall₂ (Same deco) (extractTopLevel source file n) (extractTopLevel source file (decorate deco n n)) := by
  unfold decorate
  cases hdeco : deco n with
  | none => exact Same.reflAll _
  | some k =>
    have hplain : extractTopLevel source file n = (extractFunction source file n false).toList := by
      rw [extractTopLevel, hkind]
      rfl
    have hplace : deco n ≠ none := by rw [hdeco]; simp
    dsimp only
    rw [hplain, extractTopLevel_around, innerAt, hkind]
    refine (forall₂_toList_map_iff _).mpr fun name _ => ?_
    refine (same_symbolAt_iff n (k.around n) rfl ?_ (.inr hplace)).mpr ⟨?_, .nil⟩
    · simp
      rfl
    · simp

theorem extractTopLevel_class {n : Node} (hkind : n.kind = "class_definition") :
    extractTopLevel source file n = ((nodeFieldText source n "name").map (classSymbol source file n n)).toList := by
  rw [extractTopLevel, hkind]
  rfl

/-- Decorated or not, a class has one symbol, at what is around it. -/
theorem extractTopLevel_decorate {n : Node} (hkind : n.kind = "class_definition") :
    ∃ outer : Node, extractTopLevel source file (decorate deco n (wrapClass deco n)) =
        ((nodeFieldText source (wrapClass deco n) "name").map (classSymbol source file outer (wrapClass deco n))).toList ∧
      outer.endPosition = n.endPosition ∧
      (outer.startPosition = n.startPosition ∧ extractBody source outer = extractBody source n ∨ deco n ≠ none) := by
  unfold decorate
  cases hdeco : deco n with
  | none => exact ⟨wrapClass deco n, extractTopLevel_class hkind, rfl, .inl ⟨rfl, rfl⟩⟩
  | some k =>
    have hclass : ({ wrapClass deco n with field := some "definition" } : Node).kind = "class_definition" := hkind
    refine ⟨k.around (wrapClass deco n), ?_, rfl, .inr (by simp)⟩
    dsimp only
    rw [extractTopLevel_around, innerAt, hclass]
    rfl

theorem class_decorate_same_iff {n : Node} (hkind : n.kind = "class_definition") :
    List.Forall₂ (Same deco) (extractTopLevel source file n)
        (extractTopLevel source file (decorate deco n (wrapClass deco n))) ↔
      ∀ m ∈ methodsOf source n, deco m ≠ none → ∀ name, nodeFieldText source m "name" = some name →
        isTestFunction name.1 = false := by
  obtain ⟨outer, hdecorated, hend, hplace⟩ := @extractTopLevel_decorate deco source file n hkind
  rw [extractTopLevel_class hkind, hdecorated]
  exact class_same_iff n outer n hend hplace

/-- The classes in what is decorated already. -/
theorem innerAt_same_iff (n c : Node) :
    List.Forall₂ (Same deco) (innerAt source file n c)
        (innerAt source file { n with children := n.children.map (wrapDecorated deco) } (wrapDecorated deco c)) ↔
      (c.kind = "class_definition" → ∀ m ∈ methodsOf source c, deco m ≠ none →
        ∀ name, nodeFieldText source m "name" = some name → isTestFunction name.1 = false) := by
  by_cases hkind : c.kind = "class_definition"
  · have hclass : (wrapClass deco c).kind = "class_definition" := hkind
    rw [wrapDecorated, if_pos hkind, innerAt, innerAt, hkind, hclass]
    exact (class_same_iff n _ c rfl (.inl ⟨rfl, rfl⟩)).trans ⟨fun h _ => h, fun h => h rfl⟩
  · rw [wrapDecorated, if_neg hkind]
    refine iff_of_true ?_ fun h => absurd h hkind
    exact Same.reflAll _

theorem length_innerAt (n c : Node) : (innerAt source file n c).length =
    (innerAt source file { n with children := n.children.map (wrapDecorated deco) } (wrapDecorated deco c)).length := by
  by_cases hkind : c.kind = "class_definition"
  · have hclass : (wrapClass deco c).kind = "class_definition" := hkind
    rw [wrapDecorated, if_pos hkind, innerAt, innerAt, hkind, hclass]
    dsimp only
    rw [nodeFieldText_wrapClass]
    cases nodeFieldText source c "name" <;> rfl
  · rw [wrapDecorated, if_neg hkind]
    rfl

theorem extractTopLevel_decorated {n : Node} (hkind : n.kind = "decorated_definition") :
    extractTopLevel source file n = n.children.flatMap (innerAt source file n) := by
  rw [extractTopLevel, hkind]
  rfl

theorem extractTopLevel_wrapDecorated {n : Node} (hkind : n.kind = "decorated_definition") :
    extractTopLevel source file { n with children := n.children.map (wrapDecorated deco) } = n.children.flatMap fun c =>
      innerAt source file { n with children := n.children.map (wrapDecorated deco) } (wrapDecorated deco c) := by
  rw [← List.flatMap_map]
  exact extractTopLevel_decorated hkind

/-- What is in a definition that is decorated already. -/
theorem decorated_same_iff {n : Node} (hkind : n.kind = "decorated_definition") :
    List.Forall₂ (Same deco) (extractTopLevel source file n)
        (extractTopLevel source file { n with children := n.children.map (wrapDecorated deco) }) ↔
      ∀ c ∈ n.children.filter (·.kind == "class_definition"), ∀ m ∈ methodsOf source c, deco m ≠ none →
        ∀ name, nodeFieldText source m "name" = some name → isTestFunction name.1 = false := by
  rw [extractTopLevel_decorated hkind, extractTopLevel_wrapDecorated hkind,
    forall₂_flatMap_iff fun c _ => length_innerAt n c]
  constructor
  · intro h c hc
    obtain ⟨hmem, hclass⟩ := List.mem_filter.mp hc
    exact (innerAt_same_iff n c).mp (h c hmem) (eq_of_beq hclass)
  · intro h c hc
    exact (innerAt_same_iff n c).mpr fun hclass => h c (List.mem_filter.mpr ⟨hc, beq_iff_eq.mpr hclass⟩)

theorem classesOf_other {n : Node} (hclass : n.kind ≠ "class_definition") (hdecorated : n.kind ≠ "decorated_definition") :
    classesOf n = [] := by
  unfold classesOf
  split
  next hkind => exact absurd hkind hclass
  next hkind => exact absurd hkind hdecorated
  · rfl

theorem extractTopLevel_same_iff (n : Node) :
    List.Forall₂ (Same deco) (extractTopLevel source file n) (extractTopLevel source file (wrapTopLevel deco n)) ↔
      ∀ c ∈ classesOf n, ∀ m ∈ methodsOf source c, deco m ≠ none →
        ∀ name, nodeFieldText source m "name" = some name → isTestFunction name.1 = false := by
  unfold wrapTopLevel
  split
  next hkind =>
    rw [classesOf_other (by simp [hkind]) (by simp [hkind])]
    exact iff_of_true (function_same hkind) (by simp)
  next hkind =>
    have hone : classesOf n = [n] := by
      rw [classesOf, hkind]
      rfl
    rw [hone, List.forall_mem_singleton]
    exact class_decorate_same_iff hkind
  next hkind =>
    have hclasses : classesOf n = n.children.filter (·.kind == "class_definition") := by
      rw [classesOf, hkind]
      rfl
    rw [hclasses]
    exact decorated_same_iff hkind
  next _ hclass hdecorated =>
    rw [classesOf_other hclass hdecorated]
    exact iff_of_true (Same.reflAll _) (by simp)

theorem length_extractTopLevel (n : Node) :
    (extractTopLevel source file n).length = (extractTopLevel source file (wrapTopLevel deco n)).length := by
  unfold wrapTopLevel
  split
  next hkind => exact (@function_same deco source file n hkind).length_eq
  next hkind =>
    obtain ⟨outer, hdecorated, -⟩ := @extractTopLevel_decorate deco source file n hkind
    rw [extractTopLevel_class hkind, hdecorated, nodeFieldText_wrapClass]
    cases nodeFieldText source n "name" <;> rfl
  next hkind =>
    rw [extractTopLevel_decorated hkind, extractTopLevel_wrapDecorated hkind, List.length_flatMap, List.length_flatMap]
    exact congrArg List.sum (List.map_congr_left fun c _ => length_innerAt n c)
  · rfl

end Symbols

/-- For every source, every tree and every choice of definitions and decorators: the
    symbols are the same if and only if no method that is decorated is a test by name. -/
theorem decorators_transparent_iff (deco : Node → Option Decoration) (source : Str) (file : Path) (tree : Node) :
    List.Forall₂ (Same deco) (Symbols.Python.extractSymbols source file tree)
        (Symbols.Python.extractSymbols source file (wrapTree deco tree)) ↔
      NoTestDecorated source deco tree := by
  rw [Symbols.Python.extractSymbols, Symbols.Python.extractSymbols, wrapTree,
    soundChildren_map (wrapTopLevel_sound deco), List.flatMap_map,
    forall₂_flatMap_iff fun n _ => length_extractTopLevel n]
  exact forall₂_congr fun n _ => extractTopLevel_same_iff n

/-! ## A decorated test -/

def testSource : Str := str "class C:\n  @d\n  def test_a(self): pass"

def testMethod : Node :=
  ⟨"function_definition", none, 16, 38, ⟨2, 2⟩, ⟨2, 24⟩, true, false, false,
    [.leaf "identifier" (some "name") 2 6 20 6 true]⟩

def testTree : Node :=
  ⟨"module", none, 0, 38, ⟨0, 0⟩, ⟨2, 24⟩, true, false, false,
    [⟨"class_definition", none, 0, 38, ⟨0, 0⟩, ⟨2, 24⟩, true, false, false,
      [.leaf "identifier" (some "name") 0 6 6 1 true,
        ⟨"block", some "body", 11, 38, ⟨1, 2⟩, ⟨2, 24⟩, true, false, false, [testMethod]⟩]⟩]⟩

/-- Every method gets `@d`. -/
def decorateMethods (n : Node) : Option Decoration :=
  if n.field = none ∧ n.kind = "function_definition" then
    some ⟨[.leaf "decorator" none 1 2 11 2 true], 11, ⟨1, 2⟩, by simp [Node.leaf]⟩
  else none

theorem kinds_of_same {deco : Node → Option Decoration} {ss ss' : List Symbol} (h : List.Forall₂ (Same deco) ss ss') :
    ss'.map (·.kind) = ss.map (·.kind) := by
  induction h with
  | nil => rfl
  | cons hs _ ih => rw [List.map_cons, List.map_cons, same_kind hs, ih]

theorem childKinds_of_same {deco : Node → Option Decoration} {ss ss' : List Symbol} (h : List.Forall₂ (Same deco) ss ss') :
    ss'.map (fun s => s.children.map (·.kind)) = ss.map fun s => s.children.map (·.kind) := by
  induction h with
  | nil => rfl
  | cons hs _ ih => rw [List.map_cons, List.map_cons, kinds_of_same (same_children hs), ih]

/-- A test in a class is a method once it is decorated. -/
theorem a_decorated_test_is_a_method :
    (Symbols.Python.extractSymbols testSource [] testTree).map (fun s => s.children.map (·.kind)) = [[.test]] ∧
      (Symbols.Python.extractSymbols testSource [] (wrapTree decorateMethods testTree)).map (fun s => s.children.map (·.kind)) =
        [[.method]] ∧
      ¬ List.Forall₂ (Same decorateMethods) (Symbols.Python.extractSymbols testSource [] testTree)
          (Symbols.Python.extractSymbols testSource [] (wrapTree decorateMethods testTree)) := by
  have hplain : (Symbols.Python.extractSymbols testSource [] testTree).map (fun s => s.children.map (·.kind)) = [[.test]] := by
    decide
  have hwrapped : (Symbols.Python.extractSymbols testSource [] (wrapTree decorateMethods testTree)).map
      (fun s => s.children.map (·.kind)) = [[.method]] := by decide
  refine ⟨hplain, hwrapped, fun h => ?_⟩
  have hkinds := childKinds_of_same h
  rw [hplain, hwrapped] at hkinds
  exact absurd hkinds (by decide)

end CodeQuery.Parse.Decorators
