/-
  CodeQuery.Index.RefsContext — the caller and the place of each reference of the Rust walk
  (see `CodeQuery.Index.RefsPositions`).

  A reference stands at a leaf, and its caller is the innermost function item around the
  leaf. In a tree as the grammar gives it (`RustSyntax`) the walk comes to a leaf once and
  leaves the names of type definitions out: with those names, the references are no more
  than the leaves (`Visit.total_le`). So where leaves start at different places, so do
  references, and none is at a type's name (`references_in_context`).
-/

import CodeQuery.Index.RefsPositions
import CodeQuery.Parse.Places
import Mathlib.Algebra.GroupWithZero.Nat
import Mathlib.Algebra.Order.BigOperators.Group.List

namespace CodeQuery.Index

open CodeQuery.Core CodeQuery.Parse CodeQuery.Text

/-! ## The grammar's trees -/

/-- Structs, enums, unions, traits and type aliases. -/
def isTypeDefinition (kind : String) : Bool :=
  ["struct_item", "enum_item", "trait_item", "type_item", "union_item"].contains kind

/-- A leaf that is no type's name. -/
def IsToken (n : Node) : Prop := n.children = [] ∧ n.kind ≠ "type_identifier"

/-- What the Rust grammar promises of its trees. -/
structure RustSyntax (source : Str) (tree : Node) : Prop where
  identifiers : ∀ n ∈ tree.preorder, n.kind = "identifier" ∨ n.kind = "type_identifier" → n.children = []
  /-- The last name of a path. -/
  pathName : ∀ n ∈ tree.preorder, n.kind = "scoped_identifier" → ∀ m, n.childByFieldName "name" = some m → IsToken m
  fieldName : ∀ n ∈ tree.preorder, n.kind = "field_expression" → ∀ m, n.childByFieldName "field" = some m → IsToken m
  typeName : ∀ n ∈ tree.preorder, isTypeDefinition n.kind = true →
    ∀ m, n.childByFieldName "name" = some m → m.children = []
  functionName : ∀ n ∈ tree.preorder, n.kind = "function_item" →
    ∃ m, n.childByFieldName "name" = some m ∧ (m.utf8Text source).isSome = true
  /-- An import has no item in it. -/
  imports : ∀ n ∈ tree.preorder, n.kind = "use_declaration" →
    ∀ m ∈ preorderAll n.children, m.kind ≠ "function_item" ∧ isTypeDefinition m.kind = false

theorem RustSyntax.child {source : Str} {n c : Node} (h : RustSyntax source n) (hc : c ∈ n.children) :
    RustSyntax source c where
  identifiers m hm := h.identifiers m (preorder_child hc hm)
  pathName m hm := h.pathName m (preorder_child hc hm)
  fieldName m hm := h.fieldName m (preorder_child hc hm)
  typeName m hm := h.typeName m (preorder_child hc hm)
  functionName m hm := h.functionName m (preorder_child hc hm)
  imports m hm := h.imports m (preorder_child hc hm)

/-! ## Counting places -/

/-- A 1-based line and a column. -/
abbrev Place := Nat × Nat

def nodePlace (n : Node) : Place := (n.startPosition.row + 1, n.startPosition.column)

def referencePlace (r : Reference) : Place := (r.line, r.column)

def leaves (n : Node) : List Node := n.preorder.filter (·.children.isEmpty)

/-- The name of a type definition. -/
def ownTypeName (d : Node) : List Node := if isTypeDefinition d.kind then (d.childByFieldName "name").toList else []

/-- The names of the type definitions of a tree. -/
def typeNames (n : Node) : List Node := n.preorder.flatMap ownTypeName

section Count

variable (a : Place)

def leafCount (n : Node) : Nat := ((leaves n).map nodePlace).count a

def typeCount (n : Node) : Nat := ((typeNames n).map nodePlace).count a

def refCount (refs : List Reference) : Nat := (refs.map referencePlace).count a

theorem preorderAll_eq (cs : List Node) : preorderAll cs = cs.flatMap Node.preorder := by
  induction cs with
  | nil => rfl
  | cons c cs ih => rw [preorderAll, ih, List.flatMap_cons]

theorem leafCount_leaf {n : Node} (h : n.children = []) : leafCount a n = [nodePlace n].count a := by
  rw [leafCount, leaves, preorder_eq, h, preorderAll]
  simp [h]

theorem leafCount_children (n : Node) : (n.children.map (leafCount a)).sum ≤ leafCount a n := by
  have hsum : (((preorderAll n.children).filter (·.children.isEmpty)).map nodePlace).count a =
      (n.children.map (leafCount a)).sum := by
    rw [preorderAll_eq, List.filter_flatMap, List.map_flatMap, List.count_flatMap]
    rfl
  rw [leafCount, leaves, preorder_eq, List.filter_cons]
  split
  · rw [List.map_cons, ← hsum]
    exact List.count_le_count_cons
  · exact hsum.ge

theorem typeCount_eq (n : Node) :
    typeCount a n = ((ownTypeName n).map nodePlace).count a + (n.children.map (typeCount a)).sum := by
  have hsum : (((preorderAll n.children).flatMap ownTypeName).map nodePlace).count a =
      (n.children.map (typeCount a)).sum := by
    rw [preorderAll_eq, List.flatMap_assoc, List.map_flatMap, List.count_flatMap]
    rfl
  rw [typeCount, typeNames, preorder_eq, List.flatMap_cons, List.map_append, List.count_append, hsum]

theorem typeCount_leaf {n : Node} (h : n.children = []) : typeCount a n = 0 := by
  rw [typeCount_eq, h, ownTypeName, Node.childByFieldName, h]
  split <;> rfl

theorem typeCount_children {n : Node} (h : isTypeDefinition n.kind = false) :
    typeCount a n = (n.children.map (typeCount a)).sum := by
  rw [typeCount_eq, ownTypeName, h]
  simp

variable {a}

/-- A summand with room for `k` more leaves it in the sum. -/
theorem sum_add_le {α : Type*} {cs : List α} {X L : α → Nat} (hle : ∀ c ∈ cs, X c ≤ L c) {c : α} (hc : c ∈ cs) {k : Nat}
    (hk : k + X c ≤ L c) : k + (cs.map X).sum ≤ (cs.map L).sum := by
  obtain ⟨before, after, rfl⟩ := List.append_of_mem hc
  have hbefore := List.sum_le_sum fun d hd => hle d (List.mem_append_left _ hd)
  have hafter := List.sum_le_sum fun d hd => hle d (List.mem_append_right _ (List.mem_cons_of_mem _ hd))
  simp only [List.map_append, List.map_cons, List.sum_append, List.sum_cons]
  omega

/-- The names of type definitions are leaves of their own. -/
theorem typeCount_le {source : Str} {n : Node} (h : RustSyntax source n) : typeCount a n ≤ leafCount a n := by
  have hbelow : ∀ c ∈ n.children, typeCount a c ≤ leafCount a c := fun c hc =>
    have hlt := sizeOf_child_lt hc
    typeCount_le (h.child hc)
  refine le_trans ?_ (leafCount_children a n)
  rw [typeCount_eq, ownTypeName]
  split
  · rename_i hkind
    cases hname : n.childByFieldName "name" with
    | none => simpa using List.sum_le_sum hbelow
    | some m =>
      have hleaf := h.typeName n (self_mem_preorder n) hkind m hname
      refine sum_add_le hbelow (mem_of_childByFieldName hname) ?_
      rw [typeCount_leaf a hleaf, leafCount_leaf a hleaf]
      exact le_rfl
  · simpa using List.sum_le_sum hbelow
termination_by sizeOf n

end Count

/-! ## The walk, node by node -/

section Walk

variable {source : Str} {file : Path} {lines : List Str} {a : Place}

/-! ## Leaves come to once -/

theorem refCount_append (refs refs' : List Reference) : refCount a (refs ++ refs') = refCount a refs + refCount a refs' := by
  rw [refCount, List.map_append, List.count_append]
  rfl

theorem refCount_refIfText (n : Node) (k : ReferenceKind) (e : Option (Str × SymbolKind)) :
    refCount a (refIfText source file lines n k e) ≤ [nodePlace n].count a := by
  unfold refIfText
  split
  · exact le_rfl
  · exact Nat.zero_le _

/-- A leaf that is no type's name has no references. -/
theorem Visit.refs_token {v : Visit} (h : IsToken v.node) : v.refs source file lines = [] := by
  obtain ⟨parent, enclosing, node⟩ := v
  obtain ⟨kind, _, _, _, _, _, _, _, _, cs⟩ := node
  obtain ⟨hleaf, hkind⟩ := h
  change cs = [] at hleaf
  subst hleaf
  simp only [refs, walkRustNode]
  split
  · rfl
  · exact absurd rfl hkind
  all_goals rfl

variable (a source file lines) in
/-- The references from a visit at a place, with the type definitions' names. -/
def Visit.total (v : Visit) : Nat := refCount a (v.refs source file lines) + typeCount a v.node

theorem Visit.total_token {v : Visit} (h : IsToken v.node) : v.total source file lines a = 0 := by
  rw [total, refs_token h, typeCount_leaf a h.1]
  rfl

theorem Visit.total_eq {v : Visit} (hwalked : isWalkedInto v.node.kind = true) : v.total source file lines a =
    refCount a (v.ownRefs source file lines) + refCount a (v.childRefs source file lines) + typeCount a v.node := by
  rw [total, refs_eq, if_pos hwalked, refCount_append]

theorem Visit.childRefs_total (v : Visit) :
    refCount a (v.childRefs source file lines) + (v.node.children.map (typeCount a)).sum ≤
      (v.node.children.map fun c => (v.child source c).total source file lines a).sum := by
  rw [childRefs, refCount, List.map_flatMap, List.count_flatMap, ← List.sum_map_add]
  refine List.sum_le_sum fun c _ => ?_
  simp only [Function.comp_apply, total]
  refine Nat.add_le_add_right ?_ _
  split
  · exact le_rfl
  · exact Nat.zero_le _

/-- Where the walk goes on from a node, what is recorded there of one child finds room
    besides what is recorded from that child. -/
theorem Visit.add_total_le {v : Visit} (hwalked : isWalkedInto v.node.kind = true)
    (hbelow : ∀ c ∈ v.node.children, (v.child source c).total source file lines a ≤ leafCount a c) {k extra : Nat}
    (hextra : extra = k + refCount a (v.ownRefs source file lines) + ((ownTypeName v.node).map nodePlace).count a)
    (hroom : extra = 0 ∨ ∃ c ∈ v.node.children, extra + (v.child source c).total source file lines a ≤ leafCount a c) :
    k + v.total source file lines a ≤ leafCount a v.node := by
  have hchildren : _ ≤ (v.node.children.map fun c => (v.child source c).total source file lines a).sum :=
    v.childRefs_total
  have hleaves := leafCount_children a v.node
  have hsum : extra + (v.node.children.map fun c => (v.child source c).total source file lines a).sum ≤
      (v.node.children.map (leafCount a)).sum := by
    rcases hroom with h | ⟨c, hc, hroom⟩
    · rw [h, Nat.zero_add]
      exact List.sum_le_sum hbelow
    · exact sum_add_le hbelow hc hroom
  rw [total_eq hwalked, typeCount_eq]
  omega

theorem walkUseTrees_eq (e : Option (Str × SymbolKind)) (cs : List Node) :
    walkUseTrees source file lines e cs = cs.flatMap (walkUseTree source file lines e) := by
  induction cs with
  | nil => rfl
  | cons c cs ih => rw [walkUseTrees, ih, List.flatMap_cons]

/-- An import's names are leaves, each come to once. -/
theorem walkUseTree_le {e : Option (Str × SymbolKind)} {n : Node} (h : RustSyntax source n) :
    refCount a (walkUseTree source file lines e n) ≤ leafCount a n := by
  have hbelow : ∀ c ∈ n.children, refCount a (walkUseTree source file lines e c) ≤ leafCount a c := fun c hc =>
    have hlt := sizeOf_child hc
    walkUseTree_le (h.child hc)
  have hsum : refCount a (n.children.flatMap (walkUseTree source file lines e)) ≤ leafCount a n := by
    rw [refCount, List.map_flatMap, List.count_flatMap]
    exact (List.sum_le_sum hbelow).trans (leafCount_children a n)
  have hname := h.identifiers n (self_mem_preorder n)
  obtain ⟨kind, field, startByte, endByte, startPos, endPos, named, err, missing, cs⟩ := n
  rw [walkUseTree, walkUseTrees_eq, refCount_append]
  split
  · rename_i hkind
    have hleaf := hname hkind
    change cs = [] at hleaf
    subst hleaf
    rw [leafCount_leaf a rfl]
    split
    · split
      · exact Nat.zero_le _
      · exact le_rfl
    · exact Nat.zero_le _
  · exact (Nat.zero_add _).le.trans hsum
termination_by sizeOf n

/-- So are the names of a macro body. -/
theorem extractTokenTreeCalls_le {e : Option (Str × SymbolKind)} {t : Node} (h : RustSyntax source t)
    (hkind : t.kind = "token_tree") :
    refCount a (extractTokenTreeCalls source file lines e t) + typeCount a t ≤ leafCount a t := by
  have hbelow : ∀ c ∈ t.children, c.kind = "token_tree" →
      refCount a (extractTokenTreeCalls source file lines e c) + typeCount a c ≤ leafCount a c := fun c hc hkind =>
    have hlt := sizeOf_child hc
    extractTokenTreeCalls_le (h.child hc) hkind
  have hgrammar : ∀ c ∈ t.children, RustSyntax source c := fun c hc => h.child hc
  have hown : isTypeDefinition t.kind = false := by rw [hkind]; rfl
  rw [extractTokenTreeCalls_eq, typeCount_children a hown]
  refine le_trans ?_ (leafCount_children a t)
  generalize t.children = cs at hbelow hgrammar ⊢
  induction cs with
  | nil => exact le_rfl
  | cons c cs ih =>
    have hrest := ih (fun d hd => hbelow d (List.mem_cons_of_mem _ hd)) fun d hd => hgrammar d (List.mem_cons_of_mem _ hd)
    have hc := hgrammar c List.mem_cons_self
    have htypes := typeCount_le (a := a) hc
    have hnil : refCount a [] = 0 := rfl
    rw [tokenTreeChildren, List.map_cons, List.sum_cons, List.map_cons, List.sum_cons]
    split
    · omega
    · rw [refCount_append, refCount_append]
      by_cases hname : c.kind = "identifier"
      · have hleaf := hc.identifiers c (self_mem_preorder c) (Or.inl hname)
        rw [typeCount_leaf a hleaf, leafCount_leaf a hleaf]
        have hone : refCount a [refAt file lines c .call e] = [nodePlace c].count a := rfl
        simp only [hname, if_true, String.reduceEq, if_false]
        split
        · split
          · omega
          · omega
        · omega
      · by_cases htree : c.kind = "token_tree"
        · have hnested := hbelow c List.mem_cons_self htree
          simp only [htree, if_true, String.reduceEq, if_false]
          omega
        · simp only [hname, htree, if_false]
          omega
termination_by sizeOf t

/-- The last name of a path, or a field's name, recorded besides what is below. -/
theorem Visit.add_token_le {v : Visit} (hkind : v.node.kind = "scoped_identifier" ∨ v.node.kind = "field_expression")
    (hbelow : ∀ c ∈ v.node.children, (v.child source c).total source file lines a ≤ leafCount a c) {m : Node}
    (hm : m ∈ v.node.children) (htoken : IsToken m) :
    [nodePlace m].count a + v.total source file lines a ≤ leafCount a v.node := by
  have hroom : [nodePlace m].count a + (v.child source m).total source file lines a ≤ leafCount a m := by
    rw [total_token htoken, leafCount_leaf a htoken.1, Nat.add_zero]
  have hwalked : isWalkedInto v.node.kind = true := by
    rcases hkind with h | h <;> (rw [h]; rfl)
  have hown : v.ownRefs source file lines = [] := by
    rcases hkind with h | h <;> (rw [ownRefs, h]; rfl)
  have htype : isTypeDefinition v.node.kind = false := by
    rcases hkind with h | h <;> (rw [h]; rfl)
  refine add_total_le hwalked hbelow ?_ (Or.inr ⟨m, hm, hroom⟩)
  rw [hown, ownTypeName, htype]
  rfl

/-- All that is below `v` is counted. -/
def Visit.CountedBelow (a : Place) (source : Str) (file : Path) (lines : List Str) (v : Visit) : Prop :=
  ∀ w : Visit, sizeOf w.node < sizeOf v.node → RustSyntax source w.node → w.total source file lines a ≤ leafCount a w.node

theorem Visit.CountedBelow.children {v : Visit} (hbelow : v.CountedBelow a source file lines)
    (h : RustSyntax source v.node) : ∀ c ∈ v.node.children, (v.child source c).total source file lines a ≤ leafCount a c :=
  fun c hc => hbelow (v.child source c) (sizeOf_child hc) (h.child hc)

theorem Visit.CountedBelow.child {v : Visit} (hbelow : v.CountedBelow a source file lines) {c : Node}
    (hc : c ∈ v.node.children) : (v.child source c).CountedBelow a source file lines :=
  fun w hlt hw => hbelow w (hlt.trans (sizeOf_child hc)) hw

/-- What a call or an assignment records of a child `f` finds room besides what is
    recorded from there. -/
theorem target_le {v : Visit} (hbelow : v.CountedBelow a source file lines) {f : Node} (hf : f ∈ v.node.children)
    (h : RustSyntax source f) {target : Option Node} (htarget : ∀ m, target = some m → Callee f m) (k : ReferenceKind)
    (e : Option (Str × SymbolKind)) :
    refCount a ((target.map (refIfText source file lines · k e)).getD []) + (v.child source f).total source file lines a ≤
      leafCount a f := by
  have hchildren := (hbelow.child hf).children h
  cases target with
  | none =>
    have hself := hbelow (v.child source f) (sizeOf_child hf) h
    exact (Nat.zero_add _).le.trans hself
  | some m =>
    refine (Nat.add_le_add_right (refCount_refIfText m k e) _).trans ?_
    cases htarget m rfl with
    | identifier hkind =>
      have htoken : IsToken f := ⟨h.identifiers f (self_mem_preorder f) (Or.inl hkind), by rw [hkind]; decide⟩
      have hnone : (v.child source f).total source file lines a = 0 := Visit.total_token htoken
      rw [hnone, leafCount_leaf a htoken.1, Nat.add_zero]
    | path hkind hname =>
      have htoken := h.pathName f (self_mem_preorder f) hkind m hname
      exact (v.child source f).add_token_le (Or.inl hkind) hchildren (mem_of_childByFieldName hname) htoken
    | method hkind hfield =>
      have htoken := h.fieldName f (self_mem_preorder f) hkind m hfield
      exact (v.child source f).add_token_le (Or.inr hkind) hchildren (mem_of_childByFieldName hfield) htoken

theorem extractCallRef_le {v : Visit} (hbelow : v.CountedBelow a source file lines) {f : Node} (hf : f ∈ v.node.children)
    (h : RustSyntax source f) (e : Option (Str × SymbolKind)) :
    refCount a (extractCallRef source file lines f e) + (v.child source f).total source file lines a ≤ leafCount a f := by
  refine target_le hbelow hf h (fun m hm => ?_) .call e
  split at hm
  · rename_i hkind
    cases hm
    exact .identifier hkind
  · rename_i hkind
    exact .path hkind hm
  · rename_i hkind
    exact .method hkind hm
  · cases hm

theorem extractAssignmentRef_le {v : Visit} (hbelow : v.CountedBelow a source file lines) {left : Node}
    (hleft : left ∈ v.node.children) (h : RustSyntax source left) (e : Option (Str × SymbolKind)) :
    refCount a (extractAssignmentRef source file lines left e) + (v.child source left).total source file lines a ≤
      leafCount a left := by
  refine target_le hbelow hleft h (fun m hm => ?_) .assignment e
  split at hm
  · rename_i hkind
    cases hm
    exact .identifier hkind
  · rename_i hkind
    exact .method hkind hm
  · cases hm

theorem isDefinitionName_child {n m : Node} (hkind : isTypeDefinition n.kind = true)
    (hname : n.childByFieldName "name" = some m) : isDefinitionName (some n) m = true := by
  rw [isDefinitionName, isNameOf, hname]
  simpa [isTypeDefinition] using hkind

/-- The walk records nothing at the name of a type definition. -/
theorem Visit.total_typeName {v : Visit} (hkind : isTypeDefinition v.node.kind = true) {m : Node}
    (hname : v.node.childByFieldName "name" = some m) (hleaf : m.children = []) :
    (v.child source m).total source file lines a = 0 := by
  by_cases htype : m.kind = "type_identifier"
  · have hdef := isDefinitionName_child hkind hname
    have hown : (v.child source m).ownRefs source file lines = [] := by
      simp only [ownRefs, child, htype, hdef, if_true]
    have hwalked : isWalkedInto (v.child source m).node.kind = false := by
      rw [show (v.child source m).node.kind = "type_identifier" from htype]
      rfl
    rw [total, refs_eq, hown, hwalked, show (v.child source m).node = m from rfl, typeCount_leaf a hleaf]
    rfl
  · exact total_token ⟨hleaf, htype⟩

theorem typeCount_none {n : Node} (h : ∀ m ∈ n.preorder, isTypeDefinition m.kind = false) : typeCount a n = 0 := by
  have hnames : typeNames n = [] := by
    rw [typeNames, List.flatMap_eq_nil_iff]
    intro m hm
    rw [ownTypeName, h m hm]
    rfl
  rw [typeCount, hnames]
  rfl

/-- An import has no type definition in it. -/
theorem Visit.total_le_use {v : Visit} (h : RustSyntax source v.node) (huse : v.node.kind = "use_declaration") :
    v.total source file lines a ≤ leafCount a v.node := by
  have htypes : typeCount a v.node = 0 := by
    refine typeCount_none fun m hm => ?_
    rw [preorder_eq, List.mem_cons] at hm
    rcases hm with rfl | hm
    · rw [huse]
      rfl
    · exact (h.imports v.node (self_mem_preorder _) huse m hm).2
  rw [total, refs_eq, ownRefs, huse, htypes]
  simpa [isWalkedInto] using walkUseTree_le h

/-- A type's name is a leaf, and is recorded once at most. -/
theorem Visit.total_le_typeIdentifier {v : Visit} (h : RustSyntax source v.node)
    (htype : v.node.kind = "type_identifier") : v.total source file lines a ≤ leafCount a v.node := by
  have hleaf := h.identifiers v.node (self_mem_preorder _) (Or.inr htype)
  have hone : refCount a (v.ownRefs source file lines) ≤ [nodePlace v.node].count a := by
    rw [ownRefs, htype]
    simp only
    split
    · exact Nat.zero_le _
    split
    · split
      · exact Nat.zero_le _
      · exact le_rfl
    · exact Nat.zero_le _
  rw [total, refs_eq, typeCount_leaf a hleaf, leafCount_leaf a hleaf, htype]
  simpa [isWalkedInto] using hone

/-- Where the walk goes on, what is recorded at a node, or is its name, is of one child. -/
theorem Visit.own_room {v : Visit} (h : RustSyntax source v.node) (hwalked : isWalkedInto v.node.kind = true)
    (hbelow : v.CountedBelow a source file lines) :
    refCount a (v.ownRefs source file lines) + ((ownTypeName v.node).map nodePlace).count a = 0 ∨
      ∃ c ∈ v.node.children, refCount a (v.ownRefs source file lines) + ((ownTypeName v.node).map nodePlace).count a +
        (v.child source c).total source file lines a ≤ leafCount a c := by
  by_cases hcall : v.node.kind = "call_expression"
  · rw [ownRefs, ownTypeName, hcall]
    cases hf : v.node.childByFieldName "function" with
    | none => exact Or.inl rfl
    | some f =>
      have hmem := mem_of_childByFieldName hf
      exact Or.inr ⟨f, hmem, extractCallRef_le hbelow hmem (h.child hmem) _⟩
  by_cases hassign : v.node.kind = "assignment_expression" ∨ v.node.kind = "compound_assignment_expr"
  · have hown : v.ownRefs source file lines =
        ((v.node.childByFieldName "left").map (extractAssignmentRef source file lines · (v.inner source))).getD [] := by
      rcases hassign with hkind | hkind <;> (rw [ownRefs, hkind]; rfl)
    have hkind : isTypeDefinition v.node.kind = false := by
      rcases hassign with hkind | hkind <;> (rw [hkind]; rfl)
    rw [hown, ownTypeName, hkind]
    cases hleft : v.node.childByFieldName "left" with
    | none => exact Or.inl rfl
    | some left =>
      have hmem := mem_of_childByFieldName hleft
      exact Or.inr ⟨left, hmem, extractAssignmentRef_le hbelow hmem (h.child hmem) _⟩
  have hown : v.ownRefs source file lines = [] := by
    rw [ownRefs]
    split <;> simp_all [isWalkedInto]
  rw [hown, ownTypeName]
  split
  · rename_i hkind
    cases hname : v.node.childByFieldName "name" with
    | none => exact Or.inl rfl
    | some m =>
      have hleaf := h.typeName v.node (self_mem_preorder _) hkind m hname
      refine Or.inr ⟨m, mem_of_childByFieldName hname, ?_⟩
      rw [total_typeName hkind hname hleaf, leafCount_leaf a hleaf]
      exact (Nat.zero_add _).le
  · exact Or.inl rfl

/-- The references at a place, and the names of type definitions, are no more than the
    leaves there. -/
theorem Visit.total_le {v : Visit} (h : RustSyntax source v.node) : v.total source file lines a ≤ leafCount a v.node := by
  have hbelow : v.CountedBelow a source file lines := fun w hlt hw => total_le hw
  by_cases huse : v.node.kind = "use_declaration"
  · exact total_le_use h huse
  by_cases htype : v.node.kind = "type_identifier"
  · exact total_le_typeIdentifier h htype
  by_cases htree : v.node.kind = "token_tree"
  · rw [total, refs_eq, ownRefs, htree]
    simpa [isWalkedInto] using extractTokenTreeCalls_le h htree
  have hwalked : isWalkedInto v.node.kind = true := by simp [isWalkedInto, huse, htype, htree]
  have hplus := Visit.add_total_le hwalked (hbelow.children h) (k := 0) rfl
  rw [Nat.zero_add, Nat.zero_add] at hplus
  exact hplus (own_room h hwalked hbelow)
termination_by sizeOf v.node

end Walk

/-! ## Callers -/

/-- `n` is in the tree, below the nodes `above`, the nearest first. -/
inductive Below (tree : Node) : List Node → Node → Prop
  | self : Below tree [] tree
  | child {above : List Node} {p c : Node} : Below tree above p → c ∈ p.children → Below tree (p :: above) c

theorem Below.trans {t u n : Node} {above above' : List Node} (htu : Below t above u) (hun : Below u above' n) :
    Below t (above' ++ above) n := by
  induction hun with
  | self => exact htu
  | child _ hc ih => exact ih.child hc

theorem Below.preorder {t n m : Node} {above : List Node} (h : Below t above n) (hm : m ∈ n.preorder) :
    m ∈ t.preorder := by
  induction h with
  | self => exact hm
  | child _ hc ih => exact ih (preorder_child hc hm)

theorem Below.above_mem {t n : Node} {above : List Node} (h : Below t above n) : ∀ p ∈ above, p ∈ t.preorder := by
  induction h with
  | self => exact fun p hp => absurd hp List.not_mem_nil
  | child hp _ ih =>
    intro q hq
    rcases List.mem_cons.mp hq with rfl | hq
    · exact hp.preorder (self_mem_preorder _)
    · exact ih q hq

theorem below_of_mem_preorder {t n : Node} (h : n ∈ t.preorder) : ∃ above, Below t above n := by
  rw [preorder_eq, List.mem_cons, preorderAll_eq, List.mem_flatMap] at h
  rcases h with rfl | ⟨c, hc, hn⟩
  · exact ⟨[], .self⟩
  · have hlt := sizeOf_child hc
    obtain ⟨above, habove⟩ := below_of_mem_preorder hn
    exact ⟨_, (Below.self.child hc).trans habove⟩
termination_by sizeOf t

/-- The name of the innermost function item. -/
def callerOf (source : Str) (above : List Node) : Option Str :=
  (above.find? (·.kind == "function_item")).bind fun f => (f.childByFieldName "name").bind (·.utf8Text source)

section Callers

variable {source : Str} {tree : Node}

theorem callerOf_append {above above' : List Node} (h : ∀ p ∈ above', p.kind ≠ "function_item") :
    callerOf source (above' ++ above) = callerOf source above := by
  have hnone : above'.find? (·.kind == "function_item") = none := by
    rw [List.find?_eq_none]
    intro p hp
    simpa using h p hp
  rw [callerOf, List.find?_append, hnone, Option.none_or]
  rfl

/-- What a visit hands down is the caller of what is below its node. -/
theorem Visit.inner_caller {w : Visit} {above : List Node} (h : RustSyntax source w.node)
    (henclosing : w.enclosing.map (·.1) = callerOf source above) :
    (w.inner source).map (·.1) = callerOf source (w.node :: above) := by
  rw [inner, callerOf, List.find?_cons]
  by_cases hkind : w.node.kind = "function_item"
  · obtain ⟨m, hm, htext⟩ := h.functionName w.node (self_mem_preorder _) hkind
    obtain ⟨t, ht⟩ := Option.isSome_iff_exists.mp htext
    simp [hkind, hm, ht]
  · have hbeq : (w.node.kind == "function_item") = false := by simpa using hkind
    rw [if_neg hkind, hbeq, Option.none_or, henclosing]
    rfl

theorem RustSyntax.sub {t n : Node} (h : RustSyntax source t) {above : List Node} (hn : Below t above n) :
    RustSyntax source n := by
  induction hn with
  | self => exact h
  | child _ hc ih => exact ih.child hc

/-- The walk comes to nodes of the tree, with their caller. -/
theorem Visits.caller {w : Visit} (htree : RustSyntax source tree) (h : Visits source (.root tree) w) :
    ∃ above, Below tree above w.node ∧ w.enclosing.map (·.1) = callerOf source above := by
  induction h with
  | self => exact ⟨[], .self, rfl⟩
  | child _ _ hc _ ih =>
    obtain ⟨above, hbelow, henclosing⟩ := ih
    exact ⟨_, hbelow.child hc, Visit.inner_caller (htree.sub hbelow) henclosing⟩

/-- `n` is a leaf inside `w`, with no function item on the way. -/
def LeafInside (w n : Node) : Prop :=
  n.children = [] ∧ ∃ above, Below w above n ∧ ∀ p ∈ above, p.kind ≠ "function_item"

theorem LeafInside.child {w c n : Node} (hkind : w.kind ≠ "function_item") (hc : c ∈ w.children) (h : LeafInside c n) :
    LeafInside w n := by
  obtain ⟨hleaf, above, hbelow, habove⟩ := h
  refine ⟨hleaf, _, (Below.self.child hc).trans hbelow, fun p hp => ?_⟩
  rcases List.mem_append.mp hp with hp | hp
  · exact habove p hp
  · rw [List.mem_singleton.mp hp]
    exact hkind

theorem LeafInside.self {n : Node} (h : n.children = []) : LeafInside n n :=
  ⟨h, [], .self, fun _ hp => absurd hp List.not_mem_nil⟩

theorem LeafInside.importName {w n : Node} (h : RustSyntax source w) (hkind : w.kind = "use_declaration")
    (hn : n ∈ w.preorder) (hname : IsUseName source n) : LeafInside w n := by
  obtain ⟨above, hbelow⟩ := below_of_mem_preorder hn
  refine ⟨h.identifiers n hn hname.1, above, hbelow, fun p hp => ?_⟩
  have hmem := hbelow.above_mem p hp
  rw [preorder_eq, List.mem_cons] at hmem
  rcases hmem with rfl | hmem
  · rw [hkind]
    decide
  · exact (h.imports w (self_mem_preorder w) hkind p hmem).1

theorem LeafInside.callee {f n : Node} (h : RustSyntax source f) (hcallee : Callee f n) : LeafInside f n := by
  cases hcallee with
  | identifier hkind => exact .self (h.identifiers f (self_mem_preorder f) (Or.inl hkind))
  | path hkind hname =>
    have hleaf := (h.pathName f (self_mem_preorder f) hkind n hname).1
    exact .child (by rw [hkind]; decide) (mem_of_childByFieldName hname) (.self hleaf)
  | method hkind hfield =>
    have hleaf := (h.fieldName f (self_mem_preorder f) hkind n hfield).1
    exact .child (by rw [hkind]; decide) (mem_of_childByFieldName hfield) (.self hleaf)

theorem Assigned.callee {left n : Node} (h : Assigned left n) : Callee left n := by
  cases h with
  | identifier hkind => exact .identifier hkind
  | field hkind hfield => exact .method hkind hfield

theorem TokenTree.kind_eq {t u : Node} (h : TokenTree t u) (hkind : t.kind = "token_tree") : u.kind = "token_tree" := by
  cases h with
  | self => exact hkind
  | nested _ _ _ hkind => exact hkind

theorem TokenTree.grammar {t u : Node} (h : TokenTree t u) (ht : RustSyntax source t) : RustSyntax source u := by
  induction h with
  | self => exact ht
  | nested _ hc _ _ ih => exact ih.child hc

theorem LeafInside.macroBody {t u n : Node} (h : TokenTree t u) (hkind : t.kind = "token_tree") (hn : LeafInside u n) :
    LeafInside t n := by
  induction h with
  | self => exact hn
  | nested hu hc _ _ ih => exact ih (.child (ne_of_eq_of_ne (hu.kind_eq hkind) (by decide)) hc hn)

/-- A position is at a leaf, and its caller the innermost function item around it. -/
theorem Position.caller {k : ReferenceKind} {n : Node} {e : Option (Str × SymbolKind)} (htree : RustSyntax source tree)
    (h : Position source (.root tree) k n e) :
    ∃ above, Below tree above n ∧ n.children = [] ∧ e.map (·.1) = callerOf source above := by
  have hinside : ∃ w, Visits source (.root tree) w ∧ w.node.kind ≠ "function_item" ∧ LeafInside w.node n ∧
      e = w.inner source := by
    have hgrammar : ∀ {w}, Visits source (.root tree) w → RustSyntax source w.node := by
      intro w hw
      obtain ⟨_, hbelow, _⟩ := hw.caller htree
      exact htree.sub hbelow
    cases h with
    | import_ hw hkind hn hname =>
      exact ⟨_, hw, by rw [hkind]; decide, .importName (hgrammar hw) hkind hn hname, rfl⟩
    | typeUsage hw hkind _ _ _ =>
      have hleaf := (hgrammar hw).identifiers _ (self_mem_preorder _) (Or.inr hkind)
      exact ⟨_, hw, by rw [hkind]; decide, .self hleaf, rfl⟩
    | call hw hkind hf hcallee _ =>
      have hmem := mem_of_childByFieldName hf
      have hne := ne_of_eq_of_ne hkind (show "call_expression" ≠ "function_item" by decide)
      exact ⟨_, hw, hne, .child hne hmem (.callee ((hgrammar hw).child hmem) hcallee), rfl⟩
    | assignment hw hkind hleft hassigned _ =>
      have hmem := mem_of_childByFieldName hleft
      have hne := hkind.elim (fun h => ne_of_eq_of_ne h (show "assignment_expression" ≠ "function_item" by decide))
        fun h => ne_of_eq_of_ne h (show "compound_assignment_expr" ≠ "function_item" by decide)
      exact ⟨_, hw, hne, .child hne hmem (.callee ((hgrammar hw).child hmem) hassigned.callee), rfl⟩
    | macroCall hw hkind htokens hsplit _ hcall =>
      have hne := ne_of_eq_of_ne hkind (show "token_tree" ≠ "function_item" by decide)
      have hn : n ∈ _ := hsplit ▸ List.mem_append_right _ List.mem_cons_self
      have hleaf := ((htokens.grammar (hgrammar hw)).child hn).identifiers n (self_mem_preorder n) (Or.inl hcall.1)
      have hne' := ne_of_eq_of_ne (htokens.kind_eq hkind) (show "token_tree" ≠ "function_item" by decide)
      exact ⟨_, hw, hne, .macroBody htokens hkind (.child hne' hn (.self hleaf)), rfl⟩
  obtain ⟨w, hw, hkind, ⟨hleaf, above', hbelow', habove'⟩, rfl⟩ := hinside
  obtain ⟨above, hbelow, henclosing⟩ := hw.caller htree
  refine ⟨above' ++ above, hbelow.trans hbelow', hleaf, ?_⟩
  rw [callerOf_append habove', Visit.inner_caller (htree.sub hbelow) henclosing]
  have hself : ∀ p ∈ [w.node], p.kind ≠ "function_item" := fun p hp => by rwa [List.mem_singleton.mp hp]
  exact callerOf_append hself

end Callers

/-! ## References in their context -/

theorem mem_typeNames {tree d m : Node} (hd : d ∈ tree.preorder) (hkind : isTypeDefinition d.kind = true)
    (hname : d.childByFieldName "name" = some m) : m ∈ typeNames tree := by
  refine List.mem_flatMap.mpr ⟨d, hd, ?_⟩
  rw [ownTypeName, if_pos hkind, hname]
  exact List.mem_singleton_self m

/-- For every Rust tree whose leaves start at different places, each reference stands at a
    leaf and has the name of the innermost function item around it; no two references
    share a place, and none is at the name of a type definition. -/
theorem references_in_context {source : Str} {tree : Node} (file : Path) (htree : RustSyntax source tree)
    (hplaces : ((leaves tree).map nodePlace).Nodup) :
    (∀ r ∈ extractReferences source tree file .rust, ∃ above n, Below tree above n ∧ n.children = [] ∧
      referencePlace r = nodePlace n ∧ r.caller = callerOf source above) ∧
    ((extractReferences source tree file .rust).map referencePlace).Nodup ∧
    ∀ d ∈ tree.preorder, isTypeDefinition d.kind = true → ∀ m, d.childByFieldName "name" = some m →
      ∀ r ∈ extractReferences source tree file .rust, referencePlace r ≠ nodePlace m := by
  have hcount : ∀ a, refCount a (extractReferences source tree file .rust) + typeCount a tree ≤ 1 := fun a =>
    (Visit.total_le (v := .root tree) htree).trans (List.nodup_iff_count.mp hplaces a)
  refine ⟨fun r hr => ?_, ?_, ?_⟩
  · obtain ⟨k, n, e, hposition, rfl⟩ := Visit.refs_position (.root tree) hr
    obtain ⟨above, hbelow, hleaf, hcaller⟩ := hposition.caller htree
    exact ⟨above, n, hbelow, hleaf, rfl, hcaller⟩
  · refine List.nodup_iff_count.mpr fun a => ?_
    have hle := hcount a
    unfold refCount at hle
    omega
  · intro d hd hkind m hname r hr heq
    have hle := hcount (nodePlace m)
    have href : 0 < refCount (nodePlace m) (extractReferences source tree file .rust) :=
      List.count_pos_iff.mpr (heq ▸ List.mem_map_of_mem hr)
    have htype : 0 < typeCount (nodePlace m) tree :=
      List.count_pos_iff.mpr (List.mem_map_of_mem (mem_typeNames hd hkind hname))
    omega

def structSource : Str := str "struct S;fn f(x:S)\x7bg(x)\x7d"

def structTree : Node :=
  innerNode "source_file" none 0 24
    [innerNode "struct_item" none 0 9
        [tokenNode "struct" 0, .leaf "type_identifier" (some "name") 0 7 7 1 true, tokenNode ";" 8],
      innerNode "function_item" none 9 15
        [tokenNode "fn" 9, nameNode (some "name") 12,
          innerNode "parameters" (some "parameters") 13 5
            [tokenNode "(" 13,
              innerNode "parameter" none 14 3
                [nameNode (some "pattern") 14, tokenNode ":" 15, .leaf "type_identifier" (some "type") 0 16 16 1 true],
              tokenNode ")" 17],
          innerNode "block" (some "body") 18 6
            [tokenNode "\x7b" 18,
              innerNode "call_expression" none 19 4
                [nameNode (some "function") 19,
                  innerNode "arguments" (some "arguments") 20 3 [tokenNode "(" 20, nameNode none 21, tokenNode ")" 22]],
              tokenNode "\x7d" 23]]]

theorem structTree_grammar : RustSyntax structSource structTree where
  identifiers := by decide
  pathName n hn hkind := absurd hkind (by revert n; decide)
  fieldName n hn hkind := absurd hkind (by revert n; decide)
  typeName n hn hkind := by
    revert n
    decide
  functionName n hn hkind := by
    have hname : ∀ n ∈ structTree.preorder, n.kind = "function_item" →
        ((n.childByFieldName "name").bind (·.utf8Text structSource)).isSome = true := by decide
    obtain ⟨t, ht⟩ := Option.isSome_iff_exists.mp (hname n hn hkind)
    obtain ⟨m, hm, hmt⟩ := Option.bind_eq_some_iff.mp ht
    exact ⟨m, hm, by rw [hmt]; rfl⟩
  imports n hn hkind := absurd hkind (by revert n; decide)

/-- The parameter's type and the call are in `f`; the name of the struct is no use of it. -/
theorem references_in_context_struct :
    (∀ r ∈ extractReferences structSource structTree [] .rust, ∃ above n, Below structTree above n ∧ n.children = [] ∧
      referencePlace r = nodePlace n ∧ r.caller = callerOf structSource above) ∧
    ((extractReferences structSource structTree [] .rust).map referencePlace).Nodup ∧
    ∀ d ∈ structTree.preorder, isTypeDefinition d.kind = true → ∀ m, d.childByFieldName "name" = some m →
      ∀ r ∈ extractReferences structSource structTree [] .rust, referencePlace r ≠ nodePlace m :=
  references_in_context [] structTree_grammar (by decide)

end CodeQuery.Index
