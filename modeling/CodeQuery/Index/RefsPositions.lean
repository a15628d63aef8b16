/-
  CodeQuery.Index.RefsPositions — where the Rust walk finds references
  (see `CodeQuery.Index.Refs`).

  A `Position` is a place in the tree at which a name is used in one of the ways the
  walk knows: in an import, as a type, called, assigned, or called in a macro body. The
  references of a tree are exactly those of its positions (`mem_refs_iff`). Seen from the
  name, with what stands above it in the tree, there is a reference at its place exactly
  when it is used in one of these ways (`rust_complete_iff`). A value, the front of a path,
  a macro's argument and what is called with type arguments are not
  (`a_value_a_path_and_a_macro_argument_are_not_recorded`).
-/

import CodeQuery.Index.Refs
import CodeQuery.Parse.Places

namespace CodeQuery.Index

open CodeQuery.Core CodeQuery.Parse CodeQuery.Text

/-! ## Positions -/

/-- A node the walk comes to, with its parent and the function it is in. -/
structure Visit where
  parent : Option Node
  enclosing : Option (Str × SymbolKind)
  node : Node

namespace Visit

def root (tree : Node) : Visit := ⟨none, none, tree⟩

section Source

variable (source : Str)

/-- `current_enclosing`: the function itself, for what is in a function item. -/
def inner (v : Visit) : Option (Str × SymbolKind) :=
  (if v.node.kind = "function_item" then
      ((v.node.childByFieldName "name").bind (·.utf8Text source)).map (·, SymbolKind.function)
    else none).or v.enclosing

def child (v : Visit) (c : Node) : Visit := ⟨some v.node, v.inner source, c⟩

def refs (file : Path) (lines : List Str) (v : Visit) : List Reference :=
  walkRustNode source file lines v.parent v.enclosing v.node

end Source

end Visit

def isSound (c : Node) : Bool := !(c.isError || c.isMissing)

/-- What is below a node of another kind is walked as it is. -/
def isWalkedInto (kind : String) : Bool := !(["use_declaration", "type_identifier", "token_tree"].contains kind)

/-- The walk from `v` comes to a node: outside of errors, imports and macro bodies. -/
inductive Visits (source : Str) (v : Visit) : Visit → Prop
  | self : Visits source v v
  | child {w : Visit} {c : Node} : Visits source v w → isWalkedInto w.node.kind = true → c ∈ w.node.children →
      isSound c = true → Visits source v (w.child source c)

/-- An identifier of an import, and no keyword. -/
def IsUseName (source : Str) (n : Node) : Prop :=
  (n.kind = "identifier" ∨ n.kind = "type_identifier") ∧ ∃ t, n.utf8Text source = some t ∧ isUseKeyword t = false

/-- What a call calls: the identifier, the end of the path, or the method. -/
inductive Callee (f : Node) : Node → Prop
  | identifier : f.kind = "identifier" → Callee f f
  | path {n : Node} : f.kind = "scoped_identifier" → f.childByFieldName "name" = some n → Callee f n
  | method {n : Node} : f.kind = "field_expression" → f.childByFieldName "field" = some n → Callee f n

inductive Assigned (left : Node) : Node → Prop
  | identifier : left.kind = "identifier" → Assigned left left
  | field {n : Node} : left.kind = "field_expression" → left.childByFieldName "field" = some n → Assigned left n

/-- A token tree in a macro body, nested in others. -/
inductive TokenTree (t : Node) : Node → Prop
  | self : TokenTree t t
  | nested {u c : Node} : TokenTree t u → c ∈ u.children → isSound c = true → c.kind = "token_tree" → TokenTree t c

/-- An identifier of a macro body with what follows it: an opening parenthesis, or a
    token tree, and the identifier is no keyword and no macro's name. -/
def IsMacroCall (source : Str) (n : Node) (rest : List Node) : Prop :=
  n.kind = "identifier" ∧ (∃ t, n.utf8Text source = some t ∧ isCommonKeyword t = false ∧ isRustMacroName t = false) ∧
    rest.head?.any (fun x => x.kind == "token_tree" || x.kind == "(") = true

/-- Where a name is used in one of the ways the walk knows, and in which function. -/
inductive Position (source : Str) (v : Visit) : ReferenceKind → Node → Option (Str × SymbolKind) → Prop
  | import_ {w : Visit} {n : Node} : Visits source v w → w.node.kind = "use_declaration" → n ∈ w.node.preorder →
      IsUseName source n → Position source v .import_ n (w.inner source)
  | typeUsage {w : Visit} {t : Str} : Visits source v w → w.node.kind = "type_identifier" →
      isDefinitionName w.parent w.node = false → w.node.utf8Text source = some t → isRustPrimitive t = false →
      Position source v .typeUsage w.node (w.inner source)
  | call {w : Visit} {f n : Node} : Visits source v w → w.node.kind = "call_expression" →
      w.node.childByFieldName "function" = some f → Callee f n → (n.utf8Text source).isSome →
      Position source v .call n (w.inner source)
  | assignment {w : Visit} {left n : Node} : Visits source v w →
      w.node.kind = "assignment_expression" ∨ w.node.kind = "compound_assignment_expr" →
      w.node.childByFieldName "left" = some left → Assigned left n → (n.utf8Text source).isSome →
      Position source v .assignment n (w.inner source)
  | macroCall {w : Visit} {t n : Node} {before rest : List Node} : Visits source v w → w.node.kind = "token_tree" →
      TokenTree w.node t → t.children = before ++ n :: rest → isSound n = true → IsMacroCall source n rest →
      Position source v .call n (w.inner source)

/-! ## Each extractor's references -/

section Extractors

variable {source : Str} {file : Path} {lines : List Str} {e : Option (Str × SymbolKind)} {r : Reference}

theorem mem_refIfText {n : Node} {k : ReferenceKind} :
    r ∈ refIfText source file lines n k e ↔ (n.utf8Text source).isSome ∧ r = refAt file lines n k e := by
  unfold refIfText
  split
  · rename_i h
    simp [h]
  · rename_i h
    simp [h]

theorem mem_extractCallRef {f : Node} :
    r ∈ extractCallRef source file lines f e ↔
      ∃ n, Callee f n ∧ (n.utf8Text source).isSome ∧ r = refAt file lines n .call e := by
  unfold extractCallRef
  refine ⟨fun h => ?_, fun h => ?_⟩
  · simp only at h
    split at h
    · rename_i hkind
      exact ⟨f, .identifier hkind, mem_refIfText.mp h⟩
    · rename_i hkind
      cases hname : f.childByFieldName "name" with
      | none => simp [hname] at h
      | some n => exact ⟨n, .path hkind hname, mem_refIfText.mp (by simpa [hname] using h)⟩
    · rename_i hkind
      cases hfield : f.childByFieldName "field" with
      | none => simp [hfield] at h
      | some n => exact ⟨n, .method hkind hfield, mem_refIfText.mp (by simpa [hfield] using h)⟩
    · simp at h
  · obtain ⟨n, hcallee, hr⟩ := h
    cases hcallee with
    | identifier hkind => simpa [hkind] using mem_refIfText.mpr hr
    | path hkind hname => simpa [hkind, hname] using mem_refIfText.mpr hr
    | method hkind hfield => simpa [hkind, hfield] using mem_refIfText.mpr hr

theorem mem_extractAssignmentRef {left : Node} :
    r ∈ extractAssignmentRef source file lines left e ↔
      ∃ n, Assigned left n ∧ (n.utf8Text source).isSome ∧ r = refAt file lines n .assignment e := by
  unfold extractAssignmentRef
  refine ⟨fun h => ?_, fun h => ?_⟩
  · simp only at h
    split at h
    · rename_i hkind
      exact ⟨left, .identifier hkind, mem_refIfText.mp h⟩
    · rename_i hkind
      cases hfield : left.childByFieldName "field" with
      | none => simp [hfield] at h
      | some n => exact ⟨n, .field hkind hfield, mem_refIfText.mp (by simpa [hfield] using h)⟩
    · simp at h
  · obtain ⟨n, hassigned, hr⟩ := h
    cases hassigned with
    | identifier hkind => simpa [hkind] using mem_refIfText.mpr hr
    | field hkind hfield => simpa [hkind, hfield] using mem_refIfText.mpr hr

mutual

theorem mem_walkUseTree : ∀ n, r ∈ walkUseTree source file lines e n ↔
    ∃ m ∈ n.preorder, IsUseName source m ∧ r = refAt file lines m .import_ e
  | n@⟨kind, _, _, _, _, _, _, _, _, cs⟩ => by
    simp only [walkUseTree, List.mem_append, mem_walkUseTrees cs, Node.preorder, List.mem_cons, exists_eq_or_imp]
    refine or_congr ?_ Iff.rfl
    unfold IsUseName
    by_cases hkind : kind = "identifier" ∨ kind = "type_identifier"
    · cases Node.utf8Text ⟨kind, _, _, _, _, _, _, _, _, cs⟩ source with
      | none => simp [hkind]
      | some t => cases hkey : isUseKeyword t <;> simp [hkind, hkey]
    · simp [hkind]

theorem mem_walkUseTrees : ∀ ns, r ∈ walkUseTrees source file lines e ns ↔
    ∃ m ∈ preorderAll ns, IsUseName source m ∧ r = refAt file lines m .import_ e
  | [] => by simp [walkUseTrees, preorderAll]
  | c :: cs => by
    simp only [walkUseTrees, preorderAll, List.mem_append, mem_walkUseTree c, mem_walkUseTrees cs, or_and_right,
      exists_or]

end

/-! ## Macro bodies -/

/-- What a list of siblings in a macro body gives: its calls, and what is nested. -/
theorem mem_tokenTreeChildren_iff : ∀ ns, r ∈ tokenTreeChildren source file lines e ns ↔
    (∃ before n rest, ns = before ++ n :: rest ∧ isSound n = true ∧ IsMacroCall source n rest ∧
      r = refAt file lines n .call e) ∨
    ∃ n ∈ ns, isSound n = true ∧ n.kind = "token_tree" ∧ r ∈ extractTokenTreeCalls source file lines e n
  | [] => by simp [tokenTreeChildren]
  | c :: cs => by
    have hsplit : (∃ before n rest, c :: cs = before ++ n :: rest ∧ isSound n = true ∧ IsMacroCall source n rest ∧
          r = refAt file lines n .call e) ↔
        (isSound c = true ∧ IsMacroCall source c cs ∧ r = refAt file lines c .call e) ∨
          ∃ before n rest, cs = before ++ n :: rest ∧ isSound n = true ∧ IsMacroCall source n rest ∧
            r = refAt file lines n .call e := by
      refine ⟨fun h => ?_, fun h => ?_⟩
      · obtain ⟨before, n, rest, heq, h⟩ := h
        cases before with
        | nil => cases heq; exact Or.inl h
        | cons b before => cases heq; exact Or.inr ⟨before, n, rest, rfl, h⟩
      · rcases h with h | ⟨before, n, rest, rfl, h⟩
        · exact ⟨[], c, cs, rfl, h⟩
        · exact ⟨c :: before, n, rest, rfl, h⟩
    rw [hsplit, tokenTreeChildren]
    by_cases hsound : isSound c = true
    · have herr : (c.isError || c.isMissing) = false := by simpa [isSound] using hsound
      simp only [herr, Bool.false_eq_true, if_false, List.mem_append, mem_tokenTreeChildren_iff cs, List.mem_cons,
        exists_eq_or_imp, hsound, true_and]
      rw [or_or_or_comm]
      refine or_congr (or_congr ?_ Iff.rfl) (or_congr ?_ Iff.rfl)
      · unfold IsMacroCall
        by_cases hkind : c.kind = "identifier"
        · cases c.utf8Text source with
          | none => simp [hkind]
          | some t =>
            cases hkey : isCommonKeyword t <;> cases hmac : isRustMacroName t <;>
              cases cs.head?.any (fun x => x.kind == "token_tree" || x.kind == "(") <;> simp [hkind, hkey, hmac]
        · simp [hkind]
      · by_cases hkind : c.kind = "token_tree" <;> simp [hkind]
    · have herr : (c.isError || c.isMissing) = true := by
        simpa only [isSound, Bool.not_eq_true', Bool.not_eq_false] using hsound
      simp only [herr, if_true, mem_tokenTreeChildren_iff cs, List.mem_cons, exists_eq_or_imp, hsound, Bool.false_eq_true,
        false_and, false_or]

theorem extractTokenTreeCalls_eq (t : Node) :
    extractTokenTreeCalls source file lines e t = tokenTreeChildren source file lines e t.children := by
  obtain ⟨_, _, _, _, _, _, _, _, _, cs⟩ := t
  rw [extractTokenTreeCalls]

theorem TokenTree.trans {t u w : Node} (htu : TokenTree t u) (huw : TokenTree u w) : TokenTree t w := by
  induction huw with
  | self => exact htu
  | nested _ hc hsound hkind ih => exact .nested ih hc hsound hkind

theorem sizeOf_child {n c : Node} (h : c ∈ n.children) : sizeOf c < sizeOf n := by
  obtain ⟨_, _, _, _, _, _, _, _, _, cs⟩ := n
  have hlt : sizeOf c < sizeOf cs := List.sizeOf_lt_of_mem h
  simp only [Node.mk.sizeOf_spec]
  omega

theorem extractTokenTreeCalls_place (t : Node) (h : r ∈ extractTokenTreeCalls source file lines e t) :
    ∃ u before n rest, TokenTree t u ∧ u.children = before ++ n :: rest ∧ isSound n = true ∧
      IsMacroCall source n rest ∧ r = refAt file lines n .call e := by
  rw [extractTokenTreeCalls_eq] at h
  rcases (mem_tokenTreeChildren_iff _).mp h with ⟨before, n, rest, heq, hplace⟩ | ⟨c, hc, hsound, hkind, hr⟩
  · exact ⟨t, before, n, rest, .self, heq, hplace⟩
  · have hlt := sizeOf_child hc
    obtain ⟨u, before, n, rest, hu, hplace⟩ := extractTokenTreeCalls_place c hr
    exact ⟨u, before, n, rest, (TokenTree.nested .self hc hsound hkind).trans hu, hplace⟩
termination_by sizeOf t

theorem TokenTree.sub {t u : Node} (h : TokenTree t u) (hr : r ∈ extractTokenTreeCalls source file lines e u) :
    r ∈ extractTokenTreeCalls source file lines e t := by
  induction h with
  | self => exact hr
  | nested _ hc hsound hkind ih =>
    apply ih
    rw [extractTokenTreeCalls_eq]
    exact (mem_tokenTreeChildren_iff _).mpr (Or.inr ⟨_, hc, hsound, hkind, hr⟩)

theorem mem_extractTokenTreeCalls {t : Node} :
    r ∈ extractTokenTreeCalls source file lines e t ↔
      ∃ u before n rest, TokenTree t u ∧ u.children = before ++ n :: rest ∧ isSound n = true ∧
        IsMacroCall source n rest ∧ r = refAt file lines n .call e := by
  refine ⟨extractTokenTreeCalls_place t, fun h => ?_⟩
  obtain ⟨u, before, n, rest, hu, hplace⟩ := h
  apply hu.sub
  rw [extractTokenTreeCalls_eq]
  exact (mem_tokenTreeChildren_iff _).mpr (Or.inl ⟨before, n, rest, hplace⟩)

end Extractors

/-! ## The walk -/

namespace Visit

variable {source : Str} {file : Path} {lines : List Str}

theorem walkRustNodes_eq (p : Option Node) (e : Option (Str × SymbolKind)) (cs : List Node) :
    walkRustNodes source file lines p e cs =
      cs.flatMap fun c => if isSound c then walkRustNode source file lines p e c else [] := by
  induction cs with
  | nil => rfl
  | cons c cs ih =>
    rw [walkRustNodes, ih, List.flatMap_cons, isSound]
    cases c.isError || c.isMissing <;> rfl

variable (source file lines) in
/-- What the walk records at a node, before it goes on to the children. -/
def ownRefs (v : Visit) : List Reference :=
  match v.node.kind with
  | "use_declaration" => walkUseTree source file lines (v.inner source) v.node
  | "type_identifier" =>
    if isDefinitionName v.parent v.node then []
    else
      match v.node.utf8Text source with
      | some t => if isRustPrimitive t then [] else [refAt file lines v.node .typeUsage (v.inner source)]
      | none => []
  | "token_tree" => extractTokenTreeCalls source file lines (v.inner source) v.node
  | "call_expression" =>
    ((v.node.childByFieldName "function").map (extractCallRef source file lines · (v.inner source))).getD []
  | "assignment_expression" | "compound_assignment_expr" =>
    ((v.node.childByFieldName "left").map (extractAssignmentRef source file lines · (v.inner source))).getD []
  | _ => []

variable (source file lines) in
def childRefs (v : Visit) : List Reference :=
  v.node.children.flatMap fun c => if isSound c then (v.child source c).refs source file lines else []

theorem refs_eq (v : Visit) : v.refs source file lines =
    v.ownRefs source file lines ++ if isWalkedInto v.node.kind then v.childRefs source file lines else [] := by
  obtain ⟨parent, enclosing, node⟩ := v
  obtain ⟨kind, _, _, _, _, _, _, _, _, cs⟩ := node
  simp only [refs, walkRustNode, ownRefs, childRefs, child]
  split
  · simp [isWalkedInto, inner]
  · cases Node.utf8Text _ source <;> simp [isWalkedInto, inner]
  · simp [isWalkedInto, inner]
  · rw [walkRustNodes_eq]
    rfl
  · rw [walkRustNodes_eq]
    rfl
  · rw [walkRustNodes_eq]
    rfl
  · rename_i h₁ h₂ h₃ h₄ h₅ h₆
    have hother : kind ∉ ["use_declaration", "type_identifier", "token_tree", "call_expression",
        "assignment_expression", "compound_assignment_expr"] := by
      intro hmem
      simp only [List.mem_cons, List.not_mem_nil, or_false] at hmem
      rcases hmem with rfl | rfl | rfl | rfl | rfl | rfl
      · exact h₁ rfl rfl HEq.rfl
      · exact h₂ rfl rfl HEq.rfl
      · exact h₃ rfl rfl HEq.rfl
      · exact h₄ rfl rfl HEq.rfl
      · exact h₅ rfl rfl HEq.rfl
      · exact h₆ rfl rfl HEq.rfl
    simp only [List.mem_cons, List.not_mem_nil, or_false, not_or] at hother
    rw [walkRustNodes_eq]
    simp [isWalkedInto, inner, hother]

/-- The references of a node, by its kind: its own, and those of what the walk goes on
    to. -/
theorem mem_refs_cases (v : Visit) (r : Reference) :
    r ∈ v.refs source file lines ↔
      (v.node.kind = "use_declaration" ∧ r ∈ walkUseTree source file lines (v.inner source) v.node) ∨
      (v.node.kind = "type_identifier" ∧ isDefinitionName v.parent v.node = false ∧
        (∃ t, v.node.utf8Text source = some t ∧ isRustPrimitive t = false) ∧
        r = refAt file lines v.node .typeUsage (v.inner source)) ∨
      (v.node.kind = "token_tree" ∧ r ∈ extractTokenTreeCalls source file lines (v.inner source) v.node) ∨
      (v.node.kind = "call_expression" ∧ ∃ f, v.node.childByFieldName "function" = some f ∧
        r ∈ extractCallRef source file lines f (v.inner source)) ∨
      ((v.node.kind = "assignment_expression" ∨ v.node.kind = "compound_assignment_expr") ∧
        ∃ left, v.node.childByFieldName "left" = some left ∧
          r ∈ extractAssignmentRef source file lines left (v.inner source)) ∨
      (isWalkedInto v.node.kind = true ∧
        ∃ c ∈ v.node.children, isSound c = true ∧ r ∈ (v.child source c).refs source file lines) := by
  have hchildren : r ∈ v.childRefs source file lines ↔
      ∃ c ∈ v.node.children, isSound c = true ∧ r ∈ (v.child source c).refs source file lines := by
    rw [childRefs, List.mem_flatMap]
    refine exists_congr fun c => and_congr_right fun _ => ?_
    cases isSound c <;> simp
  rw [refs_eq, List.mem_append, ← hchildren, ownRefs]
  split
  · rename_i hkind
    simp [hkind, isWalkedInto]
  · rename_i hkind
    cases hdef : isDefinitionName v.parent v.node
    · cases v.node.utf8Text source with
      | none => simp [hkind, isWalkedInto]
      | some t => cases hprim : isRustPrimitive t <;> simp [hkind, isWalkedInto, hprim]
    · simp [hkind, isWalkedInto]
  · rename_i hkind
    simp [hkind, isWalkedInto]
  · rename_i hkind
    cases hf : v.node.childByFieldName "function" <;> simp [hkind, isWalkedInto]
  · rename_i hkind
    cases hleft : v.node.childByFieldName "left" <;> simp [hkind, isWalkedInto]
  · rename_i hkind
    cases hleft : v.node.childByFieldName "left" <;> simp [hkind, isWalkedInto]
  · rename_i h₁ h₂ h₃ h₄ h₅ h₆
    change _ ≠ _ at h₁ h₂ h₃ h₄ h₅ h₆
    simp [h₁, h₂, h₃, h₄, h₅, h₆, isWalkedInto]

end Visit

theorem Visits.trans {source : Str} {u v w : Visit} (huv : Visits source u v) (hvw : Visits source v w) :
    Visits source u w := by
  induction hvw with
  | self => exact huv
  | child _ hkind hc hsound ih => exact .child ih hkind hc hsound

/-- What is found from a node the walk comes to is found from where it started. -/
theorem Visits.sub {source : Str} {file : Path} {lines : List Str} {v w : Visit} {r : Reference}
    (h : Visits source v w) (hr : r ∈ w.refs source file lines) : r ∈ v.refs source file lines := by
  induction h with
  | self => exact hr
  | child _ hkind hc hsound ih =>
    refine ih ((Visit.mem_refs_cases _ r).mpr ?_)
    exact Or.inr (Or.inr (Or.inr (Or.inr (Or.inr ⟨hkind, _, hc, hsound, hr⟩))))

theorem Position.above {source : Str} {v w : Visit} {k : ReferenceKind} {n : Node} {e : Option (Str × SymbolKind)}
    (h : Visits source v w) (hp : Position source w k n e) : Position source v k n e := by
  cases hp with
  | import_ hw hkind hn huse => exact .import_ (h.trans hw) hkind hn huse
  | typeUsage hw hkind hdef ht hprim => exact .typeUsage (h.trans hw) hkind hdef ht hprim
  | call hw hkind hf hcallee ht => exact .call (h.trans hw) hkind hf hcallee ht
  | assignment hw hkind hleft hassigned ht => exact .assignment (h.trans hw) hkind hleft hassigned ht
  | macroCall hw hkind htree hsplit hsound hcall => exact .macroCall (h.trans hw) hkind htree hsplit hsound hcall

section Walk

variable {source : Str} {file : Path} {lines : List Str} {r : Reference}

/-- Every reference found is one of a position. -/
theorem Visit.refs_position (v : Visit) (h : r ∈ v.refs source file lines) :
    ∃ k n e, Position source v k n e ∧ r = refAt file lines n k e := by
  rcases (v.mem_refs_cases r).mp h with ⟨hkind, hr⟩ | ⟨hkind, hdef, ⟨t, ht, hprim⟩, hr⟩ | ⟨hkind, hr⟩ |
    ⟨hkind, f, hf, hr⟩ | ⟨hkind, left, hleft, hr⟩ | ⟨hkind, c, hc, hsound, hr⟩
  · obtain ⟨n, hn, huse, hr⟩ := (mem_walkUseTree _).mp hr
    exact ⟨_, _, _, .import_ .self hkind hn huse, hr⟩
  · exact ⟨_, _, _, .typeUsage .self hkind hdef ht hprim, hr⟩
  · obtain ⟨t, before, n, rest, ht, hsplit, hsound, hcall, hr⟩ := mem_extractTokenTreeCalls.mp hr
    exact ⟨_, _, _, .macroCall .self hkind ht hsplit hsound hcall, hr⟩
  · obtain ⟨n, hcallee, ht, hr⟩ := mem_extractCallRef.mp hr
    exact ⟨_, _, _, .call .self hkind hf hcallee ht, hr⟩
  · obtain ⟨n, hassigned, ht, hr⟩ := mem_extractAssignmentRef.mp hr
    exact ⟨_, _, _, .assignment .self hkind hleft hassigned ht, hr⟩
  · have hlt := sizeOf_child hc
    obtain ⟨k, n, e, hposition, hr⟩ := Visit.refs_position (v.child source c) hr
    exact ⟨k, n, e, hposition.above (.child .self hkind hc hsound), hr⟩
termination_by sizeOf v.node

/-- Every position has its reference. -/
theorem Position.mem_refs {v : Visit} {k : ReferenceKind} {n : Node} {e : Option (Str × SymbolKind)}
    (h : Position source v k n e) : refAt file lines n k e ∈ v.refs source file lines := by
  cases h with
  | import_ hw hkind hn huse =>
    refine hw.sub ((Visit.mem_refs_cases _ _).mpr (Or.inl ⟨hkind, ?_⟩))
    exact (mem_walkUseTree _).mpr ⟨n, hn, huse, rfl⟩
  | typeUsage hw hkind hdef ht hprim =>
    exact hw.sub ((Visit.mem_refs_cases _ _).mpr (Or.inr (Or.inl ⟨hkind, hdef, ⟨_, ht, hprim⟩, rfl⟩)))
  | call hw hkind hf hcallee ht =>
    refine hw.sub ((Visit.mem_refs_cases _ _).mpr (Or.inr (Or.inr (Or.inr (Or.inl ⟨hkind, _, hf, ?_⟩)))))
    exact mem_extractCallRef.mpr ⟨n, hcallee, ht, rfl⟩
  | assignment hw hkind hleft hassigned ht =>
    refine hw.sub ((Visit.mem_refs_cases _ _).mpr (Or.inr (Or.inr (Or.inr (Or.inr (Or.inl ⟨hkind, _, hleft, ?_⟩))))))
    exact mem_extractAssignmentRef.mpr ⟨n, hassigned, ht, rfl⟩
  | macroCall hw hkind htree hsplit hsound hcall =>
    refine hw.sub ((Visit.mem_refs_cases _ _).mpr (Or.inr (Or.inr (Or.inl ⟨hkind, ?_⟩))))
    exact mem_extractTokenTreeCalls.mpr ⟨_, _, n, _, htree, hsplit, hsound, hcall, rfl⟩

/-- The references of a walk are those of its positions. -/
theorem mem_refs_iff {v : Visit} :
    r ∈ v.refs source file lines ↔ ∃ k n e, Position source v k n e ∧ r = refAt file lines n k e := by
  refine ⟨v.refs_position, fun h => ?_⟩
  obtain ⟨k, n, e, hposition, rfl⟩ := h
  exact hposition.mem_refs

end Walk

/-! ## From the name up -/

theorem mem_of_childByFieldName {n m : Node} {field : String} (h : n.childByFieldName field = some m) : m ∈ n.children :=
  List.mem_of_find?_eq_some h

/-- A node of the tree, and what is above it, up to the root. -/
inductive Lineage (tree : Node) : Node → List Node → Prop
  | root : Lineage tree tree []
  | child {p c : Node} {above : List Node} : Lineage tree p above → c ∈ p.children → Lineage tree c (p :: above)

/-- Nothing above the node is an import, a type's name or a macro body, and neither the node nor,
    but for the root, anything above it is an error or missing. -/
def InTheOpen (n : Node) (above : List Node) : Prop :=
  (∀ a ∈ above, isWalkedInto a.kind = true) ∧ ∀ a ∈ (n :: above).dropLast, isSound a = true

/-- How a node uses a name, with what is above it. -/
inductive Uses (source : Str) (n : Node) (above : List Node) : Prop
  /-- It is an identifier in a use declaration, and no keyword. -/
  | import_ {u : Node} {outer : List Node} : (u :: outer) <:+ (n :: above) → u.kind = "use_declaration" →
      InTheOpen u outer → IsUseName source n → Uses source n above
  /-- It is a type's name, not where the type is defined, and not a primitive's. -/
  | typeUsage {t : Str} : InTheOpen n above → n.kind = "type_identifier" → isDefinitionName above.head? n = false →
      n.utf8Text source = some t → isRustPrimitive t = false → Uses source n above
  /-- It is what a call calls: an identifier, the end of a path, or the field of a field expression. -/
  | call {f c : Node} {outer : List Node} : above = c :: outer ∧ n = f ∨ above = f :: c :: outer →
      InTheOpen c outer → c.kind = "call_expression" → c.childByFieldName "function" = some f → Callee f n →
      (n.utf8Text source).isSome → Uses source n above
  /-- It is what is assigned: an identifier, or the field of a field expression. -/
  | assignment {left a : Node} {outer : List Node} : above = a :: outer ∧ n = left ∨ above = left :: a :: outer →
      InTheOpen a outer → a.kind = "assignment_expression" ∨ a.kind = "compound_assignment_expr" →
      a.childByFieldName "left" = some left → Assigned left n → (n.utf8Text source).isSome → Uses source n above
  /-- It is an identifier of a macro body, at any depth of its token trees, with an opening
      parenthesis or a token tree behind it. -/
  | macroCall {t body : Node} {rest trees outer before after : List Node} : above = t :: rest →
      above = trees ++ body :: outer → InTheOpen body outer → body.kind = "token_tree" →
      (∀ u ∈ trees, u.kind = "token_tree" ∧ isSound u = true) → t.children = before ++ n :: after → isSound n = true →
      IsMacroCall source n after → Uses source n above

section Lineages

variable {source : Str} {tree n u : Node} {above outer : List Node}

theorem Lineage.parent {p : Node} (h : Lineage tree n (p :: above)) : Lineage tree p above ∧ n ∈ p.children := by
  cases h with
  | child hp hc => exact ⟨hp, hc⟩

/-- The walk comes to a node in the open. -/
theorem Lineage.visits (h : Lineage tree n above) (hopen : InTheOpen n above) :
    ∃ e, Visits source (.root tree) ⟨above.head?, e, n⟩ := by
  induction h with
  | root => exact ⟨none, .self⟩
  | @child p c above _ hc ih =>
    obtain ⟨hkinds, hsound⟩ := hopen
    obtain ⟨e, hp⟩ := ih ⟨fun a ha => hkinds a (List.mem_cons_of_mem _ ha), fun a ha => hsound a (List.mem_cons_of_mem _ ha)⟩
    exact ⟨_, .child hp (hkinds p List.mem_cons_self) hc (hsound c List.mem_cons_self)⟩

/-- What the walk comes to is in the open. -/
theorem Visits.lineage {w : Visit} (h : Visits source (.root tree) w) :
    ∃ above, Lineage tree w.node above ∧ InTheOpen w.node above ∧ w.parent = above.head? := by
  induction h with
  | self => exact ⟨[], .root, ⟨by simp, by simp⟩, rfl⟩
  | @child w c _ hkind hc hsound ih =>
    obtain ⟨above, hw, ⟨hkinds, hsounds⟩, -⟩ := ih
    refine ⟨w.node :: above, .child hw hc, ⟨?_, ?_⟩, rfl⟩
    · exact List.forall_mem_cons.mpr ⟨hkind, hkinds⟩
    · exact List.forall_mem_cons.mpr ⟨hsound, hsounds⟩

/-- What is below a node has it above. -/
theorem Lineage.descend {v : Node} {beyond : List Node} (h : Lineage tree v beyond) (hn : n ∈ v.preorder) :
    ∃ above, Lineage tree n above ∧ (v :: beyond) <:+ (n :: above) := by
  rw [preorder_eq] at hn
  rcases List.mem_cons.mp hn with rfl | hn
  · exact ⟨beyond, h, List.suffix_rfl⟩
  · obtain ⟨c, hc, hn⟩ := mem_preorderAll.mp hn
    have hlt := sizeOf_child hc
    obtain ⟨above, habove, hsuffix⟩ := Lineage.descend (.child h hc) hn
    exact ⟨above, habove, (List.suffix_cons c (v :: beyond)).trans hsuffix⟩
termination_by sizeOf v

theorem Lineage.ascend (h : Lineage tree n above) (hsuffix : (u :: outer) <:+ (n :: above)) :
    Lineage tree u outer ∧ n ∈ u.preorder := by
  induction h with
  | root =>
    obtain ⟨rfl, rfl⟩ : u = tree ∧ outer = [] := by
      rcases List.suffix_cons_iff.mp hsuffix with heq | hnil
      · exact List.cons.inj heq
      · exact absurd (List.suffix_nil.mp hnil) (List.cons_ne_nil _ _)
    exact ⟨.root, self_mem_preorder _⟩
  | child hp hc ih =>
    rcases List.suffix_cons_iff.mp hsuffix with heq | hsuffix
    · obtain ⟨rfl, rfl⟩ := List.cons.inj heq
      exact ⟨.child hp hc, self_mem_preorder _⟩
    · obtain ⟨hu, hmem⟩ := ih hsuffix
      exact ⟨hu, preorder_trans hmem (preorder_child hc (self_mem_preorder _))⟩

/-- A token tree in a macro body has the trees between above it. -/
theorem TokenTree.lineage {body t : Node} (ht : TokenTree body t) (h : Lineage tree body outer) :
    ∃ trees above, Lineage tree t above ∧ t :: above = trees ++ body :: outer ∧
      ∀ u ∈ trees, u.kind = "token_tree" ∧ isSound u = true := by
  induction ht with
  | self => exact ⟨[], outer, h, rfl, by simp⟩
  | @nested u c _ hc hsound hckind ih =>
    obtain ⟨trees, above, hu, heq, htrees⟩ := ih
    refine ⟨c :: trees, u :: above, .child hu hc, by rw [heq]; rfl, ?_⟩
    exact List.forall_mem_cons.mpr ⟨⟨hckind, hsound⟩, htrees⟩

theorem Lineage.tokenTree {body : Node} {trees : List Node} (h : Lineage tree n above)
    (heq : n :: above = trees ++ body :: outer) (htrees : ∀ u ∈ trees, u.kind = "token_tree" ∧ isSound u = true) :
    Lineage tree body outer ∧ TokenTree body n := by
  induction trees generalizing n above with
  | nil =>
    obtain ⟨rfl, rfl⟩ := List.cons.inj heq
    exact ⟨h, .self⟩
  | cons u trees ih =>
    obtain ⟨⟨hkind, hsound⟩, hrest⟩ := List.forall_mem_cons.mp htrees
    obtain ⟨rfl, habove⟩ := List.cons.inj heq
    cases above with
    | nil => simp at habove
    | cons p above =>
      obtain ⟨hp, hc⟩ := h.parent
      obtain ⟨hbody, htree⟩ := ih hp habove hrest
      exact ⟨hbody, .nested htree hc hsound hkind⟩

/-- What stands one below a node, or two, with the one between. -/
theorem Lineage.target {f c : Node} (h : Lineage tree c outer) (hf : f ∈ c.children) (hn : n = f ∨ n ∈ f.children) :
    ∃ above, Lineage tree n above ∧ (above = c :: outer ∧ n = f ∨ above = f :: c :: outer) := by
  rcases hn with rfl | hn
  · exact ⟨_, .child h hf, .inl ⟨rfl, rfl⟩⟩
  · exact ⟨_, .child (.child h hf) hn, .inr rfl⟩

theorem Lineage.of_target {f c : Node} (h : Lineage tree n above)
    (habove : above = c :: outer ∧ n = f ∨ above = f :: c :: outer) :
    Lineage tree c outer := by
  rcases habove with ⟨rfl, -⟩ | rfl
  · exact h.parent.1
  · exact h.parent.1.parent.1

theorem Callee.below {f : Node} (h : Callee f n) : n = f ∨ n ∈ f.children := by
  cases h with
  | identifier _ => exact .inl rfl
  | path _ hn => exact .inr (mem_of_childByFieldName hn)
  | method _ hn => exact .inr (mem_of_childByFieldName hn)

theorem Assigned.below {left : Node} (h : Assigned left n) : n = left ∨ n ∈ left.children := by
  cases h with
  | identifier _ => exact .inl rfl
  | field _ hn => exact .inr (mem_of_childByFieldName hn)

theorem Position.uses {k : ReferenceKind} {e : Option (Str × SymbolKind)} (h : Position source (.root tree) k n e) :
    ∃ above, Lineage tree n above ∧ Uses source n above := by
  cases h with
  | import_ hw hkind hn huse =>
    obtain ⟨outer, hlineage, hopen, -⟩ := hw.lineage
    obtain ⟨above, habove, hsuffix⟩ := hlineage.descend hn
    exact ⟨above, habove, .import_ hsuffix hkind hopen huse⟩
  | typeUsage hw hkind hdef ht hprim =>
    obtain ⟨above, hlineage, hopen, hparent⟩ := hw.lineage
    exact ⟨above, hlineage, .typeUsage hopen hkind (hparent ▸ hdef) ht hprim⟩
  | call hw hkind hf hcallee ht =>
    obtain ⟨outer, hlineage, hopen, -⟩ := hw.lineage
    obtain ⟨above, habove, hplace⟩ := hlineage.target (mem_of_childByFieldName hf) hcallee.below
    exact ⟨above, habove, .call hplace hopen hkind hf hcallee ht⟩
  | assignment hw hkind hleft hassigned ht =>
    obtain ⟨outer, hlineage, hopen, -⟩ := hw.lineage
    obtain ⟨above, habove, hplace⟩ := hlineage.target (mem_of_childByFieldName hleft) hassigned.below
    exact ⟨above, habove, .assignment hplace hopen hkind hleft hassigned ht⟩
  | macroCall hw hkind htree hsplit hsound hcall =>
    obtain ⟨outer, hlineage, hopen, -⟩ := hw.lineage
    obtain ⟨trees, above, ht, heq, htrees⟩ := htree.lineage hlineage
    have hn := hsplit ▸ List.mem_append_right _ (List.mem_cons_self ..)
    exact ⟨_, .child ht hn, .macroCall rfl heq hopen hkind htrees hsplit hsound hcall⟩

theorem Uses.position (h : Uses source n above) (hlineage : Lineage tree n above) :
    ∃ k e, Position source (.root tree) k n e := by
  cases h with
  | import_ hsuffix hkind hopen huse =>
    obtain ⟨hu, hmem⟩ := hlineage.ascend hsuffix
    obtain ⟨e, hw⟩ := hu.visits hopen
    exact ⟨_, _, .import_ hw hkind hmem huse⟩
  | typeUsage hopen hkind hdef ht hprim =>
    obtain ⟨e, hw⟩ := hlineage.visits hopen
    exact ⟨_, _, .typeUsage hw hkind hdef ht hprim⟩
  | call hplace hopen hkind hf hcallee ht =>
    obtain ⟨e, hw⟩ := (hlineage.of_target hplace).visits hopen
    exact ⟨_, _, .call hw hkind hf hcallee ht⟩
  | assignment hplace hopen hkind hleft hassigned ht =>
    obtain ⟨e, hw⟩ := (hlineage.of_target hplace).visits hopen
    exact ⟨_, _, .assignment hw hkind hleft hassigned ht⟩
  | macroCall habove heq hopen hkind htrees hsplit hsound hcall =>
    subst habove
    obtain ⟨hbody, htree⟩ := hlineage.parent.1.tokenTree heq htrees
    obtain ⟨e, hw⟩ := hbody.visits hopen
    exact ⟨_, _, .macroCall hw hkind htree hsplit hsound hcall⟩

end Lineages

/-- For every Rust tree and every name in it: a reference is at its line and column if and only if
    it, or a node that begins with it, is used in an import, as a type, as what is called or
    assigned, or as what is called in a macro body. -/
theorem rust_complete_iff (source : Str) (tree : Node) (file : Path) (n : Node) :
    (∃ r ∈ extractReferences source tree file .rust, r.line = n.startPosition.row + 1 ∧ r.column = n.startPosition.column) ↔
      ∃ m above, Lineage tree m above ∧ m.startPosition = n.startPosition ∧ Uses source m above := by
  constructor
  · rintro ⟨r, hr, hline, hcolumn⟩
    obtain ⟨k, m, e, hposition, rfl⟩ := (mem_refs_iff (v := .root tree)).mp hr
    obtain ⟨above, hlineage, huses⟩ := hposition.uses
    refine ⟨m, above, hlineage, ?_, huses⟩
    have hrow : m.startPosition.row = n.startPosition.row := Nat.succ.inj hline
    have hcol : m.startPosition.column = n.startPosition.column := hcolumn
    cases hm : m.startPosition
    cases hn : n.startPosition
    simp_all
  · rintro ⟨m, above, hlineage, hplace, huses⟩
    obtain ⟨k, e, hposition⟩ := huses.position hlineage
    refine ⟨refAt file (lines source) m k e, hposition.mem_refs, ?_, ?_⟩
    · rw [← hplace]
      rfl
    · rw [← hplace]
      rfl

/-! ## Uses that are not recorded -/

def callSource : Str := str "fn f() { p::g(x); m!(a) }"

def innerNode (kind : String) (field : Option String) (column length : Nat) (children : List Node) : Node :=
  ⟨kind, field, column, column + length, ⟨0, column⟩, ⟨0, column + length⟩, true, false, false, children⟩

def tokenNode (kind : String) (column : Nat) : Node := .leaf kind none 0 column column kind.length false

def nameNode (field : Option String) (column : Nat) : Node := .leaf "identifier" field 0 column column 1 true

/-- `p::g(x)`. -/
def pathCall : Node :=
  innerNode "call_expression" none 9 7
    [innerNode "scoped_identifier" (some "function") 9 4
        [nameNode (some "path") 9, tokenNode "::" 10, nameNode (some "name") 12],
      innerNode "arguments" (some "arguments") 13 3 [tokenNode "(" 13, nameNode none 14, tokenNode ")" 15]]

/-- `m!(a)`. -/
def macroNode : Node :=
  innerNode "macro_invocation" none 18 5
    [nameNode (some "macro") 18, tokenNode "!" 19,
      innerNode "token_tree" none 20 3 [tokenNode "(" 20, nameNode none 21, tokenNode ")" 22]]

def callTree : Node :=
  innerNode "source_file" none 0 25
    [innerNode "function_item" none 0 25
      [tokenNode "fn" 0, nameNode (some "name") 3,
        innerNode "parameters" (some "parameters") 4 2 [tokenNode "(" 4, tokenNode ")" 5],
        innerNode "block" (some "body") 7 18
          [tokenNode "\x7b" 7, innerNode "expression_statement" none 9 8 [pathCall, tokenNode ";" 16], macroNode,
            tokenNode "\x7d" 24]]]

/-- The argument `x`, the front `p` of the path and the macro's argument `a` are
    identifiers that use a name; the one reference is to `g`. -/
theorem a_value_a_path_and_a_macro_argument_are_not_recorded :
    (∀ column ∈ [9, 14, 21], ∃ n ∈ callTree.preorder,
      n.kind = "identifier" ∧ n.children = [] ∧ n.startPosition = ⟨0, column⟩ ∧
      ¬∃ r ∈ extractReferences callSource callTree [] .rust, r.line = 1 ∧ r.column = column) ∧
    (extractReferences callSource callTree [] .rust).map Reference.column = [12] := by
  decide

end CodeQuery.Index
