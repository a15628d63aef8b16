/-
  CodeQuery.Parse.Diagnostics — the syntax errors of a tree
  (`codequery-parse/src/diagnostics.rs`).

  The walk stops at a node that is an error, and does not go below one whose flag says
  that nothing there is. tree-sitter sets the flag (`Flagged`), and what it puts in for
  a missing token is a leaf (`MissingLeaves`).

  `extractSyntaxErrors_exact`: then what is reported is one diagnostic for each ERROR or
  MISSING node that is in no ERROR node, in the order of the tree.
-/

import CodeQuery.Parse.Places
import CodeQuery.Core.Path

namespace CodeQuery.Parse.Diagnostics

open CodeQuery.Core

inductive DiagnosticSeverity where
  | error
  | warning
  | information
  | hint
  deriving DecidableEq, Repr

inductive DiagnosticSource where
  | syntax_
  | lsp
  deriving DecidableEq, Repr

structure Diagnostic where
  file : Path
  /-- 1-based. -/
  line : Nat
  column : Nat
  endLine : Nat
  endColumn : Nat
  severity : DiagnosticSeverity
  message : String
  source : DiagnosticSource
  code : Option String
  deriving DecidableEq, Repr

section Walk

-- `has_error()`, the flag that the library keeps with a node
variable (hasError : Node → Bool) (file : Path)

def diagnosticAt (n : Node) (message : String) : Diagnostic where
  file := file
  line := n.startPosition.row + 1
  column := n.startPosition.column
  endLine := n.endPosition.row + 1
  endColumn := n.endPosition.column
  severity := .error
  message := message
  source := .syntax_
  code := none

mutual

def collectErrors : Node → List Diagnostic
  | n@⟨kind, _, _, _, _, _, _, isError, isMissing, children⟩ =>
    if isError then [diagnosticAt file n "unexpected syntax"]
    else if isMissing then [diagnosticAt file n ("missing " ++ kind)]
    else if hasError n then collectErrorsAll children
    else []

def collectErrorsAll : List Node → List Diagnostic
  | [] => []
  | child :: children => collectErrors child ++ collectErrorsAll children

end

def extractSyntaxErrors (tree : Node) : List Diagnostic := if hasError tree then collectErrors hasError file tree else []

end Walk

/-! ## Errors of a tree -/

/-- An ERROR or a MISSING node. -/
def Faulty (n : Node) : Bool := n.isError || n.isMissing

/-- What is reported of one. -/
def report (file : Path) (n : Node) : Diagnostic :=
  diagnosticAt file n (if n.isError then "unexpected syntax" else "missing " ++ n.kind)

mutual

/-- Each node of a tree once, with whether it is in an ERROR node. -/
def placed (inError : Bool) : Node → List (Node × Bool)
  | n@⟨_, _, _, _, _, _, _, isError, _, children⟩ => (n, inError) :: placedAll (inError || isError) children

def placedAll (inError : Bool) : List Node → List (Node × Bool)
  | [] => []
  | n :: ns => placed inError n ++ placedAll inError ns

end

/-- The ERROR and MISSING nodes that are in no ERROR node. -/
def outermost (visits : List (Node × Bool)) : List Node := (visits.filter fun v => !v.2 && Faulty v.1).map Prod.fst

/-- The flag is set exactly where the node or one below it is faulty. -/
def Flagged (hasError : Node → Bool) (tree : Node) : Prop :=
  ∀ n ∈ tree.preorder, (hasError n = true ↔ ∃ m ∈ n.preorder, Faulty m = true)

/-- What is put in for a missing token has nothing below it. -/
def MissingLeaves (tree : Node) : Prop := ∀ n ∈ tree.preorder, n.isMissing = true → n.children = []

mutual

theorem placed_map (inError : Bool) : ∀ n : Node, (placed inError n).map Prod.fst = n.preorder
  | ⟨_, _, _, _, _, _, _, isError, _, children⟩ => by
    rw [placed, List.map_cons, placedAll_map, Node.preorder]

/-- Every node is visited, and once. -/
theorem placedAll_map (inError : Bool) : ∀ ns : List Node, (placedAll inError ns).map Prod.fst = preorderAll ns
  | [] => rfl
  | n :: ns => by rw [placedAll, List.map_append, placed_map, placedAll_map, preorderAll]

end

mutual

theorem placed_inError : ∀ n : Node, ∀ v ∈ placed true n, v.2 = true
  | ⟨_, _, _, _, _, _, _, isError, _, children⟩, v, hv => by
    rw [placed, Bool.true_or] at hv
    rcases List.mem_cons.mp hv with rfl | hv
    · rfl
    · exact placedAll_inError children v hv

/-- All that is below an ERROR node is in it. -/
theorem placedAll_inError : ∀ ns : List Node, ∀ v ∈ placedAll true ns, v.2 = true
  | [], v, hv => absurd hv List.not_mem_nil
  | n :: ns, v, hv => by
    rw [placedAll] at hv
    rcases List.mem_append.mp hv with hv | hv
    · exact placed_inError n v hv
    · exact placedAll_inError ns v hv

end

section Exact

variable {hasError : Node → Bool} {file : Path} {tree : Node}

theorem outermost_append (visits visits' : List (Node × Bool)) :
    outermost (visits ++ visits') = outermost visits ++ outermost visits' := by
  rw [outermost, List.filter_append, List.map_append, outermost, outermost]

theorem outermost_inError {visits : List (Node × Bool)} (h : ∀ v ∈ visits, v.2 = true) : outermost visits = [] := by
  rw [outermost, List.map_eq_nil_iff, List.filter_eq_nil_iff]
  intro v hv
  rw [h v hv]
  exact Bool.false_ne_true

/-- Where nothing is faulty, nothing is to be reported. -/
theorem outermost_sound {visits : List (Node × Bool)} (h : ∀ v ∈ visits, Faulty v.1 = false) : outermost visits = [] := by
  rw [outermost, List.map_eq_nil_iff, List.filter_eq_nil_iff]
  intro v hv
  rw [h v hv, Bool.and_false]
  exact Bool.false_ne_true

theorem faulty_false_of_flag {n : Node} (hflag : Flagged hasError n) (h : hasError n = false) (inError : Bool) :
    ∀ v ∈ placed inError n, Faulty v.1 = false := by
  intro v hv
  have hmem : v.1 ∈ n.preorder := by
    rw [← placed_map inError n]
    exact List.mem_map_of_mem hv
  rw [Bool.eq_false_iff]
  intro hfaulty
  rw [(hflag n (self_mem_preorder n)).mpr ⟨v.1, hmem, hfaulty⟩] at h
  exact absurd h (by decide)

theorem Flagged.child {n c : Node} (h : Flagged hasError n) (hc : c ∈ n.children) : Flagged hasError c :=
  fun m hm => h m (preorder_child hc hm)

theorem MissingLeaves.child {n c : Node} (h : MissingLeaves n) (hc : c ∈ n.children) : MissingLeaves c :=
  fun m hm => h m (preorder_child hc hm)

theorem collectErrors_node (n : Node) : collectErrors hasError file n =
    if n.isError then [diagnosticAt file n "unexpected syntax"]
    else if n.isMissing then [diagnosticAt file n ("missing " ++ n.kind)]
    else if hasError n then collectErrorsAll hasError file n.children
    else [] := by
  cases n
  rw [collectErrors]

theorem placed_node (inError : Bool) (n : Node) :
    placed inError n = (n, inError) :: placedAll (inError || n.isError) n.children := by
  cases n
  rw [placed]

/-- A node in no ERROR node, then what is below it. -/
theorem outermost_placed (n : Node) :
    outermost (placed false n) = (if Faulty n then [n] else []) ++ outermost (placedAll n.isError n.children) := by
  rw [placed_node, Bool.false_or, ← List.singleton_append, outermost_append]
  congr 1
  rw [outermost]
  cases hfaulty : Faulty n <;> simp [hfaulty]

/-- One node, from its children. -/
theorem collectErrors_of_children {n : Node} (hflag : Flagged hasError n) (hleaves : MissingLeaves n)
    (ih : collectErrorsAll hasError file n.children = (outermost (placedAll false n.children)).map (report file)) :
    collectErrors hasError file n = (outermost (placed false n)).map (report file) := by
  rw [collectErrors_node, outermost_placed]
  by_cases herror : n.isError = true
  · have hbelow : outermost (placedAll n.isError n.children) = [] :=
      outermost_inError (herror ▸ placedAll_inError n.children)
    rw [hbelow, if_pos herror, Faulty, herror, Bool.true_or, if_pos rfl, List.append_nil, List.map_singleton, report,
      if_pos herror]
  · have hfalse : n.isError = false := Bool.eq_false_iff.mpr herror
    rw [if_neg herror, Faulty, hfalse, Bool.false_or]
    by_cases hmissing : n.isMissing = true
    · rw [if_pos hmissing, if_pos hmissing, hleaves n (self_mem_preorder n) hmissing, placedAll]
      rw [show outermost [] = [] from rfl, List.append_nil, List.map_singleton, report, if_neg herror]
    · rw [if_neg hmissing, if_neg hmissing, List.nil_append, ← ih]
      by_cases hhas : hasError n = true
      · rw [if_pos hhas]
      · -- the flag says that nothing below is faulty
        have hsound := faulty_false_of_flag hflag (Bool.eq_false_iff.mpr hhas) false
        rw [placed_node, Bool.false_or, hfalse] at hsound
        rw [if_neg hhas, ih, outermost_sound fun v hv => hsound v (List.mem_cons_of_mem _ hv), List.map_nil]

mutual

theorem collectErrors_eq : ∀ n : Node, Flagged hasError n → MissingLeaves n →
    collectErrors hasError file n = (outermost (placed false n)).map (report file)
  | ⟨_, _, _, _, _, _, _, _, _, children⟩, hflag, hleaves =>
    collectErrors_of_children hflag hleaves
      (collectErrorsAll_eq children fun _ hc => ⟨hflag.child hc, hleaves.child hc⟩)

theorem collectErrorsAll_eq : ∀ ns : List Node, (∀ n ∈ ns, Flagged hasError n ∧ MissingLeaves n) →
    collectErrorsAll hasError file ns = (outermost (placedAll false ns)).map (report file)
  | [], _ => rfl
  | n :: ns, h => by
    obtain ⟨hn, hns⟩ := List.forall_mem_cons.mp h
    rw [collectErrorsAll, placedAll, outermost_append, List.map_append, collectErrors_eq n hn.1 hn.2,
      collectErrorsAll_eq ns hns]

end

theorem extractSyntaxErrors_eq (hflag : Flagged hasError tree) (hleaves : MissingLeaves tree) :
    extractSyntaxErrors hasError file tree = (outermost (placed false tree)).map (report file) := by
  rw [extractSyntaxErrors]
  by_cases hhas : hasError tree = true
  · rw [if_pos hhas, collectErrors_eq tree hflag hleaves]
  · rw [if_neg hhas, outermost_sound (faulty_false_of_flag hflag (Bool.eq_false_iff.mpr hhas) false), List.map_nil]

mutual

theorem outermost_ne_nil : ∀ n : Node, (∃ m ∈ n.preorder, Faulty m = true) → outermost (placed false n) ≠ []
  | ⟨kind, field, startByte, endByte, start, stop, named, isError, isMissing, children⟩, h => by
    rw [outermost_placed]
    by_cases hfaulty : Faulty ⟨kind, field, startByte, endByte, start, stop, named, isError, isMissing, children⟩ = true
    · rw [if_pos hfaulty]
      exact List.cons_ne_nil _ _
    · obtain ⟨m, hm, hmfaulty⟩ := h
      rw [Node.preorder] at hm
      rcases List.mem_cons.mp hm with rfl | hm
      · exact absurd hmfaulty hfaulty
      · have hfalse : isError = false := (Bool.or_eq_false_iff.mp (Bool.eq_false_iff.mpr hfaulty)).1
        rw [if_neg hfaulty, List.nil_append]
        exact hfalse ▸ outermostAll_ne_nil children ⟨m, hm, hmfaulty⟩

/-- Where something is faulty, there is an outermost one. -/
theorem outermostAll_ne_nil : ∀ ns : List Node, (∃ m ∈ preorderAll ns, Faulty m = true) →
    outermost (placedAll false ns) ≠ []
  | [], h => by
    obtain ⟨m, hm, -⟩ := h
    exact absurd hm List.not_mem_nil
  | n :: ns, h => by
    obtain ⟨m, hm, hfaulty⟩ := h
    rw [placedAll, outermost_append]
    rcases List.mem_append.mp hm with hm | hm
    · exact List.append_ne_nil_of_left_ne_nil (outermost_ne_nil n ⟨m, hm, hfaulty⟩) _
    · exact List.append_ne_nil_of_right_ne_nil _ (outermostAll_ne_nil ns ⟨m, hm, hfaulty⟩)

end

/-- For every tree whose flags are right: something is reported if and only if a node of
    the tree is faulty, and what is reported is each ERROR or MISSING node outside all
    ERROR nodes, once and in the tree's order. -/
theorem extractSyntaxErrors_exact (hflag : Flagged hasError tree) (hleaves : MissingLeaves tree) (file : Path) :
    (extractSyntaxErrors hasError file tree ≠ [] ↔ ∃ n ∈ tree.preorder, Faulty n = true) ∧
      (placed false tree).map Prod.fst = tree.preorder ∧
      extractSyntaxErrors hasError file tree = (outermost (placed false tree)).map (report file) := by
  refine ⟨?_, placed_map false tree, extractSyntaxErrors_eq hflag hleaves⟩
  rw [extractSyntaxErrors_eq hflag hleaves, Ne, List.map_eq_nil_iff]
  constructor
  · intro hne
    by_contra hnone
    refine hne (outermost_sound fun v hv => Bool.eq_false_iff.mpr fun hfaulty => hnone ⟨v.1, ?_, hfaulty⟩)
    rw [← placed_map false tree]
    exact List.mem_map_of_mem hv
  · exact outermost_ne_nil tree

end Exact

/-! ## An error in an error -/

/-- As the library keeps it. -/
def errorBelow (n : Node) : Bool := n.preorder.any Faulty

/-- `fn ( x`, read as an error with another in it, and a statement without its end. -/
def brokenTree : Node :=
  ⟨"source_file", none, 0, 6, ⟨0, 0⟩, ⟨0, 6⟩, true, false, false,
    [⟨"ERROR", none, 0, 4, ⟨0, 0⟩, ⟨0, 4⟩, true, true, false,
        [.leaf "fn" none 0 0 0 2 false, ⟨"ERROR", none, 3, 4, ⟨0, 3⟩, ⟨0, 4⟩, true, true, false, []⟩]⟩,
      ⟨"expression_statement", none, 5, 6, ⟨0, 5⟩, ⟨0, 6⟩, true, false, false,
        [.leaf "identifier" none 0 5 5 1 true, ⟨";", none, 6, 6, ⟨0, 6⟩, ⟨0, 6⟩, false, false, true, []⟩]⟩]⟩

theorem flagged_errorBelow (tree : Node) : Flagged errorBelow tree := by
  intro n _
  rw [errorBelow, List.any_eq_true]

theorem extractSyntaxErrors_exact_nested :
    (extractSyntaxErrors errorBelow [.normal "a.rs"] brokenTree).map (·.message) = ["unexpected syntax", "missing ;"] ∧
      (extractSyntaxErrors errorBelow [.normal "a.rs"] brokenTree ≠ [] ↔ ∃ n ∈ brokenTree.preorder, Faulty n = true) ∧
      (placed false brokenTree).map Prod.fst = brokenTree.preorder ∧
      extractSyntaxErrors errorBelow [.normal "a.rs"] brokenTree =
        (outermost (placed false brokenTree)).map (report [.normal "a.rs"]) :=
  ⟨by decide, extractSyntaxErrors_exact (flagged_errorBelow brokenTree) (by unfold MissingLeaves; decide) [.normal "a.rs"]⟩

end CodeQuery.Parse.Diagnostics
