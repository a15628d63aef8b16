/-
  CodeQuery.Cli.ContextDepth — the `--depth` of the context command
  (`run` of `codequery-cli/src/commands/context.rs`).

  The depth cuts the enclosing chain to its last levels, and of what is left one symbol is
  formatted, the innermost. So more than one level is never printed, and a depth of 0
  leaves nothing to take the innermost of (`a_depth_of_zero_panics`).
  `depth_respected_iff` says where that is what was asked for.
-/

import CodeQuery.Cli.Innermost

namespace CodeQuery.Cli.Context

open CodeQuery.Core

/-! ## The command -/

/-- What `run` does once it has the symbols. -/
inductive Outcome where
  /-- `expect("chain is non-empty")`. -/
  | panic
  /-- The symbol that is formatted; without one it is said that none encloses the line. -/
  | printed (symbol : Option Symbol)

/-- The levels of the chain that are asked for. -/
def lastLevels (depth : Option Nat) (contextChain : List Symbol) : List Symbol :=
  match depth with
  | some d => contextChain.drop (contextChain.length - d)
  | none => contextChain.drop (contextChain.length - 1)

def printContext (targetLine : Nat) (depth : Option Nat) (symbols : List Symbol) : Outcome :=
  let contextChain := findEnclosingChain targetLine symbols
  if contextChain.isEmpty then .printed none
  else
    match (lastLevels depth contextChain).getLast? with
    | none => .panic
    | some innermost => .printed (some innermost)

/-! ## What a depth asks for -/

section Depth

variable (targetLine : Nat)

/-- As many levels as asked for, one at least, as far as there are. -/
def Respects (depth : Nat) (symbols : List Symbol) : Prop :=
  let chain := findEnclosingChain targetLine symbols
  ∃ shown, printContext targetLine (some depth) symbols = .printed shown ∧
    shown.toList = chain.drop (chain.length - min (max 1 depth) chain.length)

/-- Whoever contains the line has no child that does. -/
def OneLevel (symbols : List Symbol) : Prop :=
  ∀ s ∈ symbols, Contains targetLine s → ∀ c ∈ s.children, ¬ Contains targetLine c

variable {targetLine} {symbols : List Symbol}

theorem findEnclosingChain_ne_nil (h : ∃ s ∈ symbols, Contains targetLine s) : findEnclosingChain targetLine symbols ≠ [] := by
  obtain ⟨s, hs, hin⟩ := h
  intro hnil
  exact (findEnclosingChain_longest symbols targetLine).2.2.mp hnil s hs hin

/-- Asked for no depth, the command prints the innermost symbol. -/
theorem printContext_none : printContext targetLine none symbols = .printed (reported targetLine symbols) := by
  unfold printContext reported
  generalize findEnclosingChain targetLine symbols = chain
  rcases List.eq_nil_or_concat chain with rfl | ⟨outer, innermost, rfl⟩
  · rfl
  · simp [lastLevels]

/-- A depth of 0 leaves nothing of the chain. -/
theorem printContext_zero (h : ∃ s ∈ symbols, Contains targetLine s) : printContext targetLine (some 0) symbols = .panic := by
  have hne := findEnclosingChain_ne_nil h
  simp [printContext, lastLevels, hne]

/-- From 1 on, one symbol is printed. -/
theorem printContext_succ {d : Nat} (h : ∃ s ∈ symbols, Contains targetLine s) :
    ∃ s, printContext targetLine (some (d + 1)) symbols = .printed (some s) ∧
      (findEnclosingChain targetLine symbols).drop ((findEnclosingChain targetLine symbols).length - 1) = [s] := by
  have hne := findEnclosingChain_ne_nil h
  unfold printContext
  generalize findEnclosingChain targetLine symbols = chain at hne ⊢
  rcases List.eq_nil_or_concat chain with hnil | ⟨outer, innermost, rfl⟩
  · exact absurd hnil hne
  · rw [List.concat_eq_append]
    refine ⟨innermost, ?_, by simp⟩
    have hlevels : (lastLevels (some (d + 1)) (outer ++ [innermost])).getLast? = some innermost := by
      have hkept : ¬ (outer ++ [innermost]).length ≤ (outer ++ [innermost]).length - (d + 1) := by
        rw [List.length_append, List.length_singleton]
        omega
      rw [lastLevels, List.getLast?_drop, if_neg hkept, List.getLast?_concat]
    dsimp only
    rw [hlevels, if_neg (by simp)]

/-- The chain has one level exactly where nobody below the top contains the line. -/
theorem length_findEnclosingChain_iff (h : ∃ s ∈ symbols, Contains targetLine s) :
    (findEnclosingChain targetLine symbols).length = 1 ↔ OneLevel targetLine symbols := by
  have hpos : 0 < (findEnclosingChain targetLine symbols).length := List.length_pos_iff.mpr (findEnclosingChain_ne_nil h)
  constructor
  · intro hone s hs hin c hc hcin
    have htwo := length_le_findEnclosingChain (.cons hs hin (.cons hc hcin (.nil _)))
    rw [hone] at htwo
    exact absurd htwo (by simp)
  · intro hlevel
    have hchain : Chain targetLine symbols (findEnclosingChain targetLine symbols) := findEnclosingChain_chain symbols
    generalize findEnclosingChain targetLine symbols = chain at hchain hpos
    cases hchain with
    | nil => exact absurd hpos (Nat.lt_irrefl 0)
    | cons hs hin hrest =>
      cases hrest with
      | nil => rfl
      | cons hc hcin _ => exact absurd hcin (hlevel _ hs hin _ hc)

/-- Without an enclosing symbol nothing is asked for. -/
theorem respects_of_not_enclosed (h : ∀ s ∈ symbols, ¬ Contains targetLine s) (depth : Nat) :
    Respects targetLine depth symbols := by
  have hnil : findEnclosingChain targetLine symbols = [] := (findEnclosingChain_longest symbols targetLine).2.2.mpr h
  refine ⟨none, ?_, ?_⟩
  · rw [printContext, hnil]
    rfl
  · rw [hnil, List.drop_nil]
    rfl

theorem respects_iff (h : ∃ s ∈ symbols, Contains targetLine s) (depth : Nat) :
    Respects targetLine depth symbols ↔ depth = 1 ∨ 2 ≤ depth ∧ OneLevel targetLine symbols := by
  have hpos : 0 < (findEnclosingChain targetLine symbols).length := List.length_pos_iff.mpr (findEnclosingChain_ne_nil h)
  rw [← length_findEnclosingChain_iff h]
  unfold Respects
  cases depth with
  | zero =>
    rw [printContext_zero h]
    refine iff_of_false (fun hprinted => ?_) (by omega)
    obtain ⟨shown, hshown, -⟩ := hprinted
    cases hshown
  | succ d =>
    obtain ⟨s, hprinted, hlast⟩ := printContext_succ (d := d) h
    rw [hprinted]
    constructor
    · intro hrespects
      obtain ⟨shown, hshown, hcovers⟩ := hrespects
      cases hshown
      have hlength := congrArg List.length hcovers
      simp only [Option.toList_some, List.length_singleton, List.length_drop] at hlength
      omega
    · intro hcase
      refine ⟨some s, rfl, ?_⟩
      have hmin : min (max 1 (d + 1)) (findEnclosingChain targetLine symbols).length = 1 := by omega
      rw [hmin, hlast]
      rfl

end Depth

/-- For every forest, every line and every depth: what is asked for is printed if and only
    if no symbol encloses the line, or one level is asked for, or there is one. -/
theorem depth_respected_iff (symbols : List Symbol) (targetLine depth : Nat) : Respects targetLine depth symbols ↔
    (∀ s ∈ symbols, ¬ Contains targetLine s) ∨ depth = 1 ∨ 2 ≤ depth ∧ OneLevel targetLine symbols := by
  by_cases henclosed : ∃ s ∈ symbols, Contains targetLine s
  · have hnot : ¬ ∀ s ∈ symbols, ¬ Contains targetLine s := by
      obtain ⟨s, hs, hin⟩ := henclosed
      exact fun hnone => hnone s hs hin
    rw [or_iff_right hnot]
    exact respects_iff henclosed depth
  · have hnone : ∀ s ∈ symbols, ¬ Contains targetLine s := fun s hs hin => henclosed ⟨s, hs, hin⟩
    exact iff_of_true (respects_of_not_enclosed hnone depth) (.inl hnone)

/-! ## A method in a class -/

/-- `class S { a() {} }` on one line. -/
def classAndMethod : List Symbol := [{ Hover.onLine "S" 0 [Hover.onLine "a" 10 []] with kind := .class_ }]

/-- A depth of 0 panics, and one of 2 prints the method without the class. -/
theorem a_depth_of_zero_panics :
    (findEnclosingChain 1 classAndMethod).map (·.name) = [Text.str "S", Text.str "a"] ∧
      printContext 1 (some 0) classAndMethod = .panic ∧
      printContext 1 (some 2) classAndMethod = .printed (some (Hover.onLine "a" 10 [])) ∧
      ¬ Respects 1 0 classAndMethod ∧ ¬ Respects 1 2 classAndMethod := by
  refine ⟨by decide, rfl, rfl, fun h => ?_, fun h => ?_⟩
  · obtain ⟨shown, hshown, -⟩ := h
    cases hshown
  · obtain ⟨shown, hshown, hcovers⟩ := h
    cases hshown
    have hlength := congrArg List.length hcovers
    exact absurd hlength (by decide)

end CodeQuery.Cli.Context
