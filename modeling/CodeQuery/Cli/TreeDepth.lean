/-
  CodeQuery.Cli.TreeDepth — limiting the depth of a symbol tree
  (`codequery-cli/src/commands/tree.rs`).

  A forest is read as its symbols in order, each without its children and with its depth
  (`preorderAll`), which tells the forest (`preorderAll_inj`). Truncating it keeps those
  up to a depth, and the uppermost in any case; truncated again, it is as truncated once
  to the smaller depth (`truncate_keeps_and_composes`).
-/

import CodeQuery.Index.Scanner

namespace CodeQuery.Cli

open CodeQuery.Core CodeQuery.Index

/-! ## Truncating -/

mutual

def truncateSymbol (maxDepth : Nat) : Nat → Symbol → Symbol
  | currentDepth, ⟨name, kind, file, line, column, endLine, visibility, children, doc, body, signature⟩ =>
    ⟨name, kind, file, line, column, endLine, visibility,
      if maxDepth ≤ currentDepth then [] else truncateChildren maxDepth (currentDepth + 1) children, doc, body, signature⟩

def truncateChildren (maxDepth : Nat) : Nat → List Symbol → List Symbol
  | _, [] => []
  | currentDepth, s :: symbols => truncateSymbol maxDepth currentDepth s :: truncateChildren maxDepth currentDepth symbols

end

def limitDepth (fileSymbols : List FileSymbols) (maxDepth : Nat) : List FileSymbols :=
  fileSymbols.map fun fs => { fs with symbols := truncateChildren maxDepth 1 fs.symbols }

/-! ## Forests -/

/-- The symbol alone. -/
def bare (s : Symbol) : Symbol := { s with children := [] }

mutual

/-- A symbol at a depth, and those below it. -/
def preorder : Nat → Symbol → List (Nat × Symbol)
  | depth, s@⟨_, _, _, _, _, _, _, children, _, _, _⟩ => (depth, bare s) :: preorderAll (depth + 1) children

def preorderAll : Nat → List Symbol → List (Nat × Symbol)
  | _, [] => []
  | depth, s :: symbols => preorder depth s ++ preorderAll depth symbols

end

/-- Induction on the forests below and behind. -/
theorem forest_induction {P : List Symbol → Prop} (nil : P [])
    (cons : ∀ s symbols, P s.children → P symbols → P (s :: symbols)) (symbols : List Symbol) : P symbols := by
  cases symbols with
  | nil => exact nil
  | cons s symbols =>
    exact cons s symbols (forest_induction nil cons s.children) (forest_induction nil cons symbols)
termination_by sizeOf symbols
decreasing_by
  · cases s
    simp
    omega
  · simp

theorem truncateChildren_nil (d c : Nat) : truncateChildren d c [] = [] := by rw [truncateChildren]

theorem truncateChildren_cons (d c : Nat) (s : Symbol) (symbols : List Symbol) : truncateChildren d c (s :: symbols) =
    { s with children := if d ≤ c then [] else truncateChildren d (c + 1) s.children } :: truncateChildren d c symbols := by
  cases s
  rw [truncateChildren, truncateSymbol]

theorem preorderAll_nil (c : Nat) : preorderAll c [] = [] := by rw [preorderAll]

theorem preorderAll_cons (c : Nat) (s : Symbol) (symbols : List Symbol) :
    preorderAll c (s :: symbols) = (c, bare s) :: (preorderAll (c + 1) s.children ++ preorderAll c symbols) := by
  cases s
  rw [preorderAll, preorder, List.cons_append]

/-- No depth is above that of the forest. -/
theorem le_depth (symbols : List Symbol) : ∀ c, ∀ p ∈ preorderAll c symbols, c ≤ p.1 := by
  induction symbols using forest_induction with
  | nil =>
    intro c p hp
    rw [preorderAll_nil] at hp
    cases hp
  | cons s symbols ihc ih =>
    intro c p hp
    rw [preorderAll_cons] at hp
    rcases List.mem_cons.mp hp with rfl | hp
    · exact Nat.le_refl c
    · rcases List.mem_append.mp hp with hp | hp
      · have hbelow := ihc (c + 1) p hp
        omega
      · exact ih c p hp

/-- What is below a symbol is what comes up to the next of its depth. -/
theorem takeWhile_below (c : Nat) (children symbols : List Symbol) :
    (preorderAll (c + 1) children ++ preorderAll c symbols).takeWhile (c < ·.1) = preorderAll (c + 1) children := by
  have hbelow : ∀ p ∈ preorderAll (c + 1) children, decide (c < p.1) = true := by
    intro p hp
    have hle := le_depth children (c + 1) p hp
    simp
    omega
  rw [List.takeWhile_append_of_pos hbelow]
  cases symbols with
  | nil => rw [preorderAll_nil]; simp
  | cons s symbols =>
    rw [preorderAll_cons, List.takeWhile_cons_of_neg (by simp), List.append_nil]

/-- The symbols in order with their depths tell the forest. -/
theorem preorderAll_inj (symbols : List Symbol) : ∀ c symbols', preorderAll c symbols = preorderAll c symbols' →
    symbols = symbols' := by
  induction symbols using forest_induction with
  | nil =>
    intro c symbols' h
    cases symbols' with
    | nil => rfl
    | cons s' symbols' =>
      rw [preorderAll_nil, preorderAll_cons] at h
      cases h
  | cons s symbols ihc ih =>
    intro c symbols' h
    cases symbols' with
    | nil =>
      rw [preorderAll_nil, preorderAll_cons] at h
      cases h
    | cons s' symbols' =>
      rw [preorderAll_cons, preorderAll_cons] at h
      obtain ⟨hhead, htail⟩ := List.cons.inj h
      have hbare : bare s = bare s' := (Prod.mk.inj hhead).2
      have hbelow := congrArg (List.takeWhile (c < ·.1)) htail
      rw [takeWhile_below, takeWhile_below] at hbelow
      rw [hbelow] at htail
      have hchildren : s.children = s'.children := ihc (c + 1) s'.children hbelow
      have hsymbols : symbols = symbols' := ih c symbols' (List.append_cancel_left htail)
      rw [hsymbols]
      congr 1
      cases s
      cases s'
      simp only [bare, Symbol.mk.injEq] at hbare hchildren ⊢
      tauto

/-! ## The depths kept -/

theorem preorderAll_truncate (d : Nat) (symbols : List Symbol) : ∀ c, preorderAll c (truncateChildren d c symbols) =
    (preorderAll c symbols).filter (·.1 ≤ max c d) := by
  induction symbols using forest_induction with
  | nil =>
    intro c
    rw [truncateChildren_nil, preorderAll_nil, List.filter_nil]
  | cons s symbols ihc ih =>
    intro c
    rw [truncateChildren_cons, preorderAll_cons, preorderAll_cons, List.filter_cons_of_pos (by simp), List.filter_append, ih c]
    have hbelow : preorderAll (c + 1) (if d ≤ c then [] else truncateChildren d (c + 1) s.children) =
        (preorderAll (c + 1) s.children).filter (·.1 ≤ max c d) := by
      by_cases hcut : d ≤ c
      · rw [if_pos hcut, preorderAll_nil]
        refine (List.filter_eq_nil_iff.mpr ?_).symm
        intro p hp
        have hle := le_depth s.children (c + 1) p hp
        simp
        omega
      · have hmax : max (c + 1) d = max c d := by omega
        rw [if_neg hcut, ihc (c + 1), hmax]
    rw [← hbelow]
    rfl

/-- Truncating twice is truncating to the smaller depth. -/
theorem truncate_truncate (d e : Nat) (symbols : List Symbol) : ∀ c,
    truncateChildren e c (truncateChildren d c symbols) = truncateChildren (min d e) c symbols := by
  induction symbols using forest_induction with
  | nil =>
    intro c
    rw [truncateChildren_nil, truncateChildren_nil, truncateChildren_nil]
  | cons s symbols ihc ih =>
    intro c
    rw [truncateChildren_cons, truncateChildren_cons, truncateChildren_cons, ih c]
    have hbelow : (if e ≤ c then [] else truncateChildren e (c + 1)
        (if d ≤ c then [] else truncateChildren d (c + 1) s.children)) =
        if min d e ≤ c then [] else truncateChildren (min d e) (c + 1) s.children := by
      by_cases he : e ≤ c
      · rw [if_pos he, if_pos (by omega)]
      · by_cases hd : d ≤ c
        · rw [if_neg he, if_pos hd, if_pos (by omega), truncateChildren_nil]
        · rw [if_neg he, if_neg hd, if_neg (by omega), ihc (c + 1)]
    rw [← hbelow]

/-- Truncating keeps exactly the symbols up to the depth, in order and as they are; and
    truncating twice is truncating to the smaller depth. -/
theorem truncate_keeps_and_composes (d e : Nat) (symbols : List Symbol) :
    (∀ kept, kept = truncateChildren d 1 symbols ↔ preorderAll 1 kept = (preorderAll 1 symbols).filter (·.1 ≤ max 1 d)) ∧
      truncateChildren e 1 (truncateChildren d 1 symbols) = truncateChildren (min d e) 1 symbols := by
  refine ⟨?_, truncate_truncate d e symbols 1⟩
  intro kept
  rw [← preorderAll_truncate]
  exact ⟨congrArg (preorderAll 1), preorderAll_inj kept 1 _⟩

/-- The limits of a list of files compose as those of its forests. -/
theorem limitDepth_limitDepth (d e : Nat) (fileSymbols : List FileSymbols) :
    limitDepth (limitDepth fileSymbols d) e = limitDepth fileSymbols (min d e) := by
  simp only [limitDepth, List.map_map]
  refine List.map_congr_left fun fs _ => ?_
  simp only [Function.comp_apply, truncate_truncate]

end CodeQuery.Cli
