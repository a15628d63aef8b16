/-
  CodeQuery.Index.RefsOrdered — references in the order of the text.

  In a tree that is where its bytes are, a byte further on is at a later line and column
  or at the same (`after_take_lt`), and the names that a walk comes to start one
  after the other. So the walk of every language but Rust pushes its references in the
  order in which they stand in the text (`extractReferences_ordered`).
-/

import CodeQuery.Index.RefsGeneric
import CodeQuery.Parse.Ranges
import Mathlib.Data.Prod.Lex

namespace CodeQuery.Index

open CodeQuery.Core CodeQuery.Parse CodeQuery.Text

/-- Line and column, as they are compared in a text. -/
def placeOf (r : Reference) : ℕ ×ₗ ℕ := toLex (r.line, r.column)

/-- A byte further on is in a later line, or in the same line at a later column. -/
theorem after_take_lt {source : Str} {i j : Nat} (hle : i ≤ j)
    (hne : Point.after ⟨0, 0⟩ (source.take i) ≠ Point.after ⟨0, 0⟩ (source.take j)) :
    (Point.after ⟨0, 0⟩ (source.take i)).row < (Point.after ⟨0, 0⟩ (source.take j)).row ∨
      (Point.after ⟨0, 0⟩ (source.take i)).row = (Point.after ⟨0, 0⟩ (source.take j)).row ∧
        (Point.after ⟨0, 0⟩ (source.take i)).column < (Point.after ⟨0, 0⟩ (source.take j)).column := by
  obtain ⟨between, hbetween⟩ : source.take i <+: source.take j := List.take_prefix_take_left hle
  rw [← hbetween, Point.after_append] at hne ⊢
  generalize Point.after ⟨0, 0⟩ (source.take i) = p at hne ⊢
  rw [Point.after_row]
  by_cases hlf : lf ∈ between
  · left
    have hpos := List.count_pos_iff.mpr hlf
    omega
  · right
    rw [Point.after_column hlf, List.count_eq_zero.mpr hlf]
    have hsome : 0 < between.length := by
      rw [List.length_pos_iff]
      rintro rfl
      exact hne rfl
    omega

/-- The references of every language but Rust stand in the text one after the other. -/
theorem extractReferences_ordered {source : Str} {tree : Node} {file : Path} {language : Language}
    (hlanguage : language ≠ .rust) (hwf : tree.WellFormed) (hlocated : tree.Located source) :
    (extractReferences source tree file language).Pairwise fun a b => placeOf a < placeOf b := by
  rw [extractReferences_generic hlanguage]
  have hsub : ((tree.visited none).filter (isRecorded source)).Sublist (names (tree.visited none)) :=
    List.monotone_filter_right _ fun w hw => isName_of_isRecorded hw
  refine List.pairwise_map.mpr (((names_ordered hwf).sublist hsub).imp_of_mem ?_)
  intro a b ha hb hlt
  have hina := visited_preorder (List.mem_filter.mp ha).1
  have hinb := visited_preorder (List.mem_filter.mp hb).1
  have hne : a.2.startPosition ≠ b.2.startPosition := by
    intro heq
    have hbytes := hwf.places a.2 hina b.2 hinb heq
    omega
  rw [hlocated.starts a.2 hina, hlocated.starts b.2 hinb] at hne
  rw [placeOf, placeOf, Prod.Lex.toLex_lt_toLex]
  show a.2.startPosition.row + 1 < b.2.startPosition.row + 1 ∨
    a.2.startPosition.row + 1 = b.2.startPosition.row + 1 ∧ a.2.startPosition.column < b.2.startPosition.column
  rw [hlocated.starts a.2 hina, hlocated.starts b.2 hinb]
  rcases after_take_lt hlt.le hne with hrow | ⟨hrow, hcolumn⟩
  · left
    omega
  · right
    exact ⟨by omega, hcolumn⟩

end CodeQuery.Index
