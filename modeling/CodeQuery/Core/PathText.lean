/-
  CodeQuery.Core.PathText — paths as texts.

  A path is shown with a separator between its components, and a path that was read from
  a text is read back from what is shown of it (`ofString_text`).
-/

import CodeQuery.Core.Path
import Mathlib.Data.List.Basic

namespace CodeQuery.Core

namespace Path

/-! ## Components of a text -/

/-- The components of the names between separators. -/
def componentsOf (names : List (List Char)) : Path :=
  (names.filter fun n => n ≠ [] ∧ n ≠ ['.']).map fun n =>
    if n = ['.', '.'] then .parentDir else .normal (String.ofList n)

theorem ofString_cases (s : String) :
    (s.toList.head? = some '/' ∧ ofString s = .rootDir :: componentsOf (s.toList.splitOn '/')) ∨
    (s.toList.head? ≠ some '/' ∧ (s.toList.splitOn '/').head? = some ['.'] ∧
      ofString s = .curDir :: componentsOf (s.toList.splitOn '/')) ∨
    (s.toList.head? ≠ some '/' ∧ (s.toList.splitOn '/').head? ≠ some ['.'] ∧
      ofString s = componentsOf (s.toList.splitOn '/')) := by
  unfold ofString
  simp only
  split
  · rename_i hslash
    exact Or.inl ⟨hslash, rfl⟩
  · rename_i hdot hslash
    exact Or.inr (Or.inl ⟨hslash, hdot, rfl⟩)
  · rename_i hslash hdot
    exact Or.inr (Or.inr ⟨hslash, hdot, rfl⟩)

theorem rootDir_not_mem (names : List (List Char)) : Component.rootDir ∉ componentsOf names := by
  intro h
  obtain ⟨n, _, hn⟩ := List.mem_map.mp h
  revert hn
  split <;> simp

/-- Only a text that starts with a separator is a path from the root. -/
theorem rootDir_mem_ofString {s : String} : .rootDir ∈ ofString s ↔ s.toList.head? = some '/' := by
  have hnone := rootDir_not_mem (s.toList.splitOn '/')
  rcases ofString_cases s with ⟨hslash, heq⟩ | ⟨hslash, _, heq⟩ | ⟨hslash, _, heq⟩
  · simp [heq, hslash]
  · simp [heq, hslash, hnone]
  · simp [heq, hslash, hnone]

/-! ## The text of a path -/

def componentText : Component → List Char
  | .rootDir => []
  | .curDir => ['.']
  | .parentDir => ['.', '.']
  | .normal n => n.toList

/-- `display`, and `to_string_lossy`. -/
def text (p : Path) : String :=
  if p = [.rootDir] then "/" else String.ofList (['/'].intercalate (p.map componentText))

/-- The names that are components. -/
def names (l : List (List Char)) : List (List Char) := l.filter fun n => n ≠ [] ∧ n ≠ ['.']

theorem componentsOf_text (l : List (List Char)) : (componentsOf l).map componentText = names l := by
  rw [componentsOf, List.map_map, names]
  refine (List.map_congr_left fun n _ => ?_).trans (List.map_id _)
  simp only [Function.comp_apply, id_eq]
  split
  · rename_i h
    exact h.symm
  · exact String.toList_ofList

theorem componentsOf_names (l : List (List Char)) : componentsOf (names l) = componentsOf l := by
  rw [componentsOf, componentsOf, names, List.filter_filter]
  simp

theorem no_slash_of_mem_splitOn {cs n : List Char} (h : n ∈ cs.splitOn '/') : '/' ∉ n := by
  induction cs generalizing n with
  | nil => simp_all
  | cons c cs ih =>
    rw [List.splitOn_cons_eq_if_modifyHead] at h
    split at h
    · rcases List.mem_cons.mp h with rfl | h
      · exact List.not_mem_nil
      · exact ih h
    · rename_i hne
      cases hsplit : cs.splitOn '/' with
      | nil => simp [hsplit] at h
      | cons m ms =>
        rw [hsplit, List.modifyHead_cons] at h
        rcases List.mem_cons.mp h with rfl | h
        · have hm := ih (hsplit ▸ List.mem_cons_self)
          have hc : '/' ≠ c := fun heq => hne (by simp [← heq])
          exact fun hmem => (List.mem_cons.mp hmem).elim hc hm
        · exact ih (hsplit ▸ List.mem_cons_of_mem _ h)

/-- What is put together from names starting with an empty one is a path from the root. -/
theorem ofString_rooted {n : List Char} {l : List (List Char)} (h : ∀ m ∈ n :: l, '/' ∉ m) :
    ofString (String.ofList (['/'].intercalate ([] :: n :: l))) = .rootDir :: componentsOf (n :: l) := by
  have hsplit : (['/'].intercalate ([] :: n :: l)).splitOn '/' = [] :: n :: l :=
    List.splitOn_intercalate '/' (List.forall_mem_cons.mpr ⟨List.not_mem_nil, h⟩) (List.cons_ne_nil _ _)
  have hhead : (['/'].intercalate ([] :: n :: l)).head? = some '/' := rfl
  rcases ofString_cases (String.ofList (['/'].intercalate ([] :: n :: l))) with ⟨_, heq⟩ | ⟨hslash, _⟩ | ⟨hslash, _⟩
  · rw [heq, String.toList_ofList, hsplit]
    rfl
  · exact absurd (String.toList_ofList ▸ hhead) hslash
  · exact absurd (String.toList_ofList ▸ hhead) hslash

/-- What is put together from names starting with one that is not empty is a path from
    where one is. -/
theorem ofString_relative {n : List Char} {l : List (List Char)} (h : ∀ m ∈ n :: l, '/' ∉ m) (hn : n ≠ []) :
    ofString (String.ofList (['/'].intercalate (n :: l))) =
      if n = ['.'] then .curDir :: componentsOf (n :: l) else componentsOf (n :: l) := by
  have hsplit : (['/'].intercalate (n :: l)).splitOn '/' = n :: l :=
    List.splitOn_intercalate '/' h (List.cons_ne_nil _ _)
  have hhead : (['/'].intercalate (n :: l)).head? ≠ some '/' := by
    obtain ⟨c, n, rfl⟩ := List.exists_cons_of_ne_nil hn
    have hc : '/' ≠ c := fun heq => h _ List.mem_cons_self (heq ▸ List.mem_cons_self)
    cases l <;> simpa [List.intercalate_cons_cons] using hc.symm
  rcases ofString_cases (String.ofList (['/'].intercalate (n :: l))) with ⟨hslash, _⟩ | ⟨_, hdot, heq⟩ | ⟨_, hdot, heq⟩
  · rw [String.toList_ofList] at hslash
    exact absurd hslash hhead
  · rw [String.toList_ofList, hsplit, List.head?_cons, Option.some.injEq] at hdot
    rw [heq, String.toList_ofList, hsplit, if_pos hdot]
  · rw [String.toList_ofList, hsplit, List.head?_cons, ne_eq, Option.some.injEq] at hdot
    rw [heq, String.toList_ofList, hsplit, if_neg hdot]

theorem ofString_text {s : String} : ofString (ofString s).text = ofString s := by
  have hnames : ∀ n ∈ names (s.toList.splitOn '/'), (n ≠ [] ∧ n ≠ ['.']) ∧ '/' ∉ n := by
    intro n hn
    obtain ⟨hmem, hn⟩ := List.mem_filter.mp hn
    exact ⟨of_decide_eq_true hn, no_slash_of_mem_splitOn hmem⟩
  have htext := componentsOf_text (s.toList.splitOn '/')
  have hback := componentsOf_names (s.toList.splitOn '/')
  have hroot := rootDir_not_mem (s.toList.splitOn '/')
  rcases ofString_cases s with ⟨_, heq⟩ | ⟨_, _, heq⟩ | ⟨_, _, heq⟩
  · rw [heq]
    generalize names (s.toList.splitOn '/') = ns at hnames htext hback
    cases ns with
    | nil =>
      rw [List.map_eq_nil_iff.mp htext]
      decide
    | cons n l =>
      have hne : componentsOf (s.toList.splitOn '/') ≠ [] := by
        intro hnil
        rw [hnil] at htext
        cases htext
      rw [text, if_neg (by simpa using hne), List.map_cons, htext, componentText,
        ofString_rooted fun m hm => (hnames m hm).2, hback]
  · rw [heq, text, if_neg (by simp), List.map_cons, htext, componentText]
    rw [ofString_relative ?_ (by decide), if_pos rfl]
    · rw [← hback]
      rfl
    · exact List.forall_mem_cons.mpr ⟨by decide, fun m hm => (hnames m hm).2⟩
  · rw [heq]
    have hne : componentsOf (s.toList.splitOn '/') ≠ [.rootDir] := by
      intro hsingle
      rw [hsingle] at hroot
      exact hroot (List.mem_singleton_self _)
    rw [text, if_neg hne, htext]
    generalize names (s.toList.splitOn '/') = ns at hnames hback
    cases ns with
    | nil =>
      rw [← hback]
      decide
    | cons n l =>
      have hn := (hnames n List.mem_cons_self).1
      rw [ofString_relative (fun m hm => (hnames m hm).2) hn.1, if_neg hn.2, hback]

end Path

end CodeQuery.Core
