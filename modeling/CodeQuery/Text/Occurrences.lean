/-
  CodeQuery.Text.Occurrences — all places of a pattern in a text.

  Places may overlap; the matches that `countMatches` counts do not: it goes on behind
  each (`countMatches_of_find`). So there are two matches exactly when two places do not
  overlap (`two_le_countMatches_iff`), and one match says nothing of how many places
  there are.
-/

import CodeQuery.Text.Replace
import CodeQuery.Text.Search

namespace CodeQuery.Text

/-- The pattern is at the position. -/
def OccursAt (pat s : Str) (i : Nat) : Prop := pat <+: s.drop i

instance (pat s : Str) (i : Nat) : Decidable (OccursAt pat s i) := inferInstanceAs (Decidable (pat <+: s.drop i))

/-- No other position has the pattern. -/
def OccursOnlyAt (pat s : Str) (i : Nat) : Prop := OccursAt pat s i ∧ ∀ j, OccursAt pat s j → j = i

def FirstOccursAt (pat s : Str) (i : Nat) : Prop := OccursAt pat s i ∧ ∀ j < i, ¬ OccursAt pat s j

instance (pat s : Str) (i : Nat) : Decidable (FirstOccursAt pat s i) :=
  inferInstanceAs (Decidable (OccursAt pat s i ∧ ∀ j < i, ¬ OccursAt pat s j))

theorem FirstOccursAt.unique {pat s : Str} {i j : Nat} (hi : FirstOccursAt pat s i) (hj : FirstOccursAt pat s j) : i = j := by
  rcases Nat.lt_trichotomy i j with hlt | heq | hlt
  · exact absurd hi.1 (hj.2 i hlt)
  · exact heq
  · exact absurd hj.1 (hi.2 j hlt)

section Pattern

variable {pat : Str} (hne : pat ≠ [])

include hne

theorem OccursAt.lt {s : Str} {i : Nat} (h : OccursAt pat s i) : i + pat.length ≤ s.length := by
  have hlen := h.length_le
  have hpos := List.length_pos_of_ne_nil hne
  rw [List.length_drop] at hlen
  omega

theorem find_eq_some_iff_first {s : Str} {i : Nat} : find pat s = some i ↔ FirstOccursAt pat s i := by
  rw [find_eq_some_iff]
  constructor
  · intro h
    exact ⟨h.2.1, h.2.2⟩
  · intro h
    exact ⟨Nat.le_trans (Nat.le_add_right i _) (h.1.lt hne), h.1, h.2⟩

/-! ## Matches -/

theorem matchesHere_iff {b : UInt8} {t : Str} : matchesHere pat b t = true ↔ pat <+: b :: t := by
  simp [matchesHere, hne]

theorem countFrom_eq (k : Nat) (s : Str) : countFrom pat k s = countMatches pat (s.drop k) := by
  induction s generalizing k with
  | nil => cases k <;> simp [countFrom, countMatches, hne]
  | cons b t ih =>
    cases k with
    | zero => rfl
    | succ k =>
      rw [countFrom, List.drop_succ_cons]
      exact ih k

theorem countMatches_cons {b : UInt8} {t : Str} : countMatches pat (b :: t) =
    if pat <+: b :: t then countMatches pat ((b :: t).drop pat.length) + 1 else countMatches pat t := by
  rw [countMatches, countFrom]
  by_cases hhere : pat <+: b :: t
  · obtain ⟨n, hn⟩ := Nat.exists_eq_succ_of_ne_zero (List.length_pos_of_ne_nil hne).ne'
    rw [if_pos ((matchesHere_iff hne).mpr hhere), if_pos hhere, countFrom_eq hne, hn]
    rfl
  · rw [if_neg (mt (matchesHere_iff hne).mp hhere), if_neg hhere]
    rfl

/-- The first match, and what is counted behind it. -/
theorem countMatches_of_find (s : Str) : countMatches pat s =
    match find pat s with
    | none => 0
    | some i => countMatches pat (s.drop (i + pat.length)) + 1 := by
  induction s with
  | nil => simp [countMatches, countFrom, find_nil, hne]
  | cons b t ih =>
    rw [countMatches_cons hne, find_cons]
    by_cases hhere : pat <+: b :: t
    · rw [if_pos hhere, if_pos hhere]
      dsimp only
      rw [Nat.zero_add]
    · rw [if_neg hhere, if_neg hhere, ih]
      cases find pat t with
      | none => rfl
      | some i =>
        dsimp only [Option.map_some]
        rw [Nat.add_right_comm, List.drop_succ_cons]

theorem countMatches_eq_zero_iff {s : Str} : countMatches pat s = 0 ↔ ∀ i, ¬ OccursAt pat s i := by
  unfold OccursAt
  rw [countMatches_of_find hne, ← find_eq_none_iff]
  cases find pat s <;> simp

/-- Two matches are two places that do not overlap. -/
theorem two_le_countMatches_iff {s : Str} :
    2 ≤ countMatches pat s ↔ ∃ i j, OccursAt pat s i ∧ OccursAt pat s j ∧ i + pat.length ≤ j := by
  rw [countMatches_of_find hne]
  cases hfind : find pat s with
  | none =>
    refine iff_of_false (by simp) ?_
    intro h
    obtain ⟨i, -, hi, -⟩ := h
    exact find_eq_none_iff.mp hfind i hi
  | some i =>
    have hfirst := (find_eq_some_iff_first hne).mp hfind
    have hbehind : 2 ≤ countMatches pat (s.drop (i + pat.length)) + 1 ↔ ∃ j, OccursAt pat (s.drop (i + pat.length)) j := by
      rw [← not_iff_not, not_exists, ← countMatches_eq_zero_iff hne]
      omega
    dsimp only
    rw [hbehind]
    constructor
    · intro h
      obtain ⟨j, hj⟩ := h
      unfold OccursAt at hj
      rw [List.drop_drop] at hj
      exact ⟨i, i + pat.length + j, hfirst.1, hj, Nat.le_add_right _ _⟩
    · intro h
      obtain ⟨i', j, hi', hj, hle⟩ := h
      have hmin : i ≤ i' := by
        by_contra hlt
        exact hfirst.2 i' (by omega) hi'
      refine ⟨j - (i + pat.length), ?_⟩
      unfold OccursAt
      rw [List.drop_drop, Nat.add_sub_cancel' (by omega)]
      exact hj

/-! ## One replacement -/

omit hne in
theorem replaceFrom_zero (new s : Str) : replaceFrom pat new 0 0 s = s := by
  induction s with
  | nil => simp [replaceFrom]
  | cons b t ih => simpa [replaceFrom] using ih

theorem replaceFrom_eq (new : Str) (limit k : Nat) (s : Str) :
    replaceFrom pat new limit k s = replaceFrom pat new limit 0 (s.drop k) := by
  induction s generalizing k with
  | nil => cases k <;> simp [replaceFrom, hne]
  | cons b t ih =>
    cases k with
    | zero => rfl
    | succ k =>
      rw [replaceFrom, List.drop_succ_cons]
      exact ih k

theorem replacen_one {new s : Str} {i : Nat} (h : find pat s = some i) :
    replacen pat new s 1 = s.take i ++ new ++ s.drop (i + pat.length) := by
  induction s generalizing i with
  | nil =>
    rw [find_nil, if_neg hne] at h
    cases h
  | cons b t ih =>
    rw [find_cons] at h
    rw [replacen, replaceFrom]
    by_cases hhere : pat <+: b :: t
    · rw [if_pos hhere] at h
      cases h
      obtain ⟨n, hn⟩ := Nat.exists_eq_succ_of_ne_zero (List.length_pos_of_ne_nil hne).ne'
      rw [(matchesHere_iff hne).mpr hhere, if_pos (by simp), if_neg (by simp [hne]), replaceFrom_eq hne,
        Nat.sub_self, replaceFrom_zero, hn]
      simp
    · rw [if_neg hhere] at h
      obtain ⟨j, hj, rfl⟩ := Option.map_eq_some_iff.mp h
      rw [if_neg (by simp [mt (matchesHere_iff hne).mp hhere])]
      have ih := ih hj
      rw [replacen] at ih
      rw [ih, Nat.add_right_comm]
      rfl

end Pattern

end CodeQuery.Text
