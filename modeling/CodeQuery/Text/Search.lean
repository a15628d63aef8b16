/-
  CodeQuery.Text.Search — where a text stands in another.

  `find` gives the first place (`find_eq_some_iff`). A word stands by itself where neither
  neighbour is a word byte (`StandsAt`).
-/

import CodeQuery.Text.Bytes

namespace CodeQuery.Text

/-! ## The first place -/

theorem findFrom_add (pat : Str) (i : Nat) (s : Str) : findFrom pat i s = (findFrom pat 0 s).map (i + ·) := by
  induction s generalizing i with
  | nil =>
    unfold findFrom
    split <;> simp
  | cons b t ih =>
    unfold findFrom
    split
    · simp
    · rw [ih (i + 1), ih (0 + 1), Option.map_map]
      congr 1
      funext j
      simp only [Function.comp_apply]
      omega

theorem find_nil (pat : Str) : find pat [] = if pat = [] then some 0 else none := by
  cases pat <;> simp [find, findFrom]

theorem find_cons (pat : Str) (b : UInt8) (t : Str) :
    find pat (b :: t) = if pat <+: b :: t then some 0 else (find pat t).map (· + 1) := by
  rw [find, findFrom, findFrom_add pat (0 + 1) t, find]
  by_cases h : pat <+: b :: t
  · simp [h]
  · simp only [List.isPrefixOf_iff_prefix, h, if_false]
    congr 1
    funext j
    omega

/-- What is found is a place of the pattern, and no place is before it. -/
theorem find_eq_some_iff {pat s : Str} {i : Nat} :
    find pat s = some i ↔ i ≤ s.length ∧ pat <+: s.drop i ∧ ∀ j < i, ¬ pat <+: s.drop j := by
  induction s generalizing i with
  | nil =>
    rw [find_nil]
    constructor
    · intro h
      split at h
      · cases h
        rename_i hpat
        simp [hpat]
      · cases h
    · intro h
      obtain ⟨hle, hhere, -⟩ := h
      have hi : i = 0 := by simpa using hle
      have hpat : pat = [] := by simpa using hhere
      rw [if_pos hpat, hi]
  | cons b t ih =>
    rw [find_cons]
    by_cases hfirst : pat <+: b :: t
    · rw [if_pos hfirst]
      constructor
      · intro h
        cases h
        exact ⟨Nat.zero_le _, hfirst, fun j hj => absurd hj (Nat.not_lt_zero j)⟩
      · intro h
        obtain ⟨-, -, hnone⟩ := h
        cases i with
        | zero => rfl
        | succ i => exact absurd hfirst (hnone 0 (Nat.succ_pos i))
    · rw [if_neg hfirst, Option.map_eq_some_iff]
      constructor
      · intro h
        obtain ⟨k, hk, rfl⟩ := h
        obtain ⟨hle, hhere, hnone⟩ := ih.mp hk
        refine ⟨Nat.succ_le_succ hle, hhere, fun j hj => ?_⟩
        cases j with
        | zero => exact hfirst
        | succ j => exact hnone j (by omega)
      · intro h
        obtain ⟨hle, hhere, hnone⟩ := h
        cases i with
        | zero => exact absurd hhere hfirst
        | succ i =>
          refine ⟨i, ih.mpr ⟨Nat.le_of_succ_le_succ hle, hhere, fun j hj => ?_⟩, rfl⟩
          exact hnone (j + 1) (by omega)

theorem find_eq_none_iff {pat s : Str} : find pat s = none ↔ ∀ j, ¬ pat <+: s.drop j := by
  induction s with
  | nil =>
    rw [find_nil]
    by_cases hpat : pat = [] <;> simp [hpat]
  | cons b t ih =>
    rw [find_cons]
    by_cases hfirst : pat <+: b :: t
    · rw [if_pos hfirst]
      exact iff_of_false (by simp) fun h => h 0 hfirst
    · rw [if_neg hfirst, Option.map_eq_none_iff, ih]
      constructor
      · intro h j
        cases j with
        | zero => exact hfirst
        | succ j => exact h j
      · intro h j
        exact h (j + 1)

/-- From a start on, the pattern is found at each of its places or before it. -/
theorem find_drop_le {pat s : Str} {start pos : Nat} (hhere : pat <+: s.drop pos) (hle : start ≤ pos) :
    ∃ offset, find pat (s.drop start) = some offset ∧ start + offset ≤ pos := by
  have hplace : pat <+: (s.drop start).drop (pos - start) := by
    rwa [List.drop_drop, Nat.add_sub_cancel' hle]
  cases hfind : find pat (s.drop start) with
  | none => exact absurd hplace (find_eq_none_iff.mp hfind _)
  | some offset =>
    refine ⟨offset, rfl, ?_⟩
    obtain ⟨-, -, hfirst⟩ := find_eq_some_iff.mp hfind
    by_contra hlt
    exact hfirst (pos - start) (by omega) hplace

/-! ## A word by itself -/

/-- The word stands at the position, with no word byte on either side. -/
def StandsAt (word data : Str) (pos : Nat) : Prop :=
  ∃ before after, data = before ++ word ++ after ∧ before.length = pos ∧
    before.getLast?.all (!isWordByte ·) = true ∧ after.head?.all (!isWordByte ·) = true

/-- The byte before a position. -/
theorem getLast?_take {data : Str} {pos : Nat} (hle : pos ≤ data.length) :
    (data.take pos).getLast? = if 0 < pos then data[pos - 1]? else none := by
  rw [List.getLast?_take]
  by_cases hpos : pos = 0
  · simp [hpos]
  · have hget : data[pos - 1]? = some data[pos - 1] := List.getElem?_eq_getElem (by omega)
    rw [if_neg hpos, if_pos (by omega), hget]
    rfl

theorem standsAt_iff {word data : Str} {pos : Nat} :
    StandsAt word data pos ↔ pos ≤ data.length ∧ word <+: data.drop pos ∧
      (data.take pos).getLast?.all (!isWordByte ·) = true ∧ (data[pos + word.length]?).all (!isWordByte ·) = true := by
  constructor
  · intro h
    obtain ⟨before, after, rfl, rfl, hbefore, hafter⟩ := h
    have hget : (before ++ word ++ after)[before.length + word.length]? = after.head? := by
      rw [← List.length_append, List.getElem?_append_right le_rfl, Nat.sub_self, List.head?_eq_getElem?]
    refine ⟨by simp only [List.length_append]; omega, ?_, ?_, by rwa [hget]⟩
    · rw [List.append_assoc, List.drop_left]
      exact List.prefix_append word after
    · rwa [List.append_assoc, List.take_left]
  · intro h
    obtain ⟨hle, ⟨after, hafter⟩, hbefore, hnext⟩ := h
    refine ⟨data.take pos, after, ?_, List.length_take_of_le hle, hbefore, ?_⟩
    · rw [List.append_assoc, hafter, List.take_append_drop]
    · have hget : data[pos + word.length]? = after.head? := by
        rw [← List.getElem?_drop, ← hafter, List.getElem?_append_right le_rfl, Nat.sub_self, List.head?_eq_getElem?]
      rwa [← hget]

end CodeQuery.Text
