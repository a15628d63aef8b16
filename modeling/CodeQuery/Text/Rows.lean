/-
  CodeQuery.Text.Rows — where the lines of a text stand.

  A piece of a text has its line feed at its end or nowhere, so as many line feeds are in
  front of a line as its index says (`count_beforeLine`). A text has a line behind its
  last line feed only where something stands there (`count_lt_lines_iff`). Joined lines
  are told apart (`joinLines_inj`), and so is the line that something was put behind
  (`joinLines_modify_inj`). Lines written with a line feed each are read again, but for
  a carriage return at their end (`lines_terminated`).
-/

import CodeQuery.Text.Lines

namespace CodeQuery.Text

/-- What stands in front of the line with the index. -/
def beforeLine (s : Str) (i : Nat) : Str := ((splitInclusive s).take i).flatten

/-! ## Pieces -/

theorem lf_not_mem_dropLast (s : Str) : ∀ p ∈ splitInclusive s, lf ∉ p.dropLast := by
  induction s with
  | nil => simp [splitInclusive]
  | cons b t ih =>
    intro p hp
    simp only [splitInclusive] at hp
    split at hp
    · rcases List.mem_cons.mp hp with rfl | hp
      · simp
      · exact ih p hp
    · rename_i hb
      split at hp
      · rw [List.mem_singleton.mp hp]
        simp
      · rename_i l r h
        rcases List.mem_cons.mp hp with rfl | hp
        · have hl : l ≠ [] := splitInclusive_ne_nil t l (by rw [h]; exact List.mem_cons_self)
          rw [List.dropLast_cons_of_ne_nil hl, List.mem_cons, not_or]
          exact ⟨fun he => hb he.symm, ih l (by rw [h]; exact List.mem_cons_self)⟩
        · exact ih p (by rw [h]; exact List.mem_cons_of_mem _ hp)

/-- A piece has one line feed, at its end, or none. -/
theorem count_piece {s p : Str} (hp : p ∈ splitInclusive s) : p.count lf = if p.getLast? = some lf then 1 else 0 := by
  have hfront : p.dropLast.count lf = 0 := List.count_eq_zero.mpr (lf_not_mem_dropLast s p hp)
  have hne : p ≠ [] := splitInclusive_ne_nil s p hp
  rw [List.getLast?_eq_some_getLast hne]
  conv => lhs; rw [← List.dropLast_append_getLast hne]
  rw [List.count_append, hfront, List.count_singleton]
  simp

theorem lf_not_mem_line {s l : Str} (h : l ∈ lines s) : lf ∉ l := by
  obtain ⟨g, hg, rfl⟩ := List.mem_map.mp h
  obtain ⟨p, hp, rfl⟩ := List.mem_map.mp hg
  have hfront := lf_not_mem_dropLast s p hp
  unfold Segment.ofPiece
  split
  · split
    · exact fun hmem => hfront (List.mem_of_mem_dropLast hmem)
    · exact hfront
  · rename_i hlast
    rw [← List.count_eq_zero, count_piece hp, if_neg hlast]

@[simp] theorem length_lines (s : Str) : (lines s).length = (splitInclusive s).length := by simp [lines, segments]

/-- Pieces that end in line feeds have one each. -/
theorem count_flatten {s : Str} {ps : List Str} (hps : ∀ p ∈ ps, p ∈ splitInclusive s ∧ p.getLast? = some lf) :
    ps.flatten.count lf = ps.length := by
  induction ps with
  | nil => rfl
  | cons p ps ih =>
    obtain ⟨hp, hps⟩ := List.forall_mem_cons.mp hps
    rw [List.flatten_cons, List.count_append, ih hps, count_piece hp.1, if_pos hp.2, List.length_cons, Nat.add_comm]

/-- In front of a line are as many line feeds as lines. -/
theorem count_beforeLine {s : Str} {i : Nat} (h : i < (lines s).length) : (beforeLine s i).count lf = i := by
  rw [length_lines] at h
  have hends : ∀ p ∈ (splitInclusive s).take i, p ∈ splitInclusive s ∧ p.getLast? = some lf := by
    intro p hp
    obtain ⟨l, r, hlr⟩ := List.append_of_mem hp
    refine ⟨List.mem_of_mem_take hp, splitInclusive_ends s l p (r ++ (splitInclusive s).drop i) ?_ ?_⟩
    · rw [← List.cons_append, ← List.append_assoc, ← hlr, List.take_append_drop]
    · intro hnil
      have hlen := congrArg List.length hnil
      simp only [List.length_append, List.length_drop, List.length_nil] at hlen
      omega
  rw [beforeLine, count_flatten hends, List.length_take, Nat.min_eq_left h.le]

/-- The line, with what is in front of it and behind. -/
theorem lines_getElem? {s line : Str} {i : Nat} (h : (lines s)[i]? = some line) :
    ∃ rest, s = beforeLine s i ++ line ++ rest := by
  simp only [lines, segments, List.map_map, List.getElem?_map, Option.map_eq_some_iff] at h
  obtain ⟨p, hp, rfl⟩ := h
  obtain ⟨hi, rfl⟩ := List.getElem?_eq_some_iff.mp hp
  refine ⟨(Segment.ofPiece (splitInclusive s)[i]).ending ++ ((splitInclusive s).drop (i + 1)).flatten, ?_⟩
  have hpiece : (Segment.ofPiece (splitInclusive s)[i]).line ++ (Segment.ofPiece (splitInclusive s)[i]).ending =
      (splitInclusive s)[i] := Segment.ofPiece_text _
  calc s = (splitInclusive s).flatten := (splitInclusive_flatten s).symm
    _ = ((splitInclusive s).take i ++ (splitInclusive s)[i] :: (splitInclusive s).drop (i + 1)).flatten := by
      rw [← List.drop_eq_getElem_cons hi, List.take_append_drop]
    _ = beforeLine s i ++ ((splitInclusive s)[i] ++ ((splitInclusive s).drop (i + 1)).flatten) := by
      rw [List.flatten_append, List.flatten_cons, beforeLine]
    _ = _ := by
      conv => lhs; rw [← hpiece]
      simp only [Function.comp_apply, List.append_assoc]

/-- Every line feed ends a line. -/
theorem count_le_lines (s : Str) : s.count lf ≤ (lines s).length := by
  have hpieces : ∀ ps : List Str, (∀ p ∈ ps, p ∈ splitInclusive s) → ps.flatten.count lf ≤ ps.length := by
    intro ps
    induction ps with
    | nil => simp
    | cons p ps ih =>
      intro hps
      obtain ⟨hp, hps⟩ := List.forall_mem_cons.mp hps
      have hcount := count_piece hp
      have hrest := ih hps
      rw [List.flatten_cons, List.count_append, List.length_cons]
      split at hcount <;> omega
  rw [length_lines]
  conv => lhs; rw [← splitInclusive_flatten s]
  exact hpieces _ fun p hp => hp

/-- There is a line behind the last line feed exactly where something stands there. -/
theorem count_lt_lines_iff {s : Str} : s.count lf < (lines s).length ↔ s ≠ [] ∧ s.getLast? ≠ some lf := by
  rw [length_lines]
  rcases List.eq_nil_or_concat (splitInclusive s) with hnil | ⟨ps, p, hps⟩
  · have hs : s = [] := by rw [← splitInclusive_flatten s, hnil, List.flatten_nil]
    simp [hs, splitInclusive]
  · rw [List.concat_eq_append] at hps
    have hmem : ∀ q ∈ ps, q ∈ splitInclusive s ∧ q.getLast? = some lf := by
      intro q hq
      obtain ⟨l, r, rfl⟩ := List.append_of_mem hq
      refine ⟨by rw [hps]; exact List.mem_append_left _ hq, splitInclusive_ends s l q (r ++ [p]) ?_ (by simp)⟩
      rw [hps, List.append_assoc, List.cons_append]
    have hp : p ∈ splitInclusive s := by rw [hps]; simp
    have hs : s = ps.flatten ++ p := by
      conv => lhs; rw [← splitInclusive_flatten s, hps]
      rw [List.flatten_append, List.flatten_singleton]
    have hne : p ≠ [] := splitInclusive_ne_nil s p hp
    have hcount : s.count lf = ps.length + if p.getLast? = some lf then 1 else 0 := by
      rw [hs, List.count_append, count_flatten hmem, count_piece hp]
    have hlast : s.getLast? = p.getLast? := by rw [hs, List.getLast?_append_of_ne_nil _ hne]
    have hsne : s ≠ [] := fun hnil => hne (List.append_eq_nil_iff.mp (hs ▸ hnil)).2
    rw [hcount, hps, List.length_append, List.length_singleton, hlast]
    by_cases hend : p.getLast? = some lf
    · simp [hend]
    · simp [hend, hsne]

/-! ## Lines joined again -/

theorem joinLines_inj {ls ms : List Str} (hls : ∀ l ∈ ls, lf ∉ l) (hms : ∀ m ∈ ms, lf ∉ m) (hlen : ls.length = ms.length)
    (h : joinLines ls = joinLines ms) : ls = ms := by
  by_cases hnil : ls = []
  · rw [hnil] at hlen ⊢
    exact (List.eq_nil_of_length_eq_zero hlen.symm).symm
  · have hnil' : ms ≠ [] := by
      intro he
      rw [he] at hlen
      exact hnil (List.eq_nil_of_length_eq_zero hlen)
    rw [← List.splitOn_intercalate lf hls hnil, ← List.splitOn_intercalate lf hms hnil']
    exact congrArg (List.splitOn lf) h

/-- A line feed in no line, and in nothing that is put behind one. -/
theorem lf_not_mem_modify {ls : List Str} {mark : Str} (hls : ∀ l ∈ ls, lf ∉ l) (hmark : lf ∉ mark) (i : Nat) :
    ∀ l ∈ ls.modify i (· ++ mark), lf ∉ l := by
  intro l hl
  obtain ⟨j, hj, rfl⟩ := List.getElem_of_mem hl
  rw [List.getElem_modify]
  have hj' : j < ls.length := by simpa using hj
  split
  · rw [List.mem_append, not_or]
    exact ⟨hls _ (List.getElem_mem hj'), hmark⟩
  · exact hls _ (List.getElem_mem hj')

/-- The text tells behind which line the mark was put, if behind one. -/
theorem joinLines_modify_inj {ls : List Str} {mark : Str} (hls : ∀ l ∈ ls, lf ∉ l) (hmark : lf ∉ mark) (hne : mark ≠ [])
    {i j : Nat} (hi : i < ls.length)
    (h : joinLines (ls.modify i (· ++ mark)) = joinLines (ls.modify j (· ++ mark))) : j = i := by
  have hsame := joinLines_inj (lf_not_mem_modify hls hmark i) (lf_not_mem_modify hls hmark j) (by simp) h
  have hat := congrArg (·[i]?) hsame
  simp only [List.getElem?_modify, List.getElem?_eq_getElem hi, Option.map_eq_map, Option.map_some,
    Option.some.injEq, if_true] at hat
  by_contra hji
  rw [if_neg hji] at hat
  exact hne (List.append_right_eq_self.mp hat)

/-! ## Lines written again -/

/-- `strip_suffix('\r')`, where there is one. -/
def withoutCr (line : Str) : Str := if line.getLast? = some cr then line.dropLast else line

theorem ofPiece_terminated (line : Str) : (Segment.ofPiece (line ++ [lf])).line = withoutCr line := by
  unfold Segment.ofPiece withoutCr
  rw [if_pos List.getLast?_concat, List.dropLast_concat]
  split <;> rfl

theorem splitInclusive_terminated {ls : List Str} (h : ∀ l ∈ ls, lf ∉ l) :
    splitInclusive (ls.map (· ++ [lf])).flatten = ls.map (· ++ [lf]) := by
  induction ls with
  | nil => rfl
  | cons l ls ih =>
    obtain ⟨hl, hls⟩ := List.forall_mem_cons.mp h
    rw [List.map_cons, List.flatten_cons, List.append_assoc, List.singleton_append, splitInclusive_line hl, ih hls]

/-- Lines written with a line feed each are read again, less a carriage return that now
    stands in front of the line feed. -/
theorem lines_terminated {ls : List Str} (h : ∀ l ∈ ls, lf ∉ l) :
    lines (ls.map (· ++ [lf])).flatten = ls.map withoutCr := by
  rw [lines, segments, splitInclusive_terminated h, List.map_map, List.map_map]
  exact List.map_congr_left fun l _ => ofPiece_terminated l

end CodeQuery.Text
