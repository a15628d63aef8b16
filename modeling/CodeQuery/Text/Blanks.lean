/-
  CodeQuery.Text.Blanks — what trimming takes away of a text
  (`trim`, `trim_start_matches` of a text and `trim_end_matches` of a character).

  Trimming loses blanks only: the characters that are none are as many as before
  (`visible_trim`). A pattern is taken away in front as often as it stands there.
-/

import CodeQuery.Text.Chars

namespace CodeQuery.Text

/-! ## Blanks -/

def Blank (cs : List Char) : Prop := ∀ c ∈ cs, isWhitespace c = true

/-- How many characters are no blanks. -/
def visible (cs : List Char) : Nat := cs.countP fun c => !isWhitespace c

theorem visible_append (cs ds : List Char) : visible (cs ++ ds) = visible cs + visible ds := List.countP_append

theorem visible_eq_zero_iff {cs : List Char} : visible cs = 0 ↔ Blank cs := by
  rw [visible, List.countP_eq_zero]
  simp [Blank]

theorem visible_trimStart (cs : List Char) : visible (trimStart cs) = visible cs := by
  induction cs with
  | nil => rfl
  | cons c cs ih =>
    by_cases hblank : isWhitespace c = true
    · rw [trimStart, List.dropWhile_cons_of_pos hblank, ← trimStart, ih, visible, visible,
        List.countP_cons_of_neg (by simp [hblank])]
    · rw [trimStart, List.dropWhile_cons_of_neg hblank]

theorem visible_reverse (cs : List Char) : visible cs.reverse = visible cs := List.countP_reverse

theorem visible_trim (cs : List Char) : visible (trim cs) = visible cs := by
  rw [trim, trimEnd, visible_reverse, ← trimStart, visible_trimStart, visible_reverse, visible_trimStart]

theorem trimStart_blank {g : List Char} (hg : Blank g) : trimStart g = [] := List.dropWhile_eq_nil_iff.mpr hg

theorem trimStart_blanks {g cs : List Char} (hg : Blank g) : trimStart (g ++ cs) = trimStart cs :=
  List.dropWhile_append_of_pos hg

/-- The blanks around a text that has none at its ends. -/
theorem trim_between {g text g' : List Char} (hg : Blank g) (hg' : Blank g')
    (hfirst : ∀ c ∈ text.head?, isWhitespace c = false) (hlast : ∀ c ∈ text.getLast?, isWhitespace c = false) :
    trim (g ++ text ++ g') = text := by
  rw [trim, List.append_assoc, trimStart_blanks hg]
  rcases List.eq_nil_or_concat text with rfl | ⟨front, last, rfl⟩
  · rw [List.nil_append, trimStart_blank hg']
    rfl
  · rw [List.concat_eq_append] at hfirst hlast ⊢
    have hlast' : isWhitespace last = false := hlast last (by simp)
    have hstart : trimStart (front ++ [last] ++ g') = front ++ [last] ++ g' := by
      cases front with
      | nil => exact trimStart_head hlast'
      | cons c front => exact trimStart_head (hfirst c rfl)
    rw [hstart, List.append_assoc, List.singleton_append, trimEnd_blanks hlast' hg']

theorem trimEnd_append_blanks (cs : List Char) : ∃ blanks, Blank blanks ∧ cs = trimEnd cs ++ blanks := by
  refine ⟨(cs.reverse.takeWhile isWhitespace).reverse, fun c hc => ?_, ?_⟩
  · exact List.mem_takeWhile_imp (List.mem_reverse.mp hc)
  · rw [trimEnd, ← List.reverse_append, List.takeWhile_append_dropWhile, List.reverse_reverse]

theorem trimEnd_append_blank {g : List Char} (hg : Blank g) (cs : List Char) : trimEnd (cs ++ g) = trimEnd cs := by
  rw [trimEnd, List.reverse_append, List.dropWhile_append_of_pos fun c hc => hg c (List.mem_reverse.mp hc), trimEnd]

theorem trim_append_blank {g : List Char} (hg : Blank g) (cs : List Char) : trim (cs ++ g) = trim cs := by
  rw [trim, trim, trimStart, trimStart, List.dropWhile_append]
  split
  · rename_i hnone
    have hg' : g.dropWhile isWhitespace = [] := trimStart_blank hg
    rw [hg', List.isEmpty_iff.mp hnone]
  · exact trimEnd_append_blank hg _

/-! ## Patterns -/

/-- The pattern taken away in front, at most so many times. -/
def stripTimes (pat : List Char) : Nat → List Char → List Char
  | 0, cs => cs
  | n + 1, cs => if pat.isPrefixOf cs then stripTimes pat n (cs.drop pat.length) else cs

/-- `trim_start_matches` of a text, which is not empty. -/
def trimStartText (pat cs : List Char) : List Char := stripTimes pat cs.length cs

theorem stripTimes_of_le {pat : List Char} (hpat : pat ≠ []) {n m : Nat} {cs : List Char} (hn : cs.length ≤ n) (hnm : n ≤ m) :
    stripTimes pat m cs = stripTimes pat n cs := by
  induction n generalizing m cs with
  | zero =>
    have hnil : cs = [] := List.eq_nil_of_length_eq_zero (by omega)
    have hnot : ¬ pat.isPrefixOf [] = true := by
      rw [List.isPrefixOf_iff_prefix, List.prefix_nil]
      exact hpat
    rw [hnil]
    cases m with
    | zero => rfl
    | succ m => exact if_neg hnot
  | succ n ih =>
    obtain ⟨k, rfl⟩ : ∃ k, m = k + 1 := ⟨m - 1, by omega⟩
    rw [stripTimes, stripTimes]
    by_cases hpre : pat.isPrefixOf cs = true
    · have hpos : 0 < pat.length := List.length_pos_iff.mpr hpat
      rw [if_pos hpre, if_pos hpre]
      refine ih ?_ (by omega)
      rw [List.length_drop]
      omega
    · rw [if_neg hpre, if_neg hpre]

theorem trimStartText_of_not_prefix {pat cs : List Char} (h : ¬ pat <+: cs) : trimStartText pat cs = cs := by
  rw [trimStartText]
  cases hlength : cs.length with
  | zero => rfl
  | succ n => rw [stripTimes, if_neg (by rwa [List.isPrefixOf_iff_prefix])]

theorem trimStartText_append {pat : List Char} (hpat : pat ≠ []) (cs : List Char) :
    trimStartText pat (pat ++ cs) = trimStartText pat cs := by
  have hpos : 0 < pat.length := List.length_pos_iff.mpr hpat
  have hpre : pat.isPrefixOf (pat ++ cs) = true := List.isPrefixOf_iff_prefix.mpr (List.prefix_append pat cs)
  obtain ⟨k, hk⟩ : ∃ k, (pat ++ cs).length = k + 1 := ⟨(pat ++ cs).length - 1, by rw [List.length_append]; omega⟩
  rw [trimStartText, hk, stripTimes, if_pos hpre, List.drop_left, trimStartText]
  refine stripTimes_of_le hpat le_rfl ?_
  rw [List.length_append] at hk
  omega

/-- `trim_end_matches` of a character. -/
def trimEndChar (c : Char) (cs : List Char) : List Char := (cs.reverse.dropWhile (· == c)).reverse

theorem trimEndChar_append {c : Char} {cs : List Char} (h : ∀ d ∈ cs.getLast?, d ≠ c) : trimEndChar c (cs ++ [c]) = cs := by
  rw [trimEndChar, List.reverse_append, List.reverse_singleton, List.singleton_append,
    List.dropWhile_cons, if_pos (beq_self_eq_true c)]
  rcases List.eq_nil_or_concat cs with rfl | ⟨front, last, rfl⟩
  · rfl
  · rw [List.concat_eq_append] at h ⊢
    have hlast : last ≠ c := h last (by simp)
    rw [List.reverse_append, List.reverse_singleton, List.singleton_append, List.dropWhile_cons_of_neg (by simpa using hlast),
      List.reverse_cons, List.reverse_reverse]

end CodeQuery.Text
