/-
  CodeQuery.Parse.TrimmedText — what trimming does to the bytes of a text
  (`trim`, `trim_start` and `trim_end` of signatures).

  A byte that is in no blank stands in the trimmed text as often as before
  (`count_trimText`); so what is cut off at two different braces is never the same text.
  A text that ends in such a byte is what trimming the end leaves exactly where blanks
  stand behind it (`trimTextEnd_eq_iff`).
-/

import CodeQuery.Parse.SymbolText
import CodeQuery.Text.Blanks

namespace CodeQuery.Parse

open CodeQuery.Text

/-- The byte is in no blank. -/
def IsVisible (b : UInt8) : Prop := ∀ c, isWhitespace c = true → b ∉ String.utf8EncodeChar c

theorem isVisible_of_ascii {b : UInt8} (hb : b.toNat < 128) (h : isWhitespace (Char.ofNat b.toNat) = false) : IsVisible b := by
  intro c hc hmem
  have hval : c.toNat = b.toNat := ascii_mem_utf8EncodeChar hb hmem
  rw [← hval, Char.ofNat_toNat, hc] at h
  cases h

theorem isVisible_braceOpen : IsVisible braceOpen := isVisible_of_ascii (by decide) (by decide)

section Count

variable {b : UInt8}

/-- How often the byte is in the characters. -/
def countIn (b : UInt8) (cs : List Char) : Nat := (cs.flatMap String.utf8EncodeChar).count b

theorem count_str_ofList (cs : List Char) : (str (.ofList cs)).count b = countIn b cs := by
  rw [str_eq_flatMap, String.toList_ofList, countIn]

theorem countIn_reverse (cs : List Char) : countIn b cs.reverse = countIn b cs :=
  (cs.reverse_perm.flatMap_right _).count_eq b

theorem countIn_trimStart (hb : IsVisible b) (cs : List Char) : countIn b (trimStart cs) = countIn b cs := by
  induction cs with
  | nil => rfl
  | cons c cs ih =>
    by_cases hblank : isWhitespace c = true
    · have hnone : (String.utf8EncodeChar c).count b = 0 := List.count_eq_zero.mpr (hb c hblank)
      rw [trimStart, List.dropWhile_cons_of_pos hblank, ← trimStart, ih, countIn, countIn, List.flatMap_cons,
        List.count_append, hnone, Nat.zero_add]
    · rw [trimStart, List.dropWhile_cons_of_neg hblank]

theorem countIn_trimEnd (hb : IsVisible b) (cs : List Char) : countIn b (trimEnd cs) = countIn b cs := by
  rw [trimEnd, countIn_reverse, ← trimStart, countIn_trimStart hb, countIn_reverse]

theorem count_onChars {f : List Char → List Char} (hf : ∀ cs, countIn b (f cs) = countIn b cs) (s : Str) :
    (onChars f s).count b = s.count b := by
  unfold onChars
  split
  · rfl
  next t ht => rw [count_str_ofList, hf, ← count_str_ofList, String.ofList_toList, str_of_fromUtf8 ht]

theorem count_trimText (hb : IsVisible b) (s : Str) : (trimText s).count b = s.count b :=
  count_onChars (fun cs => by rw [trim, countIn_trimEnd hb, countIn_trimStart hb]) s

theorem count_trimEndMatches {c : UInt8} (hne : c ≠ b) (s : Str) : (trimEndMatches c s).count b = s.count b := by
  rw [trimEndMatches, List.count_reverse, ← List.count_reverse (l := s)]
  induction s.reverse with
  | nil => rfl
  | cons d t ih =>
    by_cases hd : (d == c) = true
    · rw [List.dropWhile_cons, if_pos hd, ih, List.count_cons_of_ne (eq_of_beq hd ▸ hne)]
    · rw [List.dropWhile_cons, if_neg hd]

end Count

/-! ## Ends -/

section Ends

variable {b : UInt8}

/-- Trimming the end takes blanks away. -/
theorem trimTextEnd_append_blanks (s : Str) : ∃ blanks, Blank blanks ∧ s = trimTextEnd s ++ str (.ofList blanks) := by
  unfold trimTextEnd onChars
  split
  · exact ⟨[], fun _ hc => absurd hc List.not_mem_nil, (List.append_nil s).symm⟩
  next t ht =>
    obtain ⟨blanks, hblank, hcs⟩ := trimEnd_append_blanks t.toList
    refine ⟨blanks, hblank, ?_⟩
    rw [← str_append, ← String.ofList_append, ← hcs, String.ofList_toList, str_of_fromUtf8 ht]

/-- The last character of a text that ends in a byte of its own is no blank. -/
theorem getLast_of_isVisible (hb : IsVisible b) {cs : List Char} (hlast : (str (.ofList cs)).getLast? = some b) :
    ∃ front c, cs = front ++ [c] ∧ isWhitespace c = false := by
  rcases List.eq_nil_or_concat cs with rfl | ⟨front, c, rfl⟩
  · cases hlast
  · rw [List.concat_eq_append] at hlast ⊢
    refine ⟨front, c, rfl, Bool.eq_false_iff.mpr fun hblank => hb c hblank ?_⟩
    have hbytes : str (.ofList (front ++ [c])) = str (.ofList front) ++ String.utf8EncodeChar c := by
      rw [str_eq_flatMap, str_eq_flatMap, String.toList_ofList, String.toList_ofList, List.flatMap_append,
        List.flatMap_singleton]
    rw [hbytes, List.getLast?_append_of_ne_nil _ String.utf8EncodeChar_ne_nil] at hlast
    exact List.mem_of_getLast? hlast

theorem trimTextEnd_eq_iff (hb : IsVisible b) {head s : Str} (htext : ∃ t, fromUtf8 head = some t)
    (hlast : head.getLast? = some b) :
    trimTextEnd s = head ↔ ∃ blanks, Blank blanks ∧ s = head ++ str (.ofList blanks) := by
  constructor
  · intro h
    rw [← h]
    exact trimTextEnd_append_blanks s
  · intro h
    obtain ⟨blanks, hblank, rfl⟩ := h
    obtain ⟨t, ht⟩ := htext
    have hhead : head = str (.ofList t.toList) := by rw [String.ofList_toList, str_of_fromUtf8 ht]
    rw [hhead] at hlast ⊢
    obtain ⟨front, c, hcs, hc⟩ := getLast_of_isVisible hb hlast
    rw [hcs, ← str_append, ← String.ofList_append, trimTextEnd, onChars, fromUtf8_str]
    dsimp only
    rw [String.toList_ofList, List.append_assoc, List.singleton_append, trimEnd_blanks hc hblank]

/-- A text that begins with such a byte is not trimmed at its start. -/
theorem trimTextStart_of_isVisible (hb : IsVisible b) {s : Str} (hfirst : s.head? = some b) : trimTextStart s = s := by
  unfold trimTextStart onChars
  split
  · rfl
  next t ht =>
    have hs := str_of_fromUtf8 ht
    cases hcs : t.toList with
    | nil =>
      rw [← hs, str_eq_flatMap, hcs] at hfirst
      cases hfirst
    | cons c cs =>
      have hc : isWhitespace c = false := by
        refine Bool.eq_false_iff.mpr fun hblank => hb c hblank ?_
        rw [← hs, str_eq_flatMap, hcs, List.flatMap_cons, List.head?_append_of_ne_nil _ String.utf8EncodeChar_ne_nil] at hfirst
        exact List.mem_of_head? hfirst
      rw [trimStart_head hc, ← hcs, String.ofList_toList, hs]

end Ends

end CodeQuery.Parse
