/-
  CodeQuery.Text.Identifiers — identifiers by character, words by byte.

  An identifier is made of letters and digits of any script, and of underscores. A
  character that is none of these is no word character, and none of its bytes is a word
  byte; so what stands between such characters stands between bytes that are none
  (`IdentifierAt.standsAt`). What stands by itself in a line does so in the text
  (`StandsAt.of_line`).
-/

import CodeQuery.Text.Lines
import CodeQuery.Text.Search
import CodeQuery.Text.Words

namespace CodeQuery.Text

/-- `char::is_alphanumeric`: the letters and digits of every script, ASCII among them. -/
structure Alphanumeric where
  isAlphanumeric : Char → Bool
  ascii : ∀ c : Char, c.isAlphanum = true → isAlphanumeric c = true

variable (A : Alphanumeric)

/-- `c.is_alphanumeric() || c == '_'`. -/
def isIdentifierChar (c : Char) : Bool := A.isAlphanumeric c || c == '_'

/-- The name stands in the text, with no character of an identifier on either side. -/
def IdentifierAt (text name : Str) (pos : Nat) : Prop :=
  ∃ before after : String, text = str before ++ name ++ str after ∧ (str before).length = pos ∧
    before.toList.getLast?.all (!isIdentifierChar A ·) = true ∧ after.toList.head?.all (!isIdentifierChar A ·) = true

variable {A}

theorem not_isWordChar {c : Char} (h : isIdentifierChar A c = false) : isWordChar c = false := by
  rw [isIdentifierChar, Bool.or_eq_false_iff] at h
  obtain ⟨hletter, hunderscore⟩ := h
  rw [isWordChar, hunderscore, Bool.or_false, Bool.eq_false_iff]
  intro hascii
  rw [A.ascii c hascii] at hletter
  cases hletter

/-- A text behind which no identifier goes on. -/
theorem getLast_not_word {before : String} (h : before.toList.getLast?.all (!isIdentifierChar A ·) = true) :
    (str before).getLast?.all (!isWordByte ·) = true := by
  rw [str_eq_flatMap]
  rcases List.eq_nil_or_concat before.toList with hnil | ⟨cs, c, hlast⟩
  · rw [hnil]
    rfl
  · rw [hlast, List.concat_eq_append] at h ⊢
    have hc : isWordChar c = false := not_isWordChar (A := A) (by simpa using h)
    rw [List.flatMap_append, List.flatMap_cons, List.flatMap_nil, List.append_nil,
      List.getLast?_append_of_ne_nil _ String.utf8EncodeChar_ne_nil, Option.all_eq_true]
    intro b hb
    rw [utf8EncodeChar_no_word hc b (List.mem_of_getLast? hb)]
    rfl

/-- A text before which no identifier goes on. -/
theorem head_not_word {after : String} (h : after.toList.head?.all (!isIdentifierChar A ·) = true) :
    (str after).head?.all (!isWordByte ·) = true := by
  rw [str_eq_flatMap]
  cases hcs : after.toList with
  | nil => rfl
  | cons c cs =>
    rw [hcs] at h
    have hc : isWordChar c = false := not_isWordChar (A := A) (by simpa using h)
    rw [List.flatMap_cons, List.head?_append_of_ne_nil _ String.utf8EncodeChar_ne_nil]
    exact utf8EncodeChar_not_word hc

theorem IdentifierAt.standsAt {text name : Str} {pos : Nat} (h : IdentifierAt A text name pos) :
    StandsAt name text pos := by
  obtain ⟨before, after, htext, hpos, hbefore, hafter⟩ := h
  exact ⟨str before, str after, htext, hpos, getLast_not_word hbefore, head_not_word hafter⟩

/-! ## In a line of a text -/

/-- What comes before a piece of a text is nothing, or ends in a line feed. -/
theorem flatten_before {s p : Str} {l r : List Str} (h : splitInclusive s = l ++ p :: r) :
    l.flatten.getLast?.all (!isWordByte ·) = true := by
  rcases List.eq_nil_or_concat l with rfl | ⟨pre, q, rfl⟩
  · rfl
  · rw [List.concat_eq_append] at h ⊢
    have hlast : q.getLast? = some lf := by
      apply splitInclusive_ends s pre q (p :: r)
      · rw [h, List.append_assoc]
        rfl
      · exact List.cons_ne_nil p r
    have hne : q ≠ [] := by
      rintro rfl
      cases hlast
    rw [List.flatten_append, List.flatten_singleton, List.getLast?_append_of_ne_nil _ hne, hlast]
    rfl

/-- What comes behind the line of a piece is nothing, or begins with a line ending. -/
theorem flatten_behind {s p : Str} {l r : List Str} (h : splitInclusive s = l ++ p :: r) :
    ((Segment.ofPiece p).ending ++ r.flatten).head?.all (!isWordByte ·) = true := by
  rcases ofPiece_ending p with hending | hending | hending
  · have hr : r = [] := by
      by_contra hne
      rcases ofPiece_ending_lf (splitInclusive_ends s l p r h hne) with hlf | hcrlf
      · rw [hending] at hlf
        cases hlf
      · rw [hending] at hcrlf
        cases hcrlf
    rw [hending, hr]
    rfl
  · rw [hending]
    rfl
  · rw [hending]
    rfl

theorem StandsAt.of_line {word line s : Str} {pos : Nat} (hline : line ∈ lines s) (h : StandsAt word line pos) :
    ∃ q, StandsAt word s q := by
  obtain ⟨before, after, htext, -, hbefore, hafter⟩ := h
  obtain ⟨g, hg, rfl⟩ := List.mem_map.mp hline
  obtain ⟨p, hp, rfl⟩ := List.mem_map.mp hg
  obtain ⟨l, r, hpieces⟩ := List.append_of_mem hp
  have hs : s = l.flatten ++ ((before ++ word ++ after) ++ (Segment.ofPiece p).ending) ++ r.flatten := by
    have hflat := splitInclusive_flatten s
    have hpiece := Segment.ofPiece_text p
    rw [Segment.text, htext] at hpiece
    rw [hpieces, List.flatten_append, List.flatten_cons] at hflat
    rw [hpiece, List.append_assoc, hflat]
  refine ⟨_, l.flatten ++ before, after ++ ((Segment.ofPiece p).ending ++ r.flatten), ?_, rfl, ?_, ?_⟩
  · rw [hs]
    simp only [List.append_assoc]
  · rcases List.eq_nil_or_concat before with rfl | ⟨_, b, rfl⟩
    · rw [List.append_nil]
      exact flatten_before hpieces
    · rwa [List.getLast?_append_of_ne_nil _ (by simp)]
  · cases after with
    | nil => exact flatten_behind hpieces
    | cons b after => exact hafter

end CodeQuery.Text
