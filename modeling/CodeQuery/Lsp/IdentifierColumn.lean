/-
  CodeQuery.Lsp.IdentifierColumn — where a symbol's name is looked for in its line
  (`codequery-lsp/src/oneshot.rs`, `find_identifier_column`).

  The column of a symbol is where its declaration begins; the server is asked at the
  name. Only the first occurrence from the column on is looked at, and it counts as a
  whole word when no ASCII letter or digit is beside it. So the name is found if and only
  if the column is on a character boundary of the line, and that occurrence is a whole
  identifier (`findIdentifierColumn_iff`; or none is, and the column is given back). An
  occurrence within a longer identifier hides the name behind it
  (`a_longer_identifier_hides_the_name`).
-/

import CodeQuery.Lsp.Cascade
import CodeQuery.Text.Identifiers

namespace CodeQuery.Lsp.Cascade

open CodeQuery.Text

variable (A : Alphanumeric)

/-! ## What is looked for -/

/-- No whole identifier of the name begins at the column or after it. -/
def NoneFrom (text name : Str) (column : Nat) : Prop := ∀ pos, column ≤ pos → ¬ IdentifierAt A text name pos

/-- The column of the first whole identifier from the column on, where there is one. -/
def IsIdentifierColumn (text name : Str) (column found : Nat) : Prop :=
  column ≤ found ∧ IdentifierAt A text name found ∧ ∀ pos, column ≤ pos → pos < found → ¬ IdentifierAt A text name pos

/-- There is no panic; the name's column in its line is found, or the column given back
    where it has none. -/
def FindsIdentifier (source : Str) (lineNo column : Nat) (name : Str) : Prop :=
  ∃ found, findIdentifierColumn source lineNo column name = some found ∧
    match (lines source)[lineNo - 1]? with
    | none => found = column
    | some text => IsIdentifierColumn A text name column found ∨ (NoneFrom A text name column ∧ found = column)

/-- An ASCII letter or digit is next to the place. -/
def BesideAlphanumeric (text name : Str) (pos : Nat) : Prop :=
  (0 < pos ∧ (text[pos - 1]?).any isAlphanumericByte = true) ∨ (text[pos + name.length]?).any isAlphanumericByte = true

/-- The first occurrence is a whole identifier; or none is, and it is at the column
    itself, or next to an ASCII letter or digit. -/
def FirstDecides (text name : Str) (column : Nat) : Prop :=
  isCharBoundary text column = true ∧ ∀ offset, find name (text.drop column) = some offset →
    IdentifierAt A text name (column + offset) ∨
      (NoneFrom A text name column ∧ (offset = 0 ∨ BesideAlphanumeric text name (column + offset)))

variable {A}

/-! ## Occurrences -/

theorem isWordByte_of_alphanumeric {b : UInt8} (h : isAlphanumericByte b = true) : isWordByte b = true := by
  rw [isAlphanumericByte, Bool.and_eq_true] at h
  exact h.1

theorem prefix_of_identifierAt {text name : Str} {pos : Nat} (h : IdentifierAt A text name pos) :
    name <+: text.drop pos := by
  obtain ⟨-, hhere, -⟩ := standsAt_iff.mp h.standsAt
  exact hhere

/-- A whole identifier is at the first occurrence of its name or behind it. -/
theorem find_le_of_identifierAt {text name : Str} {column pos : Nat} (h : IdentifierAt A text name pos) (hle : column ≤ pos) :
    ∃ offset, find name (text.drop column) = some offset ∧ column + offset ≤ pos :=
  find_drop_le (prefix_of_identifierAt h) hle

theorem any_alphanumeric_of_not_word {b : Option UInt8} (h : b.all (!isWordByte ·) = true) :
    b.any isAlphanumericByte = false := by
  cases b with
  | none => rfl
  | some b =>
    rw [Option.any_some, Bool.eq_false_iff]
    intro hb
    rw [Option.all_some, isWordByte_of_alphanumeric hb] at h
    cases h

/-- No ASCII letter or digit is next to a whole identifier. -/
theorem not_beside_of_identifierAt {text name : Str} {pos : Nat} (h : IdentifierAt A text name pos) :
    ¬ BesideAlphanumeric text name pos := by
  obtain ⟨hle, -, hbefore, hafter⟩ := standsAt_iff.mp h.standsAt
  intro hcase
  rcases hcase with ⟨hpos, hbeside⟩ | hbeside
  · rw [getLast?_take hle, if_pos hpos] at hbefore
    rw [any_alphanumeric_of_not_word hbefore] at hbeside
    cases hbeside
  · rw [any_alphanumeric_of_not_word hafter] at hbeside
    cases hbeside

/-! ## The first occurrence -/

/-- What is returned for an occurrence. -/
theorem findIdentifierColumn_of_find {source text name : Str} {lineNo column offset : Nat}
    (hline : (lines source)[lineNo - 1]? = some text) (hboundary : isCharBoundary text column = true)
    (hfind : find name (text.drop column) = some offset) [Decidable (BesideAlphanumeric text name (column + offset))] :
    findIdentifierColumn source lineNo column name =
      some (if BesideAlphanumeric text name (column + offset) then column else column + offset) := by
  simp only [findIdentifierColumn, hline, hboundary, if_true, hfind]
  by_cases hbeside : BesideAlphanumeric text name (column + offset)
  · rw [if_pos hbeside, if_neg]
    rw [Bool.and_eq_true, not_and_or]
    rcases hbeside with ⟨hpos, hbefore⟩ | hafter
    · left
      rw [hbefore]
      simp only [Bool.not_true, Bool.or_false, beq_iff_eq]
      omega
    · right
      rw [hafter]
      exact Bool.false_ne_true
  · rw [if_neg hbeside, if_pos]
    rw [BesideAlphanumeric, not_or, not_and, Bool.not_eq_true, Bool.not_eq_true] at hbeside
    obtain ⟨hbefore, hafter⟩ := hbeside
    rw [Bool.and_eq_true]
    refine ⟨?_, by rw [hafter]; rfl⟩
    by_cases hpos : 0 < column + offset
    · rw [hbefore hpos, Bool.not_false, Bool.or_true]
    · have hzero : column + offset = 0 := by omega
      rw [hzero]
      rfl

/-- An occurrence next to an ASCII letter or digit gives the column back, any other gives
    its place; whether that is right, the first occurrence decides. -/
theorem finds_iff_of_find {source text name : Str} {lineNo column offset : Nat}
    (hline : (lines source)[lineNo - 1]? = some text) (hboundary : isCharBoundary text column = true)
    (hfind : find name (text.drop column) = some offset) :
    FindsIdentifier A source lineNo column name ↔
      IdentifierAt A text name (column + offset) ∨
        (NoneFrom A text name column ∧ (offset = 0 ∨ BesideAlphanumeric text name (column + offset))) := by
  classical
  -- every whole identifier from the column on is at the occurrence or behind it
  have hbehind : ∀ pos, column ≤ pos → IdentifierAt A text name pos → column + offset ≤ pos := by
    intro pos hle hpos
    obtain ⟨offset', hfind', hle'⟩ := find_le_of_identifierAt hpos hle
    rw [hfind, Option.some.injEq] at hfind'
    rwa [hfind']
  have hfinds : FindsIdentifier A source lineNo column name ↔
      IsIdentifierColumn A text name column
          (if BesideAlphanumeric text name (column + offset) then column else column + offset) ∨
        (NoneFrom A text name column ∧
          (if BesideAlphanumeric text name (column + offset) then column else column + offset) = column) := by
    simp only [FindsIdentifier, findIdentifierColumn_of_find hline hboundary hfind, Option.some.injEq, hline,
      exists_eq_left']
  rw [hfinds]
  by_cases hbeside : BesideAlphanumeric text name (column + offset)
  · rw [if_pos hbeside]
    have hnot : ¬ IdentifierAt A text name (column + offset) := fun h => not_beside_of_identifierAt h hbeside
    constructor
    · intro hcase
      rcases hcase with ⟨hle, hat, -⟩ | ⟨hnone, -⟩
      · have hzero : offset = 0 := by
          have := hbehind column hle hat
          omega
        rw [hzero] at hnot
        exact absurd hat hnot
      · exact .inr ⟨hnone, .inr hbeside⟩
    · intro hcase
      rcases hcase with hat | ⟨hnone, -⟩
      · exact absurd hat hnot
      · exact .inr ⟨hnone, rfl⟩
  · rw [if_neg hbeside]
    constructor
    · intro hcase
      rcases hcase with ⟨-, hat, -⟩ | ⟨hnone, heq⟩
      · exact .inl hat
      · exact .inr ⟨hnone, .inl (by omega)⟩
    · intro hcase
      rcases hcase with hat | ⟨hnone, hzero | hbeside'⟩
      · refine .inl ⟨Nat.le_add_right column offset, hat, ?_⟩
        intro pos hle hlt hpos
        have := hbehind pos hle hpos
        omega
      · exact .inr ⟨hnone, by omega⟩
      · exact absurd hbeside' hbeside

/-- For every text, line, column and name: the name's column is found if and only if the
    column is on a character boundary of the line and the first occurrence decides. -/
theorem findIdentifierColumn_iff (source : Str) (lineNo column : Nat) (name : Str) :
    FindsIdentifier A source lineNo column name ↔
      ∀ text, (lines source)[lineNo - 1]? = some text → FirstDecides A text name column := by
  cases hline : (lines source)[lineNo - 1]? with
  | none => simp [FindsIdentifier, findIdentifierColumn, hline]
  | some text =>
    simp only [Option.some.injEq, forall_eq']
    by_cases hboundary : isCharBoundary text column = true
    · cases hfind : find name (text.drop column) with
      | none =>
        have hnone : NoneFrom A text name column := by
          intro pos hle hpos
          obtain ⟨offset, hoffset, -⟩ := find_le_of_identifierAt hpos hle
          rw [hfind] at hoffset
          cases hoffset
        refine iff_of_true ⟨column, ?_, ?_⟩ ⟨hboundary, fun offset hoffset => ?_⟩
        · simp only [findIdentifierColumn, hline, hboundary, if_true, hfind]
        · rw [hline]
          exact .inr ⟨hnone, rfl⟩
        · rw [hfind] at hoffset
          cases hoffset
      | some offset =>
        rw [finds_iff_of_find hline hboundary hfind]
        simp only [FirstDecides, hboundary, hfind, Option.some.injEq, forall_eq', true_and]
    · -- the slice of the line panics
      refine iff_of_false (fun h => ?_) fun h => hboundary h.1
      obtain ⟨found, hfound, -⟩ := h
      rw [findIdentifierColumn] at hfound
      simp only [hline, hboundary] at hfound
      cases hfound

/-- The letters and digits of ASCII. -/
def asciiLetters : Alphanumeric := ⟨Char.isAlphanum, fun _ h => h⟩

/-- `foo` is the second word of the line, and the column is given back for it; past the
    end of the line there is a panic. -/
theorem a_longer_identifier_hides_the_name :
    IdentifierAt asciiLetters (str "foobar foo") (str "foo") 7 ∧
      findIdentifierColumn (str "foobar foo") 1 0 (str "foo") = some 0 ∧
      ¬ FindsIdentifier asciiLetters (str "foobar foo") 1 0 (str "foo") ∧
      findIdentifierColumn (str "foobar foo") 1 11 (str "foo") = none := by
  have hat : IdentifierAt asciiLetters (str "foobar foo") (str "foo") 7 :=
    ⟨"foobar ", "", by decide, by decide, by decide, by decide⟩
  have hfound : findIdentifierColumn (str "foobar foo") 1 0 (str "foo") = some 0 := by decide
  refine ⟨hat, hfound, ?_, by decide⟩
  intro h
  obtain ⟨found, hsome, hspec⟩ := h
  rw [hfound, Option.some.injEq] at hsome
  have hline : (lines (str "foobar foo"))[1 - 1]? = some (str "foobar foo") := by decide
  rw [hline, ← hsome] at hspec
  rcases hspec with ⟨-, hzero, -⟩ | ⟨hnone, -⟩
  · -- an `a` follows the occurrence at the column
    apply not_beside_of_identifierAt hzero
    right
    decide
  · exact hnone 7 (by omega) hat

end CodeQuery.Lsp.Cascade
