/-
  CodeQuery.Tsg.Display — what the parser makes of the text that an expression is displayed by
  (`displayExpression`).

  The text names the nodes created for a variable (debug attributes) and stands in the texts of
  errors. It is close to the syntax of files, but for two things: the truth values are displayed
  without their sharp sign, as two names, and a string is displayed in its debug form, whose
  numbers of characters the parser does not know (`asRead`). In a file the truth values have their
  sharp sign and no character is shown by number; the two texts are one function of a form.

  Proved: an expression comes back as it was exactly when it has no truth value without its sign and
  no character that is shown by number (`asRead_eq_iff`). In the form of a file every expression does
  (`source_isFaithful`).
-/

import CodeQuery.Tsg.Ast

namespace CodeQuery.Tsg.Parser

section Read

variable (printable : Char → Bool) (form : Form)

/-- A character as the parser reads it from a debug form. -/
def readChar (c : Char) : List Char := if isNamed c || printable c then [c] else numbered c

def readString (s : String) : String := String.ofList (s.toList.flatMap (readChar printable))

def truthRead : Bool → Expression → String → Expression
  | true, e, _ => e
  | false, _, name => .unscopedVariable name

mutual

/-- An expression as the parser reads it from its text. -/
def asRead : Expression → Expression
  | .falseLiteral => truthRead form.sharp .falseLiteral "false"
  | .nullLiteral => .nullLiteral
  | .trueLiteral => truthRead form.sharp .trueLiteral "true"
  | .integerConstant value => .integerConstant value
  | .stringConstant value => .stringConstant (readString form.printable value)
  | .listLiteral elements => .listLiteral (asReadAll elements)
  | .setLiteral elements => .setLiteral (asReadAll elements)
  | .listComprehension element var value => .listComprehension (asRead element) var (asRead value)
  | .setComprehension element var value => .setComprehension (asRead element) var (asRead value)
  | .capture name => .capture name
  | .scopedVariable scope name => .scopedVariable (asRead scope) name
  | .unscopedVariable name => .unscopedVariable name
  | .call function parameters => .call function (asReadAll parameters)
  | .regexCapture matchIndex => .regexCapture matchIndex

def asReadAll : List Expression → List Expression
  | [] => []
  | e :: es => asRead e :: asReadAll es

end

end Read

/-! ## What is lost -/

variable {printable : Char → Bool}

theorem readChar_ne_nil (printable : Char → Bool) (c : Char) : readChar printable c ≠ [] := by
  rw [readChar]
  split
  · exact List.cons_ne_nil c []
  · exact List.cons_ne_nil _ _

theorem length_le_readChars (printable : Char → Bool) (cs : List Char) :
    cs.length ≤ (cs.flatMap (readChar printable)).length := by
  induction cs with
  | nil => exact Nat.le_refl 0
  | cons c cs ih =>
    have hpos := List.length_pos_iff.mpr (readChar_ne_nil printable c)
    rw [List.flatMap_cons, List.length_append, List.length_cons]
    omega

/-- Characters that are shown by number come back longer. -/
theorem readChars_eq_iff (cs : List Char) :
    cs.flatMap (readChar printable) = cs ↔ (cs.all fun c => isNamed c || printable c) = true := by
  induction cs with
  | nil => simp
  | cons c cs ih =>
    rw [List.flatMap_cons, List.all_cons, Bool.and_eq_true, ← ih]
    by_cases hc : (isNamed c || printable c) = true
    · rw [readChar, if_pos hc, List.singleton_append, List.cons.injEq]
      exact ⟨fun h => ⟨hc, h.2⟩, fun h => ⟨rfl, h.2⟩⟩
    · refine ⟨fun h => ?_, fun h => absurd h.1 hc⟩
      have hlength := congrArg List.length h
      have hle := length_le_readChars printable cs
      rw [readChar, if_neg hc, numbered, List.length_append, List.length_cons, List.length_cons, List.length_cons] at hlength
      omega

theorem readString_eq_iff (s : String) :
    readString printable s = s ↔ (s.toList.all fun c => isNamed c || printable c) = true := by
  rw [← readChars_eq_iff, readString, ← String.toList_inj, String.toList_ofList]

section Faithful

variable (form : Form)

mutual

/-- An expression without truth values, if they have no sign, and without characters that are shown by number. -/
def isFaithful : Expression → Bool
  | .falseLiteral => form.sharp
  | .nullLiteral => true
  | .trueLiteral => form.sharp
  | .integerConstant _ => true
  | .stringConstant value => value.toList.all fun c => isNamed c || form.printable c
  | .listLiteral elements => areFaithful elements
  | .setLiteral elements => areFaithful elements
  | .listComprehension element _ value => isFaithful element && isFaithful value
  | .setComprehension element _ value => isFaithful element && isFaithful value
  | .capture _ => true
  | .scopedVariable scope _ => isFaithful scope
  | .unscopedVariable _ => true
  | .call _ parameters => areFaithful parameters
  | .regexCapture _ => true

def areFaithful : List Expression → Bool
  | [] => true
  | e :: es => isFaithful e && areFaithful es

end

end Faithful

variable {form : Form}

mutual

theorem asRead_eq_iff (e : Expression) : asRead form e = e ↔ isFaithful form e = true := by
  match e with
  | .falseLiteral => cases hs : form.sharp <;> simp [asRead, isFaithful, truthRead, hs]
  | .nullLiteral => simp [asRead, isFaithful]
  | .trueLiteral => cases hs : form.sharp <;> simp [asRead, isFaithful, truthRead, hs]
  | .integerConstant value => simp [asRead, isFaithful]
  | .stringConstant value => rw [asRead, isFaithful, Expression.stringConstant.injEq, readString_eq_iff]
  | .listLiteral elements => rw [asRead, isFaithful, Expression.listLiteral.injEq, asReadAll_eq_iff elements]
  | .setLiteral elements => rw [asRead, isFaithful, Expression.setLiteral.injEq, asReadAll_eq_iff elements]
  | .listComprehension element var value =>
    rw [asRead, isFaithful, Expression.listComprehension.injEq, asRead_eq_iff element, asRead_eq_iff value, Bool.and_eq_true]
    exact ⟨fun h => ⟨h.1, h.2.2⟩, fun h => ⟨h.1, rfl, h.2⟩⟩
  | .setComprehension element var value =>
    rw [asRead, isFaithful, Expression.setComprehension.injEq, asRead_eq_iff element, asRead_eq_iff value, Bool.and_eq_true]
    exact ⟨fun h => ⟨h.1, h.2.2⟩, fun h => ⟨h.1, rfl, h.2⟩⟩
  | .capture name => simp [asRead, isFaithful]
  | .scopedVariable scope name =>
    rw [asRead, isFaithful, Expression.scopedVariable.injEq, asRead_eq_iff scope]
    exact ⟨fun h => h.1, fun h => ⟨h, rfl⟩⟩
  | .unscopedVariable name => simp [asRead, isFaithful]
  | .call function parameters =>
    rw [asRead, isFaithful, Expression.call.injEq, asReadAll_eq_iff parameters]
    exact ⟨fun h => h.2, fun h => ⟨rfl, h⟩⟩
  | .regexCapture matchIndex => simp [asRead, isFaithful]

theorem asReadAll_eq_iff (es : List Expression) : asReadAll form es = es ↔ areFaithful form es = true := by
  match es with
  | [] => simp [asReadAll, areFaithful]
  | e :: es => rw [asReadAll, areFaithful, List.cons.injEq, asRead_eq_iff e, asReadAll_eq_iff es, Bool.and_eq_true]

end

/-- The form of a file. -/
def sourceForm : Form := ⟨fun _ => true, true⟩

mutual

theorem source_isFaithful (e : Expression) : isFaithful sourceForm e = true := by
  match e with
  | .falseLiteral => rfl
  | .nullLiteral => rfl
  | .trueLiteral => rfl
  | .integerConstant value => rfl
  | .stringConstant value => simp [isFaithful, sourceForm]
  | .listLiteral elements => exact source_areFaithful elements
  | .setLiteral elements => exact source_areFaithful elements
  | .listComprehension element var value => rw [isFaithful, source_isFaithful element, source_isFaithful value, Bool.and_self]
  | .setComprehension element var value => rw [isFaithful, source_isFaithful element, source_isFaithful value, Bool.and_self]
  | .capture name => rfl
  | .scopedVariable scope name => exact source_isFaithful scope
  | .unscopedVariable name => rfl
  | .call function parameters => exact source_areFaithful parameters
  | .regexCapture matchIndex => rfl

theorem source_areFaithful (es : List Expression) : areFaithful sourceForm es = true := by
  match es with
  | [] => rfl
  | e :: es => rw [areFaithful, source_isFaithful e, source_areFaithful es, Bool.and_self]

end

end CodeQuery.Tsg.Parser
