/-
  CodeQuery.Tsg.ParserRuns — what the parser of graph rules accepts, and where it stops.

  The parser only moves forward: after any step it stands at a place of the source at or behind
  the one before (`Parses`). An expression and each turn of a loop take a character at least, so
  the bounds on loops and nesting are never met.

  Proved:
  (1) What is passed over and read, step by step, with the place behind it (`parses_consumeToken`,
      `parses_nameOf`, `parses_string` and the others).
  (2) An expression that is parsed is well formed: its names are names, its numbers fit
      (`parses_expression`).
  (3) Where a step fails, it says where: the location of its error is that of a place in the source.
      It panics only at a number that does not fit (`Real`).
-/

import CodeQuery.Data.Worlds
import CodeQuery.Tsg.Parser

namespace CodeQuery.Tsg

/-- The location behind a text: its newlines, and the characters behind the last of them. -/
def Location.behind (text : List Char) : Location := ⟨text.count '\n', (text.reverse.takeWhile (· ≠ '\n')).length⟩

theorem Location.behind_concat (text : List Char) (c : Char) :
    Location.behind (text ++ [c]) = (Location.behind text).advance c := by
  unfold Location.behind Location.advance
  by_cases hc : c = '\n'
  · subst hc
    simp
  · simp [hc, List.count_eq_zero_of_not_mem]

end CodeQuery.Tsg

namespace CodeQuery.Tsg.Parser

open Data

/-! ## Places in the source -/

namespace Cursor

theorem pass_add (k m : Nat) (s : Cursor) : s.pass (k + m) = (s.pass k).pass m := by
  induction k generalizing s with
  | zero => rw [Nat.zero_add, pass]
  | succ k ih =>
    rw [Nat.succ_add]
    cases hr : s.rest with
    | nil =>
      have hend : ∀ j, s.pass j = s := by
        intro j
        cases j with
        | zero => rw [pass]
        | succ j => simp only [pass, hr]
      rw [hend, hend, hend]
    | cons c rest =>
      simp only [pass, hr]
      exact ih _

/-- The cursor at a place of the source. -/
def atPlace (source : List Char) (n : Nat) : Cursor := (start source).pass n

theorem pass_atPlace (source : List Char) (n k : Nat) : (atPlace source n).pass k = atPlace source (n + k) :=
  (pass_add n k _).symm

theorem pass_rest (n : Nat) (s : Cursor) : (s.pass n).rest = s.rest.drop n := by
  induction n generalizing s with
  | zero => rfl
  | succ n ih =>
    cases hr : s.rest with
    | nil => simp only [pass, hr, List.drop_nil]
    | cons c rest => simp only [pass, hr, ih, List.drop_succ_cons]

theorem atPlace_rest (source : List Char) (n : Nat) : (atPlace source n).rest = source.drop n := pass_rest n _

theorem atPlace_location (source : List Char) {n : Nat} (hn : n ≤ source.length) :
    (atPlace source n).location = Location.behind (source.take n) := by
  induction n with
  | zero => rfl
  | succ n ih =>
    have hlt : n < source.length := hn
    have hstep : (atPlace source (n + 1)).location = (atPlace source n).location.advance source[n] := by
      rw [← pass_atPlace, pass]
      simp only [atPlace_rest, List.drop_eq_getElem_cons hlt, pass]
    rw [hstep, ih (by omega), List.take_succ_eq_append_getElem hlt, Location.behind_concat]

end Cursor

/-- A location of the source. -/
def Place (source : List Char) (l : Location) : Prop := ∃ n ≤ source.length, l = Location.behind (source.take n)

/-- Digits stand in the source that are no number below `2 ^ 32`. -/
def Overflows (source : List Char) : Prop :=
  ∃ n k, (∀ c ∈ (source.drop n).take k, c.isDigit = true) ∧ 2 ^ 32 ≤ Nat.ofDigitChars 10 ((source.drop n).take k) 0

/-- A part of the source is a query that the compiler refuses, with an error that is this one where
    the part begins. -/
def Refused (G : Grammar) (source : List Char) (e : QueryError) : Prop :=
  ∃ n k e', n ≤ source.length ∧ G.newQuery (withFullMatch ((source.drop n).take k)) = .error e' ∧
    e = e'.shift (Cursor.atPlace source n)

/-- A part of the source is compiled to a query without the capture of the full match. -/
def Uncaptured (G : Grammar) (source : List Char) : Prop :=
  ∃ n k q, G.newQuery (withFullMatch ((source.drop n).take k)) = .ok q ∧ q.hasFullMatch = false

/-- An error that the parser may give for a source. -/
def Real (G : Grammar) (source : List Char) : ParseError → Prop
  | .expectedQuantifier l => Place source l
  | .expectedToken _ l => Place source l
  | .expectedVariable l => Place source l
  | .expectedUnscopedVariable l => Place source l
  | .invalidRegex _ l => Place source l
  | .invalidRegexCapture l => Place source l
  | .queryError e => Refused G source e
  | .unexpectedCharacter _ _ l => Place source l
  | .unexpectedEOF l => Place source l
  | .unexpectedKeyword _ l => Place source l
  | .unexpectedLiteral _ l => Place source l
  | .unexpectedQueryPatterns l => Place source l
  | .check _ => False
  | .panicked => Overflows source ∨ Uncaptured G source
  | .outOfFuel => False

/-- From a place in the source, a step goes to a place behind, with a result of some kind, or fails. -/
def Parses {α : Type} (G : Grammar) (source : List Char) (n : Nat) (p : Parsing α) (Q : α → Nat → Prop) : Prop :=
  n ≤ source.length → Leads (Real G source) n (Cursor.atPlace source n) p fun a n' s =>
    n' ≤ source.length ∧ s = Cursor.atPlace source n' ∧ Q a n'

section Rules

variable {α β : Type} {G : Grammar} {source : List Char} {n : Nat} {p : Parsing α} {f : α → Parsing β}
  {P : α → Nat → Prop} {Q : β → Nat → Prop}

theorem parses_bind (hp : Parses G source n p P)
    (hf : ∀ a n', n ≤ n' → n' ≤ source.length → P a n' → Parses G source n' (f a) Q) :
    Parses G source n (p >>= f) Q := by
  intro hn
  refine leads_bind (hp hn) fun a n' s hle h => ?_
  obtain ⟨hn', rfl, hP⟩ := h
  exact hf a n' hle hn' hP hn'

theorem parses_pure {a : α} (h : P a n) : Parses G source n (pure a) P := fun hn => leads_pure ⟨hn, rfl, h⟩

theorem parses_throw {e : ParseError} (h : n ≤ source.length → Real G source e) : Parses G source n (throw e) P :=
  fun hn => leads_throw (h hn)

theorem parses_conseq {P' : α → Nat → Prop} (hp : Parses G source n p P)
    (h : ∀ a n', n ≤ n' → n' ≤ source.length → P a n' → P' a n') :
    Parses G source n p P' := fun hn => leads_conseq (hp hn) fun a n' _ hle hP => ⟨hP.1, hP.2.1, h a n' hle hP.1 hP.2.2⟩

theorem place_behind (hn : n ≤ source.length) : Place source (Cursor.atPlace source n).location :=
  ⟨n, hn, Cursor.atPlace_location source hn⟩

theorem parses_location : Parses G source n location fun l n' => n' = n ∧ Place source l :=
  fun hn => leads_of_ok rfl le_rfl ⟨hn, rfl, rfl, place_behind hn⟩

end Rules

/-! ## The steps over characters -/

section Characters

variable {G : Grammar} {source : List Char} {n : Nat}

theorem parses_tryPeek : Parses G source n tryPeek fun o n' => n' = n ∧ source[n]? = o := by
  intro hn
  refine leads_of_ok rfl le_rfl ⟨hn, rfl, rfl, ?_⟩
  rw [Cursor.atPlace_rest, List.head?_drop]

/-- A step that looks at the next character: there is one, or the source ends too early. -/
theorem next_character (source : List Char) (n : Nat) :
    (source.drop n = [] ∧ (Cursor.atPlace source n).rest = []) ∨
      ∃ c rest, source[n]? = some c ∧ n < source.length ∧ (Cursor.atPlace source n).rest = c :: rest := by
  rw [Cursor.atPlace_rest]
  cases hr : source.drop n with
  | nil => exact .inl ⟨rfl, rfl⟩
  | cons c rest =>
    have hc : source[n]? = some c := by rw [← List.head?_drop, hr, List.head?_cons]
    exact .inr ⟨c, rest, hc, (List.getElem?_eq_some_iff.mp hc).1, rfl⟩

theorem parses_peek : Parses G source n peek fun c n' => n' = n ∧ source[n]? = some c ∧ n < source.length := by
  intro hn
  obtain ⟨_, hr⟩ | ⟨c, rest, hc, hlt, hr⟩ := next_character source n
  · refine leads_of_error (e := .unexpectedEOF (Cursor.atPlace source n).location) ?_ (place_behind hn)
    simp only [peek, hr]
  · refine leads_of_ok ?_ le_rfl ⟨hn, rfl, rfl, hc, hlt⟩
    simp only [peek, hr]

theorem parses_next : Parses G source n next fun c n' => n' = n + 1 ∧ source[n]? = some c := by
  intro hn
  obtain ⟨_, hr⟩ | ⟨c, rest, hc, hlt, hr⟩ := next_character source n
  · refine leads_of_error (e := .unexpectedEOF (Cursor.atPlace source n).location) ?_ (place_behind hn)
    simp only [next, hr]
  · refine leads_of_ok ?_ (Nat.le_succ n) ⟨hlt, (Cursor.pass_atPlace source n 1), rfl, hc⟩
    simp only [next, hr]

theorem blanks_le (comment : Bool) (cs : List Char) : blanks comment cs ≤ cs.length := by
  induction cs generalizing comment with
  | nil => cases comment <;> exact Nat.le_refl 0
  | cons c cs ih =>
    rw [List.length_cons]
    cases comment with
    | true => exact Nat.succ_le_succ (ih _)
    | false =>
      rw [blanks]
      split
      · exact Nat.succ_le_succ (ih _)
      split
      · exact Nat.succ_le_succ (ih _)
      · exact Nat.zero_le _

/-- A step that passes over some of the characters that are left. -/
theorem parses_pass {α : Type} {p : Parsing α} {a : α} {k : Nat} {Q : α → Nat → Prop}
    (hp : p (Cursor.atPlace source n) = .ok (a, (Cursor.atPlace source n).pass k)) (hk : k ≤ (source.drop n).length)
    (hQ : Q a (n + k)) : Parses G source n p Q := by
  intro hn
  rw [List.length_drop] at hk
  exact leads_of_ok hp (Nat.le_add_right n k) ⟨by omega, Cursor.pass_atPlace source n k, hQ⟩

theorem parses_consumeWhitespace : Parses G source n consumeWhitespace fun _ _ => True := by
  refine parses_pass rfl ?_ trivial
  rw [Cursor.atPlace_rest]
  exact blanks_le false _

theorem parses_consumeWhile (f : Char → Bool) :
    Parses G source n (consumeWhile f) fun cs n' => n' = n + cs.length ∧ cs = (source.drop n).takeWhile f := by
  refine parses_pass rfl ?_ ⟨rfl, by rw [Cursor.atPlace_rest]⟩
  rw [Cursor.atPlace_rest]
  exact (List.takeWhile_prefix f).length_le

theorem parses_consumeToken (token : String) :
    Parses G source n (consumeToken token) fun _ n' => n' = n + token.length ∧ token.toList <+: source.drop n := by
  by_cases h : token.toList.isPrefixOf (source.drop n) = true
  · have htoken := List.isPrefixOf_iff_prefix.mp h
    refine parses_pass (a := ()) ?_ htoken.length_le ⟨rfl, htoken⟩
    rw [consumeToken, Cursor.atPlace_rest, if_pos h]
    rfl
  · intro hn
    refine leads_of_error (e := .expectedToken token (Cursor.atPlace source n).location) ?_ (place_behind hn)
    rw [consumeToken, Cursor.atPlace_rest, if_neg h]

theorem parses_tryToken (token : String) :
    Parses G source n (tryToken token) fun consumed n' =>
      if consumed = true then n' = n + token.length ∧ token.toList <+: source.drop n
      else n' = n ∧ ¬ token.toList <+: source.drop n := by
  by_cases h : token.toList.isPrefixOf (source.drop n) = true
  · have htoken := List.isPrefixOf_iff_prefix.mp h
    refine parses_pass (a := true) ?_ htoken.length_le (if_pos rfl ▸ ⟨rfl, htoken⟩)
    rw [tryToken, consumeToken, Cursor.atPlace_rest, if_pos h]
    rfl
  · refine parses_pass (a := false) (k := 0) ?_ (Nat.zero_le _) ?_
    · rw [tryToken, consumeToken, Cursor.atPlace_rest, if_neg h]
      rfl
    · rw [if_neg Bool.false_ne_true]
      exact ⟨rfl, fun hp => h (List.isPrefixOf_iff_prefix.mpr hp)⟩

end Characters

/-! ## What is accepted -/

variable (G : Grammar)

def IsName (name : Identifier) : Prop :=
  ∃ c cs, name = String.ofList (c :: cs) ∧ isIdentStart G c = true ∧ ∀ d ∈ cs, isIdent G d = true

/-- An expression that a file can hold. -/
inductive WellFormed : Expression → Prop
  | falseLiteral : WellFormed .falseLiteral
  | nullLiteral : WellFormed .nullLiteral
  | trueLiteral : WellFormed .trueLiteral
  | integerConstant {value : Nat} (h : value < 2 ^ 32) : WellFormed (.integerConstant value)
  | stringConstant {value : String} : WellFormed (.stringConstant value)
  | listLiteral {elements : List Expression} (h : ∀ e ∈ elements, WellFormed e) : WellFormed (.listLiteral elements)
  | setLiteral {elements : List Expression} (h : ∀ e ∈ elements, WellFormed e) : WellFormed (.setLiteral elements)
  | listComprehension {element value : Expression} {var : Identifier} (he : WellFormed element) (hvar : IsName G var)
      (hvalue : WellFormed value) : WellFormed (.listComprehension element var value)
  | setComprehension {element value : Expression} {var : Identifier} (he : WellFormed element) (hvar : IsName G var)
      (hvalue : WellFormed value) : WellFormed (.setComprehension element var value)
  | capture {name : Identifier} (h : IsName G name) : WellFormed (.capture name)
  | scopedVariable {scope : Expression} {name : Identifier} (hscope : WellFormed scope) (hname : IsName G name) :
      WellFormed (.scopedVariable scope name)
  | unscopedVariable {name : Identifier} (h : IsName G name) : WellFormed (.unscopedVariable name)
  | call {function : Identifier} {parameters : List Expression} (hfunction : IsName G function)
      (h : ∀ e ∈ parameters, WellFormed e) : WellFormed (.call function parameters)
  | regexCapture {matchIndex : Nat} (h : matchIndex < 2 ^ 64) : WellFormed (.regexCapture matchIndex)

/-- The name that an expression begins with, if it does. -/
def leadingName : Expression → List Char
  | .unscopedVariable name => name.toList
  | .scopedVariable scope _ => leadingName scope
  | _ => []

/-- What a parser of expressions gives at a place: it takes a character at least, and the expression
    is well formed. -/
structure ExpressionAt (source : List Char) (n : Nat) (e : Expression) (n' : Nat) : Prop where
  behind : n < n'
  wellFormed : WellFormed G e
  leading : leadingName e <+: source.drop n

variable {G} {source : List Char} {n : Nat}

/-! ## Names, strings and numbers -/

theorem parses_nameOf (within : String) :
    Parses G source n (nameOf G within) fun name n' => n < n' ∧ IsName G name ∧ name.toList <+: source.drop n := by
  refine parses_bind parses_next fun c n₁ _ _ hc => ?_
  obtain ⟨rfl, hc⟩ := hc
  split
  next hstart =>
    refine parses_bind (parses_consumeWhile _) fun cs n₂ _ _ hcs => ?_
    obtain ⟨rfl, hcs⟩ := hcs
    refine parses_pure ⟨by omega, ⟨c, cs, rfl, hstart, ?_⟩, ?_⟩
    · intro d hd
      rw [hcs] at hd
      exact List.mem_takeWhile_imp hd
    · have hdrop : source.drop n = c :: source.drop (n + 1) := by
        obtain ⟨hlt, rfl⟩ := List.getElem?_eq_some_iff.mp hc
        exact List.drop_eq_getElem_cons hlt
      rw [hdrop, String.toList_ofList, List.cons_prefix_cons]
      exact ⟨rfl, hcs ▸ List.takeWhile_prefix _⟩
  next => exact parses_bind parses_location fun l _ _ _ hl => parses_throw fun _ => hl.2

theorem stringBody_length {escaped : Bool} {cs value : List Char} {k : Nat} (h : stringBody escaped cs = some (value, k)) :
    k ≤ cs.length := by
  induction cs generalizing escaped value k with
  | nil => cases escaped <;> simp [stringBody] at h
  | cons c cs ih =>
    have hrest : ∀ {b : Bool} {f : List Char × Nat → List Char},
        (stringBody b cs).map (fun r => (f r, r.2 + 1)) = some (value, k) →
        k ≤ (c :: cs).length := by
      intro b f hr
      obtain ⟨r, hbody, heq⟩ := Option.map_eq_some_iff.mp hr
      obtain ⟨-, rfl⟩ := Prod.mk.inj heq
      exact Nat.succ_le_succ (ih hbody)
    cases escaped with
    | true => exact hrest h
    | false =>
      rw [stringBody] at h
      split at h
      · obtain ⟨-, rfl⟩ := Prod.mk.inj (Option.some.inj h)
        exact Nat.succ_le_succ (Nat.zero_le _)
      split at h
      · exact hrest h
      · exact hrest h

theorem parses_stringBody : Parses G source n parseStringBody fun _ _ => True := by
  intro hn
  cases hbody : stringBody false (source.drop n) with
  | none =>
    refine leads_of_error (e := .unexpectedEOF (Cursor.atPlace source (n + (source.drop n).length)).location) ?_ ?_
    · rw [parseStringBody, Cursor.atPlace_rest, hbody, Cursor.pass_atPlace]
    · refine place_behind ?_
      rw [List.length_drop]
      omega
  | some r =>
    refine parses_pass (a := String.ofList r.1) ?_ (stringBody_length hbody) trivial hn
    rw [parseStringBody, Cursor.atPlace_rest, hbody]

theorem parses_string : Parses G source n parseString fun _ n' => n < n' :=
  parses_bind (parses_consumeToken _) fun _ _ _ _ hquote => parses_conseq parses_stringBody fun _ n' hle _ _ => by
    rw [hquote.1] at hle
    exact hle

/-- The digits at a place, as a number. -/
theorem parses_number {bound m : Nat} {digits : List Char} (hdigits : digits = (source.drop m).takeWhile Char.isDigit)
    (hbound : 2 ^ 32 ≤ bound) :
    Parses G source n (liftM (number bound digits)) fun value n' => n' = n ∧ value < bound := by
  intro hn
  refine leads_liftM ?_ ?_
  · intro value hvalue
    rw [number] at hvalue
    split at hvalue
    next hlt => exact ⟨hn, rfl, rfl, Except.ok.inj hvalue ▸ hlt⟩
    next => cases hvalue
  · intro e he
    rw [number] at he
    split at he
    next => cases he
    next hge =>
      obtain rfl := Except.error.inj he
      have htake : (source.drop m).take digits.length = digits := by
        rw [hdigits]
        exact (List.prefix_iff_eq_take.mp (List.takeWhile_prefix _)).symm
      refine .inl ⟨m, digits.length, ?_, by rw [htake]; omega⟩
      rw [htake]
      intro c hc
      rw [hdigits] at hc
      exact List.mem_takeWhile_imp hc

theorem parses_integerConstant {c : Char} (hc : source[n]? = some c) (hdigit : c.isDigit = true) :
    Parses G source n parseIntegerConstant fun e n' => ExpressionAt G source n e n' := by
  refine parses_bind (parses_consumeWhile _) fun digits n₁ _ _ hdigits => ?_
  obtain ⟨rfl, hdigits⟩ := hdigits
  refine parses_bind (parses_number hdigits le_rfl) fun value n₂ _ _ hvalue => ?_
  obtain ⟨rfl, hvalue⟩ := hvalue
  refine parses_pure ⟨?_, .integerConstant hvalue, List.nil_prefix⟩
  obtain ⟨hlt, rfl⟩ := List.getElem?_eq_some_iff.mp hc
  rw [hdigits, List.drop_eq_getElem_cons hlt, List.takeWhile_cons_of_pos hdigit, List.length_cons]
  omega

theorem parses_regexCapture : Parses G source n parseRegexCapture fun e n' => ExpressionAt G source n e n' := by
  refine parses_bind parses_location fun l n₁ _ _ hl => ?_
  obtain ⟨rfl, hl⟩ := hl
  refine parses_bind (parses_consumeToken _) fun _ n₂ _ _ hdollar => ?_
  refine parses_bind (parses_consumeWhile _) fun digits n₃ _ _ hdigits => ?_
  split
  next => exact parses_throw fun _ => hl
  next =>
    refine parses_bind (parses_number hdigits.2 (by decide)) fun value n₄ _ _ hvalue => ?_
    refine parses_pure ⟨?_, .regexCapture hvalue.2, List.nil_prefix⟩
    have hone : "$".length = 1 := rfl
    omega

theorem parses_literal : Parses G source n (parseLiteral G) fun e n' => ExpressionAt G source n e n' := by
  refine parses_bind parses_location fun l n₁ _ _ hl => ?_
  refine parses_bind (parses_consumeToken _) fun _ n₂ _ _ hsharp => ?_
  refine parses_bind (parses_nameOf _) fun literal n₃ _ _ hname => ?_
  have hlt : n < n₃ := by omega
  split
  · exact parses_pure ⟨hlt, .falseLiteral, List.nil_prefix⟩
  split
  · exact parses_pure ⟨hlt, .nullLiteral, List.nil_prefix⟩
  split
  · exact parses_pure ⟨hlt, .trueLiteral, List.nil_prefix⟩
  · exact parses_throw fun _ => hl.2

theorem parses_capture : Parses G source n (parseCapture G) fun e n' => ExpressionAt G source n e n' :=
  parses_bind (parses_consumeToken _) fun _ _ _ _ hat => parses_bind (parses_nameOf _) fun _ _ _ _ hname =>
    parses_pure ⟨by omega, .capture hname.2.1, List.nil_prefix⟩

/-! ## Expressions -/

theorem parses_bounded {α : Type} {loop : Nat → Parsing α} {Q : α → Nat → Prop}
    (h : Parses G source n (loop (source.length - n + 1)) Q) :
    Parses G source n (bounded loop) Q := by
  intro hn
  have hbounded : bounded loop (Cursor.atPlace source n) = loop (source.length - n + 1) (Cursor.atPlace source n) := by
    rw [bounded, Cursor.atPlace_rest, List.length_drop]
  unfold Leads
  rw [hbounded]
  exact h hn

/-- A parser of expressions and their locations, from a place behind a given one. -/
def ExpressionsBehind (G : Grammar) (source : List Char) (n : Nat) (expression : Parsing Located) : Prop :=
  ∀ m, n < m → Parses G source m expression fun e m' => ExpressionAt G source m e.1 m' ∧ Place source e.2

def WellFormedVariable (G : Grammar) (source : List Char) : Variable → Prop
  | .scoped scope name l => WellFormed G scope ∧ IsName G name ∧ Place source l
  | .unscoped name l => IsName G name ∧ Place source l

section Parts

variable {expression : Parsing Located} (hexpression : ExpressionsBehind G source n expression) {m : Nat} (hm : n < m)

include hexpression hm

theorem parses_variable : Parses G source m (parseVariable expression) fun v m' => m < m' ∧ WellFormedVariable G source v := by
  refine parses_bind parses_location fun l m₁ _ _ hl => ?_
  obtain ⟨rfl, hl⟩ := hl
  refine parses_bind (hexpression m₁ hm) fun e m₂ _ _ he => ?_
  obtain ⟨⟨hbehind, hwf, -⟩, hplace⟩ := he
  obtain ⟨e, l'⟩ := e
  cases hwf with
  | scopedVariable hscope hname => exact parses_pure ⟨hbehind, hscope, hname, hplace⟩
  | unscopedVariable hname => exact parses_pure ⟨hbehind, hname, hplace⟩
  | _ => exact parses_throw fun _ => hl

theorem parses_unscopedVariable : Parses G source m (parseUnscopedVariable expression) fun name m' => m < m' ∧ IsName G name := by
  refine parses_bind (parses_variable hexpression hm) fun v m₁ _ _ hv => ?_
  obtain ⟨scope, name, l⟩ | ⟨name, l⟩ := v
  · exact parses_throw fun _ => hv.2.2.2
  · exact parses_pure ⟨hv.1, hv.2.1⟩

theorem parses_parameters {k : Nat} (hk : source.length - m < k) :
    Parses G source m (parseParameters expression k) fun es _ => ∀ e ∈ es, WellFormed G e := by
  induction k generalizing m with
  | zero => exact absurd hk (Nat.not_lt_zero _)
  | succ k ih =>
    refine parses_bind parses_peek fun c m₁ _ _ hc => ?_
    obtain ⟨rfl, -, -⟩ := hc
    split
    · exact parses_pure (by simp)
    refine parses_bind (hexpression m₁ hm) fun e m₂ _ hm₂ he => ?_
    refine parses_bind parses_consumeWhitespace fun _ m₃ hle _ _ => ?_
    have hbehind := he.1.behind
    refine parses_bind (ih (by omega) (by omega)) fun es m₄ _ _ hes => parses_pure ?_
    rw [List.forall_mem_cons]
    exact ⟨he.1.wellFormed, hes⟩

theorem parses_sequence (marker : Char) {k : Nat} (hk : source.length - m < k) :
    Parses G source m (parseSequence expression marker k) fun es _ => ∀ e ∈ es, WellFormed G e := by
  induction k generalizing m with
  | zero => exact absurd hk (Nat.not_lt_zero _)
  | succ k ih =>
    refine parses_bind parses_peek fun c m₁ _ _ hc => ?_
    obtain ⟨rfl, -, -⟩ := hc
    split
    · exact parses_pure (by simp)
    refine parses_bind (hexpression m₁ hm) fun e m₂ _ hm₂ he => ?_
    refine parses_bind parses_consumeWhitespace fun _ m₃ _ _ _ => ?_
    refine parses_bind parses_peek fun c' m₄ _ _ hc' => ?_
    obtain ⟨rfl, -, -⟩ := hc'
    split
    · refine parses_pure ?_
      rw [List.forall_mem_singleton]
      exact he.1.wellFormed
    refine parses_bind (parses_consumeToken _) fun _ m₅ _ _ _ => ?_
    refine parses_bind parses_consumeWhitespace fun _ m₆ _ _ _ => ?_
    have hbehind := he.1.behind
    refine parses_bind (ih (by omega) (by omega)) fun es m₇ _ _ hes => parses_pure ?_
    rw [List.forall_mem_cons]
    exact ⟨he.1.wellFormed, hes⟩

omit hm

theorem parses_call : Parses G source n (parseCall G expression) fun e n' => ExpressionAt G source n e n' := by
  refine parses_bind (parses_consumeToken _) fun _ n₁ _ _ hopen => ?_
  have hone : "(".length = 1 := rfl
  refine parses_bind parses_consumeWhitespace fun _ n₂ _ _ _ => ?_
  refine parses_bind (parses_nameOf _) fun function n₃ _ _ hname => ?_
  refine parses_bind parses_consumeWhitespace fun _ n₄ _ _ _ => ?_
  refine parses_bind (parses_bounded (parses_parameters hexpression (by omega) (Nat.lt_succ_self _)))
    fun parameters n₅ _ _ hes => ?_
  refine parses_bind (parses_consumeToken _) fun _ n₆ _ _ _ => ?_
  exact parses_pure ⟨by omega, .call hname.2.1 hes, List.nil_prefix⟩

theorem parses_collection {opening closing : String} {marker : Char} {literal : List Expression → Expression}
    {comprehension : Expression → Identifier → Expression → Expression} (hopening : 0 < opening.length)
    (hliteral : ∀ es, (∀ e ∈ es, WellFormed G e) → WellFormed G (literal es))
    (hcomprehension : ∀ e var v, WellFormed G e → IsName G var → WellFormed G v → WellFormed G (comprehension e var v))
    (hleading : ∀ es e var v, leadingName (literal es) = [] ∧ leadingName (comprehension e var v) = []) :
    Parses G source n (parseCollection expression opening closing marker literal comprehension) fun e n' =>
      ExpressionAt G source n e n' := by
  have hgiven : ∀ {es n'}, n < n' → (∀ e ∈ es, WellFormed G e) → ExpressionAt G source n (literal es) n' := by
    intro es n' hlt hes
    exact ⟨hlt, hliteral es hes, (hleading es .nullLiteral "" .nullLiteral).1 ▸ List.nil_prefix⟩
  refine parses_bind (parses_consumeToken _) fun _ n₁ _ _ hopen => ?_
  refine parses_bind parses_consumeWhitespace fun _ n₂ _ _ _ => ?_
  refine parses_bind (parses_tryToken _) fun isEmpty n₃ _ _ _ => ?_
  split
  · exact parses_pure (hgiven (by omega) (by simp))
  refine parses_bind (hexpression n₃ (by omega)) fun first n₄ _ _ hfirst => ?_
  refine parses_bind parses_consumeWhitespace fun _ n₅ _ _ _ => ?_
  refine parses_bind (parses_tryToken _) fun isSingle n₆ _ _ _ => ?_
  split
  · exact parses_pure (hgiven (by omega) (List.forall_mem_singleton.mpr hfirst.1.wellFormed))
  refine parses_bind (parses_tryToken _) fun isLiteral n₇ _ _ _ => ?_
  split
  · refine parses_bind parses_consumeWhitespace fun _ n₈ _ _ _ => ?_
    have hbound := parses_sequence hexpression (m := n₈) (by omega) marker (Nat.lt_succ_self _)
    refine parses_bind (parses_bounded hbound) fun elements n₉ _ _ hes => ?_
    refine parses_bind parses_consumeWhitespace fun _ n₁₀ _ _ _ => ?_
    refine parses_bind (parses_consumeToken _) fun _ n₁₁ _ _ _ => ?_
    exact parses_pure (hgiven (by omega) (List.forall_mem_cons.mpr ⟨hfirst.1.wellFormed, hes⟩))
  · refine parses_bind (parses_consumeToken _) fun _ n₈ _ _ _ => ?_
    refine parses_bind parses_consumeWhitespace fun _ n₉ _ _ _ => ?_
    refine parses_bind (parses_unscopedVariable hexpression (by omega)) fun var n₁₀ _ _ hvar => ?_
    refine parses_bind parses_consumeWhitespace fun _ n₁₁ _ _ _ => ?_
    refine parses_bind (parses_consumeToken _) fun _ n₁₂ _ _ _ => ?_
    refine parses_bind parses_consumeWhitespace fun _ n₁₃ _ _ _ => ?_
    refine parses_bind (hexpression n₁₃ (by omega)) fun value n₁₄ _ _ hvalue => ?_
    refine parses_bind parses_consumeWhitespace fun _ n₁₅ _ _ _ => ?_
    refine parses_bind (parses_consumeToken _) fun _ n₁₆ _ _ _ => ?_
    refine parses_pure ⟨by omega, hcomprehension _ _ _ hfirst.1.wellFormed hvar.2 hvalue.1.wellFormed, ?_⟩
    exact (hleading [] first.1 var value.1).2 ▸ List.nil_prefix

theorem parses_byChar {c : Char} (hc : source[n]? = some c) {l : Location} (hl : Place source l) :
    Parses G source n (parseByChar G expression c l) fun e n' => ExpressionAt G source n e n' := by
  unfold parseByChar
  split
  · exact parses_literal
  split
  · exact parses_bind parses_string fun _ _ _ _ hlt => parses_pure ⟨hlt, .stringConstant, List.nil_prefix⟩
  split
  · exact parses_capture
  split
  · exact parses_regexCapture
  split
  · exact parses_call hexpression
  split
  · exact parses_collection hexpression Nat.one_pos (fun _ => .listLiteral) (fun _ _ _ => .listComprehension)
      fun _ _ _ _ => ⟨rfl, rfl⟩
  split
  · exact parses_collection hexpression Nat.one_pos (fun _ => .setLiteral) (fun _ _ _ => .setComprehension)
      fun _ _ _ _ => ⟨rfl, rfl⟩
  split
  next hdigit => exact parses_integerConstant hc hdigit
  split
  · refine parses_bind (parses_nameOf _) fun name n₁ _ _ hname => ?_
    exact parses_pure ⟨hname.1, .unscopedVariable hname.2.1, hname.2.2⟩
  · exact parses_throw fun _ => hl

end Parts

theorem parses_scoped {m k : Nat} (hk : source.length - m < k) {e : Located} (he : ExpressionAt G source n e.1 m)
    (hl : Place source e.2) :
    Parses G source m (parseScoped G k e) fun e' m' => ExpressionAt G source n e'.1 m' ∧ Place source e'.2 := by
  induction k generalizing m e with
  | zero => exact absurd hk (Nat.not_lt_zero _)
  | succ k ih =>
    refine parses_bind parses_tryPeek fun c m₁ _ _ hc => ?_
    obtain ⟨rfl, -⟩ := hc
    split
    · refine parses_bind parses_next fun _ m₂ _ _ hdot => ?_
      refine parses_bind parses_consumeWhitespace fun _ m₃ _ _ _ => ?_
      refine parses_bind parses_location fun l m₄ _ _ hplace => ?_
      refine parses_bind (parses_nameOf _) fun name m₅ _ _ hname => ?_
      refine parses_bind parses_consumeWhitespace fun _ m₆ _ _ _ => ?_
      have hbehind := he.behind
      exact ih (by omega) ⟨by omega, .scopedVariable he.wellFormed hname.2.1, he.leading⟩ hplace.2
    · exact parses_pure ⟨he, hl⟩

/-- With enough depth, an expression is parsed at any place. -/
theorem parses_located {depth : Nat} (hdepth : source.length - n < depth) :
    Parses G source n (parseLocated G depth) fun e n' => ExpressionAt G source n e.1 n' ∧ Place source e.2 := by
  induction depth generalizing n with
  | zero => exact absurd hdepth (Nat.not_lt_zero _)
  | succ depth ih =>
    have hprimary : Parses G source n (parsePrimary G (parseLocated G depth))
        fun e n' => ExpressionAt G source n e.1 n' ∧ Place source e.2 := by
      refine parses_bind parses_location fun l n₁ _ _ hl => ?_
      obtain ⟨rfl, hl⟩ := hl
      refine parses_bind parses_peek fun c n₂ _ _ hc => ?_
      obtain ⟨rfl, hc, hlt⟩ := hc
      have hnested : ExpressionsBehind G source n₂ (parseLocated G depth) := fun m hm => ih (by omega)
      exact parses_bind (parses_byChar hnested hc hl) fun e n₃ _ _ he => parses_pure ⟨he, hl⟩
    refine parses_bind hprimary fun e n₁ _ _ he => ?_
    refine parses_bind parses_consumeWhitespace fun _ n₂ hle _ _ => ?_
    have hbehind : ExpressionAt G source n e.1 n₂ := ⟨he.1.behind.trans_le hle, he.1.wellFormed, he.1.leading⟩
    exact parses_bounded (parses_scoped (Nat.lt_succ_self _) hbehind he.2)

theorem parses_expression : Parses G source n (parseExpression G) fun e n' => ExpressionAt G source n e.1 n' ∧ Place source e.2 :=
  parses_bounded (parses_located (Nat.lt_succ_self _))

theorem expressions_behind : ExpressionsBehind G source n (parseExpression G) := fun _ _ => parses_expression

end CodeQuery.Tsg.Parser
