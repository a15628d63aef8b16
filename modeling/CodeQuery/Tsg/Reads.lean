/-
  CodeQuery.Tsg.Reads — following the parser of graph rules over a text that is known.

  With a text next and another behind it, a step reads the first one, and stands at the second
  (`Reads`). A name or a number is read up to where no name goes on, a string up to its quote.

  Proved:
  (1) The rules that put steps together, and those of each step over characters (`reads_bind`,
      `reads_token`, `reads_whitespace` and the others).
  (2) A name, a number and the debug form of a string are read as they stand (`reads_nameOf`,
      `reads_integerConstant`, `reads_string`).
  (3) An expression is displayed with a first character that is no blank and no delimiter
      (`display_starts`).
-/

import CodeQuery.Tsg.Display
import CodeQuery.Tsg.ParserRuns

namespace CodeQuery.Tsg.Parser

open Data

/-! ## Reading a text -/

/-- With a text next and another behind it, a step reads the first one and gives a result of some kind. -/
def Reads {α : Type} (p : Parsing α) (t v : List Char) (A : α → Prop) : Prop :=
  ∀ s : Cursor, s.rest = t ++ v → ∃ a, A a ∧ p s = .ok (a, s.pass t.length)

namespace Cursor

theorem rest_pass {s : Cursor} {t v : List Char} (h : s.rest = t ++ v) : (s.pass t.length).rest = v := by
  rw [pass_rest, h, List.drop_left]

end Cursor

section Reads

variable {α β : Type} {p : Parsing α} {f : α → Parsing β} {t u v : List Char} {A : α → Prop} {B : β → Prop}

theorem reads_bind (hp : Reads p t (u ++ v) A) (hf : ∀ a, A a → Reads (f a) u v B) : Reads (p >>= f) (t ++ u) v B := by
  intro s hs
  rw [List.append_assoc] at hs
  obtain ⟨a, ha, hpa⟩ := hp s hs
  obtain ⟨b, hb, hfb⟩ := hf a ha _ (Cursor.rest_pass hs)
  refine ⟨b, hb, ?_⟩
  rw [bind_of_ok hpa, hfb, List.length_append, Cursor.pass_add]

/-- A step that reads nothing, and then another. -/
theorem reads_bind_nil (hp : Reads p [] (t ++ v) A) (hf : ∀ a, A a → Reads (f a) t v B) : Reads (p >>= f) t v B :=
  reads_bind hp hf

/-- A step that reads a text, and then one that reads nothing. -/
theorem reads_bind_last (hp : Reads p t v A) (hf : ∀ a, A a → Reads (f a) [] v B) : Reads (p >>= f) t v B := by
  have h := reads_bind (u := []) hp hf
  rwa [List.append_nil] at h

theorem reads_pure {a : α} (h : A a) : Reads (pure a) [] v A := fun _ _ => ⟨a, h, rfl⟩

theorem reads_location : Reads location [] v fun _ => True := fun s _ => ⟨s.location, trivial, rfl⟩

theorem reads_tryPeek : Reads tryPeek [] v fun c => c = v.head? := fun _ hs => ⟨_, congrArg List.head? hs, rfl⟩

theorem reads_peek {c : Char} : Reads peek [] (c :: v) fun d => d = c := by
  intro s hs
  refine ⟨c, rfl, ?_⟩
  rw [List.nil_append] at hs
  simp only [peek, hs]
  rfl

theorem reads_next {c : Char} : Reads next [c] v fun d => d = c := by
  intro s hs
  refine ⟨c, rfl, ?_⟩
  rw [List.singleton_append] at hs
  simp only [next, hs]
  rfl

/-- Blanks and nothing else stand between a text and what is behind it. -/
theorem reads_whitespace (h : blanks false (t ++ v) = t.length) : Reads consumeWhitespace t v fun _ => True := by
  intro s hs
  refine ⟨(), trivial, ?_⟩
  rw [consumeWhitespace, hs, h]

theorem reads_while {g : Char → Bool} (htext : ∀ c ∈ t, g c = true) (hrest : ∀ c, v.head? = some c → g c = false) :
    Reads (consumeWhile g) t v fun cs => cs = t := by
  intro s hs
  have htaken : s.rest.takeWhile g = t := by
    rw [hs, List.takeWhile_append_of_pos htext]
    cases v with
    | nil => rw [List.takeWhile_nil, List.append_nil]
    | cons c v =>
      rw [List.takeWhile_cons_of_neg (Bool.not_eq_true _ ▸ hrest c rfl), List.append_nil]
  refine ⟨t, rfl, ?_⟩
  rw [consumeWhile, htaken]

theorem reads_token (token : String) : Reads (consumeToken token) token.toList v fun _ => True := by
  intro s hs
  refine ⟨(), trivial, ?_⟩
  have hprefix : token.toList.isPrefixOf s.rest = true := by
    rw [hs]
    exact List.isPrefixOf_iff_prefix.mpr (List.prefix_append _ _)
  rw [consumeToken, if_pos hprefix]
  rfl

theorem reads_tryToken (token : String) : Reads (tryToken token) token.toList v fun b => b = true := by
  intro s hs
  obtain ⟨_, -, h⟩ := reads_token token s hs
  exact ⟨true, rfl, by rw [tryToken, h]⟩

theorem reads_noToken {token : String} (h : ¬ token.toList <+: v) : Reads (tryToken token) [] v fun b => b = false := by
  intro s hs
  have hprefix : ¬ token.toList.isPrefixOf s.rest = true := by
    rw [hs]
    exact fun hp => h (List.isPrefixOf_iff_prefix.mp hp)
  refine ⟨false, rfl, ?_⟩
  rw [tryToken, consumeToken, if_neg hprefix]
  rfl

theorem reads_bounded {loop : Nat → Parsing α} (h : Reads (loop ((t ++ v).length + 1)) t v A) : Reads (bounded loop) t v A := by
  intro s hs
  obtain ⟨a, ha, hloop⟩ := h s hs
  refine ⟨a, ha, ?_⟩
  rw [bounded, hs, hloop]

theorem reads_number {bound value : Nat} (h : value < bound) :
    Reads (liftM (number bound (Nat.toDigits 10 value))) [] v fun v => v = value := by
  intro s _
  refine ⟨value, rfl, ?_⟩
  rw [number, Nat.ofDigitChars_ten_toDigits, if_pos h]
  rfl

end Reads

/-! ## Names, numbers and strings -/

variable {G : Grammar} {printable : Char → Bool} {form : Form} {rest : List Char}

/-- No name or number goes on in a text. -/
def Stops (G : Grammar) (rest : List Char) : Prop := ∀ c, rest.head? = some c → isIdent G c = false

theorem reads_nameOf {name : Identifier} (h : IsName G name) (hrest : Stops G rest) (within : String) :
    Reads (nameOf G within) name.toList rest fun n => n = name := by
  obtain ⟨c, cs, rfl, hstart, hcs⟩ := h
  rw [String.toList_ofList]
  refine reads_bind (t := [c]) reads_next fun d hd => ?_
  subst hd
  rw [if_pos hstart]
  exact reads_bind_last (reads_while hcs hrest) fun ds hds => reads_pure (hds ▸ rfl)

theorem range_of_isDigit {c : Char} (h : c.isDigit = true) : 48 ≤ c.toNat ∧ c.toNat ≤ 57 := by
  simp only [Char.isDigit, Bool.and_eq_true, decide_eq_true_eq, ge_iff_le, UInt32.le_iff_toNat_le] at h
  exact h

theorem range_of_isAlpha {c : Char} (h : c.isAlpha = true) : (65 ≤ c.toNat ∧ c.toNat ≤ 90) ∨ 97 ≤ c.toNat ∧ c.toNat ≤ 122 := by
  unfold Char.isAlpha Char.isUpper Char.isLower at h
  simp only [Bool.or_eq_true, Bool.and_eq_true, decide_eq_true_eq, ge_iff_le, UInt32.le_iff_toNat_le] at h
  exact h

theorem isDigit_isIdent {c : Char} (h : c.isDigit = true) : isIdent G c = true := by
  have hrange := range_of_isDigit h
  rw [isIdent, (G.letters.ofAscii c (by omega)).2, Char.isAlphanum, h, Bool.or_true, Bool.or_true]

theorem stops_digit (h : Stops G rest) : ∀ c, rest.head? = some c → c.isDigit = false := by
  intro c hc
  by_contra hdigit
  rw [Bool.not_eq_false] at hdigit
  exact absurd (h c hc) (by rw [isDigit_isIdent hdigit]; decide)

theorem reads_digits (h : Stops G rest) (value : Nat) :
    Reads (consumeWhile Char.isDigit) (Nat.toDigits 10 value) rest fun cs => cs = Nat.toDigits 10 value :=
  reads_while (fun _ hc => Nat.isDigit_of_mem_toDigits (by decide) (by decide) hc) (stops_digit h)

theorem reads_integerConstant {value : Nat} (h : value < 2 ^ 32) (hrest : Stops G rest) :
    Reads parseIntegerConstant (Nat.toDigits 10 value) rest fun e => e = .integerConstant value := by
  refine reads_bind_last (reads_digits hrest value) fun cs hcs => ?_
  subst hcs
  refine reads_bind_nil (reads_number h) fun v hv => ?_
  exact reads_pure (hv ▸ rfl)

theorem reads_regexCapture {value : Nat} (h : value < 2 ^ 64) (hrest : Stops G rest) :
    Reads parseRegexCapture ('$' :: Nat.toDigits 10 value) rest fun e => e = .regexCapture value := by
  refine reads_bind_nil reads_location fun l _ => ?_
  refine reads_bind (t := "$".toList) (reads_token "$") fun _ _ => ?_
  refine reads_bind_last (reads_digits hrest value) fun cs hcs => ?_
  subst hcs
  rw [if_neg Nat.toDigits_ne_nil]
  exact reads_bind_nil (reads_number h) fun v hv => reads_pure (hv ▸ rfl)

theorem stringBody_plain {cs : List Char} (h : ∀ c ∈ cs, c ≠ '"' ∧ c ≠ '\\') (rest : List Char) :
    stringBody false (cs ++ rest) = (stringBody false rest).map fun r => (cs ++ r.1, r.2 + cs.length) := by
  induction cs with
  | nil =>
    show stringBody false rest = _
    cases stringBody false rest <;> rfl
  | cons c cs ih =>
    obtain ⟨⟨hquote, hbackslash⟩, hcs⟩ := List.forall_mem_cons.mp h
    rw [List.cons_append, stringBody, if_neg hquote, if_neg hbackslash, ih hcs, Option.map_map]
    rfl

theorem unescape_escapeName {c : Char} (h : isNamed c = true) : unescape (escapeName c) = c := by
  simp only [isNamed, Bool.or_eq_true, beq_iff_eq] at h
  obtain ((((rfl | rfl) | rfl) | rfl) | rfl) | rfl := h <;> rfl

theorem numbered_plain (c : Char) :
    ∀ d ∈ '\x7b' :: ((Nat.digits 16 c.toNat).reverse.map Nat.digitChar ++ ['\x7d']), d ≠ '"' ∧ d ≠ '\\' := by
  intro d hd
  rcases List.mem_cons.mp hd with rfl | hd
  · decide
  rcases List.mem_append.mp hd with hd | hd
  · obtain ⟨k, hk, rfl⟩ := List.mem_map.mp hd
    have hlt : k < 16 := Nat.digits_lt_base (by decide) (List.mem_reverse.mp hk)
    have hall : ∀ k < 16, Nat.digitChar k ≠ '"' ∧ Nat.digitChar k ≠ '\\' := by decide
    exact hall k hlt
  · obtain rfl := List.mem_singleton.mp hd
    decide

theorem stringBody_debugChar (c : Char) (rest : List Char) :
    stringBody false (debugChar printable c ++ rest) =
      (stringBody false rest).map fun r => (readChar printable c ++ r.1, r.2 + (debugChar printable c).length) := by
  by_cases hnamed : isNamed c = true
  · rw [debugChar, if_pos hnamed, readChar, hnamed, Bool.true_or, if_pos rfl]
    show (stringBody true (escapeName c :: rest)).map _ = _
    rw [stringBody, unescape_escapeName hnamed, Option.map_map]
    rfl
  by_cases hprintable : printable c = true
  · rw [debugChar, if_neg hnamed, if_pos hprintable, readChar, hprintable, Bool.or_true, if_pos rfl]
    refine stringBody_plain ?_ rest
    rw [List.forall_mem_singleton]
    constructor <;> rintro rfl <;> exact hnamed rfl
  · have hread : readChar printable c = numbered c := by
      rw [readChar, Bool.eq_false_iff.mpr hnamed, Bool.eq_false_iff.mpr hprintable]; rfl
    rw [debugChar, if_neg hnamed, if_neg hprintable, hread]
    show (stringBody true (numbered c ++ rest)).map _ = _
    rw [numbered, List.cons_append, stringBody, stringBody_plain (numbered_plain c), Option.map_map, Option.map_map]
    rfl

theorem stringBody_debug (cs rest : List Char) :
    stringBody false (cs.flatMap (debugChar printable) ++ '"' :: rest) =
      some (cs.flatMap (readChar printable), (cs.flatMap (debugChar printable)).length + 1) := by
  induction cs with
  | nil => rfl
  | cons c cs ih =>
    rw [List.flatMap_cons, List.append_assoc, stringBody_debugChar, ih]
    simp only [Option.map_some, List.flatMap_cons, List.length_append]
    congr 2
    omega

theorem reads_string (s : String) : Reads parseString (debugString printable s) rest fun t => t = readString printable s := by
  refine reads_bind (t := "\"".toList) (u := s.toList.flatMap (debugChar printable) ++ ['"']) (reads_token "\"") fun _ _ => ?_
  intro cursor hcursor
  refine ⟨_, rfl, ?_⟩
  rw [List.append_assoc, List.singleton_append] at hcursor
  rw [parseStringBody, hcursor, stringBody_debug]
  simp only [List.length_append, List.length_singleton]
  rfl

theorem reads_capture {name : Identifier} (hname : IsName G name) (hrest : Stops G rest) :
    Reads (parseCapture G) ('@' :: name.toList) rest fun e => e = .capture name := by
  refine reads_bind (t := "@".toList) (reads_token "@") fun _ _ => ?_
  exact reads_bind_last (reads_nameOf hname hrest _) fun n hn => reads_pure (hn ▸ rfl)

/-! ## The first character of an expression -/

theorem isIdentStart_ascii {c : Char} (h : c.toNat < 128) : isIdentStart G c = (c == '_' || c.isAlpha) := by
  rw [isIdentStart, (G.letters.ofAscii c h).1]

theorem isIdent_ascii {c : Char} (h : c.toNat < 128) : isIdent G c = (c == '_' || c == '-' || c.isAlphanum) := by
  rw [isIdent, (G.letters.ofAscii c h).2]

theorem isName_letters {name : Identifier} {c : Char} {cs : List Char} (hname : name.toList = c :: cs)
    (h : ((c :: cs).all fun d => decide (d.toNat < 128) && d.isAlpha) = true) : IsName G name := by
  have hletters : ∀ d ∈ c :: cs, d.toNat < 128 ∧ d.isAlpha = true := fun d hd => by simpa using List.all_eq_true.mp h d hd
  refine ⟨c, cs, by rw [← hname, String.ofList_toList], ?_, fun d hd => ?_⟩
  · obtain ⟨hascii, halpha⟩ := hletters c List.mem_cons_self
    rw [isIdentStart_ascii hascii, halpha, Bool.or_true]
  · obtain ⟨hascii, halpha⟩ := hletters d (List.mem_cons_of_mem _ hd)
    rw [isIdent_ascii hascii, Char.isAlphanum, halpha, Bool.true_or, Bool.or_true]

theorem isIdentStart_of_isDigit {c : Char} (h : c.isDigit = true) : isIdentStart G c = false := by
  have hrange := range_of_isDigit h
  have hunderscore : c ≠ '_' := by
    rintro rfl
    exact absurd h (by decide)
  rw [isIdentStart_ascii (by omega), Bool.or_eq_false_iff, beq_eq_false_iff_ne]
  refine ⟨hunderscore, ?_⟩
  rw [Bool.eq_false_iff]
  intro halpha
  have hletter := range_of_isAlpha halpha
  omega

/-- A character that an expression may begin with. -/
def Starts (G : Grammar) (c : Char) : Prop :=
  c ∈ ['#', '"', '@', '$', '(', '[', '\x7b'] ∨ c.isDigit = true ∨ isIdentStart G c = true

/-- A character between or behind expressions. -/
abbrev IsDelimiter (c : Char) : Prop := c ∈ [',', ')', ']', '\x7d', ' ', '.']

theorem delimiter_facts : ∀ c, IsDelimiter c → c.toNat < 128 ∧ (c == '_' || c == '-' || c.isAlphanum) = false ∧
    c ∉ ['#', '"', '@', '$', '(', '[', '\x7b'] ∧ c.isDigit = false ∧ (c == '_' || c.isAlpha) = false := by
  intro c hc
  simp only [IsDelimiter, List.mem_cons, List.not_mem_nil, or_false] at hc
  rcases hc with rfl | rfl | rfl | rfl | rfl | rfl <;> decide

theorem delimiter_stops {c : Char} (h : IsDelimiter c) (rest : List Char) : Stops G (c :: rest) := by
  intro d hd
  obtain rfl : c = d := Option.some.inj hd
  obtain ⟨hascii, hletter, -⟩ := delimiter_facts c h
  rw [isIdent_ascii hascii, hletter]

theorem starts_ne_delimiter {c d : Char} (hc : Starts G c) (hd : IsDelimiter d) : c ≠ d := by
  rintro rfl
  obtain ⟨hascii, -, hspecial, hdigit, hletter⟩ := delimiter_facts c hd
  rcases hc with hc | hc | hc
  · exact hspecial hc
  · exact absurd hc (by rw [hdigit]; decide)
  · exact absurd hc (by rw [isIdentStart_ascii hascii, hletter]; decide)

theorem starts_solid {c : Char} (hc : Starts G c) (rest : List Char) : blanks false (c :: rest) = 0 := by
  have hsemicolon : c ≠ ';' := by
    rintro rfl
    rcases hc with hc | hc | hc
    · exact absurd hc (by decide)
    · exact absurd hc (by decide)
    · rw [isIdentStart_ascii (by decide)] at hc
      exact absurd hc (by decide)
  have hblank : Text.isWhitespace c = false := by
    rcases hc with hc | hc | hc
    · simp only [List.mem_cons, List.not_mem_nil, or_false] at hc
      rcases hc with rfl | rfl | rfl | rfl | rfl | rfl | rfl <;> decide
    · exact Text.isWhitespace_of_isDigit hc
    · rw [isIdentStart, Bool.or_eq_true, beq_iff_eq] at hc
      rcases hc with rfl | hc
      · decide
      · exact G.letters.notWhitespace c (G.letters.alphanumeric c hc)
  rw [blanks, if_neg hsemicolon, if_neg (by rw [hblank]; decide)]

theorem name_starts {name : Identifier} (h : IsName G name) : ∃ c cs, name.toList = c :: cs ∧ Starts G c := by
  obtain ⟨c, cs, rfl, hstart, -⟩ := h
  exact ⟨c, cs, String.toList_ofList, .inr (.inr hstart)⟩

theorem digits_start (value : Nat) : ∃ c cs, Nat.toDigits 10 value = c :: cs ∧ c.isDigit = true := by
  cases hdigits : Nat.toDigits 10 value with
  | nil => exact absurd hdigits Nat.toDigits_ne_nil
  | cons c cs =>
    refine ⟨c, cs, rfl, ?_⟩
    exact Nat.isDigit_of_mem_toDigits (b := 10) (n := value) (by decide) (by decide) (hdigits ▸ List.mem_cons_self)

theorem truth_starts (sharp : Bool) {name : String} {c : Char} {cs : List Char} (hname : name.toList = c :: cs)
    (hc : c.toNat < 128 ∧ c.isAlpha = true) :
    ∃ c cs, truthText sharp name = c :: cs ∧ Starts G c := by
  cases sharp with
  | true => exact ⟨'#', _, rfl, .inl (by decide)⟩
  | false => exact ⟨c, cs, hname, .inr (.inr (by rw [isIdentStart_ascii hc.1, hc.2, Bool.or_true]))⟩

theorem display_starts (form : Form) {e : Expression} (h : WellFormed G e) :
    ∃ c cs, displayExpression form e = c :: cs ∧ Starts G c := by
  induction h with
  | falseLiteral => exact truth_starts form.sharp (c := 'f') rfl (by decide)
  | nullLiteral => exact ⟨'#', _, rfl, .inl (by decide)⟩
  | trueLiteral => exact truth_starts form.sharp (c := 't') rfl (by decide)
  | integerConstant =>
    obtain ⟨c, cs, hdigits, hc⟩ := digits_start _
    exact ⟨c, cs, hdigits, .inr (.inl hc)⟩
  | stringConstant => exact ⟨'"', _, rfl, .inl (by decide)⟩
  | listLiteral => exact ⟨'[', _, rfl, .inl (by decide)⟩
  | setLiteral => exact ⟨'\x7b', _, rfl, .inl (by decide)⟩
  | listComprehension => exact ⟨'[', _, rfl, .inl (by decide)⟩
  | setComprehension => exact ⟨'\x7b', _, rfl, .inl (by decide)⟩
  | capture => exact ⟨'@', _, rfl, .inl (by decide)⟩
  | scopedVariable _ _ ih =>
    obtain ⟨c, cs, hscope, hc⟩ := ih
    exact ⟨c, _, by rw [displayExpression, hscope, List.cons_append], hc⟩
  | unscopedVariable hname =>
    obtain ⟨c, cs, htext, hc⟩ := name_starts hname
    exact ⟨c, cs, htext, hc⟩
  | call => exact ⟨'(', _, rfl, .inl (by decide)⟩
  | regexCapture => exact ⟨'$', _, rfl, .inl (by decide)⟩

theorem display_solid {e : Expression} (h : WellFormed G e) (rest : List Char) :
    blanks false (displayExpression form e ++ rest) = 0 := by
  obtain ⟨c, cs, htext, hc⟩ := display_starts form h
  rw [htext]
  exact starts_solid hc _

theorem name_solid {name : Identifier} (h : IsName G name) (rest : List Char) : blanks false (name.toList ++ rest) = 0 := by
  obtain ⟨c, cs, htext, hc⟩ := name_starts h
  rw [htext]
  exact starts_solid hc _

end CodeQuery.Tsg.Parser
