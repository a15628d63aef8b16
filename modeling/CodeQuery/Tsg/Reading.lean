/-
  CodeQuery.Tsg.Reading — expressions as they are displayed, read again.

  An expression is read up to its first dot by its first character, and then dot by dot. So the
  induction over an expression says that the parser reads its text and goes on with the scoped
  names behind it (`ReadsBack`); where none stand there, the expression was read (`reads_part`).

  Proved:
  (1) The text of a well-formed expression is read to its end, as the expression itself but for what
      its form loses (`written_is_read_back`). What is displayed loses the signs of truth values and
      the characters that are shown by number (`display_is_read_back`).
  (2) Expressions that lose nothing are displayed differently (`display_injective`).
-/

import CodeQuery.Tsg.Reads

namespace CodeQuery.Tsg.Parser

open Data

variable {G : Grammar} {form : Form} {rest : List Char}

/-! ## Reading an expression back -/

/-- The scoped names behind an expression, after blanks. -/
def scopedAfter (G : Grammar) (e : Located) : Parsing Located := do
  consumeWhitespace
  bounded fun n => parseScoped G n e

theorem parseLocated_succ (d : Nat) : parseLocated G (d + 1) = parsePrimary G (parseLocated G d) >>= scopedAfter G := rfl

/-- With an expression's text next, the parser reads it and goes on with the scoped names behind it. -/
def ReadsBack (G : Grammar) (form : Form) (e : Expression) : Prop :=
  ∀ d rest, Stops G rest → (displayExpression form e ++ rest).length < d → ∀ s :
    Cursor, s.rest = displayExpression form e ++ rest →
    ∃ l, ∀ r, scopedAfter G (asRead form e, l) (s.pass (displayExpression form e).length) = .ok r → parseLocated G d s = .ok r

/-- No scoped name stands in front of a text. -/
def NoDot (rest : List Char) : Prop := rest.head? ≠ some '.'

theorem reads_after {w : List Char} (hw : blanks false (w ++ rest) = w.length) (hrest : NoDot rest) (e : Located) :
    Reads (scopedAfter G e) w rest fun e' => e' = e := by
  refine reads_bind_last (reads_whitespace hw) fun _ _ => reads_bounded ?_
  rw [parseScoped]
  refine reads_bind_nil reads_tryPeek fun c hc => ?_
  have hnone : ¬ c = some '.' := hc ▸ hrest
  rw [if_neg hnone]
  exact reads_pure rfl

/-- An expression with blanks behind it, and no scoped name. -/
theorem reads_part {e : Expression} (h : ReadsBack G form e) {w : List Char} (hw : blanks false (w ++ rest) = w.length)
    (hrest : NoDot rest) (hstops : Stops G (w ++ rest)) {d : Nat} (hd : (displayExpression form e ++ (w ++ rest)).length < d) :
    Reads (parseLocated G d) (displayExpression form e ++ w) rest fun r => r.1 = asRead form e := by
  intro s hs
  rw [List.append_assoc] at hs
  obtain ⟨l, hl⟩ := h d (w ++ rest) hstops hd s hs
  obtain ⟨r, hr, hafter⟩ := reads_after hw hrest (asRead form e, l) _ (Cursor.rest_pass hs)
  refine ⟨r, by rw [hr], ?_⟩
  rw [hl _ hafter, List.length_append, Cursor.pass_add]

/-- An expression that is read by its first character. -/
theorem readsBack_of_byChar {e : Expression} {c : Char} {cs : List Char} (htext : displayExpression form e = c :: cs)
    (h : ∀ d rest l, Stops G rest → (c :: cs ++ rest).length < d + 1 →
      Reads (parseByChar G (parseLocated G d) c l) (c :: cs) rest fun e' => e' = asRead form e) : ReadsBack G form e := by
  intro d rest hstops hd s hs
  rw [htext] at hd hs ⊢
  cases d with
  | zero => exact absurd hd (Nat.not_lt_zero _)
  | succ d =>
    have hprimary : Reads (parsePrimary G (parseLocated G d)) (c :: cs) rest fun r => r.1 = asRead form e := by
      refine reads_bind_nil reads_location fun l _ => ?_
      refine reads_bind_nil (reads_peek : Reads peek [] (c :: cs ++ rest) fun d => d = c) fun c' hc' => ?_
      subst hc'
      exact reads_bind_last (h d rest l hstops hd) fun e' he' => reads_pure he'
    obtain ⟨⟨e', l⟩, he', hs'⟩ := hprimary s hs
    obtain rfl : e' = asRead form e := he'
    refine ⟨l, fun r hr => ?_⟩
    rw [parseLocated_succ, bind_of_ok hs', hr]

theorem parseByChar_name {expression : Parsing Located} {c : Char} (h : isIdentStart G c = true) (l : Location) :
    parseByChar G expression c l = (parseIdentifier G "variable name" >>= fun name => pure (.unscopedVariable name)) := by
  have hne : ∀ d : Char, d.toNat < 128 → (d == '_' || d.isAlpha) = false → c ≠ d := by
    rintro d hascii hletter rfl
    rw [isIdentStart_ascii hascii, hletter] at h
    exact absurd h (by decide)
  have hdigit : ¬ c.isDigit = true := by
    intro hdigit
    rw [isIdentStart_of_isDigit hdigit] at h
    exact absurd h (by decide)
  rw [parseByChar, if_neg (hne '#' (by decide) (by decide)), if_neg (hne '"' (by decide) (by decide)),
    if_neg (hne '@' (by decide) (by decide)), if_neg (hne '$' (by decide) (by decide)), if_neg (hne '(' (by decide) (by decide)),
    if_neg (hne '[' (by decide) (by decide)), if_neg (hne '\x7b' (by decide) (by decide)), if_neg hdigit, if_pos h]

theorem parseByChar_digit {expression : Parsing Located} {c : Char} (h : c.isDigit = true) (l : Location) :
    parseByChar G expression c l = parseIntegerConstant := by
  have hne : ∀ d : Char, d.isDigit = false → c ≠ d := by
    rintro d hd rfl
    rw [hd] at h
    exact absurd h (by decide)
  rw [parseByChar, if_neg (hne '#' (by decide)), if_neg (hne '"' (by decide)), if_neg (hne '@' (by decide)),
    if_neg (hne '$' (by decide)),
    if_neg (hne '(' (by decide)), if_neg (hne '[' (by decide)), if_neg (hne '\x7b' (by decide)), if_pos h]

/-- An expression that is displayed as a name is read as the variable of that name. -/
theorem readsBack_name {e : Expression} {name : Identifier} (hname : IsName G name)
    (htext : displayExpression form e = name.toList) (hread : asRead form e = .unscopedVariable name) :
    ReadsBack G form e := by
  obtain ⟨c, cs, rfl, hstart, hcs⟩ := id hname
  rw [String.toList_ofList] at htext
  refine readsBack_of_byChar htext fun d rest l hstops _ => ?_
  rw [parseByChar_name hstart]
  have hreads := reads_nameOf hname hstops "variable name"
  rw [String.toList_ofList] at hreads
  exact reads_bind_last hreads fun n hn => reads_pure (by rw [hread, hn])

theorem readsBack_integerConstant {value : Nat} (h : value < 2 ^ 32) : ReadsBack G form (.integerConstant value) := by
  obtain ⟨c, cs, hdigits, hc⟩ := digits_start value
  refine readsBack_of_byChar hdigits fun d rest l hstops _ => ?_
  rw [parseByChar_digit hc, ← hdigits]
  exact reads_integerConstant h hstops

theorem readsBack_stringConstant (value : String) : ReadsBack G form (.stringConstant value) := by
  refine readsBack_of_byChar (c := '"') rfl fun d rest l _ _ => ?_
  exact reads_bind_last (reads_string value) fun t ht => reads_pure (by rw [ht, asRead])

/-- An expression that is displayed as a sharp sign and a name is read as a literal. -/
theorem readsBack_sharp {e : Expression} {name : Identifier} (hname : IsName G name)
    (htext : displayExpression form e = '#' :: name.toList)
    (hliteral : ∀ l rest, Reads (if name = "false" then pure .falseLiteral else if name =
      "null" then pure .nullLiteral else if name = "true" then pure .trueLiteral else throw (.unexpectedLiteral name l))
      [] rest fun e' => e' = asRead form e) :
    ReadsBack G form e := by
  refine readsBack_of_byChar htext fun d rest l hstops _ => ?_
  refine reads_bind_nil reads_location fun l' _ => ?_
  refine reads_bind (t := "#".toList) (u := name.toList) (reads_token "#") fun _ _ => ?_
  refine reads_bind_last (reads_nameOf hname hstops _) fun literal hname' => ?_
  subst hname'
  exact hliteral l' rest

theorem readsBack_nullLiteral : ReadsBack G form .nullLiteral := by
  have hname : IsName G "null" := isName_letters (c := 'n') rfl (by decide)
  exact readsBack_sharp hname rfl fun _ _ => reads_pure rfl

/-- A truth value is written as its name behind a sharp sign, or as its name alone, which is read as a variable. -/
theorem readsBack_truth {e : Expression} {name : Identifier} (hname : IsName G name)
    (htext : displayExpression form e = truthText form.sharp name) (hread : asRead form e = truthRead form.sharp e name)
    (hliteral : ∀ l rest, Reads (if name = "false" then pure .falseLiteral else if name =
      "null" then pure .nullLiteral else if name = "true" then pure .trueLiteral else throw (.unexpectedLiteral name l))
      [] rest fun e' => e' = e) :
    ReadsBack G form e := by
  cases hsharp : form.sharp with
  | true =>
    rw [hsharp] at htext hread
    exact readsBack_sharp hname htext fun l rest => by rw [hread]; exact hliteral l rest
  | false =>
    rw [hsharp] at htext hread
    exact readsBack_name hname htext hread

theorem readsBack_falseLiteral : ReadsBack G form .falseLiteral := by
  have hname : IsName G "false" := isName_letters (c := 'f') rfl (by decide)
  exact readsBack_truth hname rfl rfl fun _ _ => reads_pure rfl

theorem readsBack_trueLiteral : ReadsBack G form .trueLiteral := by
  have hname : IsName G "true" := isName_letters (c := 't') rfl (by decide)
  exact readsBack_truth hname rfl rfl fun _ _ => reads_pure rfl

theorem readsBack_capture {name : Identifier} (hname : IsName G name) : ReadsBack G form (.capture name) :=
  readsBack_of_byChar (c := '@') rfl fun _ _ _ hstops _ => reads_capture hname hstops

theorem readsBack_regexCapture {matchIndex : Nat} (h : matchIndex < 2 ^ 64) : ReadsBack G form (.regexCapture matchIndex) :=
  readsBack_of_byChar (c := '$') rfl fun _ _ _ hstops _ => reads_regexCapture h hstops

/-- More turns of the loop read no less. -/
theorem parseScoped_mono {k k' : Nat} (hk : k ≤ k') {e : Located} {s : Cursor} {r : Located × Cursor}
    (h : parseScoped G k e s = .ok r) :
    parseScoped G k' e s = .ok r := by
  induction k generalizing k' e s with
  | zero => cases h
  | succ k ih =>
    obtain ⟨k', rfl⟩ : ∃ j, k' = j + 1 := ⟨k' - 1, by omega⟩
    rw [parseScoped] at h ⊢
    obtain ⟨c, s₁, hpeek, h⟩ := bind_eq_ok.mp h
    rw [bind_of_ok hpeek]
    split at h
    next hc =>
      rw [if_pos hc]
      obtain ⟨d, s₂, hnext, h⟩ := bind_eq_ok.mp h
      obtain ⟨_, s₃, hblanks, h⟩ := bind_eq_ok.mp h
      obtain ⟨l, s₄, hlocation, h⟩ := bind_eq_ok.mp h
      obtain ⟨name, s₅, hname, h⟩ := bind_eq_ok.mp h
      obtain ⟨_, s₆, hblanks', h⟩ := bind_eq_ok.mp h
      rw [bind_of_ok hnext, bind_of_ok hblanks, bind_of_ok hlocation, bind_of_ok hname, bind_of_ok hblanks']
      exact ih (by omega) h
    next hc =>
      rw [if_neg hc]
      exact h

theorem readsBack_scopedVariable {scope : Expression} {name : Identifier} (h : ReadsBack G form scope) (hname : IsName G name) :
    ReadsBack G form (.scopedVariable scope name) := by
  intro d rest hstops hd s hs
  rw [displayExpression, List.append_assoc] at hd hs
  obtain ⟨l, hl⟩ := h d ('.' :: name.toList ++ rest) (delimiter_stops (by decide) _) hd s hs
  -- the loop of scoped names takes the dot and the name, and goes on behind them
  have hrest : (s.pass (displayExpression form scope).length).rest = ['.'] ++ (name.toList ++ rest) := Cursor.rest_pass hs
  generalize hs' : s.pass (displayExpression form scope).length = s' at hl hrest
  have hrest' : (s'.pass 1).rest = name.toList ++ rest := Cursor.rest_pass (t := ['.']) hrest
  have hrest'' : ((s'.pass 1).pass name.toList.length).rest = rest := Cursor.rest_pass hrest'
  obtain ⟨_, rfl, hnext⟩ := reads_next s' hrest
  obtain ⟨_, -, hblanks⟩ := reads_whitespace (t := []) (name_solid hname rest) (s'.pass 1) hrest'
  replace hnext : next s' = .ok ('.', s'.pass 1) := hnext
  replace hblanks : consumeWhitespace (s'.pass 1) = .ok ((), s'.pass 1) := hblanks
  obtain ⟨n, hn, hread⟩ := reads_nameOf hname hstops "scoped variable name" _ hrest'
  rw [hn] at hread
  replace hread : parseIdentifier G "scoped variable name" (s'.pass 1) = .ok (name, (s'.pass 1).pass name.toList.length) := hread
  obtain ⟨_, -, hblanks'⟩ := (reads_whitespace rfl : Reads consumeWhitespace [] ('.' :: (name.toList ++ rest)) fun _ =>
    True) s' hrest
  replace hblanks' : consumeWhitespace s' = .ok ((), s') := hblanks'
  refine ⟨(s'.pass 1).location, fun r hr => hl r ?_⟩
  have htotal : s.pass (displayExpression form (.scopedVariable scope name)).length = (s'.pass 1).pass name.toList.length := by
    rw [displayExpression, List.length_append, List.length_cons, Nat.add_comm name.toList.length, Cursor.pass_add,
      Cursor.pass_add, hs']
  rw [htotal] at hr
  obtain ⟨_, s₁, hblanks₁, hr⟩ := bind_eq_ok.mp hr
  have hs₁ : s₁.rest.length ≤ rest.length := by
    obtain rfl : ((s'.pass 1).pass name.toList.length).pass (blanks false rest) = s₁ := by
      rw [consumeWhitespace, hrest''] at hblanks₁
      exact (Prod.mk.inj (Except.ok.inj hblanks₁)).2
    rw [Cursor.pass_rest, hrest'', List.length_drop]
    omega
  have hlength : s'.rest.length = name.toList.length + rest.length + 1 := by
    rw [hrest, List.singleton_append, List.length_cons, List.length_append]
  rw [scopedAfter, bind_of_ok hblanks']
  show parseScoped G (s'.rest.length + 1) _ s' = _
  rw [parseScoped, bind_of_ok (rfl : tryPeek s' = .ok (s'.rest.head?, s')), if_pos (by rw [hrest]; rfl), bind_of_ok hnext,
    bind_of_ok hblanks, bind_of_ok (rfl : location (s'.pass 1) = .ok ((s'.pass 1).location, s'.pass 1)),
    bind_of_ok hread, bind_of_ok hblanks₁]
  exact parseScoped_mono (by omega) hr

/-! ### What stands between expressions -/

theorem delimiter_solid {c : Char} (h : c ∈ [',', ')', ']', '\x7d']) (rest : List Char) : blanks false (c :: rest) = 0 := by
  have hfacts : c ≠ ';' ∧ Text.isWhitespace c = false := by
    simp only [List.mem_cons, List.not_mem_nil, or_false] at h
    rcases h with rfl | rfl | rfl | rfl <;> decide
  obtain ⟨hsemicolon, hblank⟩ := hfacts
  rw [blanks, if_neg hsemicolon, if_neg (by rw [hblank]; decide)]

theorem noDot_cons {c : Char} (h : c ≠ '.') : NoDot (c :: rest) := fun hdot => h (Option.some.inj hdot)

theorem delimiter_noDot {c : Char} (h : c ∈ [',', ')', ']', '\x7d']) (rest : List Char) : NoDot (c :: rest) := by
  simp only [List.mem_cons, List.not_mem_nil, or_false] at h
  rcases h with rfl | rfl | rfl | rfl <;> exact noDot_cons (by decide)

theorem isDelimiter_of_mem {c : Char} (h : c ∈ [',', ')', ']', '\x7d']) : IsDelimiter c := List.mem_append_left [' ', '.'] h

theorem space_blank (h : blanks false rest = 0) : blanks false (' ' :: rest) = 1 := by
  rw [blanks, if_neg (by decide), if_pos (by decide), h]

theorem starts_noDot {c : Char} (h : Starts G c) (rest : List Char) : NoDot (c :: rest) :=
  noDot_cons (starts_ne_delimiter h (by decide : IsDelimiter '.'))

theorem noToken_of_ne {token : String} {m c : Char} {ms : List Char} (htoken : token.toList = m :: ms) (h : m ≠ c) :
    ¬ token.toList <+: c :: rest := by
  rw [htoken, List.cons_prefix_cons]
  exact fun hp => h hp.1

theorem reads_before_delimiter {e : Expression} (h : ReadsBack G form e) {c : Char} (hc : c ∈ [',', ')', ']', '\x7d']) {d : Nat}
    (hd : (displayExpression form e ++ c :: rest).length < d) :
    Reads (parseLocated G d) (displayExpression form e) (c :: rest) fun r => r.1 = asRead form e := by
  have hreads := reads_part h (w := []) (delimiter_solid hc rest) (delimiter_noDot hc rest)
    (delimiter_stops (isDelimiter_of_mem hc) rest) hd
  rwa [List.append_nil] at hreads

theorem reads_before_space {e : Expression} (h : ReadsBack G form e) (hsolid : blanks false rest = 0)
    (hdot : NoDot rest) {d : Nat} (hd : (displayExpression form e ++ ' ' :: rest).length < d) :
    Reads (parseLocated G d) (displayExpression form e ++ [' ']) rest fun r => r.1 = asRead form e :=
  reads_part h (space_blank hsolid) hdot (delimiter_stops (by decide) rest) hd

theorem reads_nothing (h : blanks false rest = 0) : Reads consumeWhitespace [] rest fun _ => True := reads_whitespace h

theorem reads_space (h : blanks false rest = 0) : Reads consumeWhitespace [' '] rest fun _ => True :=
  reads_whitespace (space_blank h)

/-! ### Lists, sets and calls -/

theorem displaySequence_cons (e : Expression) (es : List Expression) :
    displaySequence form (e :: es) = displayExpression form e ++ displayTail form es := rfl

theorem displayTail_cons (e : Expression) (es : List Expression) :
    displayTail form (e :: es) = [','] ++ ([' '] ++ displaySequence form (e :: es)) := rfl

theorem displayArguments_cons (e : Expression) (es : List Expression) :
    displayArguments form (e :: es) = [' '] ++ (displayExpression form e ++ displayArguments form es) := rfl

section Collections

variable {marker : Char} {es : List Expression} {d : Nat}

theorem reads_sequence (hmarker : marker ∈ [']', '\x7d']) (hes : ∀ e ∈ es, WellFormed G e ∧ ReadsBack G form e)
    (hd : (displaySequence form es ++ marker :: rest).length < d) {k : Nat}
      (hk : (displaySequence form es ++ marker :: rest).length < k) :
    Reads (parseSequence (parseLocated G d) marker k) (displaySequence form es) (marker :: rest) fun as =>
      as = asReadAll form es := by
  have hclosing : marker ∈ [',', ')', ']', '\x7d'] := List.mem_append_right [',', ')'] hmarker
  induction es generalizing k with
  | nil =>
    obtain ⟨k, rfl⟩ : ∃ j, k = j + 1 := ⟨k - 1, by omega⟩
    rw [parseSequence]
    refine reads_bind_nil (reads_peek (c := marker)) fun c hc => ?_
    rw [if_pos hc]
    exact reads_pure rfl
  | cons e es ih =>
    obtain ⟨k, rfl⟩ : ∃ j, k = j + 1 := ⟨k - 1, by omega⟩
    obtain ⟨⟨hwf, hback⟩, hes⟩ := List.forall_mem_cons.mp hes
    obtain ⟨c, cs, htext, hstart⟩ := display_starts form hwf
    have hpeek : Reads peek [] (displaySequence form (e :: es) ++ marker :: rest) fun d => d = c := by
      rw [displaySequence_cons, htext]
      exact reads_peek
    rw [parseSequence]
    refine reads_bind_nil hpeek fun c' hc' => ?_
    rw [if_neg (hc' ▸ starts_ne_delimiter hstart (isDelimiter_of_mem hclosing))]
    rw [displaySequence_cons] at hd hk ⊢
    cases es with
    | nil =>
      have hend : (displayExpression form e ++ marker :: rest).length < d := by
        simpa only [displayTail, List.append_nil] using hd
      refine reads_bind (u := []) (reads_before_delimiter hback hclosing hend) fun r hr => ?_
      refine reads_bind_nil (reads_nothing (delimiter_solid hclosing rest)) fun _ _ => ?_
      refine reads_bind_nil (reads_peek (c := marker)) fun c'' hc'' => ?_
      rw [if_pos hc'']
      exact reads_pure (by rw [hr]; rfl)
    | cons e' es =>
      rw [displayTail_cons] at hd hk ⊢
      rw [List.append_assoc] at hd hk
      have hwf' := (hes e' List.mem_cons_self).1
      have hsolid : blanks false (displaySequence form (e' :: es) ++ marker :: rest) = 0 := by
        rw [displaySequence_cons, List.append_assoc]
        exact display_solid hwf' _
      refine reads_bind (reads_before_delimiter hback (by decide) hd) fun r hr => ?_
      refine reads_bind_nil (reads_nothing (delimiter_solid (by decide) _)) fun _ _ => ?_
      refine reads_bind_nil (reads_peek (c := ',')) fun c'' hc'' => ?_
      have hcomma : ¬ c'' = marker := by
        rw [hc'']
        rintro rfl
        exact absurd hmarker (by decide)
      rw [if_neg hcomma]
      refine reads_bind (t := ",".toList) (reads_token ",") fun _ _ => ?_
      refine reads_bind (reads_space hsolid) fun _ _ => ?_
      simp only [List.length_append, List.length_cons, List.length_nil] at hd hk
      have hrest := ih hes (by simp only [List.length_append, List.length_cons]; omega) (k := k)
        (by simp only [List.length_append, List.length_cons]; omega)
      exact reads_bind_last hrest fun as has => reads_pure (by rw [hr, has]; rfl)

theorem sequence_solid (hmarker : marker ∈ [']', '\x7d']) (hes : ∀ e ∈ es, WellFormed G e ∧ ReadsBack G form e) :
    blanks false (displaySequence form es ++ marker :: rest) = 0 := by
  cases es with
  | nil => exact delimiter_solid (List.mem_append_right [',', ')'] hmarker) rest
  | cons e es =>
    rw [displaySequence_cons, List.append_assoc]
    exact display_solid (hes e List.mem_cons_self).1 _

theorem reads_literalCollection (opening : String) {closing : String} {literal : List Expression → Expression}
    {comprehension : Expression → Identifier → Expression → Expression} (hclosing : closing.toList = [marker])
    (hmarker : marker ∈ [']', '\x7d']) (hes :
    ∀ e ∈ es, WellFormed G e ∧ ReadsBack G form e) (hd : (displaySequence form es ++ marker :: rest).length < d) :
    Reads (parseCollection (parseLocated G d) opening closing marker literal comprehension)
      (opening.toList ++ (displaySequence form es ++ [marker])) rest fun e => e = literal (asReadAll form es) := by
  have hdelimiter : marker ∈ [',', ')', ']', '\x7d'] := List.mem_append_right [',', ')'] hmarker
  have hclose : Reads (tryToken closing) [marker] rest fun b => b = true := hclosing ▸ reads_tryToken closing
  have hcomma : marker ≠ ',' := by
    rintro rfl
    exact absurd hmarker (by decide)
  refine reads_bind (reads_token opening) fun _ _ => ?_
  refine reads_bind_nil (reads_nothing ?_) fun _ _ => ?_
  · rw [List.append_assoc]
    exact sequence_solid hmarker hes
  cases es with
  | nil =>
    refine reads_bind_last (t := [marker]) hclose fun b hb => ?_
    rw [if_pos hb]
    exact reads_pure rfl
  | cons e es =>
    obtain ⟨⟨hwf, hback⟩, hes⟩ := List.forall_mem_cons.mp hes
    obtain ⟨c, cs, htext, hstart⟩ := display_starts form hwf
    rw [displaySequence_cons, List.append_assoc] at hd ⊢
    have hopen : Reads (tryToken closing) [] (displayExpression form e ++ (displayTail form es ++ [marker]) ++ rest)
      fun b => b = false := by
      rw [htext]
      exact reads_noToken (noToken_of_ne hclosing (starts_ne_delimiter hstart (isDelimiter_of_mem hdelimiter)).symm)
    refine reads_bind_nil hopen fun b hb => ?_
    rw [if_neg (by rw [hb]; decide)]
    cases es with
    | nil =>
      refine reads_bind (u := [marker]) (reads_before_delimiter hback hdelimiter hd) fun first hfirst => ?_
      refine reads_bind_nil (reads_nothing (delimiter_solid hdelimiter rest)) fun _ _ => ?_
      refine reads_bind_last hclose fun b hb => ?_
      rw [if_pos hb]
      exact reads_pure (by rw [hfirst]; rfl)
    | cons e' es =>
      rw [displayTail_cons] at hd ⊢
      have hsolid : blanks false (displaySequence form (e' :: es) ++ [marker] ++ rest) = 0 := by
        rw [List.append_assoc]
        exact sequence_solid hmarker hes
      have hd' : (displaySequence form (e' :: es) ++ marker :: rest).length < d := by
        simp only [List.length_append, List.length_cons] at hd ⊢
        omega
      have hhead : Reads (parseLocated G d) (displayExpression form e)
        (',' :: ' ' :: (displaySequence form (e' :: es) ++ [marker] ++ rest))
          fun r => r.1 = asRead form e := by
        refine reads_before_delimiter hback (by decide) ?_
        simp only [List.length_append, List.length_cons, List.length_nil] at hd ⊢
        omega
      refine reads_bind (u := [','] ++ ([' '] ++ (displaySequence form (e' :: es) ++ [marker]))) hhead fun first hfirst => ?_
      refine reads_bind_nil (reads_nothing (delimiter_solid (by decide) _)) fun _ _ => ?_
      refine reads_bind_nil (reads_noToken (noToken_of_ne hclosing hcomma)) fun b hb => ?_
      rw [if_neg (by rw [hb]; decide)]
      refine reads_bind (t := ",".toList) (reads_tryToken ",") fun b hb => ?_
      rw [if_pos hb]
      refine reads_bind (reads_space hsolid) fun _ _ => ?_
      refine reads_bind (reads_bounded (reads_sequence hmarker hes hd' (Nat.lt_succ_self _))) fun elements helements => ?_
      refine reads_bind_nil (reads_nothing (delimiter_solid hdelimiter rest)) fun _ _ => ?_
      refine reads_bind_last (hclosing ▸ reads_token closing) fun _ _ => ?_
      exact reads_pure (by rw [hfirst, helements]; rfl)

end Collections

theorem reads_unscopedVariable {var : Identifier} (hvar : IsName G var) (hsolid : blanks false rest = 0)
    (hdot : NoDot rest) {d : Nat} (hd : (var.toList ++ ' ' :: rest).length < d) :
    Reads (parseUnscopedVariable (parseLocated G d)) (var.toList ++ [' ']) rest fun name => name = var := by
  have hread : ReadsBack G sourceForm (.unscopedVariable var) := readsBack_name hvar rfl rfl
  have hvariable : Reads (parseVariable (parseLocated G d)) (var.toList ++ [' ']) rest fun v => ∃ l, v = .unscoped var l := by
    refine reads_bind_nil reads_location fun l _ => ?_
    refine reads_bind_last (reads_before_space hread hsolid hdot hd) fun r hr => ?_
    obtain ⟨e, l'⟩ := r
    obtain rfl : e = .unscopedVariable var := hr
    exact reads_pure ⟨l', rfl⟩
  refine reads_bind_last hvariable fun v hv => ?_
  obtain ⟨l, rfl⟩ := hv
  exact reads_pure rfl

theorem reads_comprehension (opening : String) {closing : String} {marker : Char}
    {literal : List Expression → Expression} {comprehension : Expression → Identifier → Expression → Expression}
    (hclosing : closing.toList = [marker]) (hmarker : marker ∈ [']', '\x7d']) {element value :
    Expression} {var : Identifier} (hwf : WellFormed G element) (helement : ReadsBack G form element) (hvar : IsName G var)
    (hwf' : WellFormed G value) (hvalue : ReadsBack G form value) {d : Nat}
    (hd : (displayExpression form element ++ (" for ".toList ++ (var.toList ++ (" in ".toList ++
      (displayExpression form value ++ (' ' :: marker :: rest)))))).length < d) :
    Reads (parseCollection (parseLocated G d) opening closing marker literal comprehension)
      (opening.toList ++ ([' '] ++ ((displayExpression form element ++ [' ']) ++
        ("for".toList ++ ([' '] ++ ((var.toList ++ [' ']) ++
        ("in".toList ++ ([' '] ++ ((displayExpression form value ++ [' ']) ++ [marker])))))))))
      rest fun e => e = comprehension (asRead form element) var (asRead form value) := by
  have hdelimiter : marker ∈ [',', ')', ']', '\x7d'] := List.mem_append_right [',', ')'] hmarker
  have hletter : marker ≠ 'f' := by
    rintro rfl
    exact absurd hmarker (by decide)
  obtain ⟨c, cs, htext, hstart⟩ := display_starts form hwf
  simp only [List.length_append, List.length_cons] at hd
  have hfor : " for ".toList.length = 5 := rfl
  have hin : " in ".toList.length = 4 := rfl
  have hfor' : "for".toList.length = 3 := rfl
  have hin' : "in".toList.length = 2 := rfl
  have hfirst : ∀ t, (displayExpression form element).length + (t.length + rest.length) + 4 < d →
      Reads (parseLocated G d) (displayExpression form element ++ [' ']) (("for".toList ++ t) ++ rest) fun r =>
        r.1 = asRead form element := by
    intro t ht
    have hlength : (displayExpression form element ++ ' ' :: (("for".toList ++ t) ++ rest)).length < d := by
      simp only [List.length_append, List.length_cons]
      omega
    exact reads_before_space helement rfl (noDot_cons (c := 'f') (by decide)) hlength
  have hname : ∀ t, var.toList.length + (t.length + rest.length) + 3 < d →
      Reads (parseUnscopedVariable (parseLocated G d)) (var.toList ++ [' ']) (("in".toList ++ t) ++ rest) fun name =>
        name = var := by
    intro t ht
    have hlength : (var.toList ++ ' ' :: (("in".toList ++ t) ++ rest)).length < d := by
      simp only [List.length_append, List.length_cons]
      omega
    exact reads_unscopedVariable hvar rfl (noDot_cons (c := 'i') (by decide)) hlength
  refine reads_bind (reads_token opening) fun _ _ => ?_
  refine reads_bind (reads_space ?_) fun _ _ => ?_
  · rw [List.append_assoc, List.append_assoc]
    exact display_solid hwf _
  have hopen : ∀ text, Reads (tryToken closing) [] ((displayExpression form element ++ [' '] ++ text) ++ rest) fun b =>
    b = false := by
    intro text
    rw [htext]
    exact reads_noToken (noToken_of_ne hclosing (starts_ne_delimiter hstart (isDelimiter_of_mem hdelimiter)).symm)
  refine reads_bind_nil (hopen _) fun b hb => ?_
  rw [if_neg (by rw [hb]; decide)]
  refine reads_bind (hfirst _ ?_) fun first hfirst => ?_
  · simp only [List.length_append, List.length_cons, List.length_nil]
    omega
  refine reads_bind_nil (reads_nothing rfl) fun _ _ => ?_
  refine reads_bind_nil (reads_noToken (noToken_of_ne hclosing hletter)) fun b hb => ?_
  rw [if_neg (by rw [hb]; decide)]
  refine reads_bind_nil (reads_noToken (noToken_of_ne (m := ',') rfl (by decide))) fun b hb => ?_
  rw [if_neg (by rw [hb]; decide)]
  refine reads_bind (reads_token "for") fun _ _ => ?_
  refine reads_bind (reads_space ?_) fun _ _ => ?_
  · rw [List.append_assoc, List.append_assoc]
    exact name_solid hvar _
  refine reads_bind (hname _ ?_) fun name hname => ?_
  · simp only [List.length_append, List.length_cons, List.length_nil]
    omega
  refine reads_bind_nil (reads_nothing rfl) fun _ _ => ?_
  refine reads_bind (reads_token "in") fun _ _ => ?_
  refine reads_bind (reads_space ?_) fun _ _ => ?_
  · rw [List.append_assoc, List.append_assoc]
    exact display_solid hwf' _
  refine reads_bind (reads_before_space hvalue (delimiter_solid hdelimiter rest) (delimiter_noDot hdelimiter rest) ?_)
    fun v hv => ?_
  · simp only [List.length_append, List.length_cons]
    omega
  refine reads_bind_nil (reads_nothing (delimiter_solid hdelimiter rest)) fun _ _ => ?_
  refine reads_bind_last (hclosing ▸ reads_token closing) fun _ _ => ?_
  exact reads_pure (by rw [hfirst, hname, hv])

theorem reads_parameters {es : List Expression} (hes : ∀ e ∈ es, WellFormed G e ∧ ReadsBack G form e) {d : Nat}
    (hd : ((displayArguments form es).tail ++ ')' :: rest).length < d) {k : Nat}
    (hk : ((displayArguments form es).tail ++ ')' :: rest).length < k) :
    Reads (parseParameters (parseLocated G d) k) (displayArguments form es).tail (')' :: rest) fun as =>
      as = asReadAll form es := by
  induction es generalizing k with
  | nil =>
    obtain ⟨k, rfl⟩ : ∃ j, k = j + 1 := ⟨k - 1, by omega⟩
    rw [parseParameters]
    refine reads_bind_nil (reads_peek (c := ')')) fun c hc => ?_
    rw [if_pos hc]
    exact reads_pure rfl
  | cons e es ih =>
    obtain ⟨k, rfl⟩ : ∃ j, k = j + 1 := ⟨k - 1, by omega⟩
    obtain ⟨⟨hwf, hback⟩, hes⟩ := List.forall_mem_cons.mp hes
    obtain ⟨c, cs, htext, hstart⟩ := display_starts form hwf
    rw [displayArguments_cons, List.singleton_append, List.tail_cons] at hd hk ⊢
    have hpeek : Reads peek [] (displayExpression form e ++ displayArguments form es ++ ')' :: rest) fun d => d = c := by
      rw [htext]
      exact reads_peek
    rw [parseParameters]
    refine reads_bind_nil hpeek fun c' hc' => ?_
    rw [if_neg (hc' ▸ starts_ne_delimiter hstart (by decide))]
    cases es with
    | nil =>
      have hend : (displayExpression form e ++ ')' :: rest).length < d := by
        simpa only [displayArguments, List.append_nil] using hd
      have hend' : (displayExpression form e ++ ')' :: rest).length < k + 1 := by
        simpa only [displayArguments, List.append_nil] using hk
      refine reads_bind (u := []) (reads_before_delimiter hback (by decide) hend) fun r hr => ?_
      refine reads_bind_nil (reads_nothing (delimiter_solid (by decide) rest)) fun _ _ => ?_
      obtain ⟨b, cs', htext'⟩ : ∃ b cs', displayExpression form e = b :: cs' := ⟨c, cs, htext⟩
      have hlast := ih hes (by simp only [displayArguments, List.tail_nil, List.length_append, List.length_cons,
        List.length_nil] at hend ⊢; omega)
        (k := k) (by simp only [displayArguments, List.tail_nil, List.length_append, List.length_cons, List.length_nil,
          htext'] at hend' ⊢; omega)
      exact reads_bind_nil hlast fun as has => reads_pure (by rw [hr, has]; rfl)
    | cons e' es =>
      have htail : displayArguments form (e' :: es) = ' ' :: (displayArguments form (e' :: es)).tail := rfl
      have hsolid : blanks false ((displayArguments form (e' :: es)).tail ++ ')' :: rest) = 0 := by
        rw [displayArguments_cons, List.singleton_append, List.tail_cons, List.append_assoc]
        exact display_solid (hes e' List.mem_cons_self).1 _
      have hdot : NoDot ((displayArguments form (e' :: es)).tail ++ ')' :: rest) := by
        obtain ⟨b, bs, hb, hbstart⟩ := display_starts form (hes e' List.mem_cons_self).1
        rw [displayArguments_cons, List.singleton_append, List.tail_cons, hb]
        exact starts_noDot hbstart _
      rw [htail, List.append_assoc] at hd hk
      rw [htail, ← List.singleton_append, ← List.append_assoc]
      have hlast := ih hes (by simp only [List.length_append, List.length_cons] at hd ⊢; omega)
        (k := k) (by simp only [List.length_append, List.length_cons] at hk ⊢; omega)
      refine reads_bind (reads_before_space hback hsolid hdot hd) fun r hr => ?_
      refine reads_bind_nil (reads_nothing hsolid) fun _ _ => ?_
      exact reads_bind_last hlast fun as has => reads_pure (by rw [hr, has]; rfl)

theorem reads_call {function : Identifier} {parameters : List Expression} (hfunction : IsName G function)
    (hes : ∀ e ∈ parameters, WellFormed G e ∧ ReadsBack G form e) {d : Nat}
    (hd : (function.toList ++ (displayArguments form parameters ++ ')' :: rest)).length < d) :
    Reads (parseCall G (parseLocated G d)) ('(' :: (function.toList ++ (displayArguments form parameters ++ [')']))) rest
      fun e => e = .call function (asReadAll form parameters) := by
  simp only [List.length_append, List.length_cons] at hd
  refine reads_bind (t := "(".toList) (u := function.toList ++ (displayArguments form parameters ++ [')']))
    (reads_token "(") fun _ _ => ?_
  refine reads_bind_nil (reads_nothing ?_) fun _ _ => ?_
  · rw [List.append_assoc]
    exact name_solid hfunction _
  cases parameters with
  | nil =>
    refine reads_bind (u := [')']) (reads_nameOf hfunction (delimiter_stops (by decide) _) _) fun f hf => ?_
    refine reads_bind_nil (reads_nothing (delimiter_solid (by decide) _)) fun _ _ => ?_
    have hend : (')' :: rest).length < d := by
      simp only [displayArguments, List.length_cons, List.length_nil] at hd ⊢
      omega
    have hnone : Reads (parseParameters (parseLocated G d) ((')' :: rest).length + 1)) [] (')' :: rest) fun as => as = [] :=
      @reads_parameters G form rest [] (by simp) d hend _ (Nat.lt_succ_self _)
    refine reads_bind_nil (reads_bounded (t := []) hnone) fun es hes' => ?_
    exact reads_bind_last (reads_token ")") fun _ _ => reads_pure (by rw [hf, hes']; rfl)
  | cons e es =>
    have htail : displayArguments form (e :: es) = [' '] ++ (displayArguments form (e :: es)).tail := rfl
    have hsolid : blanks false ((displayArguments form (e :: es)).tail ++ [')'] ++ rest) = 0 := by
      rw [displayArguments_cons, List.singleton_append, List.tail_cons, List.append_assoc, List.append_assoc]
      exact display_solid (hes e List.mem_cons_self).1 _
    rw [htail] at hd ⊢
    simp only [List.length_append, List.length_cons, List.length_nil] at hd
    rw [List.append_assoc]
    refine reads_bind (reads_nameOf hfunction (delimiter_stops (by decide) _) _) fun f hf => ?_
    refine reads_bind (reads_space hsolid) fun _ _ => ?_
    have hlt : ((displayArguments form (e :: es)).tail ++ ')' :: rest).length < d := by
      simp only [List.length_append, List.length_cons]
      omega
    have hall := reads_parameters hes hlt (Nat.lt_succ_self _)
    refine reads_bind (reads_bounded hall) fun es' hes' => ?_
    exact reads_bind_last (reads_token ")") fun _ _ => reads_pure (by rw [hf, hes'])

/-! ## The whole text -/

/-- What stands in the brackets of a comprehension, with the blanks behind each part. -/
def comprehensionParts (element var value : List Char) (marker : Char) : List Char :=
  [' '] ++ ((element ++ [' ']) ++ ("for".toList ++
    ([' '] ++ ((var ++ [' ']) ++ ("in".toList ++ ([' '] ++ ((value ++ [' ']) ++ [marker])))))))

theorem comprehension_text {text : List Char} {opening marker : Char} (element var value : List Char)
    (h : text = opening :: ' ' :: (element ++ (" for ".toList ++ (var ++ (" in ".toList ++ (value ++ [' ', marker])))))) :
    text = opening :: comprehensionParts element var value marker := by
  have hfor : " for ".toList = [' '] ++ ("for".toList ++ [' ']) := rfl
  have hin : " in ".toList = [' '] ++ ("in".toList ++ [' ']) := rfl
  rw [h, hfor, hin, comprehensionParts]
  simp only [List.append_assoc, List.cons_append, List.nil_append]

theorem comprehension_length {element var value rest : List Char} {opening marker : Char} {d : Nat}
    (h : (opening :: comprehensionParts element var value marker ++ rest).length < d + 1) :
    (element ++ (" for ".toList ++ (var ++ (" in ".toList ++ (value ++ ' ' :: marker :: rest))))).length < d := by
  rw [← comprehension_text element var value rfl] at h
  simp only [List.cons_append, List.append_assoc, List.length_cons, List.nil_append] at h
  omega

/-- The text of a well-formed expression is read back, wherever it stands. -/
theorem readsBack {e : Expression} (h : WellFormed G e) : ReadsBack G form e := by
  induction h with
  | falseLiteral => exact readsBack_falseLiteral
  | nullLiteral => exact readsBack_nullLiteral
  | trueLiteral => exact readsBack_trueLiteral
  | integerConstant hvalue => exact readsBack_integerConstant hvalue
  | stringConstant => exact readsBack_stringConstant _
  | listLiteral hes ih =>
    refine readsBack_of_byChar (c := '[') rfl fun d rest l _ hd => ?_
    refine reads_literalCollection "[" rfl (by decide) (fun e he => ⟨hes e he, ih e he⟩) ?_
    simpa only [List.cons_append, List.nil_append, List.append_assoc, List.length_cons, Nat.add_lt_add_iff_right] using hd
  | setLiteral hes ih =>
    refine readsBack_of_byChar (c := '\x7b') rfl fun d rest l _ hd => ?_
    refine reads_literalCollection "\x7b" rfl (by decide) (fun e he => ⟨hes e he, ih e he⟩) ?_
    simpa only [List.cons_append, List.nil_append, List.append_assoc, List.length_cons, Nat.add_lt_add_iff_right] using hd
  | listComprehension hwf hvar hwf' ih ih' =>
    refine readsBack_of_byChar (c := '[') (comprehension_text _ _ _ rfl) fun d rest l _ hd => ?_
    exact reads_comprehension "[" rfl (by decide) hwf ih hvar hwf' ih' (comprehension_length hd)
  | setComprehension hwf hvar hwf' ih ih' =>
    refine readsBack_of_byChar (c := '\x7b') (comprehension_text _ _ _ rfl) fun d rest l _ hd => ?_
    exact reads_comprehension "\x7b" rfl (by decide) hwf ih hvar hwf' ih' (comprehension_length hd)
  | capture hname => exact readsBack_capture hname
  | scopedVariable _ hname ih => exact readsBack_scopedVariable ih hname
  | unscopedVariable hname => exact readsBack_name hname rfl rfl
  | call hname hes ih =>
    refine readsBack_of_byChar (c := '(') rfl fun d rest l _ hd => ?_
    refine reads_call hname (fun e he => ⟨hes e he, ih e he⟩) ?_
    simpa only [List.cons_append, List.nil_append, List.append_assoc, List.length_cons, Nat.add_lt_add_iff_right] using hd
  | regexCapture hvalue => exact readsBack_regexCapture hvalue

/-- The text of an expression, read by itself, gives the expression as it is read, to the end of the text;
    that is the expression itself exactly when it is faithful. -/
theorem written_is_read_back {G : Grammar} {e : Expression} (h : WellFormed G e) (form : Form) :
    (∃ l s, parseExpression G (.start (displayExpression form e)) = .ok ((asRead form e, l), s) ∧ s.rest = []) ∧
      (asRead form e = e ↔ isFaithful form e = true) := by
  refine ⟨?_, asRead_eq_iff e⟩
  have hend : Stops G [] := fun _ h => by simp at h
  have hpart : Reads (parseExpression G) (displayExpression form e ++ []) [] fun r => r.1 = asRead form e :=
    reads_bounded (reads_part (readsBack h) rfl (by simp [NoDot]) hend (by simp))
  obtain ⟨⟨e', l⟩, he', hs⟩ := hpart (.start (displayExpression form e)) (by simp [Cursor.start])
  obtain rfl : e' = asRead form e := he'
  refine ⟨l, _, hs, ?_⟩
  rw [Cursor.pass_rest, List.append_nil]
  exact List.drop_length

/-- Faithful expressions with the same text are the same. -/
theorem display_injective {e e' : Expression} (h : WellFormed G e) (h' : WellFormed G e') (hf : isFaithful form e = true)
    (hf' : isFaithful form e' = true) (heq : displayExpression form e = displayExpression form e') : e = e' := by
  obtain ⟨⟨l, s, hparse, -⟩, hiff⟩ := written_is_read_back h form
  obtain ⟨⟨l', s', hparse', -⟩, hiff'⟩ := written_is_read_back h' form
  rw [heq, hparse', hiff.mpr hf, hiff'.mpr hf'] at hparse
  exact (congrArg (fun r => r.1.1) (Except.ok.inj hparse)).symm

/-! A grammar whose letters are those of ASCII. -/

theorem notWhitespace_of_isAlphanum (c : Char) (h : c.isAlphanum = true) : Text.isWhitespace c = false := by
  have hval : c.val.toNat = c.toNat := rfl
  have hrange : (65 ≤ c.toNat ∧ c.toNat ≤ 90) ∨ (97 ≤ c.toNat ∧ c.toNat ≤ 122) ∨ 48 ≤ c.toNat ∧ c.toNat ≤ 57 := by
    rw [Char.isAlphanum, Bool.or_eq_true] at h
    rcases h with h | h
    · exact (range_of_isAlpha h).imp_right .inl
    · exact .inr (.inr (range_of_isDigit h))
  simp only [Text.isWhitespace, Bool.or_eq_false_iff, Bool.and_eq_false_iff, decide_eq_false_iff_not, beq_eq_false_iff_ne]
  omega

def asciiLetters : Letters where
  isAlphanumeric := Char.isAlphanum
  ascii := fun _ h => h
  isAlphabetic := Char.isAlpha
  alphanumeric := fun c h => by rw [Char.isAlphanum, h, Bool.true_or]
  ofAscii := fun _ _ => ⟨rfl, rfl⟩
  notWhitespace := notWhitespace_of_isAlphanum

/-- Queries of one pattern without captures. -/
def asciiGrammar : Grammar := ⟨asciiLetters, fun _ => .ok ⟨1, []⟩, fun _ => true⟩

/-- What is displayed of an expression is read back. -/
theorem display_is_read_back {G : Grammar} {e : Expression} (h : WellFormed G e) (printable : Char → Bool) :
    (∃ l s, parseExpression G (.start (displayExpression ⟨printable, false⟩ e)) = .ok ((asRead ⟨printable, false⟩ e, l),
      s) ∧ s.rest = []) ∧
      (asRead ⟨printable, false⟩ e = e ↔ isFaithful ⟨printable, false⟩ e = true) := written_is_read_back h ⟨printable, false⟩

theorem display_of_scope_is_read_back :
    WellFormed asciiGrammar (.scopedVariable (.call "f" [.trueLiteral, .stringConstant "\"x\""]) "v") ∧
      (∃ l s, parseExpression asciiGrammar (.start "(f true \"\\\"x\\\"\").v".toList) =
        .ok ((.scopedVariable (.call "f" [.unscopedVariable "true", .stringConstant "\"x\""]) "v", l), s) ∧ s.rest = []) := by
  have hf : IsName asciiGrammar "f" := isName_letters (c := 'f') rfl (by decide)
  have hv : IsName asciiGrammar "v" := isName_letters (c := 'v') rfl (by decide)
  have hwf : WellFormed asciiGrammar (.scopedVariable (.call "f" [.trueLiteral, .stringConstant "\"x\""]) "v") := by
    refine .scopedVariable (.call hf ?_) hv
    rw [List.forall_mem_cons, List.forall_mem_singleton]
    exact ⟨.trueLiteral, .stringConstant⟩
  exact ⟨hwf, (display_is_read_back hwf fun _ => true).1⟩

end CodeQuery.Tsg.Parser
