/-
  CodeQuery.Tsg.ParserFiles — the statements and files that the parser of graph rules accepts.

  A statement begins with a keyword and takes a character at least, so the nesting of blocks is
  bounded by the source, and so are the items of a file.

  Proved:
  (1) A statement that is parsed is well formed, with its arms, conditions and attributes, and every
      location in it is that of a place in the source (`parses_statement`). A condition without a word
      does not begin with one (`parses_condition`).
  (2) Reading a file comes to an end. It gives a well-formed file that the checker accepted, or an
      error: of the parser, at a place of the source or for a query in it, or of the checker. It
      panics only at a number that does not fit, when a query is compiled without the capture that
      was put behind it, or when queries that compile one by one do not together
      (`reading_ends_well`).
-/

import CodeQuery.Tsg.ParserRuns

namespace CodeQuery.Tsg.Parser

open Checker Data

variable {G : Grammar} {source : List Char} {n : Nat}

/-! ## Statements -/

def WellFormedAttributes (G : Grammar) (attributes : List Attribute) : Prop :=
  attributes ≠ [] ∧ ∀ a ∈ attributes, IsName G a.name ∧ WellFormed G a.value

/-- A condition that a file can hold: the word of another kind does not begin a condition without one. -/
def WellFormedCondition (G : Grammar) : Condition → Prop
  | .some e => WellFormed G e
  | .none e => WellFormed G e
  | .bool e => WellFormed G e ∧ ¬ "some".toList <+: leadingName e ∧ ¬ "none".toList <+: leadingName e

/-- A statement that a file can hold. Of the arms of a conditional only the last may have no
    conditions, and the first has some. -/
inductive WellFormedStatement (G : Grammar) (source : List Char) : Statement → Prop
  | declareImmutable {var : Variable} {value : Expression} (hvar : WellFormedVariable G source var)
      (hvalue : WellFormed G value) : WellFormedStatement G source (.declareImmutable var value)
  | declareMutable {var : Variable} {value : Expression} (hvar : WellFormedVariable G source var)
      (hvalue : WellFormed G value) : WellFormedStatement G source (.declareMutable var value)
  | assign {var : Variable} {value : Expression} (hvar : WellFormedVariable G source var)
      (hvalue : WellFormed G value) : WellFormedStatement G source (.assign var value)
  | createGraphNode {node : Variable} (hnode : WellFormedVariable G source node) :
      WellFormedStatement G source (.createGraphNode node)
  | addGraphNodeAttribute {node : Expression} {attributes : List Attribute} (hnode : WellFormed G node)
      (hattributes : WellFormedAttributes G attributes) :
      WellFormedStatement G source (.addGraphNodeAttribute node attributes)
  | createEdge {a b : Expression} {l : Location} (ha : WellFormed G a) (hb : WellFormed G b) (hl : Place source l) :
      WellFormedStatement G source (.createEdge a b l)
  | addEdgeAttribute {a b : Expression} {attributes : List Attribute} (ha : WellFormed G a) (hb : WellFormed G b)
      (hattributes : WellFormedAttributes G attributes) :
      WellFormedStatement G source (.addEdgeAttribute a b attributes)
  | scan {value : Expression} {arms : List (Regex × List Statement)} (hvalue : WellFormed G value)
      (hregexes : ∀ arm ∈ arms, G.newRegex arm.1 = true)
      (harms : ∀ arm ∈ arms, ∀ st ∈ arm.2, WellFormedStatement G source st) :
      WellFormedStatement G source (.scan value arms)
  | print {values : List Expression} (hne : values ≠ []) (hvalues : ∀ e ∈ values, WellFormed G e) :
      WellFormedStatement G source (.print values)
  | ifs {arm : List Condition × List Statement} {arms : List (List Condition × List Statement)} (hfirst : arm.1 ≠ [])
      (hothers : ∀ a ∈ arms.dropLast, a.1 ≠ [])
      (hconditions : ∀ a ∈ arm :: arms, ∀ c ∈ a.1, WellFormedCondition G c)
      (harms : ∀ a ∈ arm :: arms, ∀ st ∈ a.2, WellFormedStatement G source st) :
      WellFormedStatement G source (.ifs (arm :: arms))
  | forIn {var : Identifier} {value : Expression} {statements : List Statement} (hvar : IsName G var)
      (hvalue : WellFormed G value) (hstatements : ∀ st ∈ statements, WellFormedStatement G source st) :
      WellFormedStatement G source (.forIn var value statements)

/-- Items with commas between them, each of which takes a character at least. -/
theorem parses_commaSeparated {α : Type} {item : Parsing α} {P : α → Prop}
    (hitem : ∀ m, Parses G source m item fun a m' => m < m' ∧ P a) {k : Nat} (hk : source.length - n < k) :
    Parses G source n (parseCommaSeparated item k) fun as _ => as ≠ [] ∧ ∀ a ∈ as, P a := by
  induction k generalizing n with
  | zero => exact absurd hk (Nat.not_lt_zero _)
  | succ k ih =>
    refine parses_bind (hitem n) fun a n₁ _ _ ha => ?_
    refine parses_bind parses_consumeWhitespace fun _ n₂ _ _ _ => ?_
    refine parses_bind parses_tryPeek fun c n₃ _ _ hc => ?_
    obtain ⟨rfl, -⟩ := hc
    split
    · refine parses_bind parses_next fun _ n₄ _ _ hcomma => ?_
      refine parses_bind parses_consumeWhitespace fun _ n₅ _ _ _ => ?_
      refine parses_bind (ih (by omega)) fun as n₆ _ _ has => parses_pure ⟨List.cons_ne_nil a as, ?_⟩
      exact List.forall_mem_cons.mpr ⟨ha.2, has.2⟩
    · exact parses_pure ⟨List.cons_ne_nil a [], List.forall_mem_singleton.mpr ha.2⟩

theorem parses_attribute : Parses G source n (parseAttribute G) fun a n' => n < n' ∧ IsName G a.name ∧ WellFormed G a.value := by
  refine parses_bind (parses_nameOf _) fun name n₁ _ _ hname => ?_
  refine parses_bind parses_consumeWhitespace fun _ n₂ _ _ _ => ?_
  refine parses_bind parses_tryPeek fun c n₃ _ _ hc => ?_
  obtain ⟨rfl, -⟩ := hc
  split
  · refine parses_bind (parses_consumeToken _) fun _ n₄ _ _ _ => ?_
    refine parses_bind parses_consumeWhitespace fun _ n₅ _ _ _ => ?_
    refine parses_bind parses_expression fun value n₆ _ _ hvalue => ?_
    exact parses_pure ⟨by omega, hname.2.1, hvalue.1.wellFormed⟩
  · exact parses_pure ⟨by omega, hname.2.1, .trueLiteral⟩

theorem parses_attributes : Parses G source n (parseAttributes G) fun attributes _ => WellFormedAttributes G attributes :=
  parses_bounded (parses_commaSeparated (fun _ => parses_attribute) (Nat.lt_succ_self _))

theorem parses_bare {l : Location} (hl : Place source l) :
    Parses G source n (parseBare G l) fun e n' => ExpressionAt G source n e.1 n' ∧ Place source e.2 := by
  intro hn
  obtain ⟨hok, herror⟩ := @parses_expression G source n hn
  constructor
  · intro e s he
    rw [parseBare] at he
    split at he
    next r hr => exact hok e s (hr.trans he)
    all_goals cases he
  · intro e he
    rw [parseBare] at he
    split at he
    next => cases he
    next hfuel => exact (herror _ hfuel).elim
    next hpanicked => exact Except.error.inj he ▸ herror _ hpanicked
    next => exact Except.error.inj he ▸ hl

theorem parses_condition : Parses G source n (parseCondition G) fun c n' => n < n' ∧ WellFormedCondition G c := by
  refine parses_bind parses_location fun l n₁ _ _ hl => ?_
  obtain ⟨rfl, hl⟩ := hl
  refine parses_bind (parses_tryToken _) fun isSome n₂ _ _ hsome => ?_
  split
  · refine parses_bind parses_consumeWhitespace fun _ n₃ _ _ _ => ?_
    refine parses_bind parses_expression fun e n₄ _ _ he => ?_
    refine parses_bind parses_consumeWhitespace fun _ n₅ _ _ _ => ?_
    have hbehind := he.1.behind
    exact parses_pure ⟨by omega, he.1.wellFormed⟩
  next hns =>
  rw [if_neg hns] at hsome
  obtain ⟨rfl, hsome⟩ := hsome
  refine parses_bind (parses_tryToken _) fun isNone n₃ _ _ hnone => ?_
  split
  · refine parses_bind parses_consumeWhitespace fun _ n₄ _ _ _ => ?_
    refine parses_bind parses_expression fun e n₅ _ _ he => ?_
    refine parses_bind parses_consumeWhitespace fun _ n₆ _ _ _ => ?_
    have hbehind := he.1.behind
    exact parses_pure ⟨by omega, he.1.wellFormed⟩
  next hnn =>
  rw [if_neg hnn] at hnone
  obtain ⟨rfl, hnone⟩ := hnone
  refine parses_bind (parses_bare hl) fun e n₄ _ _ he => ?_
  refine parses_bind parses_consumeWhitespace fun _ n₅ _ _ _ => ?_
  have hbehind := he.1.behind
  -- the name that begins the expression stands in the source, where neither word does
  refine parses_pure ⟨by omega, he.1.wellFormed, fun h => hsome (h.trans he.1.leading), fun h => hnone (h.trans he.1.leading)⟩

theorem parses_conditions :
    Parses G source n (parseConditions G) fun conditions _ => conditions ≠ [] ∧ ∀ c ∈ conditions, WellFormedCondition G c :=
  parses_bounded (parses_commaSeparated (fun _ => parses_condition) (Nat.lt_succ_self _))

section Blocks

/-- Items up to a brace, each of which takes a character at least. -/
theorem parses_untilBrace {α : Type} {item : Parsing α} {P : α → Prop}
    (hitem : ∀ m, n < m → Parses G source m item fun a m' => m < m' ∧ P a) {m k : Nat} (hm : n < m) (hk : source.length - m < k) :
    Parses G source m (untilBrace item k) fun as _ => ∀ a ∈ as, P a := by
  induction k generalizing m with
  | zero => exact absurd hk (Nat.not_lt_zero _)
  | succ k ih =>
    refine parses_bind parses_peek fun c m₁ _ _ hc => ?_
    obtain ⟨rfl, -, -⟩ := hc
    split
    · exact parses_pure (by simp)
    refine parses_bind (hitem m₁ hm) fun a m₂ _ _ ha => ?_
    refine parses_bind parses_consumeWhitespace fun _ m₃ _ _ _ => ?_
    refine parses_bind (ih (by omega) (by omega)) fun as m₄ _ _ has => parses_pure ?_
    exact List.forall_mem_cons.mpr ⟨ha.2, has⟩

/-- A parser of statements, from a place behind a given one. -/
def StatementsBehind (G : Grammar) (source : List Char) (n : Nat) (statement : Parsing Statement) : Prop :=
  ∀ m, n < m → Parses G source m statement fun st m' => m < m' ∧ WellFormedStatement G source st

variable {statement : Parsing Statement} (hstatement : StatementsBehind G source n statement) {m : Nat} (hm : n ≤ m)

include hstatement hm

theorem parses_statements :
    Parses G source m (parseStatements statement) fun statements m' =>
      m < m' ∧ ∀ st ∈ statements, WellFormedStatement G source st := by
  refine parses_bind (parses_consumeToken _) fun _ m₁ _ _ hopen => ?_
  have hone : "\x7b".length = 1 := rfl
  refine parses_bind parses_consumeWhitespace fun _ m₂ _ _ _ => ?_
  have hbound := parses_untilBrace hstatement (m := m₂) (by omega) (Nat.lt_succ_self _)
  refine parses_bind (parses_bounded hbound) fun statements m₃ _ _ hstatements => ?_
  exact parses_bind (parses_consumeToken _) fun _ m₄ _ _ _ => parses_pure ⟨by omega, hstatements⟩

theorem parses_scanArm :
    Parses G source m (parseScanArm G statement) fun arm m' =>
      m < m' ∧ G.newRegex arm.1 = true ∧ ∀ st ∈ arm.2, WellFormedStatement G source st := by
  refine parses_bind parses_location fun l m₁ _ _ hl => ?_
  obtain ⟨rfl, hl⟩ := hl
  refine parses_bind parses_string fun pattern m₂ _ _ hpattern => ?_
  split
  next hregex =>
    refine parses_bind parses_consumeWhitespace fun _ m₃ _ _ _ => ?_
    refine parses_bind (parses_statements hstatement (by omega)) fun statements m₄ _ _ hstatements => ?_
    exact parses_pure ⟨by omega, hregex, hstatements.2⟩
  next => exact parses_throw fun _ => hl

theorem parses_ifArm :
    Parses G source m (parseIfArm G statement) fun arm m' =>
      m < m' ∧ arm.1 ≠ [] ∧ (∀ c ∈ arm.1, WellFormedCondition G c) ∧ ∀ st ∈ arm.2, WellFormedStatement G source st := by
  refine parses_bind parses_consumeWhitespace fun _ m₁ _ _ _ => ?_
  refine parses_bind parses_conditions fun conditions m₂ _ _ hconditions => ?_
  refine parses_bind parses_consumeWhitespace fun _ m₃ _ _ _ => ?_
  refine parses_bind (parses_statements hstatement (by omega)) fun statements m₄ _ _ hstatements => ?_
  refine parses_bind parses_consumeWhitespace fun _ m₅ _ _ _ => ?_
  exact parses_pure ⟨by omega, hconditions.1, hconditions.2, hstatements.2⟩

theorem parses_ifArms {k : Nat} (hk : source.length - m < k) :
    Parses G source m (parseIfArms G statement k) fun arms _ =>
      (∀ a ∈ arms.dropLast, a.1 ≠ []) ∧
        ∀ a ∈ arms, (∀ c ∈ a.1, WellFormedCondition G c) ∧ ∀ st ∈ a.2, WellFormedStatement G source st := by
  induction k generalizing m with
  | zero => exact absurd hk (Nat.not_lt_zero _)
  | succ k ih =>
    refine parses_bind (parses_tryToken _) fun isElif m₁ _ _ helif => ?_
    split
    · refine parses_bind (parses_ifArm hstatement (by omega)) fun arm m₂ _ _ harm => ?_
      obtain ⟨hlt, hne, hconditions, hstatements⟩ := harm
      refine parses_bind (ih (by omega) (by omega)) fun arms m₃ _ _ harms => parses_pure ⟨?_, ?_⟩
      · cases arms with
        | nil => simp
        | cons a arms =>
          rw [List.dropLast_cons_cons]
          exact List.forall_mem_cons.mpr ⟨hne, harms.1⟩
      · exact List.forall_mem_cons.mpr ⟨⟨hconditions, hstatements⟩, harms.2⟩
    refine parses_bind (parses_tryToken _) fun isElse m₂ _ _ helse => ?_
    split
    · refine parses_bind parses_consumeWhitespace fun _ m₃ _ _ _ => ?_
      refine parses_bind (parses_statements hstatement (by omega)) fun statements m₄ _ _ hstatements => ?_
      refine parses_bind parses_consumeWhitespace fun _ m₅ _ _ _ => parses_pure ⟨by simp, ?_⟩
      exact List.forall_mem_singleton.mpr ⟨by simp, hstatements.2⟩
    · exact parses_pure ⟨by simp, by simp⟩

omit hstatement hm

theorem parses_binding {make : Variable → Expression → Statement}
    (hmake : ∀ var value, WellFormedVariable G source var → WellFormed G value → WellFormedStatement G source (make var value))
    (hm : n < m) :
    Parses G source m (parseBinding G make) fun st _ => WellFormedStatement G source st := by
  refine parses_bind (parses_variable expressions_behind hm) fun var m₁ _ _ hvar => ?_
  refine parses_bind parses_consumeWhitespace fun _ m₂ _ _ _ => ?_
  refine parses_bind (parses_consumeToken _) fun _ m₃ _ _ _ => ?_
  refine parses_bind parses_consumeWhitespace fun _ m₄ _ _ _ => ?_
  exact parses_bind parses_expression fun value m₅ _ _ hvalue => parses_pure (hmake var value.1 hvar.2 hvalue.1.wellFormed)

theorem parses_attr : Parses G source m (parseAttr G) fun st _ => WellFormedStatement G source st := by
  refine parses_bind (parses_consumeToken _) fun _ m₁ _ _ _ => ?_
  refine parses_bind parses_consumeWhitespace fun _ m₂ _ _ _ => ?_
  refine parses_bind parses_expression fun element m₃ _ _ helement => ?_
  refine parses_bind parses_consumeWhitespace fun _ m₄ _ _ _ => ?_
  refine parses_bind parses_peek fun c m₅ _ _ _ => ?_
  split
  · refine parses_bind (parses_consumeToken _) fun _ m₆ _ _ _ => ?_
    refine parses_bind parses_consumeWhitespace fun _ m₇ _ _ _ => ?_
    refine parses_bind parses_expression fun sink m₈ _ _ hsink => ?_
    refine parses_bind parses_consumeWhitespace fun _ m₉ _ _ _ => ?_
    refine parses_bind (parses_consumeToken _) fun _ m₁₀ _ _ _ => ?_
    refine parses_bind parses_consumeWhitespace fun _ m₁₁ _ _ _ => ?_
    refine parses_bind parses_attributes fun attributes m₁₂ _ _ hattributes => ?_
    exact parses_pure (.addEdgeAttribute helement.1.wellFormed hsink.1.wellFormed hattributes)
  · refine parses_bind parses_consumeWhitespace fun _ m₆ _ _ _ => ?_
    refine parses_bind (parses_consumeToken _) fun _ m₇ _ _ _ => ?_
    refine parses_bind parses_consumeWhitespace fun _ m₈ _ _ _ => ?_
    refine parses_bind parses_attributes fun attributes m₉ _ _ hattributes => ?_
    exact parses_pure (.addGraphNodeAttribute helement.1.wellFormed hattributes)

include hstatement

theorem parses_keyword (hm : n < m) (keyword : String) {l : Location} (hl : Place source l) :
    Parses G source m (parseKeyword G statement keyword l) fun st _ => WellFormedStatement G source st := by
  unfold parseKeyword
  split
  · exact parses_binding (fun _ _ => .declareImmutable) hm
  split
  · exact parses_binding (fun _ _ => .declareMutable) hm
  split
  · exact parses_binding (fun _ _ => .assign) hm
  split
  · exact parses_bind (parses_variable expressions_behind hm) fun node m₁ _ _ hnode => parses_pure (.createGraphNode hnode.2)
  split
  · refine parses_bind parses_expression fun a m₁ _ _ ha => ?_
    refine parses_bind parses_consumeWhitespace fun _ m₂ _ _ _ => ?_
    refine parses_bind (parses_consumeToken _) fun _ m₃ _ _ _ => ?_
    refine parses_bind parses_consumeWhitespace fun _ m₄ _ _ _ => ?_
    exact parses_bind parses_expression fun b m₅ _ _ hb => parses_pure (.createEdge ha.1.wellFormed hb.1.wellFormed hl)
  split
  · exact parses_attr
  split
  · have hitem : ∀ m, Parses G source m (parseExpression G) fun e m' => m < m' ∧ WellFormed G e.1 := fun m =>
      parses_conseq parses_expression fun _ _ _ _ he => ⟨he.1.behind, he.1.wellFormed⟩
    refine parses_bind (parses_bounded (parses_commaSeparated hitem (Nat.lt_succ_self _))) fun values m₁ _ _ hvalues => ?_
    refine parses_bind parses_consumeWhitespace fun _ m₂ _ _ _ => parses_pure (.print (by simpa using hvalues.1) ?_)
    exact List.forall_mem_map.mpr hvalues.2
  split
  · refine parses_bind parses_expression fun value m₁ _ _ hvalue => ?_
    refine parses_bind parses_consumeWhitespace fun _ m₂ _ _ _ => ?_
    refine parses_bind (parses_consumeToken _) fun _ m₃ _ _ _ => ?_
    refine parses_bind parses_consumeWhitespace fun _ m₄ _ _ _ => ?_
    have hbound := parses_untilBrace (n := n) (fun m' hm' => parses_scanArm hstatement hm'.le) (m := m₄) (by omega)
      (Nat.lt_succ_self _)
    refine parses_bind (parses_bounded hbound) fun arms m₅ _ _ harms => ?_
    refine parses_bind (parses_consumeToken _) fun _ m₆ _ _ _ => parses_pure ?_
    exact .scan hvalue.1.wellFormed (fun arm ha => (harms arm ha).1) fun arm ha => (harms arm ha).2
  split
  · refine parses_bind (parses_ifArm hstatement hm.le) fun arm m₁ _ _ harm => ?_
    obtain ⟨hlt, hne, harm⟩ := harm
    refine parses_bind (parses_bounded (parses_ifArms hstatement (by omega) (Nat.lt_succ_self _))) fun arms m₂ _ _ harms => ?_
    have hall : ∀ a ∈ arm :: arms, (∀ c ∈ a.1, WellFormedCondition G c) ∧ ∀ st ∈ a.2, WellFormedStatement G source st :=
      List.forall_mem_cons.mpr ⟨harm, harms.2⟩
    exact parses_pure (.ifs hne harms.1 (fun a ha => (hall a ha).1) fun a ha => (hall a ha).2)
  split
  · refine parses_bind parses_consumeWhitespace fun _ m₁ _ _ _ => ?_
    refine parses_bind (parses_unscopedVariable expressions_behind (Nat.lt_of_lt_of_le hm ‹_›)) fun var m₂ _ _ hvar => ?_
    refine parses_bind parses_consumeWhitespace fun _ m₃ _ _ _ => ?_
    refine parses_bind (parses_consumeToken _) fun _ m₄ _ _ _ => ?_
    refine parses_bind parses_consumeWhitespace fun _ m₅ _ _ _ => ?_
    refine parses_bind parses_expression fun value m₆ _ _ hvalue => ?_
    refine parses_bind parses_consumeWhitespace fun _ m₇ _ _ _ => ?_
    refine parses_bind (parses_statements hstatement (by omega)) fun statements m₈ _ _ hstatements => ?_
    exact parses_pure (.forIn hvar.2 hvalue.1.wellFormed hstatements.2)
  · exact parses_throw fun _ => hl

end Blocks

/-- With enough depth, a statement is parsed at any place. -/
theorem parses_nested {depth : Nat} (hdepth : source.length - n < depth) :
    Parses G source n (parseNested G depth) fun st n' => n < n' ∧ WellFormedStatement G source st := by
  induction depth generalizing n with
  | zero => exact absurd hdepth (Nat.not_lt_zero _)
  | succ depth ih =>
    refine parses_bind parses_location fun l n₁ _ _ hl => ?_
    obtain ⟨rfl, hl⟩ := hl
    refine parses_bind (parses_nameOf _) fun keyword n₂ _ hn₂ hkeyword => ?_
    refine parses_bind parses_consumeWhitespace fun _ n₃ hle _ _ => ?_
    have hnested : StatementsBehind G source n₁ (parseNested G depth) := fun m hm => ih (by omega)
    have hlt : n₁ < n₃ := hkeyword.1.trans_le hle
    exact parses_conseq (parses_keyword hnested hlt keyword hl) fun st n' hn' _ hst => ⟨hlt.trans_le hn', hst⟩

theorem parses_statement : Parses G source n (parseStatement G) fun st n' => n < n' ∧ WellFormedStatement G source st :=
  parses_bounded (parses_nested (Nat.lt_succ_self _))

/-! ## Stanzas and files -/

theorem statements_behind : StatementsBehind G source n (parseStatement G) := fun _ _ => parses_statement

/-- A stanza that a file can hold, with its query: one that was compiled, of one pattern at most and with
    a capture of the full match. -/
def WellFormedStanza (G : Grammar) (source : List Char) (stanza : Stanza) (query : List Char) : Prop :=
  (∃ q, G.newQuery query = .ok q ∧ q.patternCount ≤ 1 ∧ q.hasFullMatch = true ∧
      stanza.captures = q.captures.filter fun c => c.1 ≠ fullMatch) ∧
    ∀ st ∈ stanza.statements, WellFormedStatement G source st

/-- The source of the queries of a file, one after another. -/
def joinQueries (queries : List (List Char)) : List Char := queries.flatMap (· ++ ['\n'])

structure WellFormedFile (G : Grammar) (source : List Char) (file : ParsedFile) : Prop where
  globals : ∀ g ∈ file.globals, IsName G g.name ∧ g.quantifier ≠ .zero
  inherited : ∀ name ∈ file.inheritedVariables, IsName G name
  shorthands : ∀ name sh, file.shorthands name = some sh → IsName G name ∧ IsName G sh.var ∧ WellFormedAttributes G sh.attributes
  stanzas : ∃ queries, file.querySource = joinQueries queries ∧ List.Forall₂ (WellFormedStanza G source) file.stanzas queries

theorem wellFormedFile_new : WellFormedFile G source .new where
  globals := by simp [ParsedFile.new]
  inherited := by simp [ParsedFile.new]
  shorthands := by simp [ParsedFile.new]
  stanzas := ⟨[], rfl, .nil⟩

namespace WellFormedFile

variable {file : ParsedFile}

theorem addShorthand (h : WellFormedFile G source file) {sh : Identifier × AttributeShorthand} (hname : IsName G sh.1)
    (hvar : IsName G sh.2.var) (hattributes : WellFormedAttributes G sh.2.attributes) :
    WellFormedFile G source (file.addShorthand sh) where
  globals := h.globals
  inherited := h.inherited
  stanzas := h.stanzas
  shorthands := by
    intro name sh' hsh'
    have hupdate : Function.update file.shorthands sh.1 (some sh.2) name = some sh' := hsh'
    by_cases hn : name = sh.1
    · subst hn
      rw [Function.update_self] at hupdate
      exact Option.some.inj hupdate ▸ ⟨hname, hvar, hattributes⟩
    · rw [Function.update_of_ne hn] at hupdate
      exact h.shorthands name sh' hupdate

theorem addGlobal (h : WellFormedFile G source file) {g : Global} (hg : IsName G g.name ∧ g.quantifier ≠ .zero) :
    WellFormedFile G source (file.addGlobal g) where
  globals := List.forall_mem_append.mpr ⟨h.globals, List.forall_mem_singleton.mpr hg⟩
  inherited := h.inherited
  shorthands := h.shorthands
  stanzas := h.stanzas

theorem addInherited (h : WellFormedFile G source file) {name : Identifier} (hname : IsName G name) :
    WellFormedFile G source (file.addInherited name) where
  globals := h.globals
  inherited := List.forall_mem_append.mpr ⟨h.inherited, List.forall_mem_singleton.mpr hname⟩
  shorthands := h.shorthands
  stanzas := h.stanzas

theorem addStanza (h : WellFormedFile G source file) {stanza : Stanza × List Char}
    (hstanza : WellFormedStanza G source stanza.1 stanza.2) :
    WellFormedFile G source (file.addStanza stanza) where
  globals := h.globals
  inherited := h.inherited
  shorthands := h.shorthands
  stanzas := by
    obtain ⟨queries, hsource, hqueries⟩ := h.stanzas
    refine ⟨queries ++ [stanza.2], ?_, List.rel_append hqueries (.cons hstanza .nil)⟩
    rw [joinQueries, List.flatMap_append, List.flatMap_singleton, ← joinQueries, ← hsource, ← List.append_assoc]
    rfl

end WellFormedFile

theorem queryLength_le {state : QueryState} {cs : List Char} {k : Nat} (h : queryLength state cs = some k) : k ≤ cs.length := by
  induction cs generalizing state k with
  | nil => cases state <;> simp [queryLength] at h
  | cons c cs ih =>
    have hrest : ∀ {state' : QueryState}, (queryLength state' cs).map (· + 1) = some k → k ≤ (c :: cs).length := by
      intro state' hr
      obtain ⟨k', hk', rfl⟩ := Option.map_eq_some_iff.mp hr
      exact Nat.succ_le_succ (ih hk')
    cases state with
    | plain =>
      rw [queryLength] at h
      split at h
      · exact Option.some.inj h ▸ Nat.zero_le _
      · exact hrest h
    | string => exact hrest h
    | escape => exact hrest h
    | comment => exact hrest h

theorem parses_query : Parses G source n (parseQuery G) fun q _ =>
    G.newQuery q.2 = .ok q.1 ∧ q.1.patternCount ≤ 1 ∧ q.1.hasFullMatch = true := by
  intro hn
  cases hlength : queryLength .plain (source.drop n) with
  | none =>
    refine leads_of_error (e := .unexpectedEOF (Cursor.atPlace source (n + (source.drop n).length)).location) ?_ ?_
    · rw [parseQuery, Cursor.atPlace_rest, hlength, Cursor.pass_atPlace]
    · refine place_behind ?_
      rw [List.length_drop]
      omega
  | some k =>
    have hk := queryLength_le hlength
    generalize hquery : withFullMatch ((source.drop n).take k) = query
    cases hcompiled : G.newQuery query with
    | error e =>
      refine leads_of_error (e := .queryError (e.shift (Cursor.atPlace source n))) ?_ ⟨n, k, e, hn, ?_, rfl⟩
      · rw [parseQuery, Cursor.atPlace_rest, hlength]
        simp only [hquery, hcompiled]
      · rw [hquery, hcompiled]
    | ok q =>
      by_cases hcount : 1 < q.patternCount
      · refine leads_of_error (e := .unexpectedQueryPatterns (Cursor.atPlace source n).location) ?_ (place_behind hn)
        rw [parseQuery, Cursor.atPlace_rest, hlength]
        simp only [hquery, hcompiled, if_pos hcount]
      · cases hcaptured : q.hasFullMatch with
        | true =>
          refine parses_pass (a := (q, query)) ?_ hk ⟨hcompiled, Nat.le_of_not_lt hcount, hcaptured⟩ hn
          rw [parseQuery, Cursor.atPlace_rest, hlength]
          simp only [hquery, hcompiled, if_neg hcount, hcaptured, if_true]
        | false =>
          refine leads_of_error (e := .panicked) ?_ (.inr ⟨n, k, q, by rw [hquery, hcompiled], hcaptured⟩)
          rw [parseQuery, Cursor.atPlace_rest, hlength]
          simp [hquery, hcompiled, hcount, hcaptured]

theorem parses_stanza :
    Parses G source n (parseStanza G) fun stanza n' => n < n' ∧ WellFormedStanza G source stanza.1 stanza.2 := by
  refine parses_bind parses_query fun query n₁ _ _ hquery => ?_
  refine parses_bind parses_consumeWhitespace fun _ n₂ _ _ _ => ?_
  refine parses_bind (parses_statements statements_behind (Nat.le_refl n₂)) fun statements n₃ _ _ hstatements => ?_
  exact parses_pure ⟨by omega, ⟨query.1, hquery.1, hquery.2.1, hquery.2.2, rfl⟩, hstatements.2⟩

theorem parses_quantifier : Parses G source n parseQuantifier fun quantifier _ => quantifier ≠ .zero := by
  refine parses_bind parses_tryPeek fun c n₁ _ _ _ => ?_
  cases c with
  | none => exact parses_pure (by decide)
  | some c =>
    refine parses_bind parses_next fun _ n₂ _ _ _ => ?_
    split
    · exact parses_pure (by decide)
    split
    · exact parses_pure (by decide)
    split
    · exact parses_pure (by decide)
    split
    · exact parses_pure (by decide)
    · exact parses_bind parses_location fun l _ _ _ hl => parses_throw fun _ => hl.2

theorem parses_global : Parses G source n (parseGlobal G) fun g n' => n < n' ∧ IsName G g.name ∧ g.quantifier ≠ .zero := by
  refine parses_bind (parses_nameOf _) fun name n₁ _ _ hname => ?_
  refine parses_bind parses_quantifier fun quantifier n₂ _ _ hquantifier => ?_
  refine parses_bind parses_consumeWhitespace fun _ n₃ _ _ _ => ?_
  refine parses_bind (parses_tryToken _) fun hasDefault n₄ _ _ _ => ?_
  split
  · refine parses_bind parses_consumeWhitespace fun _ n₅ _ _ _ => ?_
    exact parses_bind parses_string fun default n₆ _ _ _ => parses_pure ⟨by omega, hname.2.1, hquantifier⟩
  · exact parses_pure ⟨by omega, hname.2.1, hquantifier⟩

theorem parses_shorthand : Parses G source n (parseShorthand G) fun sh n' =>
    n < n' ∧ IsName G sh.1 ∧ IsName G sh.2.var ∧ WellFormedAttributes G sh.2.attributes := by
  refine parses_bind (parses_nameOf _) fun name n₁ _ _ hname => ?_
  refine parses_bind parses_consumeWhitespace fun _ n₂ _ _ _ => ?_
  refine parses_bind (parses_consumeToken _) fun _ n₃ _ _ _ => ?_
  refine parses_bind parses_consumeWhitespace fun _ n₄ _ _ _ => ?_
  refine parses_bind (parses_unscopedVariable (n := n) expressions_behind (by omega)) fun var n₅ _ _ hvar => ?_
  refine parses_bind parses_consumeWhitespace fun _ n₆ _ _ _ => ?_
  refine parses_bind (parses_consumeToken _) fun _ n₇ _ _ _ => ?_
  refine parses_bind parses_consumeWhitespace fun _ n₈ _ _ _ => ?_
  refine parses_bind parses_attributes fun attributes n₉ _ _ hattributes => ?_
  exact parses_pure ⟨by omega, hname.2.1, hvar.2, hattributes⟩

theorem parses_item {file : ParsedFile} (hfile : WellFormedFile G source file) :
    Parses G source n (parseItem G file) fun file' n' => n < n' ∧ WellFormedFile G source file' := by
  refine parses_bind (parses_tryToken _) fun isAttribute n₁ _ _ _ => ?_
  split
  · refine parses_bind parses_consumeWhitespace fun _ n₂ _ _ _ => ?_
    refine parses_bind parses_shorthand fun sh n₃ _ _ hsh => ?_
    exact parses_pure ⟨by omega, hfile.addShorthand hsh.2.1 hsh.2.2.1 hsh.2.2.2⟩
  refine parses_bind (parses_tryToken _) fun isGlobal n₂ _ _ _ => ?_
  split
  · refine parses_bind parses_consumeWhitespace fun _ n₃ _ _ _ => ?_
    exact parses_bind parses_global fun g n₄ _ _ hg => parses_pure ⟨by omega, hfile.addGlobal hg.2⟩
  refine parses_bind (parses_tryToken _) fun isInherit n₃ _ _ _ => ?_
  split
  · refine parses_bind parses_consumeWhitespace fun _ n₄ _ _ _ => ?_
    refine parses_bind (parses_consumeToken _) fun _ n₅ _ _ _ => ?_
    exact parses_bind (parses_nameOf _) fun name n₆ _ _ hname => parses_pure ⟨by omega, hfile.addInherited hname.2.1⟩
  · exact parses_bind parses_stanza fun stanza n₄ _ _ hstanza => parses_pure ⟨by omega, hfile.addStanza hstanza.2⟩

theorem parses_items {file : ParsedFile} (hfile : WellFormedFile G source file) {k : Nat} (hk : source.length - n < k) :
    Parses G source n (parseItems G k file) fun file' _ => WellFormedFile G source file' := by
  induction k generalizing n file with
  | zero => exact absurd hk (Nat.not_lt_zero _)
  | succ k ih =>
    refine parses_bind parses_tryPeek fun c n₁ _ _ hc => ?_
    obtain ⟨rfl, -⟩ := hc
    cases c with
    | none => exact parses_pure hfile
    | some c =>
      refine parses_bind (parses_item hfile) fun file' n₂ _ _ hfile' => ?_
      refine parses_bind parses_consumeWhitespace fun _ n₃ _ _ _ => ?_
      exact ih hfile'.2 (by omega)

/-- Queries that compile one by one, with a capture of the full match, and not together, or without it. -/
def QueriesClash (G : Grammar) : Prop :=
  ∃ queries, (∀ q ∈ queries, ∃ r, G.newQuery q = .ok r ∧ r.hasFullMatch = true) ∧
    ((∃ e, G.newQuery (joinQueries queries) = .error e) ∨
      queries ≠ [] ∧ ∃ r, G.newQuery (joinQueries queries) = .ok r ∧ r.hasFullMatch = false)

/-- An error that reading a file may give: of the parser, of the queries together, or of the checker on
    a well-formed file. -/
def FileError (G : Grammar) (regexMatch : Regex → List Char → Option RegexMatch) (source : List Char) (e : ParseError) : Prop :=
  Real G source e ∨ (e = .panicked ∧ QueriesClash G) ∨
    ∃ error file, e = .check error ∧ WellFormedFile G source file ∧
      (File.mk file.globals file.stanzas).check regexMatch = .error error

theorem compiled_of_stanzas {stanzas : List Stanza} {queries : List (List Char)}
    (h : List.Forall₂ (WellFormedStanza G source) stanzas queries) :
    ∀ q ∈ queries, ∃ r, G.newQuery q = .ok r ∧ r.hasFullMatch = true := by
  induction h with
  | nil => simp
  | cons hquery _ ih =>
    obtain ⟨⟨q, hq, -, hcaptured, -⟩, -⟩ := hquery
    exact List.forall_mem_cons.mpr ⟨⟨q, hq, hcaptured⟩, ih⟩

theorem parseIntoFile_leads :
    Leads (fun e => Real G source e ∨ (e = .panicked ∧ QueriesClash G)) 0 (.start source) (parseIntoFile G .new)
      fun file _ _ => WellFormedFile G source file ∧ ∃ q, G.newQuery file.querySource = .ok q := by
  refine leads_bind (leads_weaken (parses_consumeWhitespace (Nat.zero_le source.length)) fun _ => .inl) fun _ n s _ hs => ?_
  obtain ⟨hn, rfl, -⟩ := hs
  have hitems : Parses G source n (bounded fun k => parseItems G k .new) fun file _ => WellFormedFile G source file :=
    parses_bounded (parses_items wellFormedFile_new (Nat.lt_succ_self _))
  refine leads_bind (leads_weaken (hitems hn) fun _ => .inl) fun file n' s' _ hfile => ?_
  obtain ⟨-, -, hfile⟩ := hfile
  split
  next e he =>
    obtain ⟨queries, hsource, hqueries⟩ := hfile.stanzas
    rw [hsource] at he
    exact leads_throw (.inr ⟨rfl, queries, compiled_of_stanzas hqueries, .inl ⟨e, he⟩⟩)
  next q hq => exact leads_pure ⟨hfile, q, hq⟩

/-- The query of all stanzas has no capture of the full match only if the queries clash. -/
theorem queriesClash_of_lacks {file : ParsedFile} (hfile : WellFormedFile G source file) (h : lacksFullMatch G file = true) :
    QueriesClash G := by
  obtain ⟨queries, hsource, hqueries⟩ := hfile.stanzas
  rw [lacksFullMatch, Bool.and_eq_true, Bool.and_eq_true] at h
  obtain ⟨⟨hstanzas, -⟩, hlacks⟩ := h
  have hne : queries ≠ [] := by
    rintro rfl
    rw [List.forall₂_nil_right_iff.mp hqueries] at hstanzas
    cases hstanzas
  refine ⟨queries, compiled_of_stanzas hqueries, .inr ⟨hne, ?_⟩⟩
  rw [hsource] at hlacks
  split at hlacks
  next => cases hlacks
  next q hq => exact ⟨q, hq, by simpa using hlacks⟩

/-- Reading a file comes to an end: with a well-formed file that the checker accepted, or with an error
    of the parser, at a place of the source or for a query in it, or of the checker. -/
theorem reading_ends_well (G : Grammar) (regexMatch : Regex → List Char → Option RegexMatch) (source : List Char) :
    (∀ file, fromStr G regexMatch source = .ok file →
        WellFormedFile G source file ∧ (∃ q, G.newQuery file.querySource = .ok q) ∧
          (File.mk file.globals file.stanzas).check regexMatch = .ok ()) ∧
      ∀ e, fromStr G regexMatch source = .error e → FileError G regexMatch source e := by
  obtain ⟨hok, herror⟩ := @parseIntoFile_leads G source
  constructor
  · intro file h
    obtain ⟨⟨file', s⟩, hparsed, hchecked⟩ := except_bind_eq_ok.mp h
    obtain ⟨-, -, hfile, hquery⟩ := hok file' s hparsed
    split at hchecked
    next => cases hchecked
    next =>
      split at hchecked
      next => cases hchecked
      next hcheck =>
        obtain rfl := Except.ok.inj hchecked
        exact ⟨hfile, hquery, hcheck⟩
  · intro e h
    obtain hparse | ⟨⟨file', s⟩, hparsed, hchecked⟩ := except_bind_eq_error h
    · obtain hreal | hclash := herror e hparse
      · exact .inl hreal
      · exact .inr (.inl hclash)
    · obtain ⟨-, -, hfile, -⟩ := hok file' s hparsed
      split at hchecked
      next hlacks =>
        obtain rfl := Except.error.inj hchecked
        exact .inr (.inl ⟨rfl, queriesClash_of_lacks hfile hlacks⟩)
      next =>
        split at hchecked
        next error hcheck =>
          obtain rfl := Except.error.inj hchecked
          exact .inr (.inr ⟨error, file', rfl, hfile, hcheck⟩)
        next => cases hchecked

end CodeQuery.Tsg.Parser
