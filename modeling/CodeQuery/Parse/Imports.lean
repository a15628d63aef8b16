/-
  CodeQuery.Parse.Imports — the use declarations of a Rust file
  (`extract_rust_imports` of `codequery-parse/src/imports.rs`).

  The path is what stays of a declaration's text when the visibilities `pub `,
  `pub(crate) ` and `pub(super) `, the keyword and a space are taken away in front and
  the semicolon and blanks at the ends.

  - `classified_iff`: a declaration gives its path, and external where its first segment
    is none of `crate`, `self` and `super`, exactly when it is written with these spaces,
    one of these visibilities, and `::` right behind such a segment.
  - `a_private_use_keeps_its_visibility`: `pub(self)` is none of the three.
-/

import CodeQuery.Parse.Definition
import CodeQuery.Text.Blanks
import CodeQuery.Text.Words

namespace CodeQuery.Parse.Imports

open CodeQuery.Text

structure ImportInfo where
  source : List Char
  kind : String
  line : Nat
  external : Bool
  deriving DecidableEq, Repr

/-- `node_text`. -/
def nodeChars (source : Str) (n : Node) : List Char := ((fromUtf8 (nodeSource source n)).map String.toList).getD []

def trimVisibility (text : List Char) : List Char :=
  trimStartText "pub(super) ".toList (trimStartText "pub(crate) ".toList (trimStartText "pub ".toList text))

def usePath (text : List Char) : List Char := trim (trimEndChar ';' (trimStartText "use ".toList (trimVisibility text)))

def isExternal (path : List Char) : Bool :=
  !("crate::".toList.isPrefixOf path) && !("self::".toList.isPrefixOf path) && !("super::".toList.isPrefixOf path)

def rustImport (source : Str) (child : Node) : ImportInfo :=
  let path := usePath (nodeChars source child)
  { source := path
    kind := if "::*".toList.isSuffixOf path then "wildcard" else "use"
    line := child.startPosition.row + 1
    external := isExternal path }

/-- The imports, each with the node it is of. -/
def rustImports (source : Str) (tree : Node) : List (Node × ImportInfo) :=
  (tree.children.filter (·.kind == "use_declaration")).map fun child => (child, rustImport source child)

def extractRustImports (source : Str) (tree : Node) : List ImportInfo := (rustImports source tree).map Prod.snd

/-! ## Declarations as they are written -/

/-- Between two tokens stand blanks and comments. -/
inductive Gap : List Char → Prop where
  | nil : Gap []
  | blank {c : Char} {g : List Char} : isWhitespace c = true → Gap g → Gap (c :: g)
  | block {g : List Char} (inner : List Char) : Gap g → Gap ("/*".toList ++ inner ++ "*/".toList ++ g)
  | line {g : List Char} (inner : List Char) : Gap g → Gap ("//".toList ++ inner ++ '\n' :: g)

/-- What stands in the parentheses of a visibility. -/
inductive Scope : List Char → Prop where
  | crate : Scope "crate".toList
  | super : Scope "super".toList
  | self : Scope "self".toList
  | within {g : List Char} (path : List Char) : Gap g → Scope ("in".toList ++ g ++ path)

/-- What stands before the keyword: nothing, or a visibility and the gap behind it. -/
inductive UseVisibility : List Char → Prop where
  | none : UseVisibility []
  | pub {g : List Char} : Gap g → g ≠ [] → UseVisibility ("pub".toList ++ g)
  | restricted {g₁ g₂ scope g₃ g₄ : List Char} : Gap g₁ → Gap g₂ → Scope scope → Gap g₃ → Gap g₄ →
      UseVisibility ("pub".toList ++ g₁ ++ '(' :: (g₂ ++ scope ++ g₃ ++ ')' :: g₄))

/-- A character of an identifier; `#` is in a raw one. -/
def isIdentChar (c : Char) : Bool := isWordChar c || c == '#' || (128 ≤ c.toNat && !isWhitespace c)

structure UseDeclaration where
  before : List Char
  /-- Between the keyword and the path. -/
  gap : List Char
  /-- Nothing, or `::` in front of the path. -/
  lead : List Char
  /-- The first segment; none of a list or a wildcard. -/
  first : List Char
  rest : List Char
  /-- Between the path and the semicolon. -/
  gapEnd : List Char
  visibility : UseVisibility before
  isGap : Gap gap
  isGapEnd : Gap gapEnd
  isLead : lead = [] ∨ ∃ g, Gap g ∧ lead = "::".toList ++ g
  identifier : ∀ c ∈ first, isIdentChar c = true
  ended : ∀ c ∈ rest.head?, isIdentChar c = false
  /-- The keyword is no identifier. -/
  notKeyword : first ≠ "use".toList
  nonempty : lead ++ first ++ rest ≠ []
  starts : ∀ c ∈ (lead ++ first ++ rest).head?, isWhitespace c = false
  ends : ∀ c ∈ (lead ++ first ++ rest).getLast?, isWhitespace c = false ∧ c ≠ ';'

def UseDeclaration.path (d : UseDeclaration) : List Char := d.lead ++ d.first ++ d.rest

/-- From the keyword on. -/
def UseDeclaration.fromKeyword (d : UseDeclaration) : List Char :=
  "use".toList ++ d.gap ++ d.path ++ d.gapEnd ++ [';']

def UseDeclaration.text (d : UseDeclaration) : List Char := d.before ++ d.fromKeyword

/-- The segments that a path of the same crate begins with. -/
def localSegments : List (List Char) := ["crate".toList, "self".toList, "super".toList]

/-- The import of the node has the path as it is written, and is external where the first
    segment is none of these. -/
def Classified (source : Str) (tree n : Node) (d : UseDeclaration) : Prop :=
  ∃ info, (n, info) ∈ rustImports source tree ∧ info.source = d.path ∧
    (info.external = true ↔ d.first ∉ localSegments)

/-- What is taken away before the keyword. -/
def plainVisibilities : List (List Char) := [[], "pub ".toList, "pub(crate) ".toList, "pub(super) ".toList]

/-- Written as the stripping expects it. -/
structure Plain (tree n : Node) (d : UseDeclaration) : Prop where
  top : n ∈ tree.children
  visibility : d.before ∈ plainVisibilities
  space : d.gap.head? = some ' '
  blank : Blank d.gap
  blankEnd : Blank d.gapEnd
  segment : d.first ∈ localSegments → d.lead = [] ∧ "::".toList <+: d.rest

/-! ## Gaps -/

section Gaps

theorem Gap.head {g : List Char} (h : Gap g) : ∀ c ∈ g.head?, isWhitespace c = true ∨ c = '/' := by
  intro c hc
  cases h with
  | nil => cases hc
  | blank hblank _ =>
    cases hc
    exact .inl hblank
  | block inner _ =>
    cases hc
    exact .inr rfl
  | line inner _ =>
    cases hc
    exact .inr rfl

/-- A gap ends in a blank or with a comment. -/
theorem Gap.last {g : List Char} (h : Gap g) : ∀ c ∈ g.getLast?, isWhitespace c = true ∨ c = '/' := by
  have hbehind : ∀ {front g : List Char} {d : Char}, isWhitespace d = true ∨ d = '/' →
      (∀ c ∈ g.getLast?, isWhitespace c = true ∨ c = '/') →
      ∀ c ∈ (front ++ d :: g).getLast?, isWhitespace c = true ∨ c = '/' := by
    intro front g d hd hg c hc
    rw [List.getLast?_append_of_ne_nil front (List.cons_ne_nil d g)] at hc
    cases g with
    | nil =>
      cases hc
      exact hd
    | cons e g => exact hg c hc
  induction h with
  | nil => exact fun c hc => nomatch hc
  | blank hblank _ ih => exact @hbehind [] _ _ (.inl hblank) ih
  | @block g inner _ ih =>
    have hshape : "/*".toList ++ inner ++ "*/".toList ++ g = ("/*".toList ++ inner ++ ['*']) ++ '/' :: g := by simp
    rw [hshape]
    exact hbehind (.inr rfl) ih
  | line inner _ ih => exact hbehind (.inl rfl) ih

theorem head_append {c : Char} {cs ds : List Char} (h : c ∈ (cs ++ ds).head?) :
    c ∈ cs.head? ∨ cs = [] ∧ c ∈ ds.head? := by
  cases cs with
  | nil => exact .inr ⟨rfl, h⟩
  | cons d cs => exact .inl h

end Gaps

/-! ## Visibilities -/

section Visibilities

theorem not_prefix_of_head {d c : Char} {pat cs : List Char} (hpat : pat.head? = some d) (h : c ∈ cs.head?) (hne : c ≠ d) :
    ¬ pat <+: cs := by
  intro hpre
  obtain ⟨more, rfl⟩ := hpre
  cases pat with
  | nil => cases hpat
  | cons e pat =>
    cases hpat
    cases h
    exact hne rfl

/-- Only what begins with a `p` is taken for a visibility. -/
theorem trimVisibility_of_head {c : Char} {cs : List Char} (h : c ∈ cs.head?) (hne : c ≠ 'p') : trimVisibility cs = cs := by
  rw [trimVisibility, trimStartText_of_not_prefix (not_prefix_of_head rfl h hne),
    trimStartText_of_not_prefix (not_prefix_of_head rfl h hne), trimStartText_of_not_prefix (not_prefix_of_head rfl h hne)]

/-- What a gap and what stands behind it begin with. -/
theorem Gap.head_append {g cs : List Char} (hg : Gap g) {c d : Char} (hcs : cs.head? = some d) (h : c ∈ (g ++ cs).head?) :
    isWhitespace c = true ∨ c = '/' ∨ c = d := by
  rcases Imports.head_append h with hin | ⟨-, hbehind⟩
  · exact (hg.head c hin).imp_right .inl
  · exact .inr (.inr (Option.mem_unique hbehind hcs))

theorem blank_or_slash_ne {c d : Char} (h : isWhitespace c = true ∨ c = '/') (hblank : isWhitespace d = false) (hd : d ≠ '/') :
    c ≠ d := by
  rintro rfl
  rcases h with h | h
  · rw [hblank] at h
    cases h
  · exact hd h

theorem trimVisibility_pub (cs : List Char) : trimVisibility ("pub ".toList ++ cs) = trimVisibility cs := by
  rw [trimVisibility, trimVisibility, trimStartText_append (by decide)]

/-- A scope of the two is taken away with its parentheses and a space. -/
theorem trimVisibility_scope {scope cs : List Char} (hscope : scope = "crate".toList ∨ scope = "super".toList) {c : Char}
    (h : c ∈ cs.head?) (hne : c ≠ 'p') :
    trimVisibility ("pub(".toList ++ scope ++ ") ".toList ++ cs) = cs := by
  have hnot : ∀ pat : List Char, pat.head? = some 'p' → ¬ pat <+: cs := fun pat hpat => not_prefix_of_head hpat h hne
  rcases hscope with rfl | rfl
  · have hpub : ¬ "pub ".toList <+: "pub(crate) ".toList ++ cs := by
      show ¬ ['p', 'u', 'b', ' '] <+: 'p' :: 'u' :: 'b' :: '(' :: _
      simp [List.cons_prefix_cons]
    show trimVisibility ("pub(crate) ".toList ++ cs) = cs
    rw [trimVisibility, trimStartText_of_not_prefix hpub, trimStartText_append (by decide),
      trimStartText_of_not_prefix (hnot _ rfl), trimStartText_of_not_prefix (hnot _ rfl)]
  · have hpub : ¬ "pub ".toList <+: "pub(super) ".toList ++ cs := by
      show ¬ ['p', 'u', 'b', ' '] <+: 'p' :: 'u' :: 'b' :: '(' :: _
      simp [List.cons_prefix_cons]
    have hcrate : ¬ "pub(crate) ".toList <+: "pub(super) ".toList ++ cs := by
      show ¬ ['p', 'u', 'b', '(', 'c', 'r', 'a', 't', 'e', ')', ' '] <+: 'p' :: 'u' :: 'b' :: '(' :: 's' :: _
      simp [List.cons_prefix_cons]
    show trimVisibility ("pub(super) ".toList ++ cs) = cs
    rw [trimVisibility, trimStartText_of_not_prefix hpub, trimStartText_of_not_prefix hcrate,
      trimStartText_append (by decide), trimStartText_of_not_prefix (hnot _ rfl)]

/-- What is behind `pub` and does not go on as one of the three keeps it all. -/
theorem trimVisibility_kept {cs : List Char} (hspace : ¬ [' '] <+: cs) (hcrate : ¬ "(crate) ".toList <+: cs)
    (hsuper : ¬ "(super) ".toList <+: cs) : trimVisibility ("pub".toList ++ cs) = "pub".toList ++ cs := by
  have hbehind : ∀ pat : List Char, ¬ pat <+: cs → ¬ "pub".toList ++ pat <+: "pub".toList ++ cs :=
    fun pat h hpre => h ((List.prefix_append_right_inj _).mp hpre)
  have hpub : ¬ "pub ".toList <+: "pub".toList ++ cs := hbehind _ hspace
  have hpubCrate : ¬ "pub(crate) ".toList <+: "pub".toList ++ cs := hbehind _ hcrate
  have hpubSuper : ¬ "pub(super) ".toList <+: "pub".toList ++ cs := hbehind _ hsuper
  rw [trimVisibility, trimStartText_of_not_prefix hpub, trimStartText_of_not_prefix hpubCrate,
    trimStartText_of_not_prefix hpubSuper]

/-- Where a text goes on with a character, no gap stands in front of it. -/
theorem Gap.eq_nil_of_prefix {g pat cs : List Char} (hg : Gap g) {d : Char} (hpat : pat.head? = some d)
    (hblank : isWhitespace d = false) (hslash : d ≠ '/') (h : pat <+: g ++ cs) : g = [] := by
  cases g with
  | nil => rfl
  | cons c g =>
    exact absurd h (not_prefix_of_head hpat rfl (blank_or_slash_ne (hg.head c rfl) hblank hslash))

/-- The closing parenthesis and a space, in front of a keyword. -/
theorem close_prefix {g₃ g₄ after : List Char} (hg₃ : Gap g₃) (hafter : after.head? = some 'u')
    (h : [')', ' '] <+: g₃ ++ (')' :: g₄ ++ after)) : g₃ = [] ∧ ∃ g, g₄ = ' ' :: g := by
  have hnil : g₃ = [] := hg₃.eq_nil_of_prefix rfl (by decide) (by decide) h
  rw [hnil, List.nil_append, List.cons_append, List.cons_prefix_cons] at h
  refine ⟨hnil, ?_⟩
  cases g₄ with
  | nil => exact absurd h.2 (not_prefix_of_head rfl hafter (by decide))
  | cons c g =>
    rw [List.cons_append, List.cons_prefix_cons] at h
    exact ⟨g, by rw [← h.2.1]⟩

/-- A scope of the two is taken away without a gap in it, and with a space behind. -/
theorem scope_prefix {g₂ scope g₃ g₄ after : List Char} (hg₂ : Gap g₂) (hscope : Scope scope) (hg₃ : Gap g₃)
    (hafter : after.head? = some 'u') {known : List Char} (hknown : known = "crate".toList ∨ known = "super".toList)
    (h : known ++ [')', ' '] <+: g₂ ++ (scope ++ (g₃ ++ (')' :: g₄ ++ after)))) :
    g₂ = [] ∧ scope = known ∧ g₃ = [] ∧ ∃ g, g₄ = ' ' :: g := by
  obtain ⟨d, hd, hblank, hslash⟩ : ∃ d, (known ++ [')', ' ']).head? = some d ∧ isWhitespace d = false ∧ d ≠ '/' := by
    rcases hknown with rfl | rfl
    · exact ⟨'c', rfl, by decide, by decide⟩
    · exact ⟨'s', rfl, by decide, by decide⟩
  have hnil : g₂ = [] := hg₂.eq_nil_of_prefix hd hblank hslash h
  rw [hnil, List.nil_append] at h
  -- another scope begins otherwise
  have hsame : scope = known := by
    rcases hknown with rfl | rfl
    · cases hscope with
      | crate => rfl
      | super => exact absurd h (not_prefix_of_head rfl rfl (by decide))
      | self => exact absurd h (not_prefix_of_head rfl rfl (by decide))
      | within path hg => exact absurd h (not_prefix_of_head rfl rfl (by decide))
    · cases hscope with
      | crate => exact absurd h (not_prefix_of_head rfl rfl (by decide))
      | super => rfl
      | self =>
        have htwo : ['s', 'u'] <+: 's' :: 'e' :: ("lf".toList ++ (g₃ ++ (')' :: g₄ ++ after))) :=
          (List.prefix_append ['s', 'u'] ("per".toList ++ [')', ' '])).trans h
        simp [List.cons_prefix_cons] at htwo
      | within path hg => exact absurd h (not_prefix_of_head rfl rfl (by decide))
  rw [hsame, List.prefix_append_right_inj] at h
  exact ⟨hnil, hsame, close_prefix hg₃ hafter h⟩

/-- A gap begins with a space, or with another blank or a comment. -/
theorem Gap.space_or {g : List Char} (h : Gap g) (hne : g ≠ []) :
    (∃ g', Gap g' ∧ g = ' ' :: g') ∨ ∃ c g', g = c :: g' ∧ c ≠ ' ' ∧ (isWhitespace c = true ∨ c = '/') := by
  cases h with
  | nil => exact absurd rfl hne
  | @blank c g hblank hg =>
    by_cases hspace : c = ' '
    · exact .inl ⟨g, hg, by rw [hspace]⟩
    · exact .inr ⟨c, g, rfl, hspace, .inl hblank⟩
  | block inner hg => exact .inr ⟨'/', _, rfl, by decide, .inr rfl⟩
  | line inner hg => exact .inr ⟨'/', _, rfl, by decide, .inr rfl⟩

/-- What is left in front of the keyword: nothing only of the plain visibilities, and
    nothing that begins as the keyword. -/
def Left (before after : List Char) : Prop :=
  ∃ r, trimVisibility (before ++ after) = r ++ after ∧ (r = [] → before ∈ plainVisibilities) ∧ ∀ c ∈ r.head?, c ≠ 'u'

/-- A gap and what is behind it do not begin as a visibility. -/
theorem Gap.exists_head {g cs : List Char} (hg : Gap g) {d : Char} (hcs : cs.head? = some d) (hd : d ≠ 'p') :
    ∃ c, c ∈ (g ++ cs).head? ∧ c ≠ 'p' := by
  cases g with
  | nil => exact ⟨d, hcs, hd⟩
  | cons c g => exact ⟨c, rfl, blank_or_slash_ne (hg.head c rfl) (by decide) (by decide)⟩

theorem trimVisibility_gap {g cs : List Char} (hg : Gap g) {d : Char} (hcs : cs.head? = some d) (hd : d ≠ 'p') :
    trimVisibility (g ++ cs) = g ++ cs := by
  obtain ⟨c, hc, hne⟩ := hg.exists_head hcs hd
  exact trimVisibility_of_head hc hne

theorem Gap.head_ne_u {g : List Char} (hg : Gap g) : ∀ c ∈ g.head?, c ≠ 'u' :=
  fun c hc => blank_or_slash_ne (hg.head c hc) (by decide) (by decide)

/-- Another blank or a comment right behind `pub`. -/
theorem left_unspaced {c : Char} {cs : List Char} (after : List Char) (hspace : c ≠ ' ') (h : isWhitespace c = true ∨ c = '/') :
    Left ("pub".toList ++ c :: cs) after := by
  have hparen : c ≠ '(' := blank_or_slash_ne h (by decide) (by decide)
  refine ⟨"pub".toList ++ c :: cs, ?_, fun hnil => absurd hnil (by simp), fun d hd => ?_⟩
  · rw [List.append_assoc]
    exact trimVisibility_kept (not_prefix_of_head rfl rfl hspace) (not_prefix_of_head rfl rfl hparen)
      (not_prefix_of_head rfl rfl hparen)
  · cases hd
    decide

/-- No gap in front of the parenthesis. -/
theorem left_scope {g₂ scope g₃ g₄ after : List Char} (hg₂ : Gap g₂) (hscope : Scope scope) (hg₃ : Gap g₃) (hg₄ : Gap g₄)
    (hafter : after.head? = some 'u') :
    Left ("pub".toList ++ '(' :: (g₂ ++ scope ++ g₃ ++ ')' :: g₄)) after := by
  have hshape : "pub".toList ++ '(' :: (g₂ ++ scope ++ g₃ ++ ')' :: g₄) ++ after =
      "pub".toList ++ '(' :: (g₂ ++ (scope ++ (g₃ ++ (')' :: g₄ ++ after)))) := by simp
  have hstripped : ∀ known, known = "crate".toList ∨ known = "super".toList →
      known ++ [')', ' '] <+: g₂ ++ (scope ++ (g₃ ++ (')' :: g₄ ++ after))) →
      Left ("pub".toList ++ '(' :: (g₂ ++ scope ++ g₃ ++ ')' :: g₄)) after := by
    intro known hknown hpre
    obtain ⟨hnil₂, hsame, hnil₃, g, hspace⟩ := scope_prefix hg₂ hscope hg₃ hafter hknown hpre
    rw [hspace] at hg₄
    have hg : Gap g := by
      cases hg₄ with
      | blank _ hg => exact hg
    obtain ⟨c, hc, hne⟩ := hg.exists_head hafter (by decide)
    have htrim := trimVisibility_scope hknown hc hne
    rw [hnil₂, hsame, hnil₃, hspace]
    refine ⟨g, ?_, fun hnil => ?_, hg.head_ne_u⟩
    · rw [← htrim]
      simp
    · rw [hnil]
      rcases hknown with rfl | rfl <;> decide
  by_cases hcrate : "crate".toList ++ [')', ' '] <+: g₂ ++ (scope ++ (g₃ ++ (')' :: g₄ ++ after)))
  · exact hstripped _ (.inl rfl) hcrate
  · by_cases hsuper : "super".toList ++ [')', ' '] <+: g₂ ++ (scope ++ (g₃ ++ (')' :: g₄ ++ after)))
    · exact hstripped _ (.inr rfl) hsuper
    · refine ⟨"pub".toList ++ '(' :: (g₂ ++ scope ++ g₃ ++ ')' :: g₄), ?_, fun hnil => absurd hnil (by simp), fun d hd => ?_⟩
      · rw [hshape]
        exact trimVisibility_kept (not_prefix_of_head rfl rfl (by decide))
          (fun h => hcrate (List.cons_prefix_cons.mp h).2) fun h => hsuper (List.cons_prefix_cons.mp h).2
      · cases hd
        decide

theorem left_of_visibility {before after : List Char} (h : UseVisibility before) (hafter : after.head? = some 'u') :
    Left before after := by
  cases h with
  | none => exact ⟨[], trimVisibility_gap .nil hafter (by decide), fun _ => by decide, fun c hc => nomatch hc⟩
  | @pub g hg hne =>
    rcases hg.space_or hne with ⟨g', hg', rfl⟩ | ⟨c, g', rfl, hspace, hc⟩
    · refine ⟨g', (trimVisibility_pub (g' ++ after)).trans (trimVisibility_gap hg' hafter (by decide)), fun hnil => ?_,
        hg'.head_ne_u⟩
      rw [hnil]
      decide
    · exact left_unspaced after hspace hc
  | @restricted g₁ g₂ scope g₃ g₄ hg₁ hg₂ hscope hg₃ hg₄ =>
    by_cases hne : g₁ = []
    · rw [hne, List.append_nil]
      exact left_scope hg₂ hscope hg₃ hg₄ hafter
    · rcases hg₁.space_or hne with ⟨g', hg', rfl⟩ | ⟨c, g', rfl, hspace, hc⟩
      · generalize hinParens : '(' :: (g₂ ++ scope ++ g₃ ++ ')' :: g₄) = inParens
        have hhead : inParens.head? = some '(' := by rw [← hinParens]; rfl
        have hbehind : (inParens ++ after).head? = some '(' := by rw [← hinParens]; rfl
        refine ⟨g' ++ inParens, ?_, fun hnil => ?_, fun c hc => ?_⟩
        · have hshape : "pub".toList ++ ' ' :: g' ++ inParens ++ after = "pub ".toList ++ (g' ++ (inParens ++ after)) := by simp
          rw [hshape, trimVisibility_pub, trimVisibility_gap hg' hbehind (by decide), List.append_assoc]
        · rw [(List.append_eq_nil_iff.mp hnil).2] at hhead
          cases hhead
        · rcases hg'.head_append hhead hc with hblank | rfl | rfl
          · exact blank_or_slash_ne (.inl hblank) (by decide) (by decide)
          · decide
          · decide
      · rw [List.append_assoc]
        exact left_unspaced after hspace hc

end Visibilities

/-! ## The path -/

section PathOf

variable {d : UseDeclaration}

theorem takeWhile_ident {word behind : List Char} (hword : ∀ c ∈ word, isIdentChar c = true)
    (hbehind : ∀ c ∈ behind.head?, isIdentChar c = false) : (word ++ behind).takeWhile isIdentChar = word := by
  rw [List.takeWhile_append_of_pos hword]
  cases behind with
  | nil => rw [List.takeWhile_nil, List.append_nil]
  | cons c behind =>
    rw [List.takeWhile_cons, hbehind c rfl]
    exact List.append_nil _

/-- A path begins with a word and another character exactly when that word is its first
    segment. -/
theorem UseDeclaration.word_prefix_iff (d : UseDeclaration) {word behind : List Char} (hword : ∀ c ∈ word, isIdentChar c = true)
    (hne : behind ≠ []) (hbehind : ∀ c ∈ behind.head?, isIdentChar c = false) :
    word ++ behind <+: d.first ++ d.rest ↔ d.first = word ∧ behind <+: d.rest := by
  constructor
  · intro h
    obtain ⟨more, hmore⟩ := h
    have hmoreEnded : ∀ c ∈ (behind ++ more).head?, isIdentChar c = false := by
      rw [List.head?_append_of_ne_nil _ hne]
      exact hbehind
    have hfirst : d.first = word := by
      rw [← takeWhile_ident d.identifier d.ended, ← hmore, List.append_assoc, takeWhile_ident hword hmoreEnded]
    refine ⟨hfirst, more, ?_⟩
    rw [hfirst, List.append_assoc] at hmore
    exact List.append_cancel_left hmore
  · intro h
    obtain ⟨hfirst, more, hmore⟩ := h
    exact ⟨more, by rw [hfirst, ← hmore, List.append_assoc]⟩

theorem UseDeclaration.head_of_lead (d : UseDeclaration) (hlead : d.lead ≠ []) : d.path.head? = some ':' := by
  rcases d.isLead with hnil | ⟨g, -, hcolons⟩
  · exact absurd hnil hlead
  · rw [UseDeclaration.path, hcolons]
    rfl

theorem isWordChar_of_blank {c : Char} (h : isWhitespace c = true) : isWordChar c = false := by
  rw [Bool.eq_false_iff]
  intro hword
  have hA : 'A'.val.toNat = 65 := rfl
  have hZ : 'Z'.val.toNat = 90 := rfl
  have ha : 'a'.val.toNat = 97 := rfl
  have hz : 'z'.val.toNat = 122 := rfl
  have h0 : '0'.val.toNat = 48 := rfl
  have h9 : '9'.val.toNat = 57 := rfl
  have hnat : c.toNat = c.val.toNat := rfl
  simp only [isWhitespace, hnat, Bool.or_eq_true, Bool.and_eq_true, decide_eq_true_eq, beq_iff_eq] at h
  simp only [isWordChar_ranges, Bool.or_eq_true, Bool.and_eq_true, decide_eq_true_eq, beq_iff_eq,
    UInt32.le_iff_toNat_le, ge_iff_le] at hword
  rcases hword with hrange | rfl
  · omega
  · exact absurd h (by decide)

theorem isIdentChar_of_blank {c : Char} (h : isWhitespace c = true) : isIdentChar c = false := by
  have hhash : (c == '#') = false := by
    rw [beq_eq_false_iff_ne]
    rintro rfl
    exact absurd h (by decide)
  rw [isIdentChar, isWordChar_of_blank h, hhash, h]
  simp

/-- What is behind the first segment does not go on with it. -/
theorem UseDeclaration.ended_behind (d : UseDeclaration) :
    ∀ c ∈ (d.rest ++ d.gapEnd ++ [';']).head?, isIdentChar c = false := by
  intro c hc
  rw [List.append_assoc] at hc
  rcases head_append hc with hrest | ⟨-, hc⟩
  · exact d.ended c hrest
  · rcases d.isGapEnd.head_append rfl hc with hblank | rfl | rfl
    · exact isIdentChar_of_blank hblank
    · decide
    · decide

/-- The keyword does not begin a path. -/
theorem UseDeclaration.not_keyword_prefix (d : UseDeclaration) : ¬ "use ".toList <+: d.path ++ d.gapEnd ++ [';'] := by
  intro hpre
  by_cases hlead : d.lead = []
  · have hshape : d.path ++ d.gapEnd ++ [';'] = d.first ++ (d.rest ++ d.gapEnd ++ [';']) := by
      rw [UseDeclaration.path, hlead]
      simp
    rw [hshape] at hpre
    obtain ⟨more, hmore⟩ := hpre
    have hword := congrArg (List.takeWhile isIdentChar) hmore
    rw [takeWhile_ident d.identifier d.ended_behind] at hword
    exact d.notKeyword hword.symm
  · have hhead := d.head_of_lead hlead
    have hall : (d.path ++ d.gapEnd ++ [';']).head? = some ':' := by
      rw [List.append_assoc, List.head?_append, hhead]
      rfl
    exact not_prefix_of_head rfl hall (by decide) hpre

theorem isExternal_eq_false_iff {path : List Char} :
    isExternal path = false ↔ ∃ word ∈ localSegments, word ++ "::".toList <+: path := by
  have hshape : (∃ word ∈ localSegments, word ++ "::".toList <+: path) ↔
      "crate::".toList <+: path ∨ "self::".toList <+: path ∨ "super::".toList <+: path := by
    simp [localSegments]
  rw [hshape, isExternal]
  simp only [Bool.and_eq_false_iff, Bool.not_eq_false', List.isPrefixOf_iff_prefix, or_assoc]

theorem UseDeclaration.isExternal_eq_false_iff (d : UseDeclaration) :
    isExternal d.path = false ↔ d.lead = [] ∧ d.first ∈ localSegments ∧ "::".toList <+: d.rest := by
  have hall : localSegments.all (·.all isIdentChar) = true := by decide
  have hwords : ∀ word ∈ localSegments, ∀ c ∈ word, isIdentChar c = true :=
    fun word hword => List.all_eq_true.mp (List.all_eq_true.mp hall word hword)
  have hcolons : ∀ c ∈ "::".toList.head?, isIdentChar c = false := by
    intro c hc
    rw [← Option.some.inj hc]
    decide
  rw [Imports.isExternal_eq_false_iff]
  by_cases hlead : d.lead = []
  · have hpath : d.path = d.first ++ d.rest := by rw [UseDeclaration.path, hlead, List.nil_append]
    rw [hpath]
    constructor
    · intro h
      obtain ⟨word, hword, hpre⟩ := h
      obtain ⟨hfirst, hbehind⟩ := (d.word_prefix_iff (hwords word hword) (by decide) hcolons).mp hpre
      exact ⟨hlead, hfirst ▸ hword, hbehind⟩
    · intro h
      obtain ⟨-, hlocal, hbehind⟩ := h
      exact ⟨d.first, hlocal, (d.word_prefix_iff (hwords _ hlocal) (by decide) hcolons).mpr ⟨rfl, hbehind⟩⟩
  · refine iff_of_false (fun h => ?_) fun h => hlead h.1
    obtain ⟨word, hword, hpre⟩ := h
    -- a path that begins with `::` does not begin with a word
    have hcolon : ∀ word ∈ localSegments, ¬ word ++ "::".toList <+: d.path := by
      have hhead := d.head_of_lead hlead
      intro word hword
      simp only [localSegments, List.mem_cons, List.not_mem_nil, or_false] at hword
      rcases hword with rfl | rfl | rfl
      · exact not_prefix_of_head rfl hhead (by decide)
      · exact not_prefix_of_head rfl hhead (by decide)
      · exact not_prefix_of_head rfl hhead (by decide)
    exact hcolon word hword hpre

/-- External is right exactly where `::` is right behind a local segment. -/
theorem UseDeclaration.isExternal_right_iff (d : UseDeclaration) : (isExternal d.path = true ↔ d.first ∉ localSegments) ↔
    (d.first ∈ localSegments → d.lead = [] ∧ "::".toList <+: d.rest) := by
  have hexternal := d.isExternal_eq_false_iff
  constructor
  · intro hright hlocal
    have hfalse : isExternal d.path = false := by
      rw [Bool.eq_false_iff]
      exact fun htrue => hright.mp htrue hlocal
    obtain ⟨hlead, -, hbehind⟩ := hexternal.mp hfalse
    exact ⟨hlead, hbehind⟩
  · intro h
    constructor
    · intro htrue hlocal
      rw [hexternal.mpr ⟨(h hlocal).1, hlocal, (h hlocal).2⟩] at htrue
      cases htrue
    · intro hforeign
      rw [← Bool.not_eq_false]
      exact fun hfalse => hforeign (hexternal.mp hfalse).2.1

end PathOf

/-! ## What is left of a declaration -/

section Remainder

variable {d : UseDeclaration}

/-- Behind the visibility, the keyword and a space are taken away, and the semicolon. -/
theorem usePath_eq {front : List Char}
    (hfront : trimStartText "use ".toList (trimVisibility d.text) = front ++ d.path ++ d.gapEnd ++ [';']) :
    usePath d.text = trim (front ++ d.path ++ d.gapEnd) := by
  rw [usePath, hfront, trimEndChar_append]
  intro c hc
  by_cases hgap : d.gapEnd = []
  · have hne : d.path ≠ [] := d.nonempty
    rw [hgap, List.append_nil, List.getLast?_append_of_ne_nil _ hne] at hc
    exact (d.ends c hc).2
  · rw [List.getLast?_append_of_ne_nil _ hgap] at hc
    exact blank_or_slash_ne (d.isGapEnd.last c hc) (by decide) (by decide)

/-- Nothing but blanks may stand around the path. -/
theorem trim_eq_path_iff {front : List Char} : trim (front ++ d.path ++ d.gapEnd) = d.path ↔ Blank front ∧ Blank d.gapEnd := by
  constructor
  · intro h
    have hvisible := congrArg visible h
    rw [visible_trim, visible_append, visible_append] at hvisible
    exact ⟨visible_eq_zero_iff.mp (by omega), visible_eq_zero_iff.mp (by omega)⟩
  · intro h
    exact trim_between h.1 h.2 d.starts fun c hc => (d.ends c hc).1

/-- A front that keeps the keyword. -/
theorem usePath_ne {front : List Char} (hkeyword : 'u' ∈ front)
    (hfront : trimStartText "use ".toList (trimVisibility d.text) = front ++ d.path ++ d.gapEnd ++ [';']) :
    usePath d.text ≠ d.path := by
  rw [usePath_eq hfront, Ne, trim_eq_path_iff]
  intro h
  exact absurd (h.1 'u' hkeyword) (by decide)

theorem trimVisibility_plain {before after : List Char} (h : before ∈ plainVisibilities) (hafter : after.head? = some 'u') :
    trimVisibility (before ++ after) = after := by
  simp only [plainVisibilities, List.mem_cons, List.not_mem_nil, or_false] at h
  rcases h with rfl | rfl | rfl | rfl
  · exact trimVisibility_of_head hafter (by decide)
  · rw [trimVisibility_pub, trimVisibility_of_head hafter (by decide)]
  · have hcrate := trimVisibility_scope (.inl rfl) hafter (by decide)
    exact hcrate
  · have hsuper := trimVisibility_scope (.inr rfl) hafter (by decide)
    exact hsuper

theorem UseDeclaration.fromKeyword_eq (d : UseDeclaration) :
    d.fromKeyword = "use".toList ++ (d.gap ++ (d.path ++ d.gapEnd ++ [';'])) := by
  show "use".toList ++ d.gap ++ d.path ++ d.gapEnd ++ [';'] = _
  simp only [List.append_assoc]

/-- Without the visibility and with a space behind the keyword, the two are taken away. -/
theorem usePath_spaced (d : UseDeclaration) (htrim : trimVisibility d.text = d.fromKeyword)
    (hgap : d.gap.head? = some ' ') : usePath d.text = d.path ↔ Blank d.gap ∧ Blank d.gapEnd := by
  obtain ⟨g, hg⟩ := List.head?_eq_some_iff.mp hgap
  have hshape : d.fromKeyword = "use ".toList ++ (g ++ d.path ++ d.gapEnd ++ [';']) := by
    rw [d.fromKeyword_eq, hg]
    simp
  have hnot : ¬ "use ".toList <+: g ++ d.path ++ d.gapEnd ++ [';'] := by
    cases g with
    | nil => exact d.not_keyword_prefix
    | cons c g =>
      have hisGap := d.isGap
      rw [hg] at hisGap
      cases hisGap with
      | blank _ hisGap => exact not_prefix_of_head rfl rfl (hisGap.head_ne_u c rfl)
  have hfront : trimStartText "use ".toList (trimVisibility d.text) = g ++ d.path ++ d.gapEnd ++ [';'] := by
    rw [htrim, hshape, trimStartText_append (by decide), trimStartText_of_not_prefix hnot]
  have hblank : Blank d.gap ↔ Blank g := by
    rw [hg]
    simp [Blank, isWhitespace]
  rw [usePath_eq hfront, trim_eq_path_iff, hblank]

/-- Without a space behind it the keyword stays. -/
theorem usePath_unspaced (d : UseDeclaration) (htrim : trimVisibility d.text = d.fromKeyword)
    (hgap : d.gap.head? ≠ some ' ') : usePath d.text ≠ d.path := by
  have hnot : ¬ "use ".toList <+: d.fromKeyword := by
    intro hpre
    have hspace : [' '] <+: d.gap ++ (d.path ++ d.gapEnd ++ [';']) := by
      rw [d.fromKeyword_eq] at hpre
      exact (List.prefix_append_right_inj "use".toList).mp hpre
    obtain ⟨more, hmore⟩ := hspace
    have hfirst : ' ' ∈ (d.gap ++ (d.path ++ d.gapEnd ++ [';'])).head? := by
      rw [← hmore]
      rfl
    rcases head_append hfirst with hin | ⟨-, hbehind⟩
    · exact hgap hin
    · have hne : d.path ≠ [] := d.nonempty
      rw [List.append_assoc, List.head?_append_of_ne_nil _ hne] at hbehind
      have hblank := d.starts ' ' hbehind
      exact absurd hblank (by decide)
  refine @usePath_ne d ("use".toList ++ d.gap) (by simp) ?_
  rw [htrim, trimStartText_of_not_prefix hnot]
  rfl

theorem usePath_eq_iff (d : UseDeclaration) : usePath d.text = d.path ↔
    d.before ∈ plainVisibilities ∧ d.gap.head? = some ' ' ∧ Blank d.gap ∧ Blank d.gapEnd := by
  have hkeyword : d.fromKeyword.head? = some 'u' := rfl
  obtain ⟨r, htrim, hplain, hhead⟩ := left_of_visibility d.visibility hkeyword
  rw [← UseDeclaration.text] at htrim
  cases r with
  | cons c r =>
    -- a part of the visibility is left, and the keyword behind it
    have hbefore : d.before ∉ plainVisibilities := by
      intro h
      rw [UseDeclaration.text, trimVisibility_plain h hkeyword] at htrim
      have hlength := congrArg List.length htrim
      rw [List.length_append, List.length_cons] at hlength
      omega
    refine iff_of_false (@usePath_ne d (c :: r ++ "use".toList ++ d.gap) (by simp) ?_) fun h => hbefore h.1
    rw [htrim, trimStartText_of_not_prefix (not_prefix_of_head rfl rfl (hhead c rfl)), d.fromKeyword_eq]
    simp
  | nil =>
    rw [List.nil_append] at htrim
    by_cases hgap : d.gap.head? = some ' '
    · rw [usePath_spaced d htrim hgap]
      exact ⟨fun h => ⟨hplain rfl, hgap, h⟩, fun h => h.2.2⟩
    · exact iff_of_false (usePath_unspaced d htrim hgap) fun h => hgap h.2.1

end Remainder

/-! ## Classification -/

theorem mem_rustImports {source : Str} {tree n : Node} {info : ImportInfo} :
    (n, info) ∈ rustImports source tree ↔ n ∈ tree.children ∧ n.kind = "use_declaration" ∧ info = rustImport source n := by
  rw [rustImports, List.mem_map]
  constructor
  · intro h
    obtain ⟨child, hchild, heq⟩ := h
    obtain ⟨rfl, rfl⟩ := Prod.mk.inj heq
    obtain ⟨hmem, hkind⟩ := List.mem_filter.mp hchild
    exact ⟨hmem, beq_iff_eq.mp hkind, rfl⟩
  · intro h
    obtain ⟨hmem, hkind, rfl⟩ := h
    exact ⟨n, List.mem_filter.mpr ⟨hmem, beq_iff_eq.mpr hkind⟩, rfl⟩

/-- For every source, tree and use declaration in it, however it is written: its import
    has the path and is external where it should be, if and only if the declaration is
    plain. -/
theorem classified_iff {source : Str} {tree n : Node} {d : UseDeclaration} (hkind : n.kind = "use_declaration")
    (htext : nodeSource source n = str (.ofList d.text)) : Classified source tree n d ↔ Plain tree n d := by
  have hchars : nodeChars source n = d.text := by
    rw [nodeChars, htext, fromUtf8_str, Option.map_some, Option.getD_some, String.toList_ofList]
  have hsource : (rustImport source n).source = usePath d.text := by rw [rustImport, hchars]
  have hexternal : (rustImport source n).external = isExternal (usePath d.text) := by rw [rustImport, hchars]
  constructor
  · intro h
    obtain ⟨info, hmem, hpath, hright⟩ := h
    obtain ⟨htop, -, rfl⟩ := mem_rustImports.mp hmem
    rw [hsource] at hpath
    rw [hexternal, hpath] at hright
    obtain ⟨hvisibility, hspace, hblank, hblankEnd⟩ := (usePath_eq_iff d).mp hpath
    exact ⟨htop, hvisibility, hspace, hblank, hblankEnd, d.isExternal_right_iff.mp hright⟩
  · intro h
    have hpath : usePath d.text = d.path := (usePath_eq_iff d).mpr ⟨h.visibility, h.space, h.blank, h.blankEnd⟩
    refine ⟨rustImport source n, mem_rustImports.mpr ⟨h.top, hkind, rfl⟩, hsource.trans hpath, ?_⟩
    rw [hexternal, hpath]
    exact d.isExternal_right_iff.mpr h.segment

/-! ## A private use -/

/-- The tree of a file with one declaration. -/
def useTree (length : Nat) : Node :=
  ⟨"source_file", none, 0, length, ⟨0, 0⟩, ⟨0, length⟩, true, false, false,
    [.leaf "use_declaration" none 0 0 0 length true]⟩

/-- `a::b` behind a visibility. -/
def useAB (before : List Char) (visibility : UseVisibility before) : UseDeclaration where
  before := before
  gap := [' ']
  lead := []
  first := ['a']
  rest := "::b".toList
  gapEnd := []
  visibility := visibility
  isGap := .blank rfl .nil
  isGapEnd := .nil
  isLead := .inl rfl
  identifier := List.all_eq_true.mp (by decide)
  ended c hc := by rw [← Option.some.inj hc]; decide
  notKeyword := by decide
  nonempty := by decide
  starts c hc := by rw [← Option.some.inj hc]; decide
  ends c hc := by rw [← Option.some.inj hc]; decide

/-- `pub(self) use a::b;`. -/
def useSelf : UseDeclaration :=
  useAB ("pub".toList ++ [] ++ '(' :: ([] ++ "self".toList ++ [] ++ ')' :: [' ']))
    (.restricted .nil .nil .self .nil (.blank rfl .nil))

/-- `pub(crate) use a::b;`. -/
def useCrate : UseDeclaration :=
  useAB ("pub".toList ++ [] ++ '(' :: ([] ++ "crate".toList ++ [] ++ ')' :: [' ']))
    (.restricted .nil .nil .crate .nil (.blank rfl .nil))

theorem classified_iff_crate :
    Classified (str "pub(crate) use a::b;") (useTree 20) (.leaf "use_declaration" none 0 0 0 20 true) useCrate ↔
      Plain (useTree 20) (.leaf "use_declaration" none 0 0 0 20 true) useCrate :=
  classified_iff rfl (by decide)

/-- The visibility that is none of the three stays in the path. -/
theorem a_private_use_keeps_its_visibility :
    useSelf.text = "pub(self) use a::b;".toList ∧
      (extractRustImports (str "pub(self) use a::b;") (useTree 19)).map (·.source) = ["pub(self) use a::b".toList] ∧
      ¬ Classified (str "pub(self) use a::b;") (useTree 19) (.leaf "use_declaration" none 0 0 0 19 true) useSelf := by
  refine ⟨by decide, by decide, fun h => ?_⟩
  obtain ⟨info, hmem, hpath, -⟩ := h
  obtain ⟨-, -, rfl⟩ := mem_rustImports.mp hmem
  exact absurd hpath (by decide)

end CodeQuery.Parse.Imports
