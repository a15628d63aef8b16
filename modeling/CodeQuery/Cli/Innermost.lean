/-
  CodeQuery.Cli.Innermost — how far the symbol that context reports is the innermost
  (`codequery-cli/src/commands/context.rs`; see `CodeQuery.Cli.Context`).

  The search goes by depth in the tree of children: it reports the first of the symbols
  that contain the line at the greatest depth (`firstAt_chainFrom`). A symbol with a
  smaller range is missed where it is no child: some extractors give nested ranges side by
  side (`an_element_inside_is_not_reported`). In an extracted forest whoever contains the
  line has a symbol at the top that does (`forest_topped`), so what is reported is the
  innermost exactly where each symbol with another of the line strictly inside is
  outranked, by one that is deeper or, as deep, in front of it (`context_innermost_iff`).
-/

import CodeQuery.Cli.Hover
import CodeQuery.Parse.Extraction

namespace CodeQuery.Cli.Context

open CodeQuery.Core CodeQuery.Parse CodeQuery.Text CodeQuery.Cli.Hover
open CodeQuery.Index.SymbolIndex (flattenAll mem_flattenAll)

section Innermost

variable (targetLine : Nat)

/-- The first symbol's lines are some of the second's, and not all. -/
def StrictlyInside (s r : Symbol) : Prop :=
  r.line ≤ s.line ∧ s.endLine ≤ r.endLine ∧ (r.line < s.line ∨ s.endLine < r.endLine)

instance (s r : Symbol) : Decidable (StrictlyInside s r) := inferInstanceAs (Decidable (_ ∧ _))

/-- What the command reports when no depth is asked for. -/
def reported (forest : List Symbol) : Option Symbol := (findEnclosingChain targetLine forest).getLast?

/-- Where some symbol contains the line, one that does is reported, and of the symbols of
    the line none is strictly inside it. -/
def ReportsInnermost (forest : List Symbol) : Prop :=
  (∃ s ∈ flattenAll forest, Contains targetLine s) →
    ∃ r, reported targetLine forest = some r ∧ Contains targetLine r ∧
      ∀ s ∈ flattenAll forest, Contains targetLine s → ¬ StrictlyInside s r

/-- The symbol stands at the place, and it and those above it contain the line. -/
inductive Reached : Place → Nat → List Symbol → Place → Symbol → Prop where
  | here {above : Place} {index : Nat} {s : Symbol} {ss : List Symbol} :
      Contains targetLine s → Reached above index (s :: ss) (above ++ [index]) s
  | child {above : Place} {index : Nat} {s : Symbol} {ss : List Symbol} {place : Place} {r : Symbol} :
      Contains targetLine s → Reached (above ++ [index]) 0 s.children place r → Reached above index (s :: ss) place r
  | sibling {above : Place} {index : Nat} {s : Symbol} {ss : List Symbol} {place : Place} {r : Symbol} :
      Reached above (index + 1) ss place r → Reached above index (s :: ss) place r

/-- Some symbol of the line is deeper in the tree than the place, or as deep and in front. -/
def Outranked (forest : List Symbol) (place : Place) : Prop :=
  ∃ place' r, Reached targetLine [] 0 forest place' r ∧
    (place.length < place'.length ∨ place.length = place'.length ∧ place' < place)

/-- Whoever has a symbol of the line strictly inside is outranked. -/
def EnclosersOutranked (forest : List Symbol) : Prop :=
  ∀ place r, Reached targetLine [] 0 forest place r →
    (∃ s ∈ flattenAll forest, Contains targetLine s ∧ StrictlyInside s r) → Outranked targetLine forest place

end Innermost

/-! ## Places -/

section Places

variable {targetLine : Nat}

theorem Reached.contains {above : Place} {index : Nat} {ss : List Symbol} {place : Place} {r : Symbol}
    (h : Reached targetLine above index ss place r) : Contains targetLine r := by
  induction h with
  | here hin => exact hin
  | child _ _ ih => exact ih
  | sibling _ ih => exact ih

theorem Reached.within {above : Place} {index : Nat} {ss : List Symbol} {place : Place} {r : Symbol}
    (h : Reached targetLine above index ss place r) : Within above index place := by
  induction h with
  | here _ => exact ⟨_, [], le_rfl, rfl⟩
  | @child above index s ss place r _ _ ih =>
    obtain ⟨i, rest, -, rfl⟩ := ih
    exact ⟨index, i :: rest, le_rfl, by rw [List.append_assoc, List.singleton_append]⟩
  | sibling _ ih => exact ih.succ

theorem length_lt_of_within {above : Place} {index : Nat} {place : Place} (h : Within above index place) :
    above.length < place.length := by
  obtain ⟨i, rest, -, rfl⟩ := h
  simp

/-- A place has one symbol. -/
theorem Reached.unique {above : Place} {index : Nat} {ss : List Symbol} {place : Place} {r r' : Symbol}
    (h : Reached targetLine above index ss place r) (h' : Reached targetLine above index ss place r') : r = r' := by
  induction h with
  | here _ =>
    cases h' with
    | here _ => rfl
    | child _ hbelow => exact absurd (length_lt_of_within hbelow.within) (by simp)
    | sibling hlater => exact absurd List.prefix_rfl hlater.within.not_below
  | child _ hbelow ih =>
    cases h' with
    | here _ => exact absurd (length_lt_of_within hbelow.within) (by simp)
    | child _ hbelow' => exact ih hbelow'
    | sibling hlater =>
      obtain ⟨i, rest, -, hplace⟩ := hbelow.within
      exact absurd ⟨i :: rest, hplace.symm⟩ hlater.within.not_below
  | sibling hlater ih =>
    cases h' with
    | here _ => exact absurd List.prefix_rfl hlater.within.not_below
    | child _ hbelow' =>
      obtain ⟨i, rest, -, hplace⟩ := hbelow'.within
      exact absurd ⟨i :: rest, hplace.symm⟩ hlater.within.not_below
    | sibling hlater' => exact ih hlater'

/-- Later siblings, and what is below them, are not in front. -/
theorem not_lt_of_within {above : Place} {index : Nat} {place front : Place} (h : Within above (index + 1) place)
    (hfront : above ++ [index] <+: front) : ¬ place < front := by
  obtain ⟨i, rest, hle, rfl⟩ := h
  obtain ⟨more, rfl⟩ := hfront
  rw [List.append_assoc, List.singleton_append]
  have hi : index < i := hle
  induction above with
  | nil =>
    rw [List.nil_append, List.nil_append, List.cons_lt_cons_iff]
    omega
  | cons a above ih =>
    rw [List.cons_append, List.cons_append, List.cons_lt_cons_iff]
    intro h
    rcases h with h | ⟨-, h⟩
    · exact absurd h (Nat.lt_irrefl a)
    · exact ih h

end Places

/-! ## What is reported -/

section Reported

variable {targetLine : Nat}

/-- No place is deeper than the longest chain reaches. -/
theorem Reached.length_le {above : Place} {index : Nat} {ss : List Symbol} {place : Place} {r : Symbol}
    (h : Reached targetLine above index ss place r) :
    place.length ≤ above.length + (chainFrom targetLine above index ss).length := by
  induction h with
  | @here above index s ss hin =>
    have hle := @length_chainAt_le targetLine (s :: ss) s List.mem_cons_self hin above index
    rw [List.length_append, List.length_singleton]
    omega
  | @child above index s ss place r hin _ ih =>
    have hle := @length_chainAt_le targetLine (s :: ss) s List.mem_cons_self hin above index
    rw [length_chainFrom, List.length_append, List.length_singleton] at ih
    omega
  | @sibling above index s ss place r _ ih =>
    rw [chainFrom]
    exact ih.trans (Nat.add_le_add_left (length_le_longer_right _ _) _)

/-- Of the places of some symbols, one at the depth, in front of all others there. -/
structure FirstAt (R : Place → Symbol → Prop) (depth : Nat) (ref : SymbolRef) : Prop where
  reached : R ref.place ref.symbol
  deep : ref.place.length = depth
  first : ∀ place r, R place r → place.length = depth → ¬ place < ref.place

theorem reached_cons {above : Place} {index : Nat} {s : Symbol} {ss : List Symbol} {place : Place} {r : Symbol} :
    Reached targetLine above index (s :: ss) place r ↔
      Reached targetLine above index [s] place r ∨ Reached targetLine above (index + 1) ss place r := by
  constructor
  · intro h
    cases h with
    | here hin => exact .inl (.here hin)
    | child hin hbelow => exact .inl (.child hin hbelow)
    | sibling h => exact .inr h
  · intro h
    rcases h with h | h
    · cases h with
      | here hin => exact .here hin
      | child hin hbelow => exact .child hin hbelow
      | sibling h => cases h
    · exact .sibling h

theorem not_reached_nil {above : Place} {index : Nat} {place : Place} {r : Symbol} :
    ¬ Reached targetLine above index [] place r := nofun

mutual

theorem firstAt_chainAt (above : Place) (index : Nat) : ∀ symbol ref,
    (chainAt targetLine (above ++ [index]) symbol).getLast? = some ref →
      FirstAt (Reached targetLine above index [symbol])
        (above.length + (chainAt targetLine (above ++ [index]) symbol).length) ref
  | ⟨name, kind, file, line, column, endLine, visibility, children, doc, body, signature⟩, ref, h => by
    by_cases hin : Contains targetLine
        ⟨name, kind, file, line, column, endLine, visibility, children, doc, body, signature⟩
    · rw [chainAt_of_contains hin] at h ⊢
      dsimp only at h ⊢
      rw [List.getLast?_cons, Option.some.injEq] at h
      have hlength : (above ++ [index]).length = above.length + 1 := by simp
      cases hlast : (chainFrom targetLine (above ++ [index]) 0 children).getLast? with
      | none =>
        -- the symbol has nobody below it
        rw [hlast, Option.getD_none] at h
        subst h
        rw [List.getLast?_eq_none_iff.mp hlast]
        refine ⟨.here hin, hlength, fun place r hr hdepth => ?_⟩
        cases hr with
        | here _ => exact lt_irrefl _
        | child _ hbelow =>
          have hlt := length_lt_of_within hbelow.within
          rw [hdepth, hlength] at hlt
          exact absurd hlt (Nat.lt_irrefl _)
        | sibling hr => exact absurd hr not_reached_nil
      | some last =>
        rw [hlast, Option.getD_some] at h
        subst h
        obtain ⟨hreached, hdepth, hfirst⟩ := firstAt_chainFrom (above ++ [index]) 0 children last hlast
        have hne : chainFrom targetLine (above ++ [index]) 0 children ≠ [] := by
          intro hnil
          rw [hnil] at hlast
          cases hlast
        have hpos := List.length_pos_iff.mpr hne
        rw [List.length_cons]
        rw [hlength] at hdepth hfirst
        refine ⟨.child hin hreached, by omega, fun place r hr heq => ?_⟩
        cases hr with
        | here _ => omega
        | child _ hbelow => exact hfirst place r hbelow (by omega)
        | sibling hr => exact absurd hr not_reached_nil
    · rw [chainAt_of_not_contains hin] at h
      cases h

/-- The last of the chain is the first of the deepest symbols. -/
theorem firstAt_chainFrom (above : Place) (index : Nat) : ∀ symbols ref,
    (chainFrom targetLine above index symbols).getLast? = some ref →
      FirstAt (Reached targetLine above index symbols) (above.length + (chainFrom targetLine above index symbols).length) ref
  | [], ref, h => by cases h
  | symbol :: symbols, ref, h => by
    rw [chainFrom, longer] at h
    rw [chainFrom, longer]
    split at h
    · rename_i hlt
      rw [if_pos hlt]
      obtain ⟨hreached, hdepth, hfirst⟩ := firstAt_chainFrom above (index + 1) symbols ref h
      refine ⟨.sibling hreached, hdepth, fun place r hr heq => ?_⟩
      rcases reached_cons.mp hr with hr | hr
      · -- what is at the symbol or below it is less deep
        have hle := hr.length_le
        rw [chainFrom, chainFrom, longer_of_le (Nat.zero_le _)] at hle
        omega
      · exact hfirst place r hr heq
    · rename_i hnlt
      rw [if_neg hnlt]
      obtain ⟨hreached, hdepth, hfirst⟩ := firstAt_chainAt above index symbol ref h
      refine ⟨reached_cons.mpr (.inl hreached), hdepth, fun place r hr heq => ?_⟩
      rcases reached_cons.mp hr with hr | hr
      · exact hfirst place r hr heq
      · exact not_lt_of_within hr.within (place_chainAt _ symbol ref (List.mem_of_getLast? h))

end

end Reported

/-! ## When it is the innermost -/

section Iff

variable {targetLine : Nat} {forest : List Symbol}

/-- Who is reported is the symbol of the last place. -/
theorem reported_of_last {ref : SymbolRef} (h : (enclosingChain targetLine forest).getLast? = some ref) :
    reported targetLine forest = some ref.symbol := by
  rw [reported, ← map_chainFrom [] 0 forest, List.getLast?_map, show chainFrom targetLine [] 0 forest =
    enclosingChain targetLine forest from rfl, h, Option.map_some]

theorem exists_last (h : ∃ s ∈ forest, Contains targetLine s) :
    ∃ ref, (enclosingChain targetLine forest).getLast? = some ref := by
  rw [← Option.ne_none_iff_exists', Ne, List.getLast?_eq_none_iff, enclosingChain, chainFrom_eq_nil_iff]
  obtain ⟨s, hmem, hin⟩ := h
  exact fun hnone => hnone s hmem hin

theorem firstAt_reported {ref : SymbolRef} (h : (enclosingChain targetLine forest).getLast? = some ref) :
    FirstAt (Reached targetLine [] 0 forest) (enclosingChain targetLine forest).length ref := by
  have hfirst := firstAt_chainFrom [] 0 forest ref h
  rwa [List.length_nil, Nat.zero_add] at hfirst

/-- The place that is reported is the one that is not outranked. -/
theorem outranked_iff {ref : SymbolRef} (h : (enclosingChain targetLine forest).getLast? = some ref) {place : Place}
    {r : Symbol} (hr : Reached targetLine [] 0 forest place r) : Outranked targetLine forest place ↔ place ≠ ref.place := by
  obtain ⟨hreached, hdeep, hfirst⟩ := firstAt_reported h
  have hle : ∀ {place r}, Reached targetLine [] 0 forest place r → place.length ≤ ref.place.length := by
    intro place r hr
    have := hr.length_le
    rwa [List.length_nil, Nat.zero_add, ← enclosingChain, ← hdeep] at this
  constructor
  · intro hout heq
    obtain ⟨place', r', hr', hbefore⟩ := hout
    rcases hbefore with hlt | ⟨hlength, hlt⟩
    · exact absurd (hle hr') (by rw [heq] at hlt; omega)
    · rw [heq] at hlength hlt
      exact hfirst place' r' hr' (hlength ▸ hdeep) hlt
  · intro hne
    refine ⟨ref.place, ref.symbol, hreached, ?_⟩
    rcases (hle hr).lt_or_eq with hlt | hlength
    · exact .inl hlt
    · refine .inr ⟨hlength, ?_⟩
      rcases lt_trichotomy place ref.place with hlt | heq | hlt
      · exact absurd hlt (hfirst place r hr (hlength.trans hdeep))
      · exact absurd heq hne
      · exact hlt

/-- Whoever contains the line has one at the top that does. -/
def Topped (targetLine : Nat) (forest : List Symbol) : Prop :=
  (∃ s ∈ flattenAll forest, Contains targetLine s) → ∃ s ∈ forest, Contains targetLine s

theorem reportsInnermost_iff :
    ReportsInnermost targetLine forest ↔ Topped targetLine forest ∧ EnclosersOutranked targetLine forest := by
  constructor
  · intro h
    refine ⟨fun hsome => ?_, fun place r hr hinside => ?_⟩
    · obtain ⟨r, hr, -⟩ := h hsome
      have hmem : r ∈ findEnclosingChain targetLine forest := List.mem_of_getLast? hr
      have hchain := @findEnclosingChain_chain targetLine forest
      generalize findEnclosingChain targetLine forest = chain at hmem hchain
      cases hchain with
      | nil => cases hmem
      | cons htop hin _ => exact ⟨_, htop, hin⟩
    · obtain ⟨s, hs, hin, hstrict⟩ := hinside
      obtain ⟨r', hr', -, hnone⟩ := h ⟨s, hs, hin⟩
      have hne : (enclosingChain targetLine forest).getLast? ≠ none := by
        intro hnil
        rw [reported, ← map_chainFrom [] 0 forest, List.getLast?_map, ← enclosingChain, hnil] at hr'
        cases hr'
      obtain ⟨ref, hlast⟩ := Option.ne_none_iff_exists'.mp hne
      rw [outranked_iff hlast hr]
      rintro rfl
      -- then the symbol is the one reported
      rw [reported_of_last hlast, (firstAt_reported hlast).reached.unique hr] at hr'
      cases hr'
      exact hnone s hs hin hstrict
  · intro h hsome
    obtain ⟨htop, hout⟩ := h
    obtain ⟨ref, hlast⟩ := exists_last (htop hsome)
    have hreached := (firstAt_reported hlast).reached
    refine ⟨ref.symbol, reported_of_last hlast, hreached.contains, fun s hs hin hstrict => ?_⟩
    exact (outranked_iff hlast hreached).mp (hout ref.place ref.symbol hreached ⟨s, hs, hin, hstrict⟩) rfl

end Iff

/-! ## Extracted forests -/

section Extracted

variable {source : Str} {tree : Node} {file : Path}

/-- What is in a definition is of nodes below its own. -/
theorem mem_preorder_of_standsBelow {n : Node} {d e : Definition} (h : StandsBelow n d) (he : e ∈ d.preorder) :
    e.node ∈ d.node.preorder := by
  have hown : StandsBelow d.node d := by
    cases h with
    | mk _ hchildren => exact .mk (self_mem_preorder d.node) hchildren
  exact (Definition.preorder_closed (fun _ hd => hd.child) d hown e he).node_mem

/-- Children are within their parents' lines, at every depth, and rules give none. -/
theorem forest_topped (x : Extraction) (htree : tree.Located source) (targetLine : Nat) :
    Topped targetLine (x.forest source tree file) := by
  intro hsome
  obtain ⟨s, hs, hin⟩ := hsome
  cases x with
  | builtin language texts =>
    rw [Extraction.forest, extractSymbols, Index.flattenAll_toSymbols] at hs
    obtain ⟨e, he, rfl⟩ := List.mem_map.mp hs
    obtain ⟨hfirst, hlast⟩ := hin
    rw [Definition.toSymbol_line] at hfirst
    rw [Definition.toSymbol_endLine] at hlast
    obtain ⟨d, hd, he⟩ := mem_preorderDefinitions he
    have hbelow := extractDefinitions_below source tree file language d hd
    have hnode : d.node ∈ tree.preorder := by
      cases hbelow with
      | mk hnode _ => exact hnode
    obtain ⟨hstart, hend⟩ := htree.rows_below hnode (mem_preorder_of_standsBelow hbelow he)
    refine ⟨d.toSymbol (withBodies texts source tree language) file, ?_, ?_, ?_⟩
    · rw [Extraction.forest, extractSymbols, toSymbols_eq_map]
      exact List.mem_map_of_mem hd
    · rw [Definition.toSymbol_line]
      exact (Nat.succ_le_succ hstart).trans hfirst
    · rw [Definition.toSymbol_endLine]
      exact hlast.trans (Nat.succ_le_succ hend)
  | declared config grammar =>
    rw [Extraction.forest, flattenAll_of_no_children declared_no_children] at hs
    exact ⟨s, hs, hin⟩

/-- For every extracted forest and line: what context reports is innermost if and only if
    each symbol of the line with another strictly inside it is outranked. -/
theorem context_innermost_iff (x : Extraction) (source : Str) (tree : Node) (file : Path) (htree : tree.Located source)
    (targetLine : Nat) :
    ReportsInnermost targetLine (x.forest source tree file) ↔ EnclosersOutranked targetLine (x.forest source tree file) :=
  reportsInnermost_iff.trans (and_iff_right (forest_topped x htree targetLine))

end Extracted

/-! ## Elements in an element -/

def pageSource : Str := str "<main>\n<nav></nav>\n</main>"

def pageTree : Node :=
  ⟨"document", none, 0, 26, ⟨0, 0⟩, ⟨2, 7⟩, true, false, false,
    [⟨"element", none, 0, 26, ⟨0, 0⟩, ⟨2, 7⟩, true, false, false,
      [⟨"start_tag", none, 0, 6, ⟨0, 0⟩, ⟨0, 6⟩, true, false, false,
          [.leaf "<" none 0 0 0 1 false, .leaf "tag_name" none 0 1 1 4 true, .leaf ">" none 0 5 5 1 false]⟩,
        ⟨"element", none, 7, 18, ⟨1, 0⟩, ⟨1, 11⟩, true, false, false,
          [⟨"start_tag", none, 7, 12, ⟨1, 0⟩, ⟨1, 5⟩, true, false, false,
              [.leaf "<" none 1 0 7 1 false, .leaf "tag_name" none 1 1 8 3 true, .leaf ">" none 1 4 11 1 false]⟩,
            ⟨"end_tag", none, 12, 18, ⟨1, 5⟩, ⟨1, 11⟩, true, false, false,
              [.leaf "</" none 1 5 12 2 false, .leaf "tag_name" none 1 7 14 3 true, .leaf ">" none 1 10 17 1 false]⟩]⟩,
        ⟨"end_tag", none, 19, 26, ⟨2, 0⟩, ⟨2, 7⟩, true, false, false,
          [.leaf "</" none 2 0 19 2 false, .leaf "tag_name" none 2 2 21 4 true, .leaf ">" none 2 6 25 1 false]⟩]⟩]⟩

theorem pageTree_located : pageTree.Located pageSource where
  bytes := by decide
  nested := by decide
  starts := by decide
  ends := by decide

/-- An element's signature is its start tag. -/
def page : Extraction :=
  .builtin .html fun source _ _ d =>
    ⟨.public_, none, none, (Html.findChildByKind d.node "start_tag").map (nodeSource source)⟩

def element (name : String) (line endLine : Nat) (text tag : String) : Symbol where
  name := str name
  kind := .module_
  file := [.normal "a.html"]
  line := line
  column := 0
  endLine := endLine
  visibility := .public_
  children := []
  doc := none
  body := some (str text)
  signature := some (str tag)

def mainElement : Symbol := element "main" 1 3 "<main>\n<nav></nav>\n</main>" "<main>"

def navElement : Symbol := element "nav" 2 2 "<nav></nav>" "<nav>"

theorem page_forest : page.forest pageSource pageTree [.normal "a.html"] = [mainElement, navElement] := by rfl

/-- The `nav` element of line 2 stands in the `main` element, and both are at the top of
    the forest: the first is reported. -/
theorem an_element_inside_is_not_reported :
    page.forest pageSource pageTree [.normal "a.html"] = [mainElement, navElement] ∧
      reported 2 [mainElement, navElement] = some mainElement ∧ Contains 2 navElement ∧
      StrictlyInside navElement mainElement ∧ ¬ ReportsInnermost 2 (page.forest pageSource pageTree [.normal "a.html"]) := by
  have hreported : reported 2 [mainElement, navElement] = some mainElement := by rfl
  have hnav : navElement ∈ flattenAll [mainElement, navElement] := mem_flattenAll (by simp)
  have hin : Contains 2 navElement := ⟨by decide, by decide⟩
  have hinside : StrictlyInside navElement mainElement := by decide
  refine ⟨page_forest, hreported, hin, hinside, fun h => ?_⟩
  rw [page_forest] at h
  obtain ⟨r, hr, -, hnone⟩ := h ⟨navElement, hnav, hin⟩
  rw [hreported] at hr
  cases hr
  exact hnone navElement hnav hin hinside

theorem context_innermost_iff_page :
    ReportsInnermost 2 (page.forest pageSource pageTree [.normal "a.html"]) ↔
      EnclosersOutranked 2 (page.forest pageSource pageTree [.normal "a.html"]) :=
  context_innermost_iff page pageSource pageTree [.normal "a.html"] pageTree_located 2

end CodeQuery.Cli.Context
