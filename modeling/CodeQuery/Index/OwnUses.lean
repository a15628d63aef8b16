/-
  CodeQuery.Index.OwnUses — whether a definition counts as a use of its own name
  (see `CodeQuery.Index.RefsGeneric`, `CodeQuery.Parse.Extract`).

  The generic walk takes an identifier for a definition's name when the field `name` of
  its parent holds it and the parent's kind has one of three words in it; an extractor
  takes names from wherever its grammar has them. `no_own_uses_iff` says when no
  definition of a tree is among the references: a name in such a field never is
  (`no_reference_at_named_field`), and `a_function_in_c_is_its_own_use` is a tree with
  one that is, since C holds a function's name in a declarator.
-/

import CodeQuery.Index.RefsGeneric
import CodeQuery.Parse.Extract

namespace CodeQuery.Index

open CodeQuery.Core CodeQuery.Parse CodeQuery.Text

section Uses

variable (source : Str) (tree : Node) (file : Path) (language : Language)

/-- The definitions of a tree, each before what it holds. -/
def definitionsIn : List Definition := preorderDefinitions (extractDefinitions source tree file language)

/-- No reference is at the name of a definition. -/
def NoOwnUses : Prop :=
  ∀ d ∈ definitionsIn source tree file language, ∀ p, d.namePlace = some p →
    referencesAt (extractReferences source tree file language) p = 0

end Uses

variable {source : Str} {tree : Node} {file : Path} {language : Language}

theorem not_isRecorded_iff {v : Option Node × Node} (hident : v.2.kind = "identifier") :
    isRecorded source v = false ↔
      isGenericDefinitionName v.1 v.2 = true ∨ ∀ t, v.2.utf8Text source = some t → isCommonKeyword t = true := by
  rw [← Bool.not_eq_true, isRecorded_iff]
  constructor
  · intro h
    by_cases hdef : isGenericDefinitionName v.1 v.2 = true
    · exact .inl hdef
    · refine .inr fun t ht => ?_
      by_contra hkey
      exact h ⟨hident, by simpa using hdef, t, ht, by simpa using hkey⟩
  · rintro (hdef | hkey) ⟨_, hno, t, ht, hword⟩
    · rw [hdef] at hno
      contradiction
    · rw [hkey t ht] at hword
      contradiction

/-- No reference is at a place if and only if the walk records no identifier there. -/
theorem referencesAt_eq_zero {p : Point} (hlanguage : language ≠ .rust) :
    referencesAt (extractReferences source tree file language) p = 0 ↔
      ∀ v ∈ tree.visited none, v.2.startPosition = p → v.2.kind = "identifier" → isRecorded source v = false := by
  rw [referencesAt_generic hlanguage, List.count_eq_zero]
  constructor
  · intro h v hv hplace _
    by_contra hrec
    exact h (List.mem_map.mpr ⟨v, List.mem_filter.mpr ⟨hv, by simpa using hrec⟩, hplace⟩)
  · intro h hmem
    obtain ⟨v, hv, hplace⟩ := List.mem_map.mp hmem
    obtain ⟨hv, hrec⟩ := List.mem_filter.mp hv
    rw [h v hv hplace (isRecorded_iff.mp hrec).1] at hrec
    contradiction

/-- No definition of a tree is its own use if and only if every identifier that stands
    where a definition's name does is a definition's name to the walk, or a word of its
    list. -/
theorem no_own_uses_iff (hlanguage : language ≠ .rust) :
    NoOwnUses source tree file language ↔
      ∀ d ∈ definitionsIn source tree file language, ∀ v ∈ tree.visited none,
        d.namePlace = some v.2.startPosition → v.2.kind = "identifier" →
          isGenericDefinitionName v.1 v.2 = true ∨ ∀ t, v.2.utf8Text source = some t → isCommonKeyword t = true := by
  constructor
  · intro h d hd v hv hplace hident
    have hzero := (referencesAt_eq_zero hlanguage).mp (h d hd v.2.startPosition hplace)
    exact (not_isRecorded_iff hident).mp (hzero v hv rfl hident)
  · intro h d hd p hplace
    refine (referencesAt_eq_zero hlanguage).mpr fun v hv hat hident => (not_isRecorded_iff hident).mpr ?_
    exact h d hd v hv (hat ▸ hplace) hident

/-- What a node of a definition's kind holds in its field `name` has no reference at it. -/
theorem no_reference_at_named_field (hlanguage : language ≠ .rust) (hwf : tree.WellFormed) {parent : Option Node}
    {n c : Node} (hn : (parent, n) ∈ tree.visited none)
    (hkind : kindContains n.kind "definition" = true ∨ kindContains n.kind "declaration" = true ∨
      kindContains n.kind "_item" = true)
    (hfield : n.childByFieldName "name" = some c) (hname : c.isName = true)
    (hsound : (c.isError || c.isMissing) = false) :
    referencesAt (extractReferences source tree file language) c.startPosition = 0 := by
  have hc : c ∈ n.children := List.mem_of_find?_eq_some hfield
  have hvisited : (some n, c) ∈ names (tree.visited none) :=
    List.mem_filter.mpr ⟨visited_below hn hc hsound, hname⟩
  have hdef : isGenericDefinitionName (some n) c = true := by
    simpa [isGenericDefinitionName, isNameOf, hfield, or_assoc] using hkind
  refine (referencesAt_eq_zero hlanguage).mpr fun v hv hplace hident => ?_
  -- no other name starts there
  have hvname : v.2.isName = true := by
    rw [Node.isName, hident]
    rfl
  obtain rfl : v = (some n, c) :=
    List.inj_on_of_nodup_map (names_places_nodup hwf) (List.mem_filter.mpr ⟨hv, hvname⟩) hvisited hplace
  exact (not_isRecorded_iff hident).mpr (.inl hdef)

/-! ## A function in C -/

def cSource : Str := str "int f() {}"

def cFunction : Node :=
  ⟨"function_definition", none, 0, 10, ⟨0, 0⟩, ⟨0, 10⟩, true, false, false,
    [.leaf "primitive_type" (some "type") 0 0 0 3 true,
      ⟨"function_declarator", some "declarator", 4, 7, ⟨0, 4⟩, ⟨0, 7⟩, true, false, false,
        [.leaf "identifier" (some "declarator") 0 4 4 1 true,
          ⟨"parameter_list", some "parameters", 5, 7, ⟨0, 5⟩, ⟨0, 7⟩, true, false, false,
            [.leaf "(" none 0 5 5 1 false, .leaf ")" none 0 6 6 1 false]⟩]⟩,
      ⟨"compound_statement", some "body", 8, 10, ⟨0, 8⟩, ⟨0, 10⟩, true, false, false,
        [.leaf "\x7b" none 0 8 8 1 false, .leaf "\x7d" none 0 9 9 1 false]⟩]⟩

def cTree : Node :=
  ⟨"translation_unit", none, 0, 10, ⟨0, 0⟩, ⟨0, 10⟩, true, false, false, [cFunction]⟩

theorem cTree_wellFormed : cTree.WellFormed where
  bytes := by decide
  nested := by decide
  ordered := by decide
  places := by decide
  nonempty := by decide
  tokens := by decide

theorem cTree_definitions :
    definitionsIn cSource cTree [] .c = [.leaf .function cFunction (str "f", ⟨0, 4⟩)] := by
  rfl

/-- `f` is mentioned nowhere but in its definition, and a reference is at it. -/
theorem a_function_in_c_is_its_own_use :
    cTree.WellFormed ∧ definitionsIn cSource cTree [] .c = [.leaf .function cFunction (str "f", ⟨0, 4⟩)] ∧
      referencesAt (extractReferences cSource cTree [] .c) ⟨0, 4⟩ = 1 ∧ ¬ NoOwnUses cSource cTree [] .c := by
  refine ⟨cTree_wellFormed, cTree_definitions, by decide, fun h => ?_⟩
  have hzero := h _ (by rw [cTree_definitions]; exact List.mem_cons_self) ⟨0, 4⟩ rfl
  exact absurd hzero (by decide)

theorem no_own_uses_iff_function :
    NoOwnUses cSource cTree [] .c ↔
      ∀ d ∈ definitionsIn cSource cTree [] .c, ∀ v ∈ cTree.visited none,
        d.namePlace = some v.2.startPosition → v.2.kind = "identifier" →
          isGenericDefinitionName v.1 v.2 = true ∨ ∀ t, v.2.utf8Text cSource = some t → isCommonKeyword t = true :=
  no_own_uses_iff (by decide)

end CodeQuery.Index
