/-
  CodeQuery.Index.RefsGeneric — where the generic walk finds references
  (see `CodeQuery.Index.Refs`).

  The walk of every language but Rust records the nodes of kind `identifier` that are no
  definition names and no keywords of a list of its own, whatever the language
  (`walkGenericNode_eq`). In a well-formed tree no two names start at one place, so a
  name has one reference there when it is recorded, and none otherwise
  (`generic_complete_iff`): a name that the grammar gives another kind has none
  (`a_type_in_go_is_not_recorded`).
-/

import CodeQuery.Index.Refs
import CodeQuery.Parse.Places
import Mathlib.Data.List.Nodup

namespace CodeQuery.Index

open CodeQuery.Core CodeQuery.Parse CodeQuery.Text

/-- The walk pushes a reference for the node. -/
def isRecorded (source : Str) (v : Option Node × Node) : Bool :=
  v.2.kind == "identifier" && !isGenericDefinitionName v.1 v.2 && (v.2.utf8Text source).any (!isCommonKeyword ·)

theorem isRecorded_iff {source : Str} {v : Option Node × Node} :
    isRecorded source v = true ↔ v.2.kind = "identifier" ∧ isGenericDefinitionName v.1 v.2 = false ∧
      ∃ t, v.2.utf8Text source = some t ∧ isCommonKeyword t = false := by
  simp [isRecorded, Option.any_eq_true, and_assoc]

theorem isName_of_isRecorded {source : Str} {v : Option Node × Node} (h : isRecorded source v = true) :
    v.2.isName = true := by
  rw [Node.isName, (isRecorded_iff.mp h).1]
  rfl

section Walk

variable {source : Str} {file : Path} {lines : List Str}

theorem walkGenericNodes_eq {parent : Option Node} : ∀ {ns : List Node},
    (∀ c ∈ ns, walkGenericNode source file lines parent c =
      ((c.visited parent).filter (isRecorded source)).map fun v => refAt file lines v.2 .call none) →
    walkGenericNodes source file lines parent ns =
      ((visitedAll parent ns).filter (isRecorded source)).map fun v => refAt file lines v.2 .call none
  | [], _ => by simp [walkGenericNodes, visitedAll]
  | c :: cs, h => by
    rw [walkGenericNodes, visitedAll, List.filter_append, List.map_append,
      walkGenericNodes_eq fun d hd => h d (List.mem_cons_of_mem _ hd)]
    split
    · rfl
    · rw [h c List.mem_cons_self]

theorem walkGenericNode_cases (parent : Option Node) (n : Node) :
    walkGenericNode source file lines parent n =
      (if isRecorded source (parent, n) then [refAt file lines n .call none] else []) ++
        walkGenericNodes source file lines (some n) n.children := by
  obtain ⟨kind, field, startByte, endByte, startPosition, endPosition, isNamed, isError, isMissing, cs⟩ := n
  rw [walkGenericNode, isRecorded]
  set n : Node := ⟨kind, field, startByte, endByte, startPosition, endPosition, isNamed, isError, isMissing, cs⟩
  have hkind : n.kind = kind := rfl
  congr 1
  by_cases hname : kind = "identifier" ∧ isGenericDefinitionName parent n = false
  · rw [if_pos hname]
    cases htext : n.utf8Text source with
    | none => simp
    | some t => cases hkey : isCommonKeyword t <;> simp [hkind, hname, hkey]
  · rw [if_neg hname, if_neg]
    simpa [hkind] using fun hident hdef => absurd ⟨hident, hdef⟩ hname

/-- The references of a walk are those of the nodes it records, in the tree's order. -/
theorem walkGenericNode_eq (parent : Option Node) (n : Node) :
    walkGenericNode source file lines parent n =
      ((n.visited parent).filter (isRecorded source)).map fun v => refAt file lines v.2 .call none := by
  have hbelow := @walkGenericNodes_eq source file lines (some n) n.children
    fun c hc => have hlt := sizeOf_child_lt hc; walkGenericNode_eq (some n) c
  rw [walkGenericNode_cases, hbelow, visited_eq, List.filter_cons]
  split <;> rfl
termination_by sizeOf n

end Walk

theorem extractReferences_generic {source : Str} {tree : Node} {file : Path} {language : Language}
    (hlanguage : language ≠ .rust) :
    extractReferences source tree file language =
      ((tree.visited none).filter (isRecorded source)).map fun v => refAt file (lines source) v.2 .call none := by
  unfold extractReferences
  split
  · contradiction
  · exact walkGenericNode_eq none tree

/-- How many references are at a place of the tree. -/
def referencesAt (refs : List Reference) (place : Point) : Nat :=
  refs.countP fun r => r.line == place.row + 1 && r.column == place.column

theorem referencesAt_generic {source : Str} {tree : Node} {file : Path} {language : Language}
    (hlanguage : language ≠ .rust) (place : Point) :
    referencesAt (extractReferences source tree file language) place =
      (((tree.visited none).filter (isRecorded source)).map fun v => v.2.startPosition).count place := by
  rw [extractReferences_generic hlanguage, referencesAt, List.countP_map, List.count, List.countP_map]
  refine List.countP_congr fun v _ => ?_
  obtain ⟨row, column⟩ := place
  have hsplit : v.2.startPosition = ⟨row, column⟩ ↔ v.2.startPosition.row = row ∧ v.2.startPosition.column = column := by
    cases v.2.startPosition
    simp
  simp [refAt, hsplit]

/-- A name outside of errors has exactly one reference at its place if and only if it is
    an `identifier`, no definition name by the walk's check and no word of its list. -/
theorem generic_complete_iff {source : Str} {tree : Node} {file : Path} {language : Language}
    (hlanguage : language ≠ .rust) (hwf : tree.WellFormed) {v : Option Node × Node} (hv : v ∈ tree.visited none)
    (hname : v.2.isName = true) :
    referencesAt (extractReferences source tree file language) v.2.startPosition = 1 ↔
      v.2.kind = "identifier" ∧ isGenericDefinitionName v.1 v.2 = false ∧
        ∃ t, v.2.utf8Text source = some t ∧ isCommonKeyword t = false := by
  have hnodup := @names_places_nodup none tree hwf
  have hsub : ((tree.visited none).filter (isRecorded source)).Sublist (names (tree.visited none)) :=
    List.monotone_filter_right _ fun w hw => isName_of_isRecorded hw
  have honce := (hsub.map fun w => w.2.startPosition).nodup hnodup
  rw [referencesAt_generic hlanguage, ← isRecorded_iff, honce.count]
  constructor
  · intro h
    have hmem : v.2.startPosition ∈ ((tree.visited none).filter (isRecorded source)).map fun w => w.2.startPosition := by
      by_contra hno
      rw [if_neg hno] at h
      contradiction
    -- the recorded name at the place is this one
    obtain ⟨w, hw, hplace⟩ := List.mem_map.mp hmem
    have hsame := List.inj_on_of_nodup_map hnodup (hsub.subset hw) (List.mem_filter.mpr ⟨hv, hname⟩) hplace
    rw [← hsame]
    exact (List.mem_filter.mp hw).2
  · intro h
    exact if_pos (List.mem_map.mpr ⟨v, List.mem_filter.mpr ⟨hv, h⟩, rfl⟩)

/-! ## A type -/

def goSource : Str := str "package m\nvar x T"

/-- The type of the variable. -/
def goType : Node := .leaf "type_identifier" (some "type") 1 6 16 1 true

def goSpec : Node :=
  ⟨"var_spec", none, 14, 17, ⟨1, 4⟩, ⟨1, 7⟩, true, false, false,
    [.leaf "identifier" (some "name") 1 4 14 1 true, goType]⟩

def goTree : Node :=
  ⟨"source_file", none, 0, 17, ⟨0, 0⟩, ⟨1, 7⟩, true, false, false,
    [⟨"package_clause", none, 0, 9, ⟨0, 0⟩, ⟨0, 9⟩, true, false, false,
        [.leaf "package" none 0 0 0 7 false, .leaf "package_identifier" none 0 8 8 1 true]⟩,
      ⟨"var_declaration", none, 10, 17, ⟨1, 0⟩, ⟨1, 7⟩, true, false, false, [.leaf "var" none 1 0 10 3 false, goSpec]⟩]⟩

theorem goTree_wellFormed : goTree.WellFormed where
  bytes := by decide
  nested := by decide
  ordered := by decide
  places := by decide
  nonempty := by decide
  tokens := by decide

theorem goType_visited : (some goSpec, goType) ∈ goTree.visited none :=
  visited_child (.tail _ (.head _)) rfl (visited_child (.tail _ (.head _)) rfl
    (visited_child (.tail _ (.head _)) rfl (self_mem_visited _ _)))

/-- `T` is a use of a type, and no reference is at it. -/
theorem a_type_in_go_is_not_recorded :
    goTree.WellFormed ∧ (some goSpec, goType) ∈ goTree.visited none ∧ goType.kind = "type_identifier" ∧
      goType.children = [] ∧ goType.utf8Text goSource = some (str "T") ∧
      referencesAt (extractReferences goSource goTree [] .go) goType.startPosition = 0 :=
  ⟨goTree_wellFormed, goType_visited, rfl, rfl, by decide, by decide⟩

theorem generic_complete_iff_type :
    referencesAt (extractReferences goSource goTree [] .go) goType.startPosition = 1 ↔
      goType.kind = "identifier" ∧ isGenericDefinitionName (some goSpec) goType = false ∧
        ∃ t, goType.utf8Text goSource = some t ∧ isCommonKeyword t = false :=
  generic_complete_iff (by decide) goTree_wellFormed goType_visited (by decide)

end CodeQuery.Index
