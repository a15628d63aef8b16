/-
  CodeQuery.Cli.RefsProofs — what is in the list the refs command prints
  (see `CodeQuery.Cli.Refs`).

  A place is in the list exactly when a kept resolved reference is there, a reference
  found by name is, or a definition on a line without either (`mem_run_iff`). So
  (1) nothing is lost (`run_loses_nothing`);
  (2) no place comes twice if and only if neither the kept references nor those
      definitions repeat one (`run_nodup_iff`); a reference with two definitions is
      listed twice (`a_reference_with_two_definitions_is_listed_twice`);
  (3) a place the cross-check removed stays out if and only if no reference is found
      there by name (`rejected_absent_iff`), and one is put back otherwise
      (`a_rejected_reference_is_merged_back`).
-/

import CodeQuery.Cli.Refs

namespace CodeQuery.Cli.Refs

open CodeQuery.Core CodeQuery.Text CodeQuery.Index CodeQuery.Data CodeQuery.Resolve

section Proofs

variable {alnum : Char → Bool} {scan : List FileSymbols} {symbol : Str} {wanted : Reference → Bool}

/-! ## The places of the merged list -/

theorem location_toReference (rr : ResolvedReference) :
    (toReference alnum scan symbol wanted rr).location = rr.location := by
  unfold toReference
  cases h : (syntacticMap alnum scan symbol wanted).lookup rr.location with
  | none => rfl
  | some r => exact (lookup_indexBy h).2

theorem map_location_toReference (references : List ResolvedReference) :
    (references.map (toReference alnum scan symbol wanted)).map Reference.location =
      references.map ResolvedReference.location := by
  rw [List.map_map]
  exact List.map_congr_left fun rr _ => location_toReference rr

theorem uncovered_iff {references : List ResolvedReference} {loc : Location} :
    uncovered (references.map (toReference alnum scan symbol wanted)) loc = true ↔
      ∀ rr ∈ references, rr.location ≠ loc := by
  rw [uncovered, map_location_toReference]
  simp

theorem mem_merge_iff {references : List ResolvedReference} {entries : Iteration (syntacticMap alnum scan symbol wanted)}
    {loc : Location} :
    loc ∈ (merge alnum scan symbol wanted references entries).map Reference.location ↔
      (∃ rr ∈ references, rr.location = loc) ∨ ∃ r ∈ syntacticRefs alnum scan symbol wanted, r.location = loc := by
  rw [merge, List.map_append, List.mem_append, map_location_toReference, List.mem_map, mem_values_indexBy, uncovered_iff]
  refine ⟨fun h => ?_, fun h => ?_⟩
  · rcases h with h | ⟨h, -⟩
    · exact .inl h
    · exact .inr h
  · by_cases hcov : ∃ rr ∈ references, rr.location = loc
    · exact .inl hcov
    · rcases h with h | h
      · exact .inl h
      · exact .inr ⟨h, fun rr hrr he => hcov ⟨rr, hrr, he⟩⟩

/-- Merging adds each place found by name once, and none the resolver has. -/
theorem nodup_merge_iff {references : List ResolvedReference}
    {entries : Iteration (syntacticMap alnum scan symbol wanted)} :
    ((merge alnum scan symbol wanted references entries).map Reference.location).Nodup ↔
      (references.map ResolvedReference.location).Nodup := by
  rw [merge, List.map_append, map_location_toReference, List.nodup_append]
  refine ⟨fun h => ?_, fun h => ?_⟩
  · exact h.1
  · refine ⟨h, nodup_values entries _, ?_⟩
    intro a ha b hb hab
    obtain ⟨rr, hrr, rfl⟩ := List.mem_map.mp ha
    exact uncovered_iff.mp (mem_values_indexBy.mp hb).2 rr hrr hab

/-! ## The places of the printed list -/

variable (alnum scan symbol) in
/-- A reference, kept or found by name, is on the line. -/
def ReferencedLine (references : List ResolvedReference) (k : Path ×ₗ ℕ) : Prop :=
  (∃ rr ∈ references, Location.fileLine rr.location = k) ∨
    ∃ r ∈ syntacticRefs alnum scan symbol everyKind, Location.fileLine r.location = k

variable (alnum scan symbol) in
/-- The definitions found on lines without references. -/
def loneDefinitions (references : List ResolvedReference) : List Symbol :=
  (definitions scan symbol).filter fun d =>
    !((references.map fun rr => Location.fileLine rr.location) ++
      (syntacticRefs alnum scan symbol everyKind).map fun r => Location.fileLine r.location).contains
        (Location.fileLine d.location)

theorem mem_loneDefinitions {references : List ResolvedReference} {d : Symbol} :
    d ∈ loneDefinitions alnum scan symbol references ↔
      d ∈ definitions scan symbol ∧ ¬ ReferencedLine alnum scan symbol references (Location.fileLine d.location) := by
  rw [loneDefinitions, List.mem_filter]
  simp [ReferencedLine]

/-- The lines of the merged list are the referenced lines. -/
theorem mem_mergedLines_iff {references : List ResolvedReference}
    {entries : Iteration (syntacticMap alnum scan symbol everyKind)} {k : Path ×ₗ ℕ} :
    k ∈ (sortRefs (merge alnum scan symbol everyKind references entries)).map (fun r => Location.fileLine r.location) ↔
      ReferencedLine alnum scan symbol references k := by
  have hsame : ∀ r, r ∈ sortRefs (merge alnum scan symbol everyKind references entries) ↔
      r ∈ merge alnum scan symbol everyKind references entries := fun r => mem_stableSort
  refine ⟨fun h => ?_, fun h => ?_⟩
  · obtain ⟨r, hr, rfl⟩ := List.mem_map.mp h
    rcases mem_merge_iff.mp (List.mem_map_of_mem ((hsame r).mp hr)) with ⟨rr, hrr, he⟩ | ⟨r', hr', he⟩
    · exact .inl ⟨rr, hrr, by rw [he]⟩
    · exact .inr ⟨r', hr', by rw [he]⟩
  · have hplace : ∃ loc ∈ (merge alnum scan symbol everyKind references entries).map Reference.location,
        Location.fileLine loc = k := by
      rcases h with ⟨rr, hrr, he⟩ | ⟨r, hr, he⟩
      · exact ⟨rr.location, mem_merge_iff.mpr (.inl ⟨rr, hrr, rfl⟩), he⟩
      · exact ⟨r.location, mem_merge_iff.mpr (.inr ⟨r, hr, rfl⟩), he⟩
    obtain ⟨loc, hloc, rfl⟩ := hplace
    obtain ⟨r, hr, rfl⟩ := List.mem_map.mp hloc
    exact List.mem_map.mpr ⟨r, (hsame r).mpr hr, rfl⟩

theorem not_contains_congr {α : Type} [BEq α] [LawfulBEq α] {l l' : List α} {a : α} (h : a ∈ l ↔ a ∈ l') :
    (!l.contains a) = !l'.contains a := by
  have hcontains : l.contains a = l'.contains a := by
    rw [Bool.eq_iff_iff, List.contains_iff_mem, List.contains_iff_mem, h]
  rw [hcontains]

theorem definitionRefs_eq (references : List ResolvedReference)
    (entries : Iteration (syntacticMap alnum scan symbol everyKind)) :
    definitionRefs scan (definitions scan symbol)
        (sortRefs (merge alnum scan symbol everyKind references entries)) =
      (loneDefinitions alnum scan symbol references).map (definitionRef scan) := by
  rw [definitionRefs, loneDefinitions]
  congr 1
  refine List.filter_congr fun d _ => not_contains_congr ?_
  rw [mem_mergedLines_iff]
  simp [ReferencedLine]

theorem allRefs_perm (references : List ResolvedReference)
    (entries : Iteration (syntacticMap alnum scan symbol everyKind)) :
    ((allRefs alnum scan symbol references entries).map Reference.location).Perm
      ((merge alnum scan symbol everyKind references entries).map Reference.location ++
        (loneDefinitions alnum scan symbol references).map Symbol.location) := by
  have hdefs : (loneDefinitions alnum scan symbol references).map Symbol.location =
      ((loneDefinitions alnum scan symbol references).map (definitionRef scan)).map Reference.location := by
    rw [List.map_map]
    rfl
  rw [hdefs, ← definitionRefs_eq references entries, ← List.map_append]
  refine List.Perm.map _ ((stableSort_perm _).trans ?_)
  exact (stableSort_perm _).append_right _

theorem run_some {result : List ResolvedReference} {entries : Iteration (syntacticMap alnum scan symbol everyKind)}
    {out : Output} (h : run alnum scan symbol result entries = some out) :
    out.references = allRefs alnum scan symbol (crossCheck (definitions scan symbol) result) entries ∧
      out.definitions = definitions scan symbol := by
  unfold run at h
  split at h
  · cases h
    exact ⟨rfl, rfl⟩
  · cases h

/-- A place is listed exactly when a kept reference is there, a reference found by name
    is, or a definition on a line without either. -/
theorem mem_run_iff {result : List ResolvedReference} {entries : Iteration (syntacticMap alnum scan symbol everyKind)}
    {out : Output} (h : run alnum scan symbol result entries = some out) {loc : Location} :
    loc ∈ out.references.map Reference.location ↔
      (∃ rr ∈ crossCheck (definitions scan symbol) result, rr.location = loc) ∨
      (∃ r ∈ syntacticRefs alnum scan symbol everyKind, r.location = loc) ∨
      ∃ d ∈ loneDefinitions alnum scan symbol (crossCheck (definitions scan symbol) result), d.location = loc := by
  rw [(run_some h).1, (allRefs_perm _ entries).mem_iff, List.mem_append, mem_merge_iff, List.mem_map, or_assoc]

theorem nodup_allRefs_iff {references : List ResolvedReference}
    {entries : Iteration (syntacticMap alnum scan symbol everyKind)} :
    ((allRefs alnum scan symbol references entries).map Reference.location).Nodup ↔
      (references.map ResolvedReference.location).Nodup ∧
        ((loneDefinitions alnum scan symbol references).map Symbol.location).Nodup := by
  rw [(allRefs_perm references entries).nodup_iff, List.nodup_append, nodup_merge_iff]
  refine ⟨fun h => ?_, fun h => ?_⟩
  · exact ⟨h.1, h.2.1⟩
  · refine ⟨h.1, h.2, ?_⟩
    -- on a lone definition's line there is no other place
    intro a ha b hb hab
    subst hab
    obtain ⟨d, hd, rfl⟩ := List.mem_map.mp hb
    refine (mem_loneDefinitions.mp hd).2 ?_
    rcases mem_merge_iff.mp ha with ⟨rr, hrr, he⟩ | ⟨r, hr, he⟩
    · exact .inl ⟨rr, hrr, by rw [he]⟩
    · exact .inr ⟨r, hr, by rw [he]⟩

theorem mem_crossCheck {defs : List Symbol} {result : List ResolvedReference} {rr : ResolvedReference} :
    rr ∈ crossCheck defs result ↔ rr ∈ result ∧ (defs ≠ [] → keeps defs rr = true) := by
  unfold crossCheck
  split
  · rename_i h
    simp [List.isEmpty_iff.mp h]
  · rename_i h
    have hne : defs ≠ [] := fun he => h (by rw [he]; rfl)
    simp [List.mem_filter, hne]

theorem keeps_eq_false_iff {defs : List Symbol} {rr : ResolvedReference} :
    keeps defs rr = false ↔
      rr.resolution = .resolved ∧ ∃ df, rr.defFile = some df ∧ df ∉ defs.map Symbol.file ∧ df ≠ rr.refFile := by
  unfold keeps
  cases rr.resolution with
  | syntactic => simp
  | semantic => simp
  | resolved =>
    cases rr.defFile with
    | none => simp
    | some df => simp

/-- The place has references of the resolver, and the cross-check removes them all: each
    is resolved to a file that holds none of the definitions and is not its own. -/
structure Rejected (defs : List Symbol) (result : List ResolvedReference) (loc : Location) : Prop where
  defined : defs ≠ []
  resolved : ∃ rr ∈ result, rr.location = loc
  removed : ∀ rr ∈ result, rr.location = loc →
    rr.resolution = .resolved ∧ ∃ df, rr.defFile = some df ∧ df ∉ defs.map Symbol.file ∧ df ≠ rr.refFile

theorem Rejected.not_kept {defs : List Symbol} {result : List ResolvedReference} {loc : Location}
    (h : Rejected defs result loc) : ∀ rr ∈ crossCheck defs result, rr.location ≠ loc := by
  intro rr hrr he
  obtain ⟨hmem, hkeeps⟩ := mem_crossCheck.mp hrr
  rw [keeps_eq_false_iff.mpr (h.removed rr hmem he)] at hkeeps
  exact absurd (hkeeps h.defined) (by simp)

end Proofs

/-! ## A definition and a call -/

def fileA : Path := [.normal "a.rs"]

def fileB : Path := [.normal "b.rs"]

def symbolF (file : Path) : Symbol :=
  ⟨str "f", .function, file, 1, 0, 1, .public_, [], none, none, some (str "pub fn f()")⟩

def definesF (file : Path) : FileSymbols := ⟨file, [symbolF file], str "pub fn f() {}", .leaf "source_file" none 0 0 0 13 true⟩

/-- A call of `f` at a column. -/
def callAt (column : Nat) : Parse.Node :=
  ⟨"call_expression", none, column, column + 3, ⟨0, column⟩, ⟨0, column + 3⟩, true, false, false,
    [.leaf "identifier" (some "function") 0 column column 1 true]⟩

def callsF : FileSymbols :=
  ⟨[.normal "c.rs"], [], str "f();", ⟨"source_file", none, 0, 4, ⟨0, 0⟩, ⟨0, 4⟩, true, false, false, [callAt 0]⟩⟩

def callScan : List FileSymbols := [definesF fileA, callsF]

def callLocation : Location := ([.normal "c.rs"], 1, 0)

def callOfF : Reference := ⟨[.normal "c.rs"], 1, 0, .call, str "f();", none, none⟩

/-- The call, resolved to a definition in a file. -/
def resolvedIn (file : Path) : ResolvedReference :=
  ⟨[.normal "c.rs"], 1, 0, str "f", some file, some 1, some 7, .resolved⟩

/-! ## Two Go packages with a function of one name -/

/-- The clause of the first line and a declaration `func name() block` on the second. -/
def goTree (length : Nat) (block : Parse.Node) : Parse.Node :=
  ⟨"source_file", none, 0, length, ⟨0, 0⟩, ⟨2, 0⟩, true, false, false,
    [⟨"package_clause", none, 0, 9, ⟨0, 0⟩, ⟨0, 9⟩, true, false, false,
        [.leaf "package_identifier" none 0 8 8 1 true]⟩,
      ⟨"function_declaration", none, 10, block.endByte, ⟨1, 0⟩, block.endPosition, true, false, false,
        [.leaf "identifier" (some "name") 1 5 15 1 true, .leaf "parameter_list" (some "parameters") 1 6 16 2 true,
          block]⟩]⟩

def goFunction (file : Path) (name body signature : String) : Symbol :=
  ⟨str name, .function, file, 2, 0, 2, .public_, [], none, some (str body), some (str signature)⟩

def goDefines (file : Path) (source : String) : FileSymbols :=
  ⟨file, [goFunction file "F" "func F() {}" "func F()"], str source,
    goTree 22 (.leaf "block" (some "body") 1 9 19 2 true)⟩

def goA : Path := [.normal "a.go"]

def goB : Path := [.normal "b.go"]

def goC : Path := [.normal "c.go"]

def goCalls : FileSymbols :=
  ⟨goC, [goFunction goC "G" "func G() { F() }" "func G()"], str "package r\nfunc G() { F() }\n",
    goTree 27 ⟨"block", some "body", 19, 26, ⟨1, 9⟩, ⟨1, 16⟩, true, false, false,
      [⟨"expression_statement", none, 21, 24, ⟨1, 11⟩, ⟨1, 14⟩, true, false, false,
        [⟨"call_expression", none, 21, 24, ⟨1, 11⟩, ⟨1, 14⟩, true, false, false,
          [.leaf "identifier" (some "function") 1 11 21 1 true,
            .leaf "argument_list" (some "arguments") 1 12 22 2 true]⟩]⟩]⟩⟩

def goScan : List FileSymbols :=
  [goDefines goA "package p\nfunc F() {}\n", goDefines goB "package q\nfunc F() {}\n", goCalls]

/-- The call of `F`, resolved to the definition in a file. -/
def goResolved (file : Path) : ResolvedReference := ⟨goC, 2, 11, str "F", some file, some 2, some 5, .resolved⟩

variable {alnum : Char → Bool} {scan : List FileSymbols} {symbol : Str}

/-! ## (1) Nothing is lost -/

/-- Each place with a reference found by name, unless it is rejected, each kept
    reference's and the line of each definition are in the list. -/
theorem run_loses_nothing {result : List ResolvedReference}
    {entries : Iteration (syntacticMap alnum scan symbol everyKind)} {out : Output}
    (h : run alnum scan symbol result entries = some out) :
    (∀ r ∈ syntacticRefs alnum scan symbol everyKind, ¬ Rejected (definitions scan symbol) result r.location →
      r.location ∈ out.references.map Reference.location) ∧
    (∀ rr ∈ crossCheck (definitions scan symbol) result, rr.location ∈ out.references.map Reference.location) ∧
    ∀ d ∈ definitions scan symbol,
      Location.fileLine d.location ∈ out.references.map fun r => Location.fileLine r.location := by
  refine ⟨fun r hr _ => (mem_run_iff h).mpr (.inr (.inl ⟨r, hr, rfl⟩)),
    fun rr hrr => (mem_run_iff h).mpr (.inl ⟨rr, hrr, rfl⟩), ?_⟩
  intro d hd
  have hplace : ∃ loc ∈ out.references.map Reference.location,
      Location.fileLine loc = Location.fileLine d.location := by
    by_cases hline : ReferencedLine alnum scan symbol (crossCheck (definitions scan symbol) result)
        (Location.fileLine d.location)
    · rcases hline with ⟨rr, hrr, he⟩ | ⟨r, hr, he⟩
      · exact ⟨rr.location, (mem_run_iff h).mpr (.inl ⟨rr, hrr, rfl⟩), he⟩
      · exact ⟨r.location, (mem_run_iff h).mpr (.inr (.inl ⟨r, hr, rfl⟩)), he⟩
    · exact ⟨d.location, (mem_run_iff h).mpr (.inr (.inr ⟨d, mem_loneDefinitions.mpr ⟨hd, hline⟩, rfl⟩)), rfl⟩
  obtain ⟨loc, hloc, he⟩ := hplace
  obtain ⟨r, hr, rfl⟩ := List.mem_map.mp hloc
  exact List.mem_map.mpr ⟨r, hr, he⟩

theorem run_loses_nothing_call :
    ∃ out, run Char.isAlphanum callScan (str "f") [resolvedIn fileB] (.stored _) = some out ∧
      (∀ r ∈ syntacticRefs Char.isAlphanum callScan (str "f") everyKind,
        ¬ Rejected (definitions callScan (str "f")) [resolvedIn fileB] r.location →
        r.location ∈ out.references.map Reference.location) ∧
      (∀ rr ∈ crossCheck (definitions callScan (str "f")) [resolvedIn fileB],
        rr.location ∈ out.references.map Reference.location) ∧
      ∀ d ∈ definitions callScan (str "f"),
        Location.fileLine d.location ∈ out.references.map fun r => Location.fileLine r.location :=
  ⟨_, if_pos (by decide), run_loses_nothing (if_pos (by decide))⟩

/-! ## (2) No place twice -/

/-- No place is listed twice if and only if no two kept references are at one place, and
    no two definitions on lines without references are. -/
theorem run_nodup_iff {result : List ResolvedReference}
    {entries : Iteration (syntacticMap alnum scan symbol everyKind)} {out : Output}
    (h : run alnum scan symbol result entries = some out) :
    (out.references.map Reference.location).Nodup ↔
      ((crossCheck (definitions scan symbol) result).map ResolvedReference.location).Nodup ∧
        ((loneDefinitions alnum scan symbol (crossCheck (definitions scan symbol) result)).map Symbol.location).Nodup := by
  rw [(run_some h).1]
  exact nodup_allRefs_iff

theorem run_nodup_iff_call :
    ∃ out, run Char.isAlphanum callScan (str "f") [resolvedIn fileA] (.stored _) = some out ∧
      ((out.references.map Reference.location).Nodup ↔
        ((crossCheck (definitions callScan (str "f")) [resolvedIn fileA]).map
          ResolvedReference.location).Nodup ∧
        ((loneDefinitions Char.isAlphanum callScan (str "f")
          (crossCheck (definitions callScan (str "f")) [resolvedIn fileA])).map Symbol.location).Nodup) :=
  ⟨_, if_pos (by decide), run_nodup_iff (if_pos (by decide))⟩

/-- The call is resolved to the `F` of each package, and listed for each. -/
theorem a_reference_with_two_definitions_is_listed_twice :
    ∃ out, run Char.isAlphanum goScan (str "F") [goResolved goA, goResolved goB]
        (.stored _) = some out ∧ ¬ (out.references.map Reference.location).Nodup := by
  refine ⟨_, if_pos (by decide), fun h => ?_⟩
  exact absurd (nodup_allRefs_iff.mp h).1 (by decide)

/-! ## (3) Rejected places -/

/-- A rejected place that is no definition's stays out of the list if and only if no
    reference is found there by name. -/
theorem rejected_absent_iff {result : List ResolvedReference}
    {entries : Iteration (syntacticMap alnum scan symbol everyKind)} {out : Output} {loc : Location}
    (h : run alnum scan symbol result entries = some out) (hrejected : Rejected (definitions scan symbol) result loc)
    (hdef : ∀ d ∈ definitions scan symbol, d.location ≠ loc) :
    loc ∉ out.references.map Reference.location ↔ ∀ r ∈ syntacticRefs alnum scan symbol everyKind, r.location ≠ loc := by
  rw [mem_run_iff h]
  refine ⟨fun hout r hr he => ?_, fun hnone hin => ?_⟩
  · exact hout (.inr (.inl ⟨r, hr, he⟩))
  · rcases hin with ⟨rr, hrr, he⟩ | ⟨r, hr, he⟩ | ⟨d, hd, he⟩
    · exact hrejected.not_kept rr hrr he
    · exact hnone r hr he
    · exact hdef d (mem_loneDefinitions.mp hd).1 he

theorem call_rejected : Rejected (definitions callScan (str "f")) [resolvedIn fileB] callLocation := by
  have hdefs : definitions callScan (str "f") = [symbolF fileA] := by rfl
  rw [hdefs]
  refine ⟨by simp, ⟨resolvedIn fileB, by simp, rfl⟩, ?_⟩
  intro rr hrr _
  rw [List.mem_singleton.mp hrr]
  exact ⟨rfl, fileB, rfl, by decide, by decide⟩

theorem call_no_definition : ∀ d ∈ definitions callScan (str "f"), d.location ≠ callLocation := by
  have hdefs : definitions callScan (str "f") = [symbolF fileA] := by rfl
  rw [hdefs]
  intro d hd
  rw [List.mem_singleton.mp hd]
  decide

theorem rejected_absent_iff_call :
    ∃ out, run Char.isAlphanum callScan (str "f") [resolvedIn fileB] (.stored _) = some out ∧
      (callLocation ∉ out.references.map Reference.location ↔
        ∀ r ∈ syntacticRefs Char.isAlphanum callScan (str "f") everyKind, r.location ≠ callLocation) :=
  ⟨_, if_pos (by decide), rejected_absent_iff (if_pos (by decide)) call_rejected call_no_definition⟩

theorem call_extracted : extracted callsF = [callOfF] := by rfl

theorem call_matches : refNameMatches Char.isAlphanum (str "f") callOfF (str "f();") = true := by
  have hline : (lines (str "f();"))[callOfF.line - 1]? = some (str "f();") := by decide
  have hident : leadingIdentifier Char.isAlphanum ((str "f();").drop callOfF.column) = str "f" := by
    rw [show callOfF.column = 0 from rfl, List.drop_zero, leadingIdentifier, fromUtf8_str]
    decide
  simp only [refNameMatches, hline, hident, beq_self_eq_true]
  decide

theorem call_found {scan : List FileSymbols} (h : callsF ∈ scan) :
    callOfF ∈ syntacticRefs Char.isAlphanum scan (str "f") everyKind := by
  refine List.mem_flatMap.mpr ⟨callsF, h, List.mem_filter.mpr ⟨?_, ?_⟩⟩
  · rw [call_extracted]
    exact List.mem_singleton_self _
  · rw [show callsF.source = str "f();" from rfl, call_matches]
    rfl

/-- `f` is defined in `a.rs`, and its call is resolved to a definition in `b.rs`: the
    cross-check removes it, and the merge puts it back. -/
theorem a_rejected_reference_is_merged_back :
    Rejected (definitions callScan (str "f")) [resolvedIn fileB] callLocation ∧
    (∀ d ∈ definitions callScan (str "f"), d.location ≠ callLocation) ∧
    ∃ out, run Char.isAlphanum callScan (str "f") [resolvedIn fileB] (.stored _) = some out ∧
      callLocation ∈ out.references.map Reference.location := by
  refine ⟨call_rejected, call_no_definition, _, if_pos (by decide), ?_⟩
  exact (mem_run_iff (if_pos (by decide))).mpr (.inr (.inl ⟨callOfF, call_found (by simp [callScan]), rfl⟩))

end CodeQuery.Cli.Refs
