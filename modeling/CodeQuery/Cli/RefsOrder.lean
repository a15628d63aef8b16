/-
  CodeQuery.Cli.RefsOrder — when the order of hash maps shows in what the refs and the
  callers commands print (see `CodeQuery.Cli.Refs`).

  Two hash maps are iterated: the resolver's groups, and the references by name. The
  sort is by file and line, and it is stable. The first order never shows, since a file
  is in one group. The second shows exactly when two references by name that the
  resolver does not cover share a line (`print_same_iff`), as two calls on a line do
  (`two_calls_on_a_line_change_places`).
-/

import CodeQuery.Cli.RefsProofs

namespace CodeQuery.Cli.Refs

open CodeQuery.Core CodeQuery.Text CodeQuery.Index CodeQuery.Data CodeQuery.Resolve

section Merged

variable {alnum : Char → Bool} {scan : List FileSymbols} {symbol : Str} {wanted : Reference → Bool}

/-! ## One merge -/

variable (alnum scan symbol wanted) in
/-- Of the references found by name where the resolver has none, no two share a line. -/
def OnePerLine (references : List ResolvedReference) : Prop :=
  ∀ r ∈ syntacticRefs alnum scan symbol wanted, ∀ r' ∈ syntacticRefs alnum scan symbol wanted,
    r.location ∉ references.map ResolvedReference.location → r'.location ∉ references.map ResolvedReference.location →
    Location.fileLine r.location = Location.fileLine r'.location → r.location = r'.location

variable (alnum scan symbol wanted) in
/-- What a resolved reference is printed as depends on its place alone. -/
def atPlace (loc : Location) : Reference :=
  ((syntacticMap alnum scan symbol wanted).lookup loc).getD
    ⟨loc.1, loc.2.1, loc.2.2, .call, contextAt scan loc.1 loc.2.1, none, none⟩

theorem map_toReference (references : List ResolvedReference) :
    references.map (toReference alnum scan symbol wanted) =
      (references.map ResolvedReference.location).map (atPlace alnum scan symbol wanted) := by
  rw [List.map_map]
  rfl

theorem location_atPlace (loc : Location) : (atPlace alnum scan symbol wanted loc).location = loc :=
  @location_toReference alnum scan symbol wanted ⟨loc.1, loc.2.1, loc.2.2, symbol, none, none, none, .resolved⟩

theorem filter_toReference {references references' : List ResolvedReference} (h : SameByLine references references')
    (k : Path ×ₗ ℕ) :
    (references.map (toReference alnum scan symbol wanted)).filter (fun r => Location.fileLine r.location = k) =
      (references'.map (toReference alnum scan symbol wanted)).filter (fun r => Location.fileLine r.location = k) := by
  have hfilter : ∀ l : List Location,
      (l.map (atPlace alnum scan symbol wanted)).filter (fun r => Location.fileLine r.location = k) =
        (l.filter (Location.fileLine · = k)).map (atPlace alnum scan symbol wanted) := by
    intro l
    rw [List.filter_map]
    simp only [Function.comp_def, location_atPlace]
  rw [map_toReference, map_toReference, hfilter, hfilter, h.line]

theorem uncovered_same {references references' : List ResolvedReference} (h : SameByLine references references') :
    uncovered (references.map (toReference alnum scan symbol wanted)) =
      uncovered (references'.map (toReference alnum scan symbol wanted)) := by
  funext loc
  rw [uncovered, uncovered, map_location_toReference, map_location_toReference]
  exact not_contains_congr h.mem_iff

variable (alnum scan symbol wanted) in
/-- The references the merge adds, in the order of an iteration. -/
def added (references : List ResolvedReference) (entries : Iteration (syntacticMap alnum scan symbol wanted)) :
    List Reference :=
  entries.values (uncovered (references.map (toReference alnum scan symbol wanted)))

/-- Two merges are sorted alike exactly when what they add is in one order on each line. -/
theorem sortRefs_merge_eq_iff {references references' : List ResolvedReference}
    {entries entries' : Iteration (syntacticMap alnum scan symbol wanted)} (h : SameByLine references references')
    (post : List Reference) :
    sortRefs (merge alnum scan symbol wanted references entries ++ post) =
        sortRefs (merge alnum scan symbol wanted references' entries' ++ post) ↔
      ∀ k, (added alnum scan symbol wanted references entries).filter (fun r => Location.fileLine r.location = k) =
        (added alnum scan symbol wanted references' entries').filter (fun r => Location.fileLine r.location = k) := by
  rw [sortRefs, sortRefs, stableSort_eq_iff]
  refine forall_congr' fun k => ?_
  simp only [merge, List.filter_append, filter_toReference h k, List.append_left_inj, List.append_right_inj, added]

/-- What is added is in one order on each line, whatever the iteration, if and only if it
    is one reference a line. -/
theorem added_same_iff {references : List ResolvedReference} :
    (∀ (entries entries' : Iteration (syntacticMap alnum scan symbol wanted)) k,
      (added alnum scan symbol wanted references entries).filter (fun r => Location.fileLine r.location = k) =
        (added alnum scan symbol wanted references entries').filter (fun r => Location.fileLine r.location = k)) ↔
    OnePerLine alnum scan symbol wanted references := by
  unfold added
  refine Iff.trans iterations_agree_iff ?_
  have hmem : ∀ loc, loc ∈ (added alnum scan symbol wanted references (.stored _)).map Reference.location ↔
      (∃ r ∈ syntacticRefs alnum scan symbol wanted, r.location = loc) ∧
        loc ∉ references.map ResolvedReference.location := by
    intro loc
    rw [added, mem_values_indexBy, uncovered_iff]
    simp
  have hnodup : ((added alnum scan symbol wanted references (.stored _)).map Reference.location).Nodup :=
    nodup_values _ _
  refine ⟨fun h r hr r' hr' hun hun' hline => ?_, fun h a ha b hb hline => ?_⟩
  · obtain ⟨a, ha, hea⟩ := List.mem_map.mp ((hmem r.location).mpr ⟨⟨r, hr, rfl⟩, hun⟩)
    obtain ⟨b, hb, heb⟩ := List.mem_map.mp ((hmem r'.location).mpr ⟨⟨r', hr', rfl⟩, hun'⟩)
    rw [← hea, ← heb, h a ha b hb (by rw [hea, heb]; exact hline)]
  · obtain ⟨⟨r, hr, her⟩, hun⟩ := (hmem a.location).mp (List.mem_map_of_mem ha)
    obtain ⟨⟨r', hr', her'⟩, hun'⟩ := (hmem b.location).mp (List.mem_map_of_mem hb)
    have hloc : a.location = b.location := by
      rw [← her, ← her']
      exact h r hr r' hr' (her ▸ hun) (her' ▸ hun') (by rw [her, her']; exact hline)
    exact List.inj_on_of_nodup_map hnodup ha hb hloc

/-! ## A command -/

/-- What a resolver gives under two orders of its groups. -/
structure Alike (result result' : Option (List ResolvedReference)) : Prop where
  isSome : result.isSome = result'.isSome
  line : ∀ references references', result = some references → result' = some references' →
    SameByLine references references'

theorem Alike.refl (result : Option (List ResolvedReference)) : Alike result result :=
  ⟨rfl, fun references references' h h' => by rw [h] at h'; cases h'; exact .refl _⟩

/-- What filters the references by what they are keeps them alike. -/
theorem Alike.map {result result' : Option (List ResolvedReference)} (h : Alike result result')
    {f : List ResolvedReference → List ResolvedReference}
    (hf : ∀ references references', SameByLine references references' → SameByLine (f references) (f references')) :
    Alike (result.map f) (result'.map f) := by
  refine ⟨by simpa using h.isSome, ?_⟩
  intro references references' hmap hmap'
  obtain ⟨r, hr, rfl⟩ := Option.map_eq_some_iff.mp hmap
  obtain ⟨r', hr', rfl⟩ := Option.map_eq_some_iff.mp hmap'
  exact hf r r' (h.line r r' hr hr')

variable (alnum scan symbol wanted) in
/-- A command that sorts the merge of what its resolver gave, and more behind it. -/
def printed (ok : Bool) (post : List ResolvedReference → List Reference) (result : Option (List ResolvedReference))
    (entries : Iteration (syntacticMap alnum scan symbol wanted)) : Option (List Reference) :=
  result.bind fun references =>
    if ok then some (sortRefs (merge alnum scan symbol wanted references entries ++ post references)) else none

/-- Whatever orders the resolver and the merge take, the list printed is the same, if and
    only if the merge adds one reference a line. -/
theorem printed_same_iff {ι : Type} {ok : Bool} {post : List ResolvedReference → List Reference}
    {result : ι → Option (List ResolvedReference)}
    (hpost : ∀ references references', SameByLine references references' → post references = post references')
    (halike : ∀ i i', Alike (result i) (result i')) :
    (∀ i i' entries entries',
      printed alnum scan symbol wanted ok post (result i) entries =
        printed alnum scan symbol wanted ok post (result i') entries') ↔
    (ok = true → ∀ i references, result i = some references → OnePerLine alnum scan symbol wanted references) := by
  refine ⟨fun h hok i references hi => ?_, fun h i i' entries entries' => ?_⟩
  · subst hok
    rw [← added_same_iff]
    intro entries entries' k
    have := h i i entries entries'
    simp only [printed, hi, Option.bind_some, if_true, Option.some.injEq] at this
    exact (sortRefs_merge_eq_iff (.refl _) _).mp this k
  · cases hok : ok with
    | false => simp [printed]
    | true =>
      cases hi : result i with
      | none =>
        have hi' : result i' = none := by simpa [hi] using (halike i i').isSome
        rw [hi']
        rfl
      | some references =>
        obtain ⟨references', hi'⟩ : ∃ references', result i' = some references' :=
          Option.isSome_iff_exists.mp (by rw [← (halike i i').isSome, hi]; rfl)
        have hline := (halike i i').line references references' hi hi'
        simp only [printed, hi', Option.bind_some, if_true, Option.some.injEq, ← hpost _ _ hline]
        rw [sortRefs_merge_eq_iff hline]
        intro k
        have hadded : added alnum scan symbol wanted references' entries' =
            added alnum scan symbol wanted references entries' := by
          rw [added, added, uncovered_same hline]
        rw [hadded]
        exact added_same_iff.mpr (h hok i references hi) entries entries' k

end Merged

/-! ## Both commands -/

section Commands

variable {alnum : Char → Bool} {G : StackGraphs} {scan : List FileSymbols} {symbol : Str}
  {semantic : Option (List ResolvedReference)}

theorem loneDefinitions_same {references references' : List ResolvedReference} (h : SameByLine references references') :
    loneDefinitions alnum scan symbol references = loneDefinitions alnum scan symbol references' := by
  have hline : ∀ k, (∃ rr ∈ references, Location.fileLine rr.location = k) ↔
      ∃ rr ∈ references', Location.fileLine rr.location = k := by
    intro k
    have hmem := @SameByLine.mem_iff references references' h
    simp only [List.mem_map] at hmem
    refine ⟨fun hrr => ?_, fun hrr => ?_⟩
    · obtain ⟨rr, hrr, rfl⟩ := hrr
      obtain ⟨rr', hrr', he⟩ := hmem.mp ⟨rr, hrr, rfl⟩
      exact ⟨rr', hrr', by rw [he]⟩
    · obtain ⟨rr, hrr, rfl⟩ := hrr
      obtain ⟨rr', hrr', he⟩ := hmem.mpr ⟨rr, hrr, rfl⟩
      exact ⟨rr', hrr', by rw [he]⟩
  rw [loneDefinitions, loneDefinitions]
  refine List.filter_congr fun d _ => not_contains_congr ?_
  simp only [List.mem_append, List.mem_map, hline]

theorem refsCommand_references (groups : Iteration (groupByLanguage scan))
    (entries : Iteration (syntacticMap alnum scan symbol everyKind)) :
    (refsCommand alnum G scan symbol semantic groups entries).map Output.references =
      printed alnum scan symbol everyKind (allSliceable scan everyKind)
        (fun references => (loneDefinitions alnum scan symbol references).map (definitionRef scan))
        ((refsResult alnum G scan symbol semantic groups).map (crossCheck (definitions scan symbol))) entries := by
  have hsort : ∀ references, allRefs alnum scan symbol references entries =
      sortRefs (merge alnum scan symbol everyKind references entries ++
        (loneDefinitions alnum scan symbol references).map (definitionRef scan)) := by
    intro references
    rw [allRefs, definitionRefs_eq]
    exact stableSort_append _ _
  unfold refsCommand printed run
  cases refsResult alnum G scan symbol semantic groups with
  | none => rfl
  | some result =>
    simp only [Option.bind_some, Option.map_some, ← hsort]
    split <;> rfl

theorem callersCommand_references (groups : Iteration (groupByLanguage scan))
    (entries : Iteration (syntacticMap alnum scan symbol isCall)) :
    (callersCommand alnum G scan symbol semantic groups entries).map Output.references =
      printed alnum scan symbol isCall (allSliceable scan isCall) (fun _ => [])
        ((callersResult alnum G scan symbol semantic groups).map (retainResolved (definitions scan symbol))) entries := by
  unfold callersCommand printed runCallers callRefs
  cases callersResult alnum G scan symbol semantic groups with
  | none => rfl
  | some result =>
    simp only [Option.bind_some, Option.map_some, List.append_nil]
    split <;> rfl

theorem resolveRefs_alike (hG : G.NodesInFiles) (groups groups' : Iteration (groupByLanguage scan)) :
    Alike (resolveRefs alnum G symbol groups) (resolveRefs alnum G symbol groups') :=
  ⟨resolveInternal_isSome groups groups', fun _ _ h h' => resolveInternal_sameByLine hG h h'⟩

theorem resolveWithCascade_alike (hG : G.NodesInFiles) (groups groups' : Iteration (groupByLanguage scan)) :
    Alike (resolveWithCascade alnum G scan symbol semantic groups)
      (resolveWithCascade alnum G scan symbol semantic groups') := by
  cases semantic with
  | none => exact resolveRefs_alike hG groups groups'
  | some references => exact .refl _

theorem refsResult_alike (hG : G.NodesInFiles) (groups groups' : Iteration (groupByLanguage scan)) :
    Alike ((refsResult alnum G scan symbol semantic groups).map (crossCheck (definitions scan symbol)))
      ((refsResult alnum G scan symbol semantic groups').map (crossCheck (definitions scan symbol))) := by
  have hcheck : ∀ references references', SameByLine references references' →
      SameByLine (crossCheck (definitions scan symbol) references) (crossCheck (definitions scan symbol) references') := by
    intro references references' h
    unfold crossCheck
    split
    · exact h
    · exact h.filter _
  unfold refsResult
  split
  · exact (resolveRefs_alike hG groups groups').map hcheck
  · exact (resolveWithCascade_alike hG groups groups').map hcheck

theorem callersResult_alike (hG : G.NodesInFiles) (groups groups' : Iteration (groupByLanguage scan)) :
    Alike ((callersResult alnum G scan symbol semantic groups).map (retainResolved (definitions scan symbol)))
      ((callersResult alnum G scan symbol semantic groups').map (retainResolved (definitions scan symbol))) := by
  have hretain : ∀ references references', SameByLine references references' →
      SameByLine (retainResolved (definitions scan symbol) references)
        (retainResolved (definitions scan symbol) references') := by
    intro references references' h
    unfold retainResolved
    split
    · exact h
    · exact h.filter _
  unfold callersResult
  split
  · exact ((resolveRefs_alike hG groups groups').map fun _ _ h => h.filter _).map hretain
  · exact (resolveWithCascade_alike hG groups groups').map hretain

theorem refs_same_iff (hG : G.NodesInFiles) :
    (∀ groups groups' entries entries',
      (refsCommand alnum G scan symbol semantic groups entries).map Output.references =
        (refsCommand alnum G scan symbol semantic groups' entries').map Output.references) ↔
    (allSliceable scan everyKind = true → ∀ groups result, refsResult alnum G scan symbol semantic groups = some result →
      OnePerLine alnum scan symbol everyKind (crossCheck (definitions scan symbol) result)) := by
  simp only [refsCommand_references]
  rw [printed_same_iff (fun _ _ h => by rw [loneDefinitions_same h]) (refsResult_alike hG)]
  simp [Option.map_eq_some_iff]

theorem callers_same_iff (hG : G.NodesInFiles) :
    (∀ groups groups' entries entries',
      (callersCommand alnum G scan symbol semantic groups entries).map Output.references =
        (callersCommand alnum G scan symbol semantic groups' entries').map Output.references) ↔
    (allSliceable scan isCall = true → ∀ groups result, callersResult alnum G scan symbol semantic groups = some result →
      OnePerLine alnum scan symbol isCall (retainResolved (definitions scan symbol) result)) := by
  simp only [callersCommand_references]
  rw [printed_same_iff (fun _ _ _ => rfl) (callersResult_alike hG)]
  simp [Option.map_eq_some_iff]

/-- Whatever orders the hash maps take, both commands print the same references in the
    same order if and only if, for each, no two references by name that the kept ones of
    the resolver do not cover share a line. -/
theorem print_same_iff (hG : G.NodesInFiles) :
    ((∀ groups groups' entries entries',
        (refsCommand alnum G scan symbol semantic groups entries).map Output.references =
          (refsCommand alnum G scan symbol semantic groups' entries').map Output.references) ∧
      ∀ groups groups' entries entries',
        (callersCommand alnum G scan symbol semantic groups entries).map Output.references =
          (callersCommand alnum G scan symbol semantic groups' entries').map Output.references) ↔
    (allSliceable scan everyKind = true → ∀ groups result, refsResult alnum G scan symbol semantic groups = some result →
      OnePerLine alnum scan symbol everyKind (crossCheck (definitions scan symbol) result)) ∧
    (allSliceable scan isCall = true → ∀ groups result, callersResult alnum G scan symbol semantic groups = some result →
      OnePerLine alnum scan symbol isCall (retainResolved (definitions scan symbol) result)) :=
  and_congr (refs_same_iff hG) (callers_same_iff hG)

end Commands

/-! ## Two calls on a line -/

/-- No language has stack graph rules. -/
def noRules : StackGraphs := ⟨fun _ => false, fun _ _ _ => none⟩

theorem noRules_nodesInFiles : noRules.NodesInFiles := by
  intro _ _ _ _ h
  cases h

def callsTwice : FileSymbols :=
  ⟨[.normal "c.rs"], [], str "f();f();", ⟨"source_file", none, 0, 8, ⟨0, 0⟩, ⟨0, 8⟩, true, false, false,
    [callAt 0, callAt 4]⟩⟩

def twiceScan : List FileSymbols := [definesF fileA, callsTwice]

def callOfFAt (column : Nat) : Reference := ⟨[.normal "c.rs"], 1, column, .call, str "f();f();", none, none⟩

theorem twice_extracted : extracted callsTwice = [callOfFAt 0, callOfFAt 4] := by rfl

theorem twice_matches : ∀ column ∈ [0, 4],
    refNameMatches Char.isAlphanum (str "f") (callOfFAt column) (str "f();f();") = true := by
  have hline : ∀ column, (lines (str "f();f();"))[(callOfFAt column).line - 1]? = some (str "f();f();") := by
    intro column
    rfl
  have hident : leadingIdentifier Char.isAlphanum (str "f();f();") = str "f" ∧
      leadingIdentifier Char.isAlphanum (str "f();") = str "f" := by
    simp only [leadingIdentifier, fromUtf8_str]
    decide
  intro column hcolumn
  simp only [List.mem_cons, List.not_mem_nil, or_false] at hcolumn
  rcases hcolumn with rfl | rfl
  · simp only [refNameMatches, hline]
    rw [show (str "f();f();").drop (callOfFAt 0).column = str "f();f();" by decide, hident.1]
    decide
  · simp only [refNameMatches, hline]
    rw [show (str "f();f();").drop (callOfFAt 4).column = str "f();" by decide, hident.2]
    decide

theorem twice_found {column : Nat} (h : column ∈ [0, 4]) :
    callOfFAt column ∈ syntacticRefs Char.isAlphanum twiceScan (str "f") isCall := by
  refine List.mem_flatMap.mpr ⟨callsTwice, by simp [twiceScan], List.mem_filter.mpr ⟨?_, ?_⟩⟩
  · rw [twice_extracted]
    simp only [List.mem_cons, List.not_mem_nil, or_false] at h ⊢
    rcases h with rfl | rfl
    · exact .inl rfl
    · exact .inr rfl
  · rw [show callsTwice.source = str "f();f();" from rfl, twice_matches column h]
    rfl

/-- The resolver finds the calls by name, and the command leaves those to the merge. -/
theorem twice_result : ∃ result,
    callersResult Char.isAlphanum noRules twiceScan (str "f") none (.stored _) = some result ∧
      retainResolved (definitions twiceScan (str "f")) result = [] := by
  obtain ⟨result, hresult⟩ : ∃ result,
      resolveInternal Char.isAlphanum noRules (str "f") (.stored (groupByLanguage twiceScan)) = some result :=
    ⟨_, if_pos (by decide)⟩
  have hdefs : (definitions twiceScan (str "f")).isEmpty = false := by decide
  refine ⟨result, ?_, ?_⟩
  · rw [callersResult, hdefs]
    exact hresult
  · simp only [retainResolved, hdefs, Bool.false_eq_true, if_false, List.filter_eq_nil_iff]
    intro rr hrr
    rw [resolveInternal_syntactic (fun _ => rfl) hresult rr hrr]
    decide

/-- Without rules and without a language server, the calls of `f();f();` change places
    with the order of the map. -/
theorem two_calls_on_a_line_change_places :
    ¬ ∀ groups groups' entries entries',
      (callersCommand Char.isAlphanum noRules twiceScan (str "f") none groups entries).map Output.references =
        (callersCommand Char.isAlphanum noRules twiceScan (str "f") none groups' entries').map Output.references := by
  intro h
  obtain ⟨result, hresult, hnil⟩ := twice_result
  have hone := (callers_same_iff noRules_nodesInFiles).mp h (by decide) (.stored _) result hresult
  rw [hnil] at hone
  have hsame := hone (callOfFAt 0) (twice_found (by simp)) (callOfFAt 4) (twice_found (by simp)) (by simp) (by simp) rfl
  exact absurd hsame (by decide)

theorem print_same_iff_twice :
    ((∀ groups groups' entries entries',
        (refsCommand Char.isAlphanum noRules twiceScan (str "f") none groups entries).map Output.references =
          (refsCommand Char.isAlphanum noRules twiceScan (str "f") none groups' entries').map Output.references) ∧
      ∀ groups groups' entries entries',
        (callersCommand Char.isAlphanum noRules twiceScan (str "f") none groups entries).map Output.references =
          (callersCommand Char.isAlphanum noRules twiceScan (str "f") none groups' entries').map Output.references) ↔
    (allSliceable twiceScan everyKind = true → ∀ groups result,
      refsResult Char.isAlphanum noRules twiceScan (str "f") none groups = some result →
      OnePerLine Char.isAlphanum twiceScan (str "f") everyKind (crossCheck (definitions twiceScan (str "f")) result)) ∧
    (allSliceable twiceScan isCall = true → ∀ groups result,
      callersResult Char.isAlphanum noRules twiceScan (str "f") none groups = some result →
      OnePerLine Char.isAlphanum twiceScan (str "f") isCall (retainResolved (definitions twiceScan (str "f")) result)) :=
  print_same_iff noRules_nodesInFiles

end CodeQuery.Cli.Refs
