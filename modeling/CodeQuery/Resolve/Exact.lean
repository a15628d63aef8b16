/-
  CodeQuery.Resolve.Exact — what is collected of the stitched paths.

  The paths of one reference after the other are handed over, many of them between the
  same two places. The ends of a path are recorded once (`collectResolved_nodup`), and no
  path with two ends is lost (`collectResolved_covers`); so on every run, however it is
  cut, the references are the ends of the paths that were handed over, each pair once
  (`resolveReferences_exact`). A reference without a place is put at line 0 of no file,
  where no node is.
-/

import CodeQuery.Resolve.Stitch

namespace CodeQuery.Resolve

open CodeQuery.Core CodeQuery.Text

/-! ## The collected ends -/

section Collect

variable {symbol : Str}

/-- The place of the reference, and of the definition. -/
def ResolvedReference.ends (r : ResolvedReference) : Location × Option Path × Option Nat × Option Nat :=
  (r.location, r.defFile, r.defLine, r.defColumn)

def endsOf (reference definition : Location) : Location × Option Path × Option Nat × Option Nat :=
  (reference, some definition.1, some definition.2.1, some definition.2.2)

/-- Lines are counted from 1 on. -/
def Numbered (paths : List (Option Location × Option Location)) : Prop :=
  ∀ loc definition, (some loc, definition) ∈ paths → 1 ≤ loc.2.1

theorem ends_resolvedPath (reference : Option Location) (definition : Location) :
    (resolvedPath symbol reference definition).ends = endsOf (reference.getD unknownLocation) definition := rfl

theorem endsOf_inj {reference reference' definition definition' : Location}
    (h : endsOf reference definition = endsOf reference' definition') : reference = reference' ∧ definition = definition' := by
  simp only [endsOf, Prod.mk.injEq, Option.some.injEq] at h
  obtain ⟨hreference, hfile, hline, hcolumn⟩ := h
  exact ⟨hreference, Prod.ext hfile (Prod.ext hline hcolumn)⟩

/-- The recorded ends are those of the paths that have a place to go to. -/
theorem mem_ends_collectResolved {paths : List (Option Location × Option Location)}
    {e : Location × Option Path × Option Nat × Option Nat} :
    e ∈ (collectResolved symbol [] paths).map ResolvedReference.ends ↔
      ∃ reference definition, (reference, some definition) ∈ paths ∧
        e = endsOf (reference.getD unknownLocation) definition := by
  rw [List.mem_map]
  constructor
  · intro hcase
    obtain ⟨rr, h, rfl⟩ := hcase
    obtain ⟨reference, definition, hpath, -, rfl⟩ := mem_collectResolved.mp h
    exact ⟨reference, definition, hpath, rfl⟩
  · intro hcase
    obtain ⟨reference, definition, hpath, rfl⟩ := hcase
    exact ⟨_, mem_collectResolved.mpr ⟨reference, definition, hpath, List.not_mem_nil, rfl⟩, rfl⟩

/-- Two paths with the same ends in their records have the same ends. -/
theorem endsOf_getD_inj {reference reference' : Option Location} {definition definition' : Location}
    (hline : ∀ loc, reference = some loc → 1 ≤ loc.2.1) (hline' : ∀ loc, reference' = some loc → 1 ≤ loc.2.1)
    (h : endsOf (reference.getD unknownLocation) definition = endsOf (reference'.getD unknownLocation) definition') :
    (reference, definition) = (reference', definition') := by
  obtain ⟨hreference, rfl⟩ := endsOf_inj h
  rw [Prod.mk.injEq]
  refine ⟨?_, rfl⟩
  -- the place that stands for none has line 0
  have hunknown : unknownLocation.2.1 = 0 := rfl
  cases reference with
  | none =>
    cases reference' with
    | none => rfl
    | some loc' =>
      have hpos := hline' loc' rfl
      rw [Option.getD_none, Option.getD_some] at hreference
      rw [← hreference] at hpos
      omega
  | some loc =>
    cases reference' with
    | none =>
      have hpos := hline loc rfl
      rw [Option.getD_none, Option.getD_some] at hreference
      rw [hreference] at hpos
      omega
    | some loc' => exact congrArg some hreference

/-- No pair of ends is recorded twice, whatever was seen before. -/
theorem collectResolved_nodup {paths : List (Option Location × Option Location)} (hpaths : Numbered paths)
    (seen : List (Option Location × Location)) :
    ((collectResolved symbol seen paths).map ResolvedReference.ends).Nodup := by
  induction paths generalizing seen with
  | nil => exact List.nodup_nil
  | cons path paths ih =>
    have htail : Numbered paths := fun loc definition h => hpaths loc definition (List.mem_cons_of_mem _ h)
    obtain ⟨reference, _ | definition⟩ := path
    · exact ih htail seen
    · rw [collectResolved]
      by_cases hseen : (reference, definition) ∈ seen
      · rw [if_pos hseen]
        exact ih htail seen
      · rw [if_neg hseen, List.map_cons, List.nodup_cons]
        refine ⟨?_, ih htail _⟩
        intro hmem
        obtain ⟨rr, hrr, hends⟩ := List.mem_map.mp hmem
        obtain ⟨reference', definition', hpath, hnot, rfl⟩ := mem_collectResolved.mp hrr
        rw [ends_resolvedPath, ends_resolvedPath] at hends
        have hsame := endsOf_getD_inj
          (fun loc h => hpaths loc (some definition') (h ▸ List.mem_cons_of_mem _ hpath))
          (fun loc h => hpaths loc (some definition) (h ▸ List.mem_cons_self)) hends
        exact hnot (hsame ▸ List.mem_cons_self)

/-- A path with two ends is recorded. -/
theorem collectResolved_covers {paths : List (Option Location × Option Location)} {reference definition : Location}
    (h : (some reference, some definition) ∈ paths) :
    ∃ rr ∈ collectResolved symbol [] paths, rr.ends = endsOf reference definition :=
  List.mem_map.mp (mem_ends_collectResolved.mpr ⟨some reference, definition, h, rfl⟩)

end Collect

/-! ## The paths of a run -/

section Paths

variable (L : Library) (flag : Nat → Bool) (g : L.Graph)

/-- The complete paths that the stitching hands over, by their start and end nodes. -/
def stitchedPaths (db : List L.PartialPath) : List L.GraphNode → Nat → List (L.GraphNode × L.GraphNode)
  | [], _ => []
  | refNode :: nodes, asked =>
    let c := call flag (L.completePartialPaths g db refNode) asked
    c.visited.map (fun defNode => (refNode, defNode)) ++ stitchedPaths db nodes c.asked

/-- The complete paths of a whole resolution. -/
def resolvedPaths (symbol : Str) : List (L.GraphNode × L.GraphNode) :=
  stitchedPaths L flag g (buildDatabase L flag g).2.2 (findReferenceNodes L g symbol) (buildDatabase L flag g).2.1

variable {L flag g}

theorem stitchedEnds_eq (db : List L.PartialPath) (nodes : List L.GraphNode) (asked : Nat) :
    stitchedEnds L flag g db nodes asked = (stitchedPaths L flag g db nodes asked).map fun path =>
      (extractNodeLocation L g path.1, extractNodeLocation L g path.2) := by
  induction nodes generalizing asked with
  | nil => rfl
  | cons refNode nodes ih =>
    rw [stitchedEnds, stitchedPaths, List.map_append, List.map_map, ih]
    rfl

theorem extractNodeLocation_line {node : L.GraphNode} {loc : Location} (h : extractNodeLocation L g node = some loc) :
    1 ≤ loc.2.1 := by
  unfold extractNodeLocation at h
  split at h
  · cases h
    exact Nat.succ_pos _
  · cases h

theorem resolvedEnds_numbered (symbol : Str) : Numbered (resolvedEnds L g flag symbol) := by
  intro loc definition h
  rw [resolvedEnds, stitchedEnds_eq] at h
  obtain ⟨path, -, hends⟩ := List.mem_map.mp h
  exact extractNodeLocation_line (congrArg Prod.fst hends)

end Paths

/-- For every library, graph and name, and on every run: no pair of places is returned
    twice, every path that was handed over between two places is returned, and nothing
    but such paths is. -/
theorem resolveReferences_exact (L : Library) (g : L.Graph) (symbol : Str) (timeout : Option Duration)
    (elapsed : Nat → Duration) :
    ∃ refs, resolveReferencesWithTimeout L g symbol timeout elapsed = .ok refs ∧
      (refs.map ResolvedReference.ends).Nodup ∧
      (∀ path ∈ resolvedPaths L (cancellationFlag timeout elapsed) g symbol, ∀ reference definition,
        extractNodeLocation L g path.1 = some reference → extractNodeLocation L g path.2 = some definition →
          ∃ rr ∈ refs, rr.ends = endsOf reference definition) ∧
      ∀ rr ∈ refs, ∃ path ∈ resolvedPaths L (cancellationFlag timeout elapsed) g symbol, ∃ definition,
        extractNodeLocation L g path.2 = some definition ∧
          rr = resolvedPath symbol (extractNodeLocation L g path.1) definition := by
  have hends : resolvedEnds L g (cancellationFlag timeout elapsed) symbol =
      (resolvedPaths L (cancellationFlag timeout elapsed) g symbol).map fun path =>
        (extractNodeLocation L g path.1, extractNodeLocation L g path.2) := stitchedEnds_eq _ _ _
  refine ⟨_, resolveReferencesWithTimeout_eq symbol timeout elapsed,
    collectResolved_nodup (resolvedEnds_numbered symbol) [], ?_, ?_⟩
  · intro path hpath reference definition hreference hdefinition
    apply collectResolved_covers
    rw [hends]
    exact List.mem_map.mpr ⟨path, hpath, by rw [hreference, hdefinition]⟩
  · intro rr hrr
    obtain ⟨reference, definition, hmem, -, rfl⟩ := mem_collectResolved.mp hrr
    rw [hends] at hmem
    obtain ⟨path, hpath, hboth⟩ := List.mem_map.mp hmem
    obtain ⟨hreference, hdefinition⟩ := Prod.mk.injEq _ _ _ _ ▸ hboth
    exact ⟨path, hpath, definition, hdefinition, by rw [hreference]⟩

end CodeQuery.Resolve
