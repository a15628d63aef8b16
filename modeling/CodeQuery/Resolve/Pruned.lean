/-
  CodeQuery.Resolve.Pruned — the stack graph of the files that mention the symbol, and
  that of all of them (see `CodeQuery.Resolve.Stitch`, `CodeQuery.Resolve.Warnings`).

  A group's graph is built from the files whose text contains the symbol only. The paths
  that the library finds are made of the partial paths of the files it is given, one
  after the other: `Composition` is what that says, with each file's partial paths and
  how two of them join left open.

  - `pruned_iff`: the two graphs give the same references with the same definitions
    exactly when no pair needs a file without the symbol: for each chain of partial
    paths there is one of the same ends through files that contain it.
  - `a_reexport_without_the_name_is_missed`: a file that imports everything from another
    hands names on that stand nowhere in it.
-/

import CodeQuery.Resolve.Exact
import CodeQuery.Resolve.Warnings

namespace CodeQuery.Resolve.Pruned

open CodeQuery.Core CodeQuery.Parse CodeQuery.Text CodeQuery.Index CodeQuery.Data
open CodeQuery.Resolve.Warnings

/-! ## Chains of partial paths -/

section Chains

variable {α : Type} (compose : α → α → Option α)

/-- The parts of a chain joined one after the other. -/
def composite : List α → Option α
  | [] => none
  | part :: parts => parts.foldlM compose part

end Chains

section Library

variable (L : Library) (rules : L.Rules)

/-- The graph of some files. -/
def graphOf (files : List (Path × Str × Node)) : L.Graph := (files.foldl (addToGraph rules) ⟨L.new, []⟩).graph

/-- What the paths of the library are made of, under a language's rules. -/
structure Composition where
  Part : Type
  /-- The partial paths of a file. -/
  parts : Path × Str × Node → List Part
  compose : Part → Part → Option Part
  /-- A path that starts at a reference, with nothing left to look up before it: the
      symbol, and the reference's place. -/
  reference : Part → Option (Str × Option Location)
  /-- A path that ends at a definition, with nothing left to look up behind it. -/
  definition : Part → Option (Option Location)
  /-- A graph's partial path, whatever else is in the graph. -/
  denote : L.Graph → L.PartialPath → Part
  /-- `find_minimal_partial_path_set_in_file` finds the partial paths of the file. -/
  database_iff : ∀ files part,
    part ∈ (database L (graphOf L rules files)).map (denote (graphOf L rules files)) ↔ ∃ f ∈ files, part ∈ parts f
  /-- `find_all_complete_partial_paths` finds the complete paths that compose from those
      of the database. -/
  complete_iff : ∀ files symbol refLoc defLoc,
    (∃ refNode ∈ findReferenceNodes L (graphOf L rules files) symbol,
        extractNodeLocation L (graphOf L rules files) refNode = refLoc ∧
        ∃ defNode ∈ visits (L.completePartialPaths (graphOf L rules files) (database L (graphOf L rules files)) refNode),
          extractNodeLocation L (graphOf L rules files) defNode = defLoc) ↔
      ∃ chain path, composite compose chain = some path ∧
        (∀ part ∈ chain, part ∈ (database L (graphOf L rules files)).map (denote (graphOf L rules files))) ∧
        reference path = some (symbol, refLoc) ∧ definition path = some defLoc

end Library

/-! ## The two graphs -/

section Runs

variable {L : Library}

/-- The files as they are put in a graph. -/
def inputs (files : List FileSymbols) : List (Path × Str × Node) := files.map fun fs => (fs.file, fs.source, fs.tree)

/-- `build_graph_by_name` and `resolve_references` over some files. -/
def resolveInput (I : Installed L) (elapsed : Nat → Duration) (input : List (Path × Str × Node)) (langName symbol : String) :
    Except ResolveError (List ResolvedReference) :=
  match buildGraphByName I input langName with
  | .error e => .error e
  | .ok graphResult => resolveReferences L graphResult.graph (str symbol) elapsed

/-- The flag fires at no check of a run. -/
def Uncancelled (L : Library) (g : L.Graph) (symbol : String) (elapsed : Nat → Duration) : Prop :=
  ¬ FiresWithin (cancellationFlag (some defaultResolutionTimeout) elapsed) 0 (runChecks L g (str symbol))

/-- A reference's place, and its definition's. -/
def ends (r : ResolvedReference) : Location × Option Path × Option ℕ × Option ℕ :=
  (r.location, r.defFile, r.defLine, r.defColumn)

/-- The same of a pair of places. -/
def pairEnds (pair : Location × Location) : Location × Option Path × Option ℕ × Option ℕ :=
  (pair.1, some pair.2.1, some pair.2.2.1, some pair.2.2.2)

/-- What a group's graph gives is what that of all its files gives. -/
def PrunedAsWhole (I : Installed L) (elapsed : Nat → Duration) (files : List FileSymbols) (language : Language)
    (symbol : String) : Prop :=
  ∀ refs warnings whole, Warnings.resolveLanguageGroup I files language symbol = .ok (refs, warnings) →
    resolveInput I elapsed (inputs files) language.name symbol = .ok whole →
      ∀ pair, pair ∈ refs.map ends ↔ pair ∈ whole.map ends

/-- A chain of the files' partial paths from a reference of the symbol to a definition. -/
structure Joins {rules : L.Rules} (S : Composition L rules) (input : List (Path × Str × Node)) (symbol : String)
    (chain : List S.Part) (pair : Location × Location) : Prop where
  within : ∀ part ∈ chain, ∃ f ∈ input, part ∈ S.parts f
  composed : ∃ path refLoc, composite S.compose chain = some path ∧ S.reference path = some (str symbol, refLoc) ∧
    S.definition path = some (some pair.2) ∧ pair.1 = refLoc.getD unknownLocation

/-- No pair needs a file without the symbol. -/
def Needless {rules : L.Rules} (S : Composition L rules) (files : List FileSymbols) (symbol : String) : Prop :=
  ∀ chain pair, Joins S (inputs files) symbol chain pair →
    ∃ chain', Joins S (inputs (Warnings.relevantFiles files symbol)) symbol chain' pair

end Runs

/-! ## A run that is not cut -/

section Quiet

variable {L : Library} {flag : Nat → Bool} {g : L.Graph}

theorem stitchedEnds_quiet {db : List L.PartialPath} {nodes : List L.GraphNode} {asked : Nat}
    (h : ¬ FiresWithin flag asked (nodes.map fun node => checks (L.completePartialPaths g db node)).sum) :
    stitchedEnds L flag g db nodes asked = nodes.flatMap fun refNode =>
      (visits (L.completePartialPaths g db refNode)).map fun defNode =>
        (extractNodeLocation L g refNode, extractNodeLocation L g defNode) := by
  induction nodes generalizing asked with
  | nil => rfl
  | cons node nodes ih =>
    rw [List.map_cons, List.sum_cons, firesWithin_add, not_or] at h
    rw [stitchedEnds, call_of_not_firesWithin h.1, List.flatMap_cons]
    exact congrArg _ (ih h.2)

/-- A run that is not cut hands over the ends of all complete paths. -/
theorem resolvedEnds_quiet {symbol : Str} (h : ¬ FiresWithin flag 0 (runChecks L g symbol)) :
    resolvedEnds L g flag symbol = (findReferenceNodes L g symbol).flatMap fun refNode =>
      (visits (L.completePartialPaths g (database L g) refNode)).map fun defNode =>
        (extractNodeLocation L g refNode, extractNodeLocation L g defNode) := by
  rw [runChecks, firesWithin_add, not_or] at h
  obtain ⟨-, hwhole⟩ := @addFiles_run L flag g (L.iterFiles g) ([], 0, [])
  have hdb : (buildDatabase L flag g).2 = (0 + databaseChecks L g, [] ++ database L g) := hwhole h.1
  rw [resolvedEnds, hdb]
  exact stitchedEnds_quiet h.2

/-- What is collected are the ends of the paths to definitions. -/
theorem mem_collectResolved_ends {symbol : Str} {e : Location × Option Path × Option ℕ × Option ℕ}
    {paths : List (Option Location × Option Location)} : e ∈ (collectResolved symbol [] paths).map ends ↔
      ∃ refLoc definition, (refLoc, some definition) ∈ paths ∧ e = pairEnds (refLoc.getD unknownLocation, definition) :=
  mem_ends_collectResolved

end Quiet

/-! ## Pruning -/

section Pruning

variable {L : Library} {I : Installed L} {rules : L.Rules} {language : Language} {files : List FileSymbols} {symbol : String}

theorem resolveInput_ok {elapsed : Nat → Duration} {input : List (Path × Str × Node)} {langName : String}
    (hrules : I.getStackGraphLanguage langName = some (.ok rules)) :
    resolveInput I elapsed input langName symbol = .ok (collectResolved (str symbol) []
      (resolvedEnds L (graphOf L rules input) (cancellationFlag (some defaultResolutionTimeout) elapsed) (str symbol))) := by
  rw [resolveInput, buildGraphByName, hrules]
  exact resolveReferences_eq (str symbol) elapsed

/-- A run that is not cut gives the pairs that the files' partial paths join. -/
theorem mem_ends_iff (S : Composition L rules) {input : List (Path × Str × Node)} {elapsed : Nat → Duration}
    (hquiet : Uncancelled L (graphOf L rules input) symbol elapsed) (e : Location × Option Path × Option ℕ × Option ℕ) :
    e ∈ (collectResolved (str symbol) []
        (resolvedEnds L (graphOf L rules input) (cancellationFlag (some defaultResolutionTimeout) elapsed)
          (str symbol))).map ends ↔
      ∃ chain pair, Joins S input symbol chain pair ∧ e = pairEnds pair := by
  have hends : ∀ refLoc definition, (refLoc, some definition) ∈
      resolvedEnds L (graphOf L rules input) (cancellationFlag (some defaultResolutionTimeout) elapsed) (str symbol) ↔
        ∃ chain path, composite S.compose chain = some path ∧ (∀ part ∈ chain, ∃ f ∈ input, part ∈ S.parts f) ∧
          S.reference path = some (str symbol, refLoc) ∧ S.definition path = some (some definition) := by
    intro refLoc definition
    have hcomplete := S.complete_iff input (str symbol) refLoc (some definition)
    simp only [S.database_iff] at hcomplete
    rw [← hcomplete, resolvedEnds_quiet hquiet]
    simp only [List.mem_flatMap, List.mem_map, Prod.mk.injEq]
    refine exists_congr fun refNode => and_congr_right fun _ => ?_
    constructor
    · intro h
      obtain ⟨defNode, hdef, href, hloc⟩ := h
      exact ⟨href, defNode, hdef, hloc⟩
    · intro h
      obtain ⟨href, defNode, hdef, hloc⟩ := h
      exact ⟨defNode, hdef, href, hloc⟩
  rw [mem_collectResolved_ends]
  constructor
  · intro h
    obtain ⟨refLoc, definition, hmem, he⟩ := h
    obtain ⟨chain, path, hpath, hwithin, hreference, hdefinition⟩ := (hends refLoc definition).mp hmem
    exact ⟨chain, _, ⟨hwithin, path, refLoc, hpath, hreference, hdefinition, rfl⟩, he⟩
  · intro h
    obtain ⟨chain, ⟨_, definition⟩, ⟨hwithin, path, refLoc, hpath, hreference, hdefinition, rfl⟩, he⟩ := h
    exact ⟨refLoc, definition, (hends refLoc definition).mpr ⟨chain, path, hpath, hwithin, hreference, hdefinition⟩, he⟩

theorem resolveLanguageGroup_ok (hrules : I.getStackGraphLanguage language.name = some (.ok rules)) :
    ∃ warnings, Warnings.resolveLanguageGroup I files language symbol = .ok (collectResolved (str symbol) []
      (resolvedEnds L (graphOf L rules (Warnings.graphInput files symbol))
        (cancellationFlag (some defaultResolutionTimeout) (I.elapsed language.name)) (str symbol)), warnings) := by
  rw [Warnings.resolveLanguageGroup, buildGraphByName, hrules]
  dsimp only
  rw [resolveReferences_eq]
  exact ⟨_, rfl⟩

theorem Joins.mono {S : Composition L rules} {input input' : List (Path × Str × Node)} (hsub : input ⊆ input')
    {chain : List S.Part} {pair : Location × Location} (h : Joins S input symbol chain pair) :
    Joins S input' symbol chain pair := by
  refine ⟨fun part hpart => ?_, h.composed⟩
  obtain ⟨f, hf, hparts⟩ := h.within part hpart
  exact ⟨f, hsub hf, hparts⟩

theorem pairEnds_injective : Function.Injective pairEnds := by
  intro pair pair' h
  obtain ⟨hreference, hdefinition⟩ := endsOf_inj h
  exact Prod.ext hreference hdefinition

/-- Up to the cap, the graph is that of the files that contain the symbol. -/
theorem graphInput_eq (hcap : (Warnings.relevantFiles files symbol).length ≤ maxStackGraphFiles) :
    Warnings.graphInput files symbol = inputs (Warnings.relevantFiles files symbol) := by
  rw [Warnings.graphInput, List.take_of_length_le hcap]
  rfl

/-- The graph of the files that contain the symbol gives what that of all the files
    gives exactly when no pair needs one of the others. -/
theorem pruned_iff (S : Composition L rules) {elapsed : Nat → Duration}
    (hrules : I.getStackGraphLanguage language.name = some (.ok rules))
    (hcap : (Warnings.relevantFiles files symbol).length ≤ maxStackGraphFiles)
    (hquiet : Uncancelled L (graphOf L rules (Warnings.graphInput files symbol)) symbol (I.elapsed language.name))
    (hwhole : Uncancelled L (graphOf L rules (inputs files)) symbol elapsed) :
    PrunedAsWhole I elapsed files language symbol ↔ Needless S files symbol := by
  obtain ⟨warnings, hpruned⟩ := @resolveLanguageGroup_ok L I rules language files symbol hrules
  have hfull := @resolveInput_ok L I rules symbol elapsed (inputs files) language.name hrules
  have hpairs := mem_ends_iff S hquiet
  have hpairs' := mem_ends_iff S hwhole
  rw [graphInput_eq hcap] at hpairs
  constructor
  · intro hsame chain pair hjoins
    have hfound := (hsame _ _ _ hpruned hfull (pairEnds pair)).mpr ((hpairs' _).mpr ⟨chain, pair, hjoins, rfl⟩)
    rw [graphInput_eq hcap] at hfound
    obtain ⟨chain', pair', hjoins', heq⟩ := (hpairs _).mp hfound
    rw [pairEnds_injective heq]
    exact ⟨chain', hjoins'⟩
  · intro hneedless refs warnings' whole hrefs hall e
    obtain ⟨rfl, -⟩ := Prod.mk.inj (Except.ok.inj (hpruned.symm.trans hrefs))
    obtain rfl := Except.ok.inj (hfull.symm.trans hall)
    rw [graphInput_eq hcap, hpairs, hpairs']
    have hsub : inputs (Warnings.relevantFiles files symbol) ⊆ inputs files :=
      List.map_subset _ List.filter_sublist.subset
    constructor
    · intro h
      obtain ⟨chain, pair, hjoins, he⟩ := h
      exact ⟨chain, pair, hjoins.mono hsub, he⟩
    · intro h
      obtain ⟨chain, pair, hjoins, he⟩ := h
      obtain ⟨chain', hjoins'⟩ := hneedless chain pair hjoins
      exact ⟨chain', pair, hjoins', he⟩

end Pruning

/-! ## A name handed on -/

/-- `from b import *`, then `foo`. -/
def usesFoo : FileSymbols :=
  ⟨[.normal "a.py"], [], str "from b import *\nfoo\n", ⟨"module", none, 0, 20, ⟨0, 0⟩, ⟨2, 0⟩, true, false, false,
    [⟨"import_from_statement", none, 0, 15, ⟨0, 0⟩, ⟨0, 15⟩, true, false, false,
        [⟨"dotted_name", some "module_name", 5, 6, ⟨0, 5⟩, ⟨0, 6⟩, true, false, false,
            [.leaf "identifier" none 0 5 5 1 true]⟩,
          .leaf "wildcard_import" none 0 14 14 1 true]⟩,
      ⟨"expression_statement", none, 16, 19, ⟨1, 0⟩, ⟨1, 3⟩, true, false, false,
        [.leaf "identifier" none 1 0 16 3 true]⟩]⟩⟩

/-- `from c import *`. -/
def handsOn : FileSymbols :=
  ⟨[.normal "b.py"], [], str "from c import *\n", ⟨"module", none, 0, 16, ⟨0, 0⟩, ⟨1, 0⟩, true, false, false,
    [⟨"import_from_statement", none, 0, 15, ⟨0, 0⟩, ⟨0, 15⟩, true, false, false,
      [⟨"dotted_name", some "module_name", 5, 6, ⟨0, 5⟩, ⟨0, 6⟩, true, false, false,
          [.leaf "identifier" none 0 5 5 1 true]⟩,
        .leaf "wildcard_import" none 0 14 14 1 true]⟩]⟩⟩

/-- `foo = 1`. -/
def definesFoo : FileSymbols :=
  ⟨[.normal "c.py"], [], str "foo = 1\n", ⟨"module", none, 0, 8, ⟨0, 0⟩, ⟨1, 0⟩, true, false, false,
    [⟨"expression_statement", none, 0, 7, ⟨0, 0⟩, ⟨0, 7⟩, true, false, false,
      [⟨"assignment", none, 0, 7, ⟨0, 0⟩, ⟨0, 7⟩, true, false, false,
        [.leaf "identifier" (some "left") 0 0 0 3 true, .leaf "integer" (some "right") 0 6 6 1 true]⟩]⟩]⟩⟩

/-- The partial paths of the three files that a lookup of `foo` can take, by their ends:
    the reference, `b.foo` and `c.foo` at the root, and the definition. -/
def links (file : Path) : List (Nat × Nat) :=
  if file = usesFoo.file then [(0, 1)]
  else if file = handsOn.file then [(1, 2)]
  else if file = definesFoo.file then [(2, 3)]
  else []

/-- The links from the reference to the definition. -/
abbrev AllLinks (db : List (Nat × Nat)) : Prop := (0, 1) ∈ db ∧ (1, 2) ∈ db ∧ (2, 3) ∈ db

abbrev reExports : Library where
  Rules := Unit
  Graph := List Path
  File := Path
  GraphNode := Nat
  PartialPath := Nat × Nat
  new := []
  build _ g file := (g ++ [file.1], none)
  iterFiles g := g
  iterNodes g := (if usesFoo.file ∈ g then [0] else []) ++ if definesFoo.file ∈ g then [3] else []
  isReference _ node := node == 0
  symbol _ _ := some (str "foo")
  file _ node := some (if node = 0 then usesFoo.file else definesFoo.file)
  start _ node := some (if node = 0 then 1 else 0, 0)
  minimalPartialPaths _ file := (links file).map .visit
  completePartialPaths _ db node :=
    if node = 0 ∧ AllLinks db then [.visit 3] else []

def joinLinks (p q : Nat × Nat) : Option (Nat × Nat) := if p.2 = q.1 then some (p.1, q.2) else none

theorem links_succ {file : Path} {p : Nat × Nat} (h : p ∈ links file) : p.2 = p.1 + 1 := by
  unfold links at h
  split at h
  · rw [List.mem_singleton.mp h]
  · split at h
    · rw [List.mem_singleton.mp h]
    · split at h
      · rw [List.mem_singleton.mp h]
      · cases h

/-- A chain of links goes through every point between its ends. -/
theorem mem_of_foldlM_joinLinks {chain : List (Nat × Nat)} (hsucc : ∀ p ∈ chain, p.2 = p.1 + 1) : ∀ {p path : Nat × Nat},
    chain.foldlM joinLinks p = some path → path.1 = p.1 ∧ ∀ k, p.2 ≤ k → k < path.2 → (k, k + 1) ∈ chain := by
  induction chain with
  | nil =>
    intro p path h
    cases h
    exact ⟨rfl, fun k hle hlt => absurd hle (by omega)⟩
  | cons q chain ih =>
    intro p path h
    obtain ⟨hq, hsucc⟩ := List.forall_mem_cons.mp hsucc
    rw [List.foldlM_cons, joinLinks] at h
    split at h
    · rename_i hjoin
      obtain ⟨hstart, hmem⟩ := ih hsucc h
      refine ⟨hstart, fun k hle hlt => ?_⟩
      by_cases hk : k = q.1
      · rw [hk, ← hq]
        exact List.mem_cons_self
      · exact List.mem_cons_of_mem _ (hmem k (by simp only; omega) hlt)
    · cases h

theorem mem_of_composite_joinLinks {chain : List (Nat × Nat)} (hsucc : ∀ p ∈ chain, p.2 = p.1 + 1) {path : Nat × Nat}
    (h : composite joinLinks chain = some path) {k : Nat} (hle : path.1 ≤ k) (hlt : k < path.2) : (k, k + 1) ∈ chain := by
  cases chain with
  | nil => cases h
  | cons p chain =>
    obtain ⟨hp, hsucc⟩ := List.forall_mem_cons.mp hsucc
    obtain ⟨hstart, hmem⟩ := mem_of_foldlM_joinLinks hsucc h
    by_cases hk : k = p.1
    · rw [hk, ← hp]
      exact List.mem_cons_self
    · exact List.mem_cons_of_mem _ (hmem k (by omega) hlt)

theorem graphOf_reExports (files : List (Path × Str × Node)) : graphOf reExports () files = files.map (·.1) := by
  have hfold : ∀ r : GraphResult reExports, (files.foldl (addToGraph ()) r).graph = (r.graph : List Path) ++ files.map (·.1) := by
    induction files with
    | nil => intro r; exact (List.append_nil _).symm
    | cons f files ih =>
      intro r
      rw [List.foldl_cons, ih]
      exact List.append_assoc _ _ _
  exact hfold _

theorem database_reExports (g : List Path) : database reExports g = g.flatMap links := by
  have hvisits : ∀ l : List (Nat × Nat), visits (l.map Turn.visit) = l := by
    intro l
    rw [visits, List.filterMap_map]
    exact List.filterMap_some
  exact List.flatMap_congr fun file _ => hvisits (links file)

theorem usesFoo_mem {g : List Path} (h : (0, 1) ∈ g.flatMap links) : usesFoo.file ∈ g := by
  obtain ⟨file, hfile, hlink⟩ := List.mem_flatMap.mp h
  by_cases hself : file = usesFoo.file
  · exact hself ▸ hfile
  · rw [links, if_neg hself] at hlink
    split at hlink
    · cases List.mem_singleton.mp hlink
    · split at hlink
      · cases List.mem_singleton.mp hlink
      · cases hlink

/-- The complete paths that are found: the one from the reference to the definition. -/
theorem reExports_found_iff {g : List Path} {symbol : Str} {refLoc defLoc : Option Location} :
    (∃ refNode ∈ findReferenceNodes reExports g symbol, extractNodeLocation reExports g refNode = refLoc ∧
        ∃ defNode ∈ visits (reExports.completePartialPaths g (g.flatMap links) refNode),
          extractNodeLocation reExports g defNode = defLoc) ↔
      AllLinks (g.flatMap links) ∧ symbol = str "foo" ∧ refLoc = some (usesFoo.file, 2, 0) ∧
        defLoc = some (definesFoo.file, 1, 0) := by
  constructor
  · intro h
    obtain ⟨refNode, href, rfl, defNode, hdef, rfl⟩ := h
    obtain ⟨-, hsymbol⟩ := List.mem_filter.mp href
    rw [Bool.and_eq_true, beq_iff_eq, beq_iff_eq] at hsymbol
    obtain ⟨rfl, hsymbol⟩ := hsymbol
    dsimp only at hdef
    split at hdef
    · rename_i hall
      obtain rfl := List.mem_singleton.mp hdef
      exact ⟨hall.2, (Option.some.inj hsymbol).symm, rfl, rfl⟩
    · cases hdef
  · intro h
    obtain ⟨hall, rfl, rfl, rfl⟩ := h
    refine ⟨0, List.mem_filter.mpr ⟨?_, rfl⟩, rfl, 3, ?_, rfl⟩
    · exact List.mem_append_left _ (by rw [if_pos (usesFoo_mem hall.1)]; exact List.mem_singleton_self _)
    · rw [show reExports.completePartialPaths g (g.flatMap links) 0 = [Turn.visit 3] from if_pos ⟨rfl, hall⟩]
      exact List.mem_singleton_self _

/-- Such a path composes from its three links, and from nothing less. -/
theorem composite_links_iff {db : List (Nat × Nat)} (hsucc : ∀ p ∈ db, p.2 = p.1 + 1) :
    (∃ chain path, composite joinLinks chain = some path ∧ (∀ p ∈ chain, p ∈ db) ∧ path.1 = 0 ∧ path.2 = 3) ↔ AllLinks db := by
  constructor
  · intro h
    obtain ⟨chain, path, hpath, hsub, hstart, hend⟩ := h
    have hmem : ∀ k < 3, (k, k + 1) ∈ db := fun k hk =>
      hsub _ (mem_of_composite_joinLinks (fun p hp => hsucc p (hsub p hp)) hpath (by omega) (by omega))
    exact ⟨hmem 0 (by omega), hmem 1 (by omega), hmem 2 (by omega)⟩
  · intro h
    obtain ⟨hfirst, hsecond, hthird⟩ := h
    exact ⟨[(0, 1), (1, 2), (2, 3)], (0, 3), rfl, by simp [hfirst, hsecond, hthird], rfl, rfl⟩

/-- What the paths of the three files are made of. -/
def linksComposition : Composition reExports () where
  Part := Nat × Nat
  parts f := links f.1
  compose := joinLinks
  reference path := if path.1 = 0 then some (str "foo", some (usesFoo.file, 2, 0)) else none
  definition path := if path.2 = 3 then some (some (definesFoo.file, 1, 0)) else none
  denote _ path := path
  database_iff files part := by
    rw [List.map_id', graphOf_reExports, database_reExports, List.flatMap_map]
    exact List.mem_flatMap
  complete_iff files symbol refLoc defLoc := by
    have hsucc : ∀ p ∈ ((files.map (·.1)).flatMap links), p.2 = p.1 + 1 := by
      intro p hp
      obtain ⟨file, -, hlink⟩ := List.mem_flatMap.mp hp
      exact links_succ hlink
    rw [List.map_id', graphOf_reExports, database_reExports, reExports_found_iff, ← composite_links_iff hsucc]
    constructor
    · intro h
      obtain ⟨⟨chain, path, hpath, hsub, hstart, hend⟩, rfl, rfl, rfl⟩ := h
      exact ⟨chain, path, hpath, hsub, if_pos hstart, if_pos hend⟩
    · intro h
      obtain ⟨chain, path, hpath, hsub, hreference, hdefinition⟩ := h
      split at hreference
      · rename_i hstart
        split at hdefinition
        · rename_i hend
          cases hreference
          cases hdefinition
          exact ⟨⟨chain, path, hpath, hsub, hstart, hend⟩, rfl, rfl, rfl⟩
        · cases hdefinition
      · cases hreference

def reExportRules : Installed reExports where
  hasRules language := language == .python
  getStackGraphLanguage _ := some (.ok ())
  elapsed _ _ := 0

def reExportFiles : List FileSymbols := [usesFoo, handsOn, definesFoo]

theorem uncancelled_at_once (L : Library) (g : L.Graph) (symbol : String) : Uncancelled L g symbol fun _ => 0 := by
  intro h
  obtain ⟨k, -, hfire⟩ := h
  simp [cancellationFlag] at hfire

theorem pruned_iff_reExports :
    PrunedAsWhole reExportRules (fun _ => 0) reExportFiles .python "foo" ↔ Needless linksComposition reExportFiles "foo" :=
  pruned_iff linksComposition rfl (by decide) (uncancelled_at_once _ _ _) (uncancelled_at_once _ _ _)

/-- Without `b.py` the use of `foo` does not come to its definition. -/
theorem a_reexport_without_the_name_is_missed :
    Nonempty (Composition reExports ()) ∧ (Warnings.relevantFiles reExportFiles "foo").length ≤ maxStackGraphFiles ∧
      (∀ g, Uncancelled reExports g "foo" (reExportRules.elapsed "python")) ∧
      ¬ PrunedAsWhole reExportRules (fun _ => 0) reExportFiles .python "foo" := by
  refine ⟨⟨linksComposition⟩, by decide, fun g => uncancelled_at_once reExports g "foo", fun hsame => ?_⟩
  have hpruned : Warnings.resolveLanguageGroup reExportRules reExportFiles .python "foo" = .ok ([], []) := by decide
  have hwhole : resolveInput reExportRules (fun _ => 0) (inputs reExportFiles) "python" "foo" =
      .ok [resolvedPath (str "foo") (some (usesFoo.file, 2, 0)) (definesFoo.file, 1, 0)] := by decide
  have hmissed := (hsame _ _ _ hpruned hwhole _).mpr List.mem_cons_self
  cases hmissed

end CodeQuery.Resolve.Pruned
