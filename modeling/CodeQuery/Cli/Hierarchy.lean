/-
  CodeQuery.Cli.Hierarchy — the hierarchy command
  (`codequery-cli/src/commands/hierarchy.rs`).

  The relations of the project's files are read twice for a type, once for each side it
  can be on, and each list is sorted by name and rid of repeated names. What is listed
  are the names on the other side (`names_supertypes`, `names_subtypes`), whichever
  definition or relation a name is shown with. So the two lists are each other's mirror
  (`hierarchy_dual`).
-/

import CodeQuery.Cli.Rename
import CodeQuery.Data.StableSort
import CodeQuery.Parse.Hierarchy
import Mathlib.Data.List.Destutter

namespace CodeQuery.Cli.Hierarchy

open CodeQuery.Core CodeQuery.Text CodeQuery.Index CodeQuery.Data CodeQuery.Parse

/-! ## The command -/

structure TypeHierarchyNode where
  name : Str
  kind : SymbolKind
  file : Path
  line : Nat
  column : Nat
  deriving DecidableEq, Repr

structure TypeHierarchyResult where
  target : TypeHierarchyNode
  supertypes : List TypeHierarchyNode
  subtypes : List TypeHierarchyNode
  deriving DecidableEq, Repr

def nodeOf (d : Symbol) : TypeHierarchyNode := ⟨d.name, d.kind, d.file, d.line, d.column⟩

def isTypeKind (kind : SymbolKind) : Bool := [.struct, .class_, .trait, .interface, .enum].contains kind

section Command

variable (index : SymbolIndex) (relations : List SupertypeRelation) (symbol : Str)

/-- The first type of the name, or else the first definition. -/
def targetOf : TypeHierarchyNode :=
  let definitions := index.findByName symbol
  match (definitions.find? fun d => isTypeKind d.kind).or definitions.head? with
  | some d => nodeOf d
  | none => ⟨symbol, .class_, [.normal "<unknown>"], 0, 0⟩

/-- The node of a related type: its first definition, or else where the relation is. -/
def related (name : Str) (kind : SymbolKind) (rel : SupertypeRelation) : TypeHierarchyNode :=
  match (index.findByName name).head? with
  | some d => nodeOf d
  | none => ⟨name, kind, rel.file, rel.line, 0⟩

def collectSupertypes : List TypeHierarchyNode :=
  (relations.filter (·.subtype = symbol)).map fun rel => related index rel.supertype .trait rel

def collectSubtypes : List TypeHierarchyNode :=
  (relations.filter (·.supertype = symbol)).map fun rel => related index rel.subtype .struct rel

/-- Names compare by their bytes. -/
def nameKey (name : Str) : List ℕ := name.map UInt8.toNat

/-- `sort_by` and `dedup_by`, by name. -/
def deduplicate (nodes : List TypeHierarchyNode) : List TypeHierarchyNode :=
  (stableSort (nameKey ·.name) nodes).destutter fun a b => a.name ≠ b.name

def typeHierarchy : TypeHierarchyResult :=
  ⟨targetOf index symbol, deduplicate (collectSupertypes index relations symbol),
    deduplicate (collectSubtypes index relations symbol)⟩

end Command

/-- The relations of the files that the language filter leaves. -/
def projectRelations (root : Path) (scan : List FileSymbols) (langFilter : Option Language) : List SupertypeRelation :=
  scan.flatMap fun entry =>
    match entryLanguage root entry.file with
    | none => []
    | some language =>
      if langFilter.any (language != ·) then []
      else extractSupertypeRelations entry.source entry.tree entry.file language

/-- `run` behind its scan, up to printing. -/
def run (root : Path) (scan : List FileSymbols) (langFilter : Option Language) (symbol : Str) : TypeHierarchyResult :=
  typeHierarchy (SymbolIndex.fromScan scan) (projectRelations root scan langFilter) symbol

/-! ## Sorted, and no name twice -/

theorem nameKey_injective : Function.Injective nameKey :=
  List.map_injective_iff.mpr fun _ _ => UInt8.toNat_inj.mp

theorem name_mem_destutter' {nodes : List TypeHierarchyNode} {first : TypeHierarchyNode} {name : Str} :
    name ∈ (nodes.destutter' (fun a b => a.name ≠ b.name) first).map (·.name) ↔
      name ∈ (first :: nodes).map (·.name) := by
  induction nodes generalizing first with
  | nil => rfl
  | cons node nodes ih =>
    rw [List.destutter'_cons]
    by_cases hne : first.name ≠ node.name
    · rw [if_pos hne, List.map_cons, List.mem_cons, ih]
      simp
    · rw [if_neg hne, ih]
      simp [not_not.mp hne]

theorem name_mem_deduplicate {nodes : List TypeHierarchyNode} {name : Str} :
    name ∈ (deduplicate nodes).map (·.name) ↔ name ∈ nodes.map (·.name) := by
  have hdestutter : ∀ l : List TypeHierarchyNode,
      name ∈ (l.destutter fun a b => a.name ≠ b.name).map (·.name) ↔ name ∈ l.map (·.name) := by
    intro l
    cases l with
    | nil => rfl
    | cons first l => rw [List.destutter_cons', name_mem_destutter']
  rw [deduplicate, hdestutter]
  exact ((stableSort_perm nodes).map _).mem_iff

/-- The names go up strictly. -/
theorem deduplicate_sorted (nodes : List TypeHierarchyNode) :
    ((deduplicate nodes).map (nameKey ·.name)).Pairwise (· < ·) := by
  have hsub : (deduplicate nodes).Sublist (stableSort (nameKey ·.name) nodes) := by
    unfold deduplicate
    exact List.destutter_sublist _ _
  have hle : (deduplicate nodes).IsChain fun a b => nameKey a.name ≤ nameKey b.name :=
    ((stableSort_pairwise nodes).sublist hsub).isChain
  have hne : (deduplicate nodes).IsChain fun a b => a.name ≠ b.name := List.isChain_destutter _ _
  have hlt : ((deduplicate nodes).map (nameKey ·.name)).IsChain (· < ·) := by
    rw [List.isChain_map]
    rw [List.isChain_iff_getElem] at hle hne ⊢
    intro i hi
    exact lt_of_le_of_ne (hle i hi) fun heq => hne i hi (nameKey_injective heq)
  exact hlt.pairwise

/-! ## Both sides -/

section Sides

variable {index : SymbolIndex} {relations : List SupertypeRelation} {symbol name : Str}

/-- A related type is listed under its own name. -/
theorem related_name (kind : SymbolKind) (rel : SupertypeRelation) : (related index name kind rel).name = name := by
  unfold related
  cases hfind : (index.findByName name).head? with
  | none => rfl
  | some d =>
    have hmem := List.mem_of_mem_head? hfind
    rw [SymbolIndex.findByName, Postings.lookup_eq] at hmem
    simpa [nodeOf] using (List.mem_filter.mp hmem).2

theorem names_supertypes :
    name ∈ (typeHierarchy index relations symbol).supertypes.map (·.name) ↔
      ∃ rel ∈ relations, rel.subtype = symbol ∧ rel.supertype = name := by
  rw [typeHierarchy, name_mem_deduplicate, collectSupertypes]
  simp only [List.map_map, List.mem_map, List.mem_filter, Function.comp_apply, related_name, decide_eq_true_eq, and_assoc]

theorem names_subtypes :
    name ∈ (typeHierarchy index relations symbol).subtypes.map (·.name) ↔
      ∃ rel ∈ relations, rel.supertype = symbol ∧ rel.subtype = name := by
  rw [typeHierarchy, name_mem_deduplicate, collectSubtypes]
  simp only [List.map_map, List.mem_map, List.mem_filter, Function.comp_apply, related_name, decide_eq_true_eq, and_assoc]

end Sides

/-- Sorted by name, and no name twice. -/
def SortedDistinct (nodes : List TypeHierarchyNode) : Prop :=
  (nodes.map (nameKey ·.name)).Pairwise (· ≤ ·) ∧ (nodes.map (·.name)).Nodup

theorem deduplicate_sortedDistinct (nodes : List TypeHierarchyNode) : SortedDistinct (deduplicate nodes) := by
  have hlt := deduplicate_sorted nodes
  refine ⟨hlt.imp le_of_lt, ?_⟩
  have hnodup : (((deduplicate nodes).map (·.name)).map nameKey).Nodup := by
    rw [List.map_map]
    exact hlt.imp ne_of_lt
  exact hnodup.of_map nameKey

/-- For every index and relations: a type is among another's supertypes exactly when that
    one is among its subtypes, and each list is sorted, with no name twice. -/
theorem hierarchy_dual (index : SymbolIndex) (relations : List SupertypeRelation) :
    (∀ s t, t ∈ (typeHierarchy index relations s).supertypes.map (·.name) ↔
        s ∈ (typeHierarchy index relations t).subtypes.map (·.name)) ∧
      ∀ s, SortedDistinct (typeHierarchy index relations s).supertypes ∧
        SortedDistinct (typeHierarchy index relations s).subtypes := by
  refine ⟨fun s t => ?_, fun s => ⟨deduplicate_sortedDistinct _, deduplicate_sortedDistinct _⟩⟩
  rw [names_supertypes, names_subtypes]
  exact exists_congr fun rel => and_congr_right fun _ => and_comm

end CodeQuery.Cli.Hierarchy
