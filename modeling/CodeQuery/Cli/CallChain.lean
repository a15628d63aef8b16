/-
  CodeQuery.Cli.CallChain — the callchain command
  (`codequery-cli/src/commands/callchain.rs`).

  The calls of a scan are recorded under the names they call. A node's children are its
  callers, each name once, built in turn with one unit of depth less; the visited names
  are those of the nodes above. `buildChainNode` recurses on the depth, so it ends on
  every caller map.

  Proved of every caller map, depth and root (`buildChainNode_laws`): the visited set
  comes back as it was; a path down the tree has at most as many edges as the depth; no
  name occurs twice above the end of a path; the callers of a node have distinct names;
  and a node that is neither at the depth's end nor under its own name has exactly its
  recorded callers as children. What is recorded are the calls of the scan
  (`get_buildCallerMap`).
-/

import CodeQuery.Cli.Refs
import Mathlib.Data.Finset.Basic

namespace CodeQuery.Cli.CallChain

open CodeQuery.Core CodeQuery.Text CodeQuery.Index CodeQuery.Data CodeQuery.Cli.Refs

/-! ## The caller map -/

structure CallerEntry where
  name : Str
  kind : SymbolKind
  file : Path
  line : Nat
  column : Nat
  deriving DecidableEq, Repr

abbrev CallerMap := Groups Str CallerEntry

/-- What a reference records: the name it calls, and its caller. -/
def recorded (r : Reference) : Option (Str × CallerEntry) :=
  if r.kind ≠ .call then none
  else
    r.caller.bind fun callerName =>
      (extractNameAtColumn r.context r.column).map fun calledName =>
        (calledName, ⟨callerName, r.callerKind.getD .function, r.file, r.line, r.column⟩)

/-- The body of the loop over the references. -/
def addReference (map : CallerMap) (r : Reference) : CallerMap :=
  match recorded r with
  | none => map
  | some (calledName, entry) => map.push calledName entry

def buildCallerMap (scan : List FileSymbols) : CallerMap :=
  scan.foldl (fun map fileEntry => (extracted fileEntry).foldl addReference map) ∅

/-! ## The tree -/

structure CallChainNode where
  name : Str
  kind : SymbolKind
  file : Path
  line : Nat
  column : Nat
  callers : List CallChainNode

section Build

variable (callerMap : CallerMap) (index : SymbolIndex)

/-- Where the caller is defined, or else the call. -/
def definitionOf (entry : CallerEntry) : SymbolKind × Path × Nat × Nat :=
  match (index.findByName entry.name).head? with
  | some d => (d.kind, d.file, d.line, d.column)
  | none => (entry.kind, entry.file, entry.line, entry.column)

/-- The loop over the callers; `child` builds the node of one of them. -/
def pushCallers (child : Str → SymbolKind × Path × Nat × Nat → Finset Str → CallChainNode × Finset Str) :
    List CallerEntry → Finset Str → Finset Str → List CallChainNode × Finset Str
  | [], _, visited => ([], visited)
  | entry :: entries, seenCallers, visited =>
    if entry.name ∈ seenCallers then pushCallers child entries seenCallers visited
    else
      let (node, visited) := child entry.name (definitionOf index entry) visited
      let (nodes, visited) := pushCallers child entries (insert entry.name seenCallers) visited
      (node :: nodes, visited)

/-- The node, and the visited names after it. -/
def buildChainNode : Nat → Str → SymbolKind × Path × Nat × Nat → Finset Str → CallChainNode × Finset Str
  | 0, name, (kind, file, line, column), visited => (⟨name, kind, file, line, column, []⟩, visited)
  | remainingDepth + 1, name, (kind, file, line, column), visited =>
    if name ∈ visited then (⟨name, kind, file, line, column, []⟩, visited)
    else
      let (callers, visited) :=
        pushCallers index (buildChainNode remainingDepth) (callerMap.get name) ∅ (insert name visited)
      (⟨name, kind, file, line, column, callers⟩, visited.erase name)

end Build

/-- `run`, up to printing: the tree of a symbol, at its first definition. -/
def run (scan : List FileSymbols) (symbol : Str) (depth : Nat) : CallChainNode :=
  let index := SymbolIndex.fromScan scan
  let place :=
    match (index.findByName symbol).head? with
    | some d => (d.kind, d.file, d.line, d.column)
    | none => (.function, [.normal "<unknown>"], 0, 0)
  (buildChainNode (buildCallerMap scan) index depth symbol place ∅).1

/-! ## What is recorded -/

theorem get_addReferences (refs : List Reference) (map : CallerMap) (name : Str) :
    (refs.foldl addReference map).get name =
      map.get name ++ ((refs.filterMap recorded).filter (·.1 = name)).map (·.2) := by
  induction refs generalizing map with
  | nil => simp
  | cons r refs ih =>
    rw [List.foldl_cons, ih, addReference]
    cases hr : recorded r with
    | none => simp [hr]
    | some call =>
      obtain ⟨calledName, entry⟩ := call
      rw [Groups.get_push, List.filterMap_cons_some hr]
      by_cases hname : calledName = name
      · simp [hname]
      · simp [hname]

/-- Under a name stand the callers at the scan's calls of it, in order. -/
theorem get_buildCallerMap (scan : List FileSymbols) (name : Str) :
    (buildCallerMap scan).get name =
      (((scan.flatMap extracted).filterMap recorded).filter (·.1 = name)).map (·.2) := by
  suffices ∀ map : CallerMap,
      (scan.foldl (fun map fileEntry => (extracted fileEntry).foldl addReference map) map).get name =
        map.get name ++ (((scan.flatMap extracted).filterMap recorded).filter (·.1 = name)).map (·.2) by
    have hempty := this ∅
    rwa [show (∅ : CallerMap).get name = [] from rfl, List.nil_append] at hempty
  induction scan with
  | nil => simp
  | cons fs scan ih =>
    intro map
    rw [List.foldl_cons, ih, get_addReferences, List.append_assoc]
    simp

/-! ## One node -/

/-- The first entry of each name that is not seen. -/
def distinctCallers : List CallerEntry → Finset Str → List CallerEntry
  | [], _ => []
  | entry :: entries, seen =>
    if entry.name ∈ seen then distinctCallers entries seen
    else entry :: distinctCallers entries (insert entry.name seen)

theorem mem_names_distinctCallers {entries : List CallerEntry} {seen : Finset Str} {name : Str} :
    name ∈ (distinctCallers entries seen).map (·.name) ↔ name ∈ entries.map (·.name) ∧ name ∉ seen := by
  induction entries generalizing seen with
  | nil => simp [distinctCallers]
  | cons entry entries ih =>
    rw [distinctCallers]
    by_cases hseen : entry.name ∈ seen
    · rw [if_pos hseen, ih, List.map_cons, List.mem_cons]
      refine ⟨fun h => ⟨.inr h.1, h.2⟩, fun h => ⟨h.1.resolve_left ?_, h.2⟩⟩
      rintro rfl
      exact h.2 hseen
    · rw [if_neg hseen, List.map_cons, List.mem_cons, ih, List.map_cons, List.mem_cons, Finset.mem_insert]
      by_cases hname : name = entry.name
      · simp [hname, hseen]
      · simp [hname]

theorem names_distinctCallers_nodup (entries : List CallerEntry) (seen : Finset Str) :
    ((distinctCallers entries seen).map (·.name)).Nodup := by
  induction entries generalizing seen with
  | nil => exact List.nodup_nil
  | cons entry entries ih =>
    rw [distinctCallers]
    split
    · exact ih seen
    · rw [List.map_cons, List.nodup_cons]
      refine ⟨fun h => ?_, ih _⟩
      exact (mem_names_distinctCallers.mp h).2 (Finset.mem_insert_self _ _)

section Node

variable {callerMap : CallerMap} {index : SymbolIndex}

/-- Where a child leaves the visited names as they are, so does the loop. -/
theorem pushCallers_eq {child : Str → SymbolKind × Path × Nat × Nat → Finset Str → CallChainNode × Finset Str}
    (hchild : ∀ name place visited, (child name place visited).2 = visited) (entries : List CallerEntry)
    (seen visited : Finset Str) :
    pushCallers index child entries seen visited =
      ((distinctCallers entries seen).map fun entry => (child entry.name (definitionOf index entry) visited).1,
        visited) := by
  induction entries generalizing seen with
  | nil => rfl
  | cons entry entries ih =>
    rw [pushCallers, distinctCallers]
    by_cases hseen : entry.name ∈ seen
    · rw [if_pos hseen, if_pos hseen, ih]
    · rw [if_neg hseen, if_neg hseen, List.map_cons]
      dsimp only
      rw [hchild, ih]

/-- The visited names come back as they were. -/
theorem buildChainNode_visited (depth : Nat) (name : Str) (place : SymbolKind × Path × Nat × Nat) (visited : Finset Str) :
    (buildChainNode callerMap index depth name place visited).2 = visited := by
  induction depth generalizing name place visited with
  | zero => rfl
  | succ depth ih =>
    obtain ⟨kind, file, line, column⟩ := place
    rw [buildChainNode]
    split
    · rfl
    · next hnew =>
      rw [pushCallers_eq ih]
      exact Finset.erase_insert hnew

theorem buildChainNode_name (depth : Nat) (name : Str) (place : SymbolKind × Path × Nat × Nat) (visited : Finset Str) :
    (buildChainNode callerMap index depth name place visited).1.name = name := by
  obtain ⟨kind, file, line, column⟩ := place
  cases depth with
  | zero => rfl
  | succ depth =>
    rw [buildChainNode]
    split <;> rfl

/-- A node's children: its distinct callers, unless the depth is used up or the name is
    that of a node above. -/
theorem buildChainNode_callers (depth : Nat) (name : Str) (place : SymbolKind × Path × Nat × Nat) (visited : Finset Str) :
    (buildChainNode callerMap index depth name place visited).1.callers =
      match depth with
      | 0 => []
      | depth + 1 =>
        if name ∈ visited then []
        else (distinctCallers (callerMap.get name) ∅).map fun entry =>
          (buildChainNode callerMap index depth entry.name (definitionOf index entry) (insert name visited)).1 := by
  obtain ⟨kind, file, line, column⟩ := place
  cases depth with
  | zero => rfl
  | succ depth =>
    rw [buildChainNode]
    split
    · rfl
    · rw [pushCallers_eq (buildChainNode_visited depth)]

/-! ## The whole tree -/

/-- A path down the tree, from a node to one of those below it. -/
inductive Down : CallChainNode → List CallChainNode → CallChainNode → Prop where
  | here (node : CallChainNode) : Down node [] node
  | caller {node child last : CallChainNode} {above : List CallChainNode} :
      child ∈ node.callers → Down child above last → Down node (node :: above) last

variable (callerMap) in
/-- What holds at the end of a path, with the nodes above it: the depth is kept, no name
    repeats above, the callers have distinct names, and a node that is expanded has all
    that are recorded. -/
structure Laws (depth : Nat) (visited : Finset Str) (above : List CallChainNode) (node : CallChainNode) : Prop where
  height : above.length ≤ depth
  nodup : (above.map (·.name)).Nodup
  fresh : ∀ name ∈ above.map (·.name), name ∉ visited
  siblings : (node.callers.map (·.name)).Nodup
  recorded : ∀ name ∈ node.callers.map (·.name), name ∈ (callerMap.get node.name).map (·.name)
  complete : above.length < depth → node.name ∉ above.map (·.name) → node.name ∉ visited →
    ∀ name ∈ (callerMap.get node.name).map (·.name), name ∈ node.callers.map (·.name)

theorem names_callers (depth : Nat) (name : Str) (place : SymbolKind × Path × Nat × Nat) (visited : Finset Str) :
    (buildChainNode callerMap index (depth + 1) name place visited).1.callers.map (·.name) =
      if name ∈ visited then [] else (distinctCallers (callerMap.get name) ∅).map (·.name) := by
  rw [buildChainNode_callers]
  dsimp only
  split
  · rfl
  · rw [List.map_map]
    exact List.map_congr_left fun entry _ => buildChainNode_name _ _ _ _

/-- A tree's own root. -/
theorem laws_here (depth : Nat) (name : Str) (place : SymbolKind × Path × Nat × Nat) (visited : Finset Str) :
    Laws callerMap depth visited [] (buildChainNode callerMap index depth name place visited).1 := by
  have hname := @buildChainNode_name callerMap index depth name place visited
  cases depth with
  | zero =>
    have hnone : (buildChainNode callerMap index 0 name place visited).1.callers = [] := buildChainNode_callers 0 _ _ _
    constructor
    case height => exact le_rfl
    case nodup => exact List.nodup_nil
    case fresh => simp
    case siblings => simp [hnone]
    case recorded => simp [hnone]
    case complete => exact fun hlt => absurd hlt (Nat.not_lt_zero _)
  | succ depth =>
    have hcallers := @names_callers callerMap index depth name place visited
    constructor
    case height => exact Nat.zero_le _
    case nodup => exact List.nodup_nil
    case fresh => simp
    case siblings =>
      rw [hcallers]
      split
      · exact List.nodup_nil
      · exact names_distinctCallers_nodup _ _
    case recorded =>
      intro caller hcaller
      rw [hcallers] at hcaller
      rw [hname]
      split at hcaller
      · cases hcaller
      · exact (mem_names_distinctCallers.mp hcaller).1
    case complete =>
      intro _ _ hnew caller hcaller
      rw [hname] at hnew hcaller
      rw [hcallers, if_neg hnew]
      exact mem_names_distinctCallers.mpr ⟨hcaller, Finset.notMem_empty _⟩

/-- One step down: what holds below a child, built with the name visited, holds below the
    node. -/
theorem Laws.caller {depth : Nat} {visited : Finset Str} {root last : CallChainNode} {above : List CallChainNode}
    (hnew : root.name ∉ visited) (h : Laws callerMap depth (insert root.name visited) above last) :
    Laws callerMap (depth + 1) visited (root :: above) last := by
  constructor
  case height => exact Nat.succ_le_succ h.height
  case nodup =>
    rw [List.map_cons, List.nodup_cons]
    exact ⟨fun hin => h.fresh _ hin (Finset.mem_insert_self _ _), h.nodup⟩
  case fresh =>
    intro name hname
    rcases List.mem_cons.mp hname with rfl | hname
    · exact hnew
    · exact fun hin => h.fresh name hname (Finset.mem_insert_of_mem hin)
  case siblings => exact h.siblings
  case recorded => exact h.recorded
  case complete =>
    intro hlt hout hvisited
    rw [List.map_cons, List.mem_cons, not_or] at hout
    refine h.complete (Nat.lt_of_succ_lt_succ hlt) hout.2 fun hin => ?_
    rcases Finset.mem_insert.mp hin with hroot | hin
    · exact hout.1 hroot
    · exact hvisited hin

theorem buildChainNode_down (depth : Nat) (name : Str) (place : SymbolKind × Path × Nat × Nat) (visited : Finset Str)
    {above : List CallChainNode} {last : CallChainNode}
    (h : Down (buildChainNode callerMap index depth name place visited).1 above last) :
    Laws callerMap depth visited above last := by
  induction depth generalizing name place visited above with
  | zero =>
    cases h with
    | here => exact laws_here 0 name place visited
    | caller hchild _ =>
      rw [buildChainNode_callers] at hchild
      cases hchild
  | succ depth ih =>
    cases h with
    | here => exact laws_here (depth + 1) name place visited
    | caller hchild hbelow =>
      rw [buildChainNode_callers] at hchild
      dsimp only at hchild
      split at hchild
      · cases hchild
      · next hnew =>
        obtain ⟨entry, -, rfl⟩ := List.mem_map.mp hchild
        have hlaws := ih entry.name _ _ hbelow
        rw [← @buildChainNode_name callerMap index (depth + 1) name place visited] at hlaws hnew
        exact hlaws.caller hnew

/-- For every caller map, index, depth, root and visited set: the set is restored, and at
    the end of every path down the tree the laws hold. -/
theorem buildChainNode_laws (callerMap : CallerMap) (index : SymbolIndex) (depth : Nat) (name : Str)
    (place : SymbolKind × Path × Nat × Nat) (visited : Finset Str) :
    (buildChainNode callerMap index depth name place visited).2 = visited ∧
      ∀ above last, Down (buildChainNode callerMap index depth name place visited).1 above last →
        Laws callerMap depth visited above last :=
  ⟨buildChainNode_visited depth name place visited, fun _ _ => buildChainNode_down depth name place visited⟩

end Node

/-- The tree of a symbol, over the calls of a scan. -/
theorem run_laws (scan : List FileSymbols) (symbol : Str) (depth : Nat) {above : List CallChainNode} {last : CallChainNode}
    (h : Down (run scan symbol depth) above last) : Laws (buildCallerMap scan) depth ∅ above last :=
  buildChainNode_down depth symbol _ ∅ h

end CodeQuery.Cli.CallChain
