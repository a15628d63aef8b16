/-
  CodeQuery.Resolve.Stitch — references by path stitching (`codequery-resolve/src/resolve.rs`).

  The stack graph library is a parameter. A call into its stitcher asks the cancellation
  flag and hands over paths, turn by turn; when the flag fires the call ends there with an
  error. The crate binds what every call returns to a name that nothing reads.

  - `resolve_isOk`: so the result is `Ok` on every run, however short the calls were cut.
  - `times_out_iff`: the timeout that the documentation promises for a run in which the
    flag fires is returned on no such run; `cut_short_between_two_definitions` is one
    where the list that comes back has one reference of two.
  - `stitchReferences_eq`: what is collected is `collectResolved` of the paths' ends.
-/

import CodeQuery.Resolve.Resolver
import Mathlib.Algebra.GroupWithZero.Nat

namespace CodeQuery.Resolve

open CodeQuery.Core CodeQuery.Parse CodeQuery.Text

/-! ## Errors -/

/-- Nanoseconds. -/
abbrev Duration := Nat

inductive ResolveError where
  | ruleLoadError (msg : String)
  | resolutionTimeout (limit : Duration)
  deriving DecidableEq, Repr

/-! ## The library -/

inductive CancellationError where
  | cancelled
  deriving DecidableEq, Repr

/-- A turn of a call into the stitcher. -/
inductive Turn (α : Type) where
  | check
  | visit (path : α)

/-- What the crate uses of the stack graph library. -/
structure Library where
  Rules : Type
  Graph : Type
  File : Type
  GraphNode : Type
  PartialPath : Type
  new : Graph
  /-- `get_or_create_file` and `build_stack_graph_into_with_tree`: the graph it leaves,
      and the error's text. -/
  build : Rules → Graph → Path × Str × Node → Graph × Option String
  iterFiles : Graph → List File
  iterNodes : Graph → List GraphNode
  isReference : Graph → GraphNode → Bool
  symbol : Graph → GraphNode → Option Str
  /-- The name of the node's file. -/
  file : Graph → GraphNode → Option Path
  /-- Where the node's source info starts: 0-based line, column in bytes. -/
  start : Graph → GraphNode → Option (Nat × Nat)
  /-- `find_minimal_partial_path_set_in_file`. -/
  minimalPartialPaths : Graph → File → List (Turn PartialPath)
  /-- `find_all_complete_partial_paths` from a node, each path by its end node. -/
  completePartialPaths : Graph → List PartialPath → GraphNode → List (Turn GraphNode)

structure Call (α : Type) where
  outcome : Except CancellationError Unit
  /-- How often the flag was asked, over all calls so far. -/
  asked : Nat
  visited : List α

/-- A call's turns under a flag, up to the first check at which it fires. -/
def call {α : Type} (flag : Nat → Bool) : List (Turn α) → Nat → Call α
  | [], asked => ⟨.ok (), asked, []⟩
  | .check :: turns, asked => if flag asked then ⟨.error .cancelled, asked + 1, []⟩ else call flag turns (asked + 1)
  | .visit path :: turns, asked =>
    let c := call flag turns asked
    { c with visited := path :: c.visited }

/-- `CancelAfterDuration` and `NoCancellation`; `elapsed` is the time passed at each check. -/
def cancellationFlag (timeout : Option Duration) (elapsed : Nat → Duration) (asked : Nat) : Bool :=
  match timeout with
  | some limit => limit < elapsed asked
  | none => false

/-- `DEFAULT_RESOLUTION_TIMEOUT`: two seconds. -/
def defaultResolutionTimeout : Duration := 2000000000

/-! ## Resolution -/

section Resolve

variable (L : Library) (flag : Nat → Bool) (g : L.Graph)

/-- `extract_node_location`. -/
def extractNodeLocation (node : L.GraphNode) : Option Location :=
  match L.file g node, L.start g node with
  | some fileName, some (line, column) => some (fileName, line + 1, column)
  | _, _ => none

/-- The body of the loop of `build_database`: what the calls returned (`_stats`), how
    often the flag was asked, and the database. -/
def addFile (s : List (Except CancellationError Unit) × Nat × List L.PartialPath) (file : L.File) :
    List (Except CancellationError Unit) × Nat × List L.PartialPath :=
  let c := call flag (L.minimalPartialPaths g file) s.2.1
  (s.1 ++ [c.outcome], c.asked, s.2.2 ++ c.visited)

def buildDatabase : List (Except CancellationError Unit) × Nat × List L.PartialPath :=
  (L.iterFiles g).foldl (addFile L flag g) ([], 0, [])

def findReferenceNodes (symbol : Str) : List L.GraphNode :=
  (L.iterNodes g).filter fun node => L.isReference g node && L.symbol g node == some symbol

/-- `collect_resolved_path`; the state is what was seen and the results. -/
def collectResolvedPath (refLoc : Option Location) (symbol : Str)
    (s : List (Option Location × Location) × List ResolvedReference) (defNode : L.GraphNode) :
    List (Option Location × Location) × List ResolvedReference :=
  match extractNodeLocation L g defNode with
  | none => s
  | some definition =>
    if s.1.contains (refLoc, definition) then s
    else ((refLoc, definition) :: s.1, s.2 ++ [resolvedPath symbol refLoc definition])

/-- The loop of `stitch_references`: what the calls returned (`_stitch_result`), and the
    results. -/
def stitchLoop (db : List L.PartialPath) (symbol : Str) :
    List L.GraphNode → Nat → List (Option Location × Location) × List ResolvedReference →
      List (Except CancellationError Unit) × List ResolvedReference
  | [], _, s => ([], s.2)
  | refNode :: nodes, asked, s =>
    let refLoc := extractNodeLocation L g refNode
    let c := call flag (L.completePartialPaths g db refNode) asked
    let (stitched, results) :=
      stitchLoop db symbol nodes c.asked (c.visited.foldl (collectResolvedPath L g refLoc symbol) s)
    (c.outcome :: stitched, results)

def stitchReferences (db : List L.PartialPath) (referenceNodes : List L.GraphNode) (symbol : Str) (asked : Nat) :
    List (Except CancellationError Unit) × List ResolvedReference :=
  stitchLoop L flag g db symbol referenceNodes asked ([], [])

/-- What every call into the stitcher returned, and the result. -/
structure Resolving where
  calls : List (Except CancellationError Unit)
  result : Except ResolveError (List ResolvedReference)

/-- `resolve_references_with_timeout` under its flag. -/
def resolving (symbol : Str) : Resolving :=
  let (stats, asked, db) := buildDatabase L flag g
  let referenceNodes := findReferenceNodes L g symbol
  if referenceNodes.isEmpty then ⟨stats, .ok []⟩
  else
    let (stitched, results) := stitchReferences L flag g db referenceNodes symbol asked
    ⟨stats ++ stitched, .ok results⟩

def resolveReferencesWithTimeout (symbol : Str) (timeout : Option Duration) (elapsed : Nat → Duration) :
    Except ResolveError (List ResolvedReference) :=
  (resolving L (cancellationFlag timeout elapsed) g symbol).result

def resolveReferences (symbol : Str) (elapsed : Nat → Duration) : Except ResolveError (List ResolvedReference) :=
  resolveReferencesWithTimeout L g symbol (some defaultResolutionTimeout) elapsed

end Resolve

/-! ## Calls -/

section Calls

variable {α : Type} {flag : Nat → Bool}

/-- How often a call asks the flag when it is not cut short. -/
def checks (turns : List (Turn α)) : Nat :=
  turns.countP fun
    | .check => true
    | .visit _ => false

/-- The paths of a call that is not cut short. -/
def visits (turns : List (Turn α)) : List α :=
  turns.filterMap fun
    | .check => none
    | .visit path => some path

/-- A call is cut short exactly when the flag fires at one of its checks. -/
theorem call_cancelled_iff {turns : List (Turn α)} {asked : Nat} :
    (call flag turns asked).outcome = .error .cancelled ↔ ∃ k < checks turns, flag (asked + k) = true := by
  induction turns generalizing asked with
  | nil => simp [call, checks]
  | cons turn turns ih =>
    cases turn with
    | visit path =>
      rw [call, ih]
      simp [checks]
    | check =>
      have hchecks : checks (.check :: turns) = checks turns + 1 := by simp [checks]
      rw [call, hchecks]
      by_cases hnow : flag asked = true
      · rw [if_pos hnow]
        exact ⟨fun _ => ⟨0, by omega, hnow⟩, fun _ => rfl⟩
      · rw [if_neg hnow, ih]
        constructor
        · intro h
          obtain ⟨k, hk, hfire⟩ := h
          exact ⟨k + 1, by omega, by rwa [← Nat.add_assoc, Nat.add_right_comm]⟩
        · intro h
          obtain ⟨k, hk, hfire⟩ := h
          cases k with
          | zero => exact absurd hfire hnow
          | succ k => exact ⟨k, by omega, by rwa [Nat.add_right_comm, Nat.add_assoc]⟩

/-- What a call hands over is the first of its paths, and all of them unless it is cut. -/
theorem call_visited {turns : List (Turn α)} {asked : Nat} :
    (call flag turns asked).visited <+: visits turns ∧
      ((call flag turns asked).outcome = .ok () → (call flag turns asked).visited = visits turns) := by
  induction turns generalizing asked with
  | nil => exact ⟨List.prefix_refl _, fun _ => rfl⟩
  | cons turn turns ih =>
    cases turn with
    | visit path =>
      obtain ⟨hfront, hall⟩ := @ih asked
      exact ⟨List.cons_prefix_cons.mpr ⟨rfl, hfront⟩, fun h => congrArg (path :: ·) (hall h)⟩
    | check =>
      rw [call]
      by_cases hnow : flag asked = true
      · rw [if_pos hnow]
        exact ⟨List.nil_prefix, fun h => nomatch h⟩
      · rw [if_neg hnow]
        exact @ih (asked + 1)

/-- Where the flag does not fire a call runs to its end. -/
theorem call_quiet {turns : List (Turn α)} {asked : Nat} (h : ∀ k < checks turns, flag (asked + k) = false) :
    call flag turns asked = ⟨.ok (), asked + checks turns, visits turns⟩ := by
  induction turns generalizing asked with
  | nil => rfl
  | cons turn turns ih =>
    cases turn with
    | visit path =>
      rw [call, ih h]
      rfl
    | check =>
      have hchecks : checks (.check :: turns) = checks turns + 1 := by simp [checks]
      have hnow : ¬ flag asked = true := by simpa using h 0 (by omega)
      rw [call, if_neg hnow, ih fun k hk => by rw [Nat.add_right_comm]; exact h (k + 1) (by omega)]
      rw [hchecks, Nat.add_right_comm, Nat.add_assoc]
      rfl

end Calls

/-! ## Runs -/

section Runs

variable {L : Library} {flag : Nat → Bool} {g : L.Graph}

/-- The flag fires at one of `n` checks. -/
def FiresWithin (flag : Nat → Bool) (asked n : Nat) : Prop := ∃ k < n, flag (asked + k) = true

theorem firesWithin_add {asked m n : Nat} :
    FiresWithin flag asked (m + n) ↔ FiresWithin flag asked m ∨ FiresWithin flag (asked + m) n := by
  constructor
  · intro h
    obtain ⟨k, hk, hfire⟩ := h
    by_cases hm : k < m
    · exact .inl ⟨k, hm, hfire⟩
    · exact .inr ⟨k - m, by omega, by rwa [Nat.add_assoc, Nat.add_sub_cancel' (by omega)]⟩
  · intro h
    rcases h with ⟨k, hk, hfire⟩ | ⟨k, hk, hfire⟩
    · exact ⟨k, by omega, hfire⟩
    · exact ⟨m + k, by omega, by rwa [← Nat.add_assoc]⟩

theorem call_of_not_firesWithin {α : Type} {turns : List (Turn α)} {asked : Nat}
    (h : ¬ FiresWithin flag asked (checks turns)) :
    call flag turns asked = ⟨.ok (), asked + checks turns, visits turns⟩ :=
  call_quiet fun k hk => by
    by_contra hfire
    exact h ⟨k, hk, by simpa using hfire⟩

def Cut (calls : List (Except CancellationError Unit)) : Prop := .error .cancelled ∈ calls

theorem cut_append {calls calls' : List (Except CancellationError Unit)} :
    Cut (calls ++ calls') ↔ Cut calls ∨ Cut calls' := List.mem_append

variable (L g) in
/-- The checks of the database's calls, and of the stitching, of a run that is not cut. -/
def databaseChecks : Nat := ((L.iterFiles g).map fun file => checks (L.minimalPartialPaths g file)).sum

variable (L g) in
def database : List L.PartialPath := (L.iterFiles g).flatMap fun file => visits (L.minimalPartialPaths g file)

variable (L g) in
def stitchChecks (nodes : List L.GraphNode) : Nat :=
  (nodes.map fun node => checks (L.completePartialPaths g (database L g) node)).sum

/-- The database's calls over some files: one is cut exactly when the flag fires within
    their checks, else the database is whole. -/
theorem addFiles_run (files : List L.File) (s : List (Except CancellationError Unit) × Nat × List L.PartialPath) :
    let n := (files.map fun file => checks (L.minimalPartialPaths g file)).sum
    let r := files.foldl (addFile L flag g) s
    (Cut r.1 ↔ Cut s.1 ∨ FiresWithin flag s.2.1 n) ∧
      (¬ FiresWithin flag s.2.1 n →
        r.2 = (s.2.1 + n, s.2.2 ++ files.flatMap fun file => visits (L.minimalPartialPaths g file))) := by
  induction files generalizing s with
  | nil => simp [FiresWithin]
  | cons file files ih =>
    simp only [List.foldl_cons, List.map_cons, List.sum_cons, List.flatMap_cons]
    obtain ⟨hcut, hwhole⟩ := ih (addFile L flag g s file)
    by_cases hfires : FiresWithin flag s.2.1 (checks (L.minimalPartialPaths g file))
    · have hout : (call flag (L.minimalPartialPaths g file) s.2.1).outcome = .error .cancelled :=
        call_cancelled_iff.mpr hfires
      refine ⟨hcut.trans ?_, fun hno => absurd (firesWithin_add.mpr (.inl hfires)) hno⟩
      rw [firesWithin_add]
      simp [addFile, Cut, hout, hfires]
    · have hadd : addFile L flag g s file = (s.1 ++ [.ok ()], s.2.1 + checks (L.minimalPartialPaths g file),
          s.2.2 ++ visits (L.minimalPartialPaths g file)) := by
        rw [addFile, call_of_not_firesWithin hfires]
      rw [hadd] at hcut hwhole ⊢
      rw [firesWithin_add]
      refine ⟨hcut.trans ?_, fun hno => (hwhole fun h => hno (.inr h)).trans ?_⟩
      · simp [Cut, hfires]
      · simp only [Nat.add_assoc, List.append_assoc]

/-- The same of the stitching loop over a database. -/
theorem stitchLoop_run (db : List L.PartialPath) (symbol : Str) (nodes : List L.GraphNode) (asked : Nat)
    (s : List (Option Location × Location) × List ResolvedReference) :
    Cut (stitchLoop L flag g db symbol nodes asked s).1 ↔
      FiresWithin flag asked (nodes.map fun node => checks (L.completePartialPaths g db node)).sum := by
  induction nodes generalizing asked s with
  | nil => simp [stitchLoop, Cut, FiresWithin]
  | cons node nodes ih =>
    rw [List.map_cons, List.sum_cons, firesWithin_add]
    have hhead : Cut (stitchLoop L flag g db symbol (node :: nodes) asked s).1 ↔
        (call flag (L.completePartialPaths g db node) asked).outcome = .error .cancelled ∨
          Cut (stitchLoop L flag g db symbol nodes (call flag (L.completePartialPaths g db node) asked).asked
            ((call flag (L.completePartialPaths g db node) asked).visited.foldl
              (collectResolvedPath L g (extractNodeLocation L g node) symbol) s)).1 := by
      rw [stitchLoop, Cut, List.mem_cons, eq_comm]
      rfl
    rw [hhead, call_cancelled_iff, ih]
    by_cases hfires : FiresWithin flag asked (checks (L.completePartialPaths g db node))
    · exact iff_of_true (.inl hfires) (.inl hfires)
    · rw [call_of_not_firesWithin hfires]
      rfl

variable (L g) in
/-- The checks of a run that is not cut. -/
def runChecks (symbol : Str) : Nat :=
  databaseChecks L g + stitchChecks L g (findReferenceNodes L g symbol)

/-- A call of a run is cut short exactly when the flag fires within its checks. -/
theorem resolving_cut_iff {symbol : Str} :
    Cut (resolving L flag g symbol).calls ↔ FiresWithin flag 0 (runChecks L g symbol) := by
  obtain ⟨hcut, hwhole⟩ := @addFiles_run L flag g (L.iterFiles g) ([], 0, [])
  have hstats : Cut (buildDatabase L flag g).1 ↔ FiresWithin flag 0 (databaseChecks L g) := by
    refine hcut.trans ?_
    simp [Cut, databaseChecks]
  rw [runChecks, firesWithin_add, resolving]
  by_cases hempty : (findReferenceNodes L g symbol).isEmpty = true
  · simp only [hempty, if_true]
    rw [hstats, List.isEmpty_iff.mp hempty]
    simp [stitchChecks, FiresWithin]
  · simp only [hempty]
    rw [if_neg (by simp), cut_append, hstats, stitchReferences, stitchLoop_run]
    by_cases hfires : FiresWithin flag 0 (databaseChecks L g)
    · exact iff_of_true (.inl hfires) (.inl hfires)
    · have hdb : (buildDatabase L flag g).2 = (0 + databaseChecks L g, [] ++ database L g) := hwhole hfires
      have hasked : (buildDatabase L flag g).2.1 = 0 + databaseChecks L g := congrArg Prod.fst hdb
      have hbuilt : (buildDatabase L flag g).2.2 = database L g := congrArg Prod.snd hdb
      rw [hasked, hbuilt]
      rfl

/-- The errors of the calls are dropped, so no run has one. -/
theorem resolve_isOk (symbol : Str) (timeout : Option Duration) (elapsed : Nat → Duration) :
    ∃ refs, resolveReferencesWithTimeout L g symbol timeout elapsed = .ok refs := by
  unfold resolveReferencesWithTimeout resolving
  dsimp only
  split
  · exact ⟨_, rfl⟩
  · exact ⟨_, rfl⟩

/-- The timeout is returned whenever the flag fires at a check the run comes to, exactly
    on the runs in which it does not fire. -/
theorem times_out_iff (L : Library) (g : L.Graph) (symbol : Str) (timeout : Option Duration) (elapsed : Nat → Duration) :
    (FiresWithin (cancellationFlag timeout elapsed) 0 (runChecks L g symbol) →
        ∃ limit, resolveReferencesWithTimeout L g symbol timeout elapsed = .error (.resolutionTimeout limit)) ↔
      ¬ FiresWithin (cancellationFlag timeout elapsed) 0 (runChecks L g symbol) := by
  refine ⟨fun h hfires => ?_, fun hno hfires => absurd hfires hno⟩
  obtain ⟨limit, herror⟩ := h hfires
  obtain ⟨refs, hok⟩ := @resolve_isOk L g symbol timeout elapsed
  rw [hok] at herror
  contradiction

end Runs

/-! ## A run cut short -/

/-- One file with a reference to `f` in line 3, and two definitions of it above. -/
def twoDefinitions : Library where
  Rules := Unit
  Graph := Unit
  File := Unit
  GraphNode := Nat
  PartialPath := Unit
  new := ()
  build _ g _ := (g, none)
  iterFiles _ := [()]
  iterNodes _ := [0, 1, 2]
  isReference _ node := node == 2
  symbol _ _ := some (str "f")
  file _ _ := some [.normal "a.py"]
  start _ node := some (node, if node = 2 then 0 else 4)
  minimalPartialPaths _ _ := [.check, .visit ()]
  completePartialPaths _ _ _ := [.check, .visit 0, .check, .visit 1, .check]

def resolvedTo (line : Nat) : ResolvedReference :=
  ⟨[.normal "a.py"], 3, 0, str "f", some [.normal "a.py"], some line, some 4, .resolved⟩

/-- The time runs out between the two paths, and the first of them is the whole answer. -/
theorem cut_short_between_two_definitions :
    let elapsed := fun asked => if asked < 2 then 1000 else 3000000000
    FiresWithin (cancellationFlag (some defaultResolutionTimeout) elapsed) 0
        (runChecks twoDefinitions () (str "f")) ∧
      resolveReferences twoDefinitions () (str "f") elapsed = .ok [resolvedTo 1] ∧
      resolveReferencesWithTimeout twoDefinitions () (str "f") none elapsed = .ok [resolvedTo 1, resolvedTo 2] :=
  ⟨⟨2, by decide, by decide⟩, by decide, by decide⟩

/-! ## The ends of the paths -/

section Ends

variable {L : Library} {flag : Nat → Bool} {g : L.Graph}

variable (L flag g) in
/-- The ends of the complete paths that the stitching hands over, by their places. -/
def stitchedEnds (db : List L.PartialPath) : List L.GraphNode → Nat → List (Option Location × Option Location)
  | [], _ => []
  | refNode :: nodes, asked =>
    let c := call flag (L.completePartialPaths g db refNode) asked
    c.visited.map (fun defNode => (extractNodeLocation L g refNode, extractNodeLocation L g defNode)) ++
      stitchedEnds db nodes c.asked

theorem collectResolved_visited (refLoc : Option Location) (symbol : Str) (visited : List L.GraphNode)
    (paths : List (Option Location × Option Location))
    (s : List (Option Location × Location) × List ResolvedReference) :
    (visited.foldl (collectResolvedPath L g refLoc symbol) s).2 ++
        collectResolved symbol (visited.foldl (collectResolvedPath L g refLoc symbol) s).1 paths =
      s.2 ++ collectResolved symbol s.1 (visited.map (fun defNode => (refLoc, extractNodeLocation L g defNode)) ++ paths) := by
  induction visited generalizing s with
  | nil => rfl
  | cons defNode visited ih =>
    rw [List.foldl_cons, ih, List.map_cons, List.cons_append]
    cases hloc : extractNodeLocation L g defNode with
    | none => simp only [collectResolvedPath, hloc, collectResolved]
    | some definition =>
      simp only [collectResolvedPath, hloc, collectResolved]
      by_cases hseen : (refLoc, definition) ∈ s.1
      · rw [if_pos (List.contains_iff_mem.mpr hseen), if_pos hseen]
      · rw [if_neg (mt List.contains_iff_mem.mp hseen), if_neg hseen, List.append_assoc]
        rfl

theorem stitchLoop_eq (db : List L.PartialPath) (symbol : Str) (nodes : List L.GraphNode) (asked : Nat)
    (s : List (Option Location × Location) × List ResolvedReference) :
    (stitchLoop L flag g db symbol nodes asked s).2 =
      s.2 ++ collectResolved symbol s.1 (stitchedEnds L flag g db nodes asked) := by
  induction nodes generalizing asked s with
  | nil => simp [stitchLoop, stitchedEnds, collectResolved]
  | cons refNode nodes ih =>
    rw [stitchLoop, stitchedEnds]
    dsimp only
    rw [ih, collectResolved_visited]

/-- What the stitching collects is the paths' ends, each pair once. -/
theorem stitchReferences_eq (db : List L.PartialPath) (nodes : List L.GraphNode) (symbol : Str) (asked : Nat) :
    (stitchReferences L flag g db nodes symbol asked).2 =
      collectResolved symbol [] (stitchedEnds L flag g db nodes asked) :=
  stitchLoop_eq db symbol nodes asked ([], [])

variable (L g) in
/-- The ends of the paths of a whole resolution. -/
def resolvedEnds (flag : Nat → Bool) (symbol : Str) : List (Option Location × Option Location) :=
  stitchedEnds L flag g (buildDatabase L flag g).2.2 (findReferenceNodes L g symbol) (buildDatabase L flag g).2.1

theorem resolveReferencesWithTimeout_eq (symbol : Str) (timeout : Option Duration) (elapsed : Nat → Duration) :
    resolveReferencesWithTimeout L g symbol timeout elapsed = .ok (collectResolved symbol []
      (resolvedEnds L g (cancellationFlag timeout elapsed) symbol)) := by
  unfold resolveReferencesWithTimeout resolving resolvedEnds
  dsimp only
  split
  · next hempty =>
    rw [List.isEmpty_iff.mp hempty]
    rfl
  · rw [stitchReferences_eq]

theorem resolveReferences_eq (symbol : Str) (elapsed : Nat → Duration) :
    resolveReferences L g symbol elapsed = .ok (collectResolved symbol []
      (resolvedEnds L g (cancellationFlag (some defaultResolutionTimeout) elapsed) symbol)) :=
  resolveReferencesWithTimeout_eq symbol (some defaultResolutionTimeout) elapsed

end Ends

end CodeQuery.Resolve
