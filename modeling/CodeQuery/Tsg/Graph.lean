/-
  CodeQuery.Tsg.Graph — the values and the graph that graph rules build
  (`tree-sitter-graph/src/graph.rs`).

  A node keeps its outgoing edges in a vector sorted by sink, in which an edge is found and
  inserted by binary search; here that is one pass over the sorted list. A map of attributes
  takes a second value under a name only when it is the same value (`Attributes.add`).

  Proved: whatever the operations do, every node's edges stay sorted by sink, with one edge to
  a sink (`Graph.Sorted`), so a node is determined by its attributes and by what
  `edge?` finds (`edges_ext`).
-/

import Mathlib.Data.List.Basic
import Mathlib.Data.List.Pairwise
import Mathlib.Logic.Function.Basic

namespace CodeQuery.Tsg

abbrev Identifier : Type := String

/-- A syntax node by its id. -/
abbrev SyntaxNodeRef : Type := Nat

/-- A graph node by its index. -/
abbrev GraphNodeRef : Type := Nat

inductive Value where
  | null
  | boolean (b : Bool)
  | integer (n : Nat)
  | string (s : String)
  | list (values : List Value)
  | set (values : List Value)
  | syntaxNode (n : SyntaxNodeRef)
  | graphNode (n : GraphNodeRef)

inductive ExecutionError where
  | cannotAssignImmutableVariable (name : Identifier)
  | cannotAssignScopedVariable (name : Identifier)
  | cannotDefineMutableScopedVariable (name : Identifier)
  | duplicateAttribute (name : Identifier)
  | duplicateVariable (name : Identifier)
  | emptyRegexCapture
  | expectedBoolean
  | expectedGraphNode
  | expectedList (name : Option Identifier)
  | expectedString
  | expectedSyntaxNode
  | functionFailed (name : Identifier)
  | invalidVariableScope
  | missingGlobalVariable (name : Identifier)
  | recursivelyDefinedScopedVariable (name : Identifier)
  | recursivelyDefinedVariable
  | undefinedEdge
  | undefinedRegexCapture
  | undefinedScopedVariable (name : Identifier)
  | undefinedVariable (name : Identifier)
  | variableScopesAlreadyForced (name : Identifier)
  /-- An index out of range, or an `expect` that does not hold. -/
  | panicked
  /-- The source has no bound; a bound of the model was reached. -/
  | outOfFuel
deriving DecidableEq

namespace Value

mutual

def beq : Value → Value → Bool
  | .null, .null => true
  | .boolean a, .boolean b => a == b
  | .integer a, .integer b => a == b
  | .string a, .string b => a == b
  | .list a, .list b => beqList a b
  | .set a, .set b => beqList a b
  | .syntaxNode a, .syntaxNode b => a == b
  | .graphNode a, .graphNode b => a == b
  | _, _ => false

def beqList : List Value → List Value → Bool
  | [], [] => true
  | a :: as, b :: bs => beq a b && beqList as bs
  | _, _ => false

end

mutual

theorem beq_iff (a b : Value) : beq a b = true ↔ a = b := by
  cases a <;> cases b <;> simp [beq]
  case list.list as bs => exact beqList_iff as bs
  case set.set as bs => exact beqList_iff as bs

theorem beqList_iff (as bs : List Value) : beqList as bs = true ↔ as = bs := by
  match as, bs with
  | [], [] => simp [beqList]
  | [], _ :: _ => simp [beqList]
  | _ :: _, [] => simp [beqList]
  | a :: as, b :: bs => rw [beqList, Bool.and_eq_true, beq_iff a b, beqList_iff as bs, List.cons.injEq]

end

instance : DecidableEq Value := fun a b => decidable_of_iff _ (beq_iff a b)

def isNull : Value → Bool
  | .null => true
  | _ => false

def intoBoolean : Value → Except ExecutionError Bool
  | .boolean b => .ok b
  | _ => .error .expectedBoolean

def intoString : Value → Except ExecutionError String
  | .string s => .ok s
  | _ => .error .expectedString

def intoList : Value → Except ExecutionError (List Value)
  | .list values => .ok values
  | _ => .error (.expectedList none)

def intoGraphNodeRef : Value → Except ExecutionError GraphNodeRef
  | .graphNode n => .ok n
  | _ => .error .expectedGraphNode

def intoSyntaxNodeRef : Value → Except ExecutionError SyntaxNodeRef
  | .syntaxNode n => .ok n
  | _ => .error .expectedSyntaxNode

/-- The place of a kind of value in the derived order. -/
def rank : Value → Nat
  | .null => 0
  | .boolean _ => 1
  | .integer _ => 2
  | .string _ => 3
  | .list _ => 4
  | .set _ => 5
  | .syntaxNode _ => 6
  | .graphNode _ => 7

mutual

def cmp : Value → Value → Ordering
  | .boolean a, .boolean b => compare a b
  | .integer a, .integer b => compare a b
  | .string a, .string b => compare a b
  | .list a, .list b => cmpList a b
  | .set a, .set b => cmpList a b
  | .syntaxNode a, .syntaxNode b => compare a b
  | .graphNode a, .graphNode b => compare a b
  | a, b => compare a.rank b.rank

def cmpList : List Value → List Value → Ordering
  | [], [] => .eq
  | [], _ :: _ => .lt
  | _ :: _, [] => .gt
  | a :: as, b :: bs => (cmp a b).then (cmpList as bs)

end

def insert (v : Value) : List Value → List Value
  | [] => [v]
  | w :: ws =>
    match v.cmp w with
    | .lt => v :: w :: ws
    | .eq => w :: ws
    | .gt => w :: insert v ws

/-- The set of some values, collected in order. -/
def setOf (values : List Value) : List Value := values.foldl (fun s v => insert v s) []

end Value

/-- The attributes of a node or an edge, by name. -/
abbrev Attributes : Type := Identifier → Option Value

namespace Attributes

def empty : Attributes := fun _ => none

/-- A second value under a name is refused, unless it is the same. -/
def add (a : Attributes) (name : Identifier) (value : Value) : Except ExecutionError Attributes :=
  match a name with
  | none => .ok (Function.update a name (some value))
  | some old => if old = value then .ok a else .error (.duplicateAttribute name)

variable {a a' : Attributes} {name : Identifier} {value : Value}

theorem add_ok (h : a.add name value = .ok a') :
    (a name = none ∧ a' = Function.update a name (some value)) ∨ (a name = some value ∧ a' = a) := by
  unfold add at h
  cases ha : a name with
  | none =>
    rw [ha] at h
    exact .inl ⟨rfl, (Except.ok.inj h).symm⟩
  | some old =>
    simp only [ha] at h
    by_cases e : old = value
    · rw [if_pos e] at h
      exact .inr ⟨congrArg some e, (Except.ok.inj h).symm⟩
    · rw [if_neg e] at h
      exact absurd h nofun

/-- What was there stays. -/
theorem add_keeps (h : a.add name value = .ok a') {n : Identifier} {v : Value} (hn : a n = some v) : a' n = some v := by
  rcases add_ok h with ⟨hnone, rfl⟩ | ⟨-, rfl⟩
  · have : n ≠ name := by
      rintro rfl
      rw [hnone] at hn
      exact absurd hn nofun
    rw [Function.update_of_ne this, hn]
  · exact hn

theorem add_self (h : a.add name value = .ok a') : a' name = some value := by
  rcases add_ok h with ⟨-, rfl⟩ | ⟨hsome, rfl⟩
  · exact Function.update_self name (some value) a
  · exact hsome

/-- To add a value that is there changes nothing. -/
theorem add_of_eq (h : a name = some value) : a.add name value = .ok a := by
  unfold add
  simp [h]

end Attributes

/-- A node of the graph, its edges by the index of the sink. -/
structure GraphNode where
  outgoingEdges : List (Nat × Attributes)
  attributes : Attributes

/-! ## The edges of a node -/

def addEdge (sink : Nat) : List (Nat × Attributes) → List (Nat × Attributes)
  | [] => [(sink, .empty)]
  | e :: es => if e.1 < sink then e :: addEdge sink es else if e.1 = sink then e :: es else (sink, .empty) :: e :: es

/-- The edge to a sink, if there is one. -/
def edge? (sink : Nat) (es : List (Nat × Attributes)) : Option Attributes :=
  (es.find? fun e => e.1 = sink).map Prod.snd

/-- Change the attributes of the edge to a sink. -/
def modifyEdge (sink : Nat) (f : Attributes → Except ExecutionError Attributes) :
    List (Nat × Attributes) → Except ExecutionError (List (Nat × Attributes))
  | [] => .error .undefinedEdge
  | e :: es =>
    if e.1 = sink then
      match f e.2 with
      | .error err => .error err
      | .ok a => .ok ((e.1, a) :: es)
    else
      match modifyEdge sink f es with
      | .error err => .error err
      | .ok es' => .ok (e :: es')

/-- Sorted by sink, one edge to a sink. -/
def EdgesSorted (es : List (Nat × Attributes)) : Prop := es.Pairwise fun e e' => e.1 < e'.1

section Edges

variable {sink other : Nat} {es es' : List (Nat × Attributes)}

theorem edge?_cons (sink : Nat) (e : Nat × Attributes) (es : List (Nat × Attributes)) :
    edge? sink (e :: es) = if e.1 = sink then some e.2 else edge? sink es := by
  unfold edge?
  by_cases h : e.1 = sink <;> simp [h]

theorem edge?_eq_none_of_lt (h : ∀ e ∈ es, sink < e.1) : edge? sink es = none := by
  induction es with
  | nil => rfl
  | cons e es ih =>
    have := h e List.mem_cons_self
    rw [edge?_cons, if_neg (by omega)]
    exact ih fun e' he' => h e' (List.mem_cons_of_mem _ he')

/-- Sorted edges are determined by what is found for each sink. -/
theorem edges_ext (hs : EdgesSorted es) (hs' : EdgesSorted es') (h : ∀ sink, edge? sink es = edge? sink es') : es = es' := by
  induction es generalizing es' with
  | nil =>
    cases es' with
    | nil => rfl
    | cons e' es' =>
      have := h e'.1
      rw [edge?_cons, if_pos rfl] at this
      exact absurd this nofun
  | cons e es ih =>
    cases es' with
    | nil =>
      have := h e.1
      rw [edge?_cons, if_pos rfl] at this
      exact absurd this nofun
    | cons e' es' =>
      obtain ⟨hlt, hes⟩ := List.pairwise_cons.mp hs
      obtain ⟨hlt', hes'⟩ := List.pairwise_cons.mp hs'
      -- the least sinks are the same, as each is found on the other side
      have hfst : e.1 = e'.1 := by
        by_contra hne
        rcases Nat.lt_or_gt_of_ne hne with hl | hl
        · have := h e.1
          rw [edge?_cons, if_pos rfl, edge?_cons, if_neg (Ne.symm hne),
            edge?_eq_none_of_lt (fun a ha => Nat.lt_trans hl (hlt' a ha))] at this
          exact absurd this nofun
        · have := h e'.1
          rw [edge?_cons, if_neg hne, edge?_eq_none_of_lt (fun a ha => Nat.lt_trans hl (hlt a ha)), edge?_cons,
            if_pos rfl] at this
          exact absurd this nofun
      have hsnd : e.2 = e'.2 := by
        have := h e.1
        rw [edge?_cons, if_pos rfl, edge?_cons, if_pos hfst.symm] at this
        exact Option.some.inj this
      rw [Prod.ext hfst hsnd]
      refine congrArg _ (ih hes hes' fun sink => ?_)
      have := h sink
      rw [edge?_cons, edge?_cons] at this
      by_cases hsink : e.1 = sink
      · rw [edge?_eq_none_of_lt (fun a ha => hsink ▸ hlt a ha), edge?_eq_none_of_lt (fun a ha => hsink ▸ hfst ▸ hlt' a ha)]
      · rwa [if_neg hsink, if_neg (hfst ▸ hsink)] at this

theorem mem_addEdge {e : Nat × Attributes} (h : e ∈ addEdge sink es) : e ∈ es ∨ e.1 = sink := by
  induction es with
  | nil =>
    rw [addEdge, List.mem_singleton] at h
    exact .inr (by rw [h])
  | cons e' es ih =>
    rw [addEdge] at h
    split at h
    · rcases List.mem_cons.mp h with rfl | h
      · exact .inl List.mem_cons_self
      · exact (ih h).imp_left (List.mem_cons_of_mem _)
    · split at h
      · exact .inl h
      · rcases List.mem_cons.mp h with rfl | h
        · exact .inr rfl
        · exact .inl h

theorem addEdge_sorted (hs : EdgesSorted es) : EdgesSorted (addEdge sink es) := by
  induction es with
  | nil => exact List.pairwise_singleton _ _
  | cons e es ih =>
    obtain ⟨hlt, hes⟩ := List.pairwise_cons.mp hs
    rw [addEdge]
    split
    next hl =>
      refine List.pairwise_cons.mpr ⟨fun e' he' => ?_, ih hes⟩
      rcases mem_addEdge he' with he' | he'
      · exact hlt e' he'
      · rw [he']
        exact hl
    next hl =>
      split
      · exact hs
      next hne =>
        refine List.pairwise_cons.mpr ⟨fun e' he' => ?_, hs⟩
        have hsink : sink < e.1 := by omega
        rcases List.mem_cons.mp he' with rfl | he'
        · exact hsink
        · exact Nat.lt_trans hsink (hlt e' he')

/-- Adding an edge finds it, new when it was not there, and leaves the others. -/
theorem edge?_addEdge (hs : EdgesSorted es) :
    edge? other (addEdge sink es) = if other = sink then some ((edge? sink es).getD .empty) else edge? other es := by
  induction es with
  | nil =>
    rw [addEdge, edge?_cons]
    by_cases h : other = sink
    · rw [if_pos h.symm, if_pos h]
      rfl
    · rw [if_neg (Ne.symm h), if_neg h]
  | cons e es ih =>
    obtain ⟨hlt, hes⟩ := List.pairwise_cons.mp hs
    rw [addEdge]
    split
    next hl =>
      rw [edge?_cons, ih hes, edge?_cons, edge?_cons, if_neg (show ¬ e.1 = sink by omega)]
      by_cases h : other = sink
      · rw [if_pos h, if_pos h, h, if_neg (show ¬ e.1 = sink by omega)]
      · rw [if_neg h, if_neg h]
    next hl =>
      split
      next heq =>
        by_cases h : other = sink
        · rw [if_pos h, edge?_cons, edge?_cons, if_pos heq, h, if_pos heq]
          rfl
        · rw [if_neg h]
      next hne =>
        have hnone : edge? sink (e :: es) = none := by
          refine edge?_eq_none_of_lt fun a ha => ?_
          rcases List.mem_cons.mp ha with rfl | ha
          · omega
          · have := hlt a ha
            omega
        rw [edge?_cons, hnone]
        by_cases h : other = sink
        · rw [if_pos h.symm, if_pos h]
          rfl
        · rw [if_neg (Ne.symm h), if_neg h]

/-- What a change of an edge's attributes does. -/
theorem modifyEdge_ok {f : Attributes → Except ExecutionError Attributes} (h : modifyEdge sink f es = .ok es') :
    ∃ a a', edge? sink es = some a ∧ f a = .ok a' ∧ es'.map Prod.fst = es.map Prod.fst ∧
      ∀ other, edge? other es' = if other = sink then some a' else edge? other es := by
  induction es generalizing es' with
  | nil => exact absurd h nofun
  | cons e es ih =>
    rw [modifyEdge] at h
    by_cases he : e.1 = sink
    · rw [if_pos he] at h
      cases hf : f e.2 with
      | error err => rw [hf] at h; exact absurd h nofun
      | ok a' =>
        simp only [hf, Except.ok.injEq] at h
        subst h
        refine ⟨e.2, a', by rw [edge?_cons, if_pos he], hf, rfl, fun other => ?_⟩
        rw [edge?_cons, edge?_cons]
        by_cases ho : other = sink
        · rw [if_pos (he.trans ho.symm), if_pos ho]
        · rw [if_neg (fun h => ho (h.symm.trans he)), if_neg ho, if_neg (fun h => ho (h.symm.trans he))]
    · rw [if_neg he] at h
      cases hrest : modifyEdge sink f es with
      | error err => rw [hrest] at h; exact absurd h nofun
      | ok rest =>
        simp only [hrest, Except.ok.injEq] at h
        subst h
        obtain ⟨a, a', ha, hf, hmap, hall⟩ := ih hrest
        refine ⟨a, a', by rw [edge?_cons, if_neg he]; exact ha, hf, by rw [List.map_cons, List.map_cons, hmap], fun other => ?_⟩
        rw [edge?_cons, edge?_cons, hall other]
        by_cases ho : other = sink
        · rw [if_pos ho, if_neg (fun h => he (h.trans ho)), if_pos ho]
        · rw [if_neg ho, if_neg ho]

theorem edgesSorted_iff : EdgesSorted es ↔ (es.map Prod.fst).Pairwise (· < ·) := List.pairwise_map.symm

theorem modifyEdge_sorted {f : Attributes → Except ExecutionError Attributes} (h : modifyEdge sink f es = .ok es')
    (hs : EdgesSorted es) : EdgesSorted es' := by
  obtain ⟨-, -, -, -, hmap, -⟩ := modifyEdge_ok h
  rw [edgesSorted_iff, hmap]
  exact edgesSorted_iff.mp hs

end Edges

/-! ## The graph -/

structure Graph where
  nodes : List GraphNode

namespace Graph

def empty : Graph := ⟨[]⟩

def addGraphNode (g : Graph) (attributes : Attributes) : Graph := ⟨g.nodes ++ [⟨[], attributes⟩]⟩

/-- Change one node; to index a node that is not there panics. -/
def updateNode (g : Graph) (n : GraphNodeRef) (f : GraphNode → Except ExecutionError GraphNode) : Except ExecutionError Graph :=
  match g.nodes[n]? with
  | none => .error .panicked
  | some node =>
    match f node with
    | .error e => .error e
    | .ok node' => .ok ⟨g.nodes.set n node'⟩

def addNodeAttribute (g : Graph) (n : GraphNodeRef) (name : Identifier) (value : Value) : Except ExecutionError Graph :=
  g.updateNode n fun node =>
    match node.attributes.add name value with
    | .error e => .error e
    | .ok a => .ok { node with attributes := a }

/-- Change the attributes of an edge that is there. -/
def updateEdge (g : Graph) (source sink : GraphNodeRef) (f : Attributes → Except ExecutionError Attributes) :
    Except ExecutionError Graph :=
  g.updateNode source fun node =>
    match modifyEdge sink f node.outgoingEdges with
    | .error e => .error e
    | .ok es => .ok { node with outgoingEdges := es }

def addEdgeAttribute (g : Graph) (source sink : GraphNodeRef) (name : Identifier) (value : Value) : Except ExecutionError Graph :=
  g.updateEdge source sink fun a => a.add name value

/-- Add an edge, unless it is there, and change its attributes. -/
def addEdgeWith (g : Graph) (source sink : GraphNodeRef) (f : Attributes → Except ExecutionError Attributes) :
    Except ExecutionError Graph :=
  g.updateNode source fun node =>
    match modifyEdge sink f (addEdge sink node.outgoingEdges) with
    | .error e => .error e
    | .ok es => .ok { node with outgoingEdges := es }

/-- Every node's edges are sorted by sink, one to a sink. -/
def Sorted (g : Graph) : Prop := ∀ node ∈ g.nodes, EdgesSorted node.outgoingEdges

variable {g g' : Graph} {n : GraphNodeRef} {f : GraphNode → Except ExecutionError GraphNode}

theorem updateNode_ok (h : g.updateNode n f = .ok g') :
    ∃ node node', g.nodes[n]? = some node ∧ f node = .ok node' ∧ g' = ⟨g.nodes.set n node'⟩ := by
  unfold updateNode at h
  cases hn : g.nodes[n]? with
  | none => rw [hn] at h; exact absurd h nofun
  | some node =>
    cases hf : f node with
    | error e => simp only [hn, hf] at h; exact absurd h nofun
    | ok node' =>
      simp only [hn, hf, Except.ok.injEq] at h
      exact ⟨node, node', rfl, hf, h.symm⟩

theorem updateNode_of_ok {node node' : GraphNode} (hn : g.nodes[n]? = some node) (hf : f node = .ok node') :
    g.updateNode n f = .ok ⟨g.nodes.set n node'⟩ := by
  unfold updateNode
  simp only [hn, hf]

theorem sorted_addGraphNode (hg : g.Sorted) (attributes : Attributes) : (g.addGraphNode attributes).Sorted := by
  intro node hnode
  rcases List.mem_append.mp hnode with hnode | hnode
  · exact hg node hnode
  · rw [List.mem_singleton.mp hnode]
    exact List.Pairwise.nil

theorem sorted_updateNode (hg : g.Sorted) (hf : ∀ node node', EdgesSorted node.outgoingEdges → f node = .ok node' →
    EdgesSorted node'.outgoingEdges) (h : g.updateNode n f = .ok g') : g'.Sorted := by
  obtain ⟨node, node', hn, hnode, rfl⟩ := updateNode_ok h
  intro a ha
  rcases List.mem_or_eq_of_mem_set ha with ha | rfl
  · exact hg a ha
  · exact hf node a (hg node (List.mem_of_getElem? hn)) hnode

theorem sorted_addNodeAttribute {name : Identifier} {value : Value} (hg : g.Sorted)
    (h : g.addNodeAttribute n name value = .ok g') : g'.Sorted := by
  refine sorted_updateNode hg (fun node node' hs hf => ?_) h
  split at hf
  · exact absurd hf nofun
  · obtain rfl := Except.ok.inj hf
    exact hs

theorem sorted_updateEdge {source sink : GraphNodeRef} {f : Attributes → Except ExecutionError Attributes} (hg : g.Sorted)
    (h : g.updateEdge source sink f = .ok g') : g'.Sorted := by
  refine sorted_updateNode hg (fun node node' hs hf => ?_) h
  split at hf
  · exact absurd hf nofun
  next es hes =>
    obtain rfl := Except.ok.inj hf
    exact modifyEdge_sorted hes hs

theorem sorted_addEdgeWith {source sink : GraphNodeRef} {f : Attributes → Except ExecutionError Attributes} (hg : g.Sorted)
    (h : g.addEdgeWith source sink f = .ok g') : g'.Sorted := by
  refine sorted_updateNode hg (fun node node' hs hf => ?_) h
  split at hf
  · exact absurd hf nofun
  next es hes =>
    obtain rfl := Except.ok.inj hf
    exact modifyEdge_sorted hes (addEdge_sorted hs)

end Graph

end CodeQuery.Tsg
