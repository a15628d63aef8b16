/-
  CodeQuery.Tsg.EdgesFirst — a graph that is built statement by statement, and the same graph
  built from its nodes with the edges first.

  The strict execution adds nodes, edges and attributes in the order of the statements. The lazy
  one has the nodes only, then adds all edges, each with its debug attributes, and then all
  other attributes. An edge that is there already keeps its attributes in the one and is given
  its debug attributes anew in the other.

  Proved: both orders come to the same graph as long as the first one succeeds, whatever node,
  edge or attribute is added (`EdgesFirst.addGraphNode`, `EdgesFirst.createEdge`,
  `EdgesFirst.addition`). An edge is only created again at its own place in the rules, or its
  debug attribute would have clashed.
-/

import CodeQuery.Tsg.Ast
import CodeQuery.Tsg.GraphOps

namespace CodeQuery.Tsg

open Data

/-! ## Finding edges -/

section Edges

variable {sink : Nat} {es : List (Nat × Attributes)} {a : Attributes}

/-- To add an edge that is there changes nothing. -/
theorem addEdge_self (hs : EdgesSorted es) (h : edge? sink es = some a) : addEdge sink es = es := by
  induction es with
  | nil => simp [edge?] at h
  | cons e es ih =>
    obtain ⟨hlt, hes⟩ := List.pairwise_cons.mp hs
    rw [edge?_cons] at h
    rw [addEdge]
    by_cases he : e.1 = sink
    · rw [if_neg (show ¬ e.1 < sink by omega), if_pos he]
    · rw [if_neg he] at h
      have hless : e.1 < sink := by
        by_contra hnot
        rw [edge?_eq_none_of_lt fun e' he' => Nat.lt_of_le_of_lt (Nat.not_lt.mp hnot) (hlt e' he')] at h
        simp at h
      rw [if_pos hless, ih hes h]

/-- Only the attributes of the edge matter to a change of it. -/
theorem modifyEdge_congr {f k : Attributes → Except ExecutionError Attributes} (h : edge? sink es = some a) (hf : f a = k a) :
    modifyEdge sink f es = modifyEdge sink k es := by
  induction es with
  | nil => exact absurd h nofun
  | cons e es ih =>
    rw [edge?_cons] at h
    rw [modifyEdge, modifyEdge]
    by_cases he : e.1 = sink
    · rw [if_pos he] at h
      rw [if_pos he, if_pos he, Option.some.inj h, hf]
    · rw [if_neg he] at h
      rw [if_neg he, if_neg he, ih h]

theorem modifyEdge_self {f : Attributes → Except ExecutionError Attributes} (h : edge? sink es = some a) (hf : f a = .ok a) :
    modifyEdge sink f es = .ok es := by
  induction es with
  | nil => exact absurd h nofun
  | cons e es ih =>
    rw [edge?_cons] at h
    rw [modifyEdge]
    by_cases he : e.1 = sink
    · rw [if_pos he] at h
      obtain rfl := Option.some.inj h
      rw [if_pos he, hf]
    · rw [if_neg he] at h
      rw [if_neg he, ih h]

end Edges

namespace Graph

variable {g g' : Graph} {n source sink : GraphNodeRef}

/-- The attributes of an edge, if there is one. -/
def edge? (g : Graph) (source sink : GraphNodeRef) : Option Attributes :=
  g.nodes[source]?.bind fun node => Tsg.edge? sink node.outgoingEdges

theorem edge?_of_node {node : GraphNode} (h : g.nodes[source]? = some node) :
    g.edge? source sink = Tsg.edge? sink node.outgoingEdges := by
  rw [edge?, h]
  rfl

theorem updateNode_length {f : GraphNode → Except ExecutionError GraphNode} (h : g.updateNode n f = .ok g') :
    g'.nodes.length = g.nodes.length := by
  obtain ⟨node, node', -, -, rfl⟩ := updateNode_ok h
  exact List.length_set

/-- Where a node is changed, its edges may have been. -/
theorem edge?_updateNode {f : GraphNode → Except ExecutionError GraphNode} (h : g.updateNode n f = .ok g') :
    ∃ node node', g.nodes[n]? = some node ∧ f node = .ok node' ∧ g'.nodes[n]? = some node' ∧
      ∀ source sink, source ≠ n → g'.edge? source sink = g.edge? source sink := by
  obtain ⟨node, node', hn, hf, rfl⟩ := updateNode_ok h
  refine ⟨node, node', hn, hf, List.getElem?_set_self (List.getElem?_eq_some_iff.mp hn).1, fun source sink hne => ?_⟩
  rw [edge?, edge?, List.getElem?_set_ne (Ne.symm hne)]

/-- What an edge is after a change of its attributes, the edge added unless it is there. -/
theorem addEdgeWith_ok {f : Attributes → Except ExecutionError Attributes} (hg : g.Sorted)
    (h : g.addEdgeWith source sink f = .ok g') :
    ∃ a, f ((g.edge? source sink).getD .empty) = .ok a ∧ g'.edge? source sink = some a ∧
      ∀ s t, ¬ (s = source ∧ t = sink) → g'.edge? s t = g.edge? s t := by
  obtain ⟨node, node', hn, hf, hn', hother⟩ := edge?_updateNode h
  split at hf
  · exact absurd hf nofun
  next es hes =>
    obtain rfl := Except.ok.inj hf
    obtain ⟨a, a', ha, hfa, -, hall⟩ := modifyEdge_ok hes
    have hsorted := hg node (List.mem_of_getElem? hn)
    rw [edge?_addEdge hsorted, if_pos rfl, Option.some.injEq] at ha
    refine ⟨a', ?_, ?_, fun s t hne => ?_⟩
    · rw [edge?_of_node hn, ha]
      exact hfa
    · rw [edge?_of_node hn', hall, if_pos rfl]
    · by_cases hs : s = source
      · subst hs
        have ht : t ≠ sink := fun ht => hne ⟨rfl, ht⟩
        rw [edge?_of_node hn', edge?_of_node hn, hall, if_neg ht, edge?_addEdge hsorted, if_neg ht]
      · exact hother s t hs

/-- A change that leaves an edge's attributes as they are leaves the graph as it is. -/
theorem addEdgeWith_self {f : Attributes → Except ExecutionError Attributes} {a : Attributes} (hg : g.Sorted)
    (h : g.edge? source sink = some a) (hf : f a = .ok a) : g.addEdgeWith source sink f = .ok g := by
  cases hn : g.nodes[source]? with
  | none =>
    rw [edge?, hn] at h
    exact absurd h nofun
  | some node =>
    rw [edge?_of_node hn] at h
    have hes : modifyEdge sink f (addEdge sink node.outgoingEdges) = .ok node.outgoingEdges := by
      rw [addEdge_self (hg node (List.mem_of_getElem? hn)) h]
      exact modifyEdge_self h hf
    obtain ⟨hlt, hget⟩ := List.getElem?_eq_some_iff.mp hn
    refine (updateNode_of_ok hn (?_ : (_ : Except ExecutionError GraphNode) = .ok node)).trans ?_
    · simp only [hes]
    · rw [← hget, List.set_getElem_self]

/-- To add an edge that is not there is to set it. -/
theorem setEdge_of_new {f : Attributes → Except ExecutionError Attributes} {a : Attributes} (hg : g.Sorted)
    (h : g.edge? source sink = none) (hf : f .empty = .ok a) (hadd : g.addEdgeWith source sink f = .ok g') :
    g.setEdge source sink a = .ok g' := by
  obtain ⟨node, node', hn, hok, rfl⟩ := updateNode_ok hadd
  rw [edge?_of_node hn] at h
  have hedge : Tsg.edge? sink (addEdge sink node.outgoingEdges) = some .empty := by
    rw [edge?_addEdge (hg node (List.mem_of_getElem? hn)), if_pos rfl, h]
    rfl
  refine updateNode_of_ok hn ?_
  rw [modifyEdge_congr (k := f) hedge hf.symm]
  exact hok

end Graph

/-! ## Attributes that are added -/

namespace Addition

variable {a : Addition} {g g' : Graph}

/-- An addition leaves every edge, with the attributes that it has. -/
theorem apply_edge? (h : a.apply g = .ok g') (source sink : GraphNodeRef) :
    (g.edge? source sink = none ∧ g'.edge? source sink = none ∧ ¬ (a.source = source ∧ a.sink = some sink)) ∨
      ∃ x x', g.edge? source sink = some x ∧ g'.edge? source sink = some x' ∧ ∀ name v, x name = some v → x' name = some v := by
  rw [apply_eq] at h
  obtain ⟨node, node', hn, hf, hn', hother⟩ := Graph.edge?_updateNode h
  have hsame : g'.edge? source sink = g.edge? source sink → ¬ (a.source = source ∧ a.sink = some sink) →
    (g.edge? source sink = none ∧
      g'.edge? source sink = none ∧ ¬ (a.source = source ∧ a.sink = some sink)) ∨
      ∃ x x', g.edge? source sink = some x ∧ g'.edge? source sink = some x' ∧ ∀ name v, x name = some v → x' name = some v := by
    intro heq hne
    cases hx : g.edge? source sink with
    | none => exact .inl ⟨rfl, heq.trans hx, hne⟩
    | some x => exact .inr ⟨x, x, rfl, heq.trans hx, fun _ _ hv => hv⟩
  by_cases hs : source = a.source
  · subst hs
    unfold change at hf
    cases ht : a.sink with
    | none =>
      simp only [ht] at hf
      obtain ⟨attrs, -, rfl⟩ := except_map_eq_ok.mp hf
      refine ht ▸ hsame ?_ fun h => absurd (ht.symm.trans h.2) nofun
      rw [Graph.edge?_of_node hn', Graph.edge?_of_node hn]
    | some t =>
      simp only [ht] at hf
      obtain ⟨es, hes, rfl⟩ := except_map_eq_ok.mp hf
      obtain ⟨x, x', hx, hadd, -, hall⟩ := modifyEdge_ok hes
      by_cases hsink : sink = t
      · subst hsink
        refine .inr ⟨x, x', ?_, ?_, fun name v hv => Attributes.add_keeps hadd hv⟩
        · rw [Graph.edge?_of_node hn, hx]
        · rw [Graph.edge?_of_node hn', hall, if_pos rfl]
      · refine ht ▸ hsame ?_ fun h => hsink (Option.some.inj (ht.symm.trans h.2)).symm
        rw [Graph.edge?_of_node hn', Graph.edge?_of_node hn, hall, if_neg hsink]
  · exact hsame (hother source sink hs) fun h => hs h.1.symm

theorem apply_length (h : a.apply g = .ok g') : g'.nodes.length = g.nodes.length := by
  rw [apply_eq] at h
  exact Graph.updateNode_length h

theorem apply_sorted (hg : g.Sorted) (h : a.apply g = .ok g') : g'.Sorted := by
  unfold apply at h
  split at h
  · exact Graph.sorted_addNodeAttribute hg h
  · exact Graph.sorted_updateEdge hg h

end Addition

section Additions

variable {as : List Addition} {g g' : Graph}

theorem additions_sorted (hg : g.Sorted) (h : steps (as.map Addition.apply) g = .ok g') : g'.Sorted := by
  induction as generalizing g with
  | nil => exact Except.ok.inj h ▸ hg
  | cons a as ih =>
    obtain ⟨g₁, h₁, hrest⟩ := steps_cons_eq_ok.mp h
    exact ih (Addition.apply_sorted hg h₁) hrest

/-- Additions leave every edge, and none of them is to an edge that is not there. -/
theorem additions_edge? (h : steps (as.map Addition.apply) g = .ok g') (source sink : GraphNodeRef) :
    (g.edge? source sink = none ∧ g'.edge? source sink = none ∧ ∀ a ∈ as, ¬ (a.source = source ∧ a.sink = some sink)) ∨
      ∃ x x', g.edge? source sink = some x ∧ g'.edge? source sink = some x' ∧ ∀ name v, x name = some v → x' name = some v := by
  induction as generalizing g with
  | nil =>
    obtain rfl := Except.ok.inj h
    cases hx : g.edge? source sink with
    | none => exact .inl ⟨rfl, rfl, fun _ h => absurd h List.not_mem_nil⟩
    | some x => exact .inr ⟨x, x, rfl, rfl, fun _ _ hv => hv⟩
  | cons a as ih =>
    obtain ⟨g₁, h₁, hrest⟩ := steps_cons_eq_ok.mp h
    rcases Addition.apply_edge? h₁ source sink with ⟨hnone, hnone₁, hne⟩ | ⟨x, x₁, hx, hx₁, hkeep⟩
    · rcases ih hrest with ⟨-, hnone', hall⟩ | ⟨y, -, hy, -⟩
      · refine .inl ⟨hnone, hnone', fun b hb => ?_⟩
        rcases List.mem_cons.mp hb with rfl | hb
        · exact hne
        · exact hall b hb
      · rw [hnone₁] at hy
        exact absurd hy nofun
    · rcases ih hrest with ⟨hnone, -⟩ | ⟨y, x', hy, hx', hkeep'⟩
      · rw [hx₁] at hnone
        exact absurd hnone nofun
      · obtain rfl := Option.some.inj (hx₁.symm.trans hy)
        exact .inr ⟨x, x', hx, hx', fun name v hv => hkeep' name v (hkeep name v hv)⟩

end Additions

/-! ## The two orders -/

/-- An edge to set, with its attributes. -/
abbrev EdgeSetting : Type := GraphNodeRef × GraphNodeRef × Attributes

def EdgeSetting.apply (e : EdgeSetting) : Graph → Except ExecutionError Graph := Graph.setEdge e.1 e.2.1 e.2.2

/-- A graph, built from its nodes by its edges first, then the other attributes. In between, every
    edge has the debug attributes of a place in the rules. -/
structure EdgesFirst (config : Config) (es : List EdgeSetting) (as : List Addition) (nodes mid g : Graph) : Prop where
  edges : steps (es.map EdgeSetting.apply) nodes = .ok mid
  additions : steps (as.map Addition.apply) mid = .ok g
  sorted : mid.Sorted
  debug : ∀ source sink a, mid.edge? source sink = some a → ∃ location, edgeDebugAttrs config location .empty = .ok a
  length : nodes.nodes.length = g.nodes.length

namespace EdgesFirst

variable {config : Config} {es : List EdgeSetting} {as : List Addition} {nodes mid g g' : Graph}

theorem init (h : ∀ node ∈ g.nodes, node.outgoingEdges = []) : EdgesFirst config [] [] g g g where
  edges := rfl
  additions := rfl
  sorted node hnode := by
    rw [h node hnode]
    exact List.Pairwise.nil
  debug source sink a ha := by
    cases hn : g.nodes[source]? with
    | none =>
      rw [Graph.edge?, hn] at ha
      exact absurd ha nofun
    | some node =>
      rw [Graph.edge?_of_node hn, h node (List.mem_of_getElem? hn)] at ha
      exact absurd ha nofun
  length := rfl

theorem steps_append_node {α : Type} {f : α → Graph → Except ExecutionError Graph}
    (hf : ∀ a g g' attributes, f a g = .ok g' → f a (g.addGraphNode attributes) = .ok (g'.addGraphNode attributes)) {l : List α}
    (attributes : Attributes) (h : steps (l.map f) g = .ok g') :
    steps (l.map f) (g.addGraphNode attributes) = .ok (g'.addGraphNode attributes) := by
  induction l generalizing g with
  | nil => exact Except.ok.inj h ▸ rfl
  | cons a l ih =>
    obtain ⟨g₁, h₁, hrest⟩ := steps_cons_eq_ok.mp h
    exact steps_cons_eq_ok.mpr ⟨_, hf a g g₁ attributes h₁, ih hrest⟩

/-- A node is added. -/
theorem addGraphNode (h : EdgesFirst config es as nodes mid g) (attributes : Attributes) :
    EdgesFirst config es as (nodes.addGraphNode attributes) (mid.addGraphNode attributes) (g.addGraphNode attributes) where
  edges := steps_append_node (fun _ _ _ attributes he => Graph.updateNode_append attributes he) attributes h.edges
  additions := steps_append_node (fun _ _ _ attributes ha => Addition.apply_append attributes ha) attributes h.additions
  sorted := Graph.sorted_addGraphNode h.sorted attributes
  debug source sink a ha := by
    by_cases hlt : source < mid.nodes.length
    · refine h.debug source sink a ?_
      rw [Graph.edge?, Graph.addGraphNode, List.getElem?_append_left hlt] at ha
      exact ha
    · rw [Graph.edge?, Graph.addGraphNode, List.getElem?_append_right (Nat.not_lt.mp hlt)] at ha
      cases hsub : source - mid.nodes.length with
      | zero =>
        rw [hsub] at ha
        simp [Tsg.edge?] at ha
      | succ k =>
        rw [hsub] at ha
        simp at ha
  length := by
    rw [Graph.addGraphNode, Graph.addGraphNode, List.length_append, List.length_append, h.length]

/-- An attribute is added. -/
theorem addition (h : EdgesFirst config es as nodes mid g) {a : Addition} (ha : a.apply g = .ok g') :
    EdgesFirst config es (as ++ [a]) nodes mid g' where
  edges := h.edges
  additions := by
    rw [List.map_append]
    exact steps_append_eq_ok.mpr ⟨g, h.additions, steps_singleton.trans ha⟩
  sorted := h.sorted
  debug := h.debug
  length := h.length.trans (Addition.apply_length ha).symm

/-- Several attributes are added. -/
theorem additions_append (h : EdgesFirst config es as nodes mid g) {bs : List Addition}
    (hbs : steps (bs.map Addition.apply) g = .ok g') :
    EdgesFirst config es (as ++ bs) nodes mid g' := by
  induction bs generalizing as g with
  | nil =>
    obtain rfl := Except.ok.inj hbs
    rwa [List.append_nil]
  | cons b bs ih =>
    obtain ⟨g₁, hb, hrest⟩ := steps_cons_eq_ok.mp hbs
    rw [List.append_cons]
    exact ih (h.addition hb) hrest

theorem edgeDebugAttrs_empty (config : Config) (location : Location) : ∃ a, edgeDebugAttrs config location .empty = .ok a := by
  unfold edgeDebugAttrs Attributes.addOptional
  cases config.locationAttr with
  | none => exact ⟨_, rfl⟩
  | some name => exact ⟨_, rfl⟩

/-- An edge that is there can only be created again at a place with its debug attributes, and keeps
    its attributes. -/
theorem edgeDebugAttrs_again {location location' : Location} {x y y' : Attributes}
    (hx : edgeDebugAttrs config location' .empty = .ok x) (hxy : ∀ name v, x name = some v → y name = some v)
    (hy : edgeDebugAttrs config location y = .ok y') :
    edgeDebugAttrs config location .empty = .ok x ∧ y' = y := by
  unfold edgeDebugAttrs Attributes.addOptional at hx hy ⊢
  cases hname : config.locationAttr with
  | none =>
    simp only [hname, Except.ok.injEq] at hx hy ⊢
    exact ⟨hx, hy.symm⟩
  | some name =>
    simp only [hname] at hx hy ⊢
    have hthere := hxy name _ (Attributes.add_self hx)
    rcases Attributes.add_ok hy with ⟨hnone, -⟩ | ⟨hsome, heq⟩
    · rw [hthere] at hnone
      exact absurd hnone nofun
    · rw [hthere, Option.some.injEq] at hsome
      rw [← hsome]
      exact ⟨hx, heq⟩

/-- An edge is added, or is there already. -/
theorem createEdge (h : EdgesFirst config es as nodes mid g) {source sink : GraphNodeRef} {location : Location}
    (hadd : g.addEdgeWith source sink (edgeDebugAttrs config location) = .ok g') :
    ∃ a mid', edgeDebugAttrs config location .empty = .ok a ∧ EdgesFirst config (es ++ [(source, sink, a)]) as nodes mid' g' := by
  have hg : g.Sorted := additions_sorted h.sorted h.additions
  obtain ⟨b, hb, hb', hother⟩ := Graph.addEdgeWith_ok hg hadd
  have hlength : nodes.nodes.length = g'.nodes.length := h.length.trans (Graph.updateNode_length hadd).symm
  rcases additions_edge? h.additions source sink with ⟨hnone, hnone', hne⟩ | ⟨x, y, hx, hy, hkeep⟩
  · obtain ⟨a, ha⟩ := edgeDebugAttrs_empty config location
    have hset : g.setEdge source sink a = .ok g' := Graph.setEdge_of_new hg hnone' ha hadd
    have hswap : ∀ f ∈ as.map Addition.apply, Swaps f (Graph.setEdge source sink a) := by
      intro f hf
      obtain ⟨c, hc, rfl⟩ := List.mem_map.mp hf
      exact c.swaps_setEdge a (hne c hc)
    obtain ⟨mid', hmid', hadditions⟩ := steps_swap hswap h.additions hset
    refine ⟨a, mid', ha, ?_, hadditions, Graph.sorted_addEdgeWith h.sorted hmid', fun s t c hc => ?_, hlength⟩
    · rw [List.map_append]
      exact steps_append_eq_ok.mpr ⟨mid, h.edges, steps_singleton.trans hmid'⟩
    · obtain ⟨c', hc', hself, hrest⟩ := Graph.addEdgeWith_ok h.sorted hmid'
      by_cases hst : s = source ∧ t = sink
      · obtain ⟨rfl, rfl⟩ := hst
        rw [hself, Option.some.injEq] at hc
        exact ⟨location, by rw [ha, Except.ok.inj hc', hc]⟩
      · rw [hrest s t hst] at hc
        exact h.debug s t c hc
  · obtain ⟨location', hlocation'⟩ := h.debug source sink x hx
    rw [hy, Option.getD_some] at hb
    obtain ⟨ha, rfl⟩ := edgeDebugAttrs_again hlocation' hkeep hb
    have hsame : g.addEdgeWith source sink (edgeDebugAttrs config location) = .ok g := Graph.addEdgeWith_self hg hy hb
    obtain rfl : g = g' := Except.ok.inj (hsame.symm.trans hadd)
    have hmid : Graph.setEdge source sink x mid = .ok mid := Graph.addEdgeWith_self h.sorted hx rfl
    refine ⟨x, mid, ha, ?_, h.additions, h.sorted, h.debug, h.length⟩
    rw [List.map_append]
    exact steps_append_eq_ok.mpr ⟨mid, h.edges, steps_singleton.trans hmid⟩

end EdgesFirst

end CodeQuery.Tsg
