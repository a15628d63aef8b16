/-
  CodeQuery.Tsg.GraphOps — which changes of a graph can be made in another order.

  Two attributes can be added in either order, to the same or to different nodes and edges
  (`Addition.swaps`); an attribute that was added before an edge was created can be added
  after it (`Addition.swaps_setEdge`); and a new node at the end is out of the way of all of
  these (`Addition.apply_append`).
-/

import CodeQuery.Data.Results
import CodeQuery.Data.Steps
import CodeQuery.Tsg.Graph

namespace CodeQuery.Tsg

open Data

namespace Attributes

/-- Two values are added in either order. -/
theorem add_swaps (name name' : Identifier) (value value' : Value) :
    Swaps (fun a : Attributes => a.add name value) (fun a => a.add name' value') := by
  intro a a₁ a₂ (h : a.add name value = .ok a₁) (h' : a₁.add name' value' = .ok a₂)
  by_cases hn : name' = name
  · subst hn
    have hsame : value' = value := by
      rcases add_ok h' with ⟨hnone, -⟩ | ⟨hsome, -⟩
      · rw [add_self h] at hnone
        exact absurd hnone nofun
      · rw [add_self h] at hsome
        exact (Option.some.inj hsome).symm
    subst hsame
    have : a₂ = a₁ := Except.ok.inj (h'.symm.trans (add_of_eq (add_self h)))
    refine ⟨a₁, h, ?_⟩
    rw [this]
    exact add_of_eq (add_self h)
  · rcases add_ok h with ⟨hnone, rfl⟩ | ⟨hsome, rfl⟩
    · rcases add_ok h' with ⟨hnone', rfl⟩ | ⟨hsome', rfl⟩
      · rw [Function.update_of_ne hn] at hnone'
        refine ⟨Function.update a name' (some value'), by simp [add, hnone'], ?_⟩
        have : Function.update a name' (some value') name = none := by rw [Function.update_of_ne (Ne.symm hn), hnone]
        simp only [add, this, Function.update_comm hn]
      · rw [Function.update_of_ne hn] at hsome'
        exact ⟨a, add_of_eq hsome', h⟩
    · refine ⟨a₂, h', ?_⟩
      exact add_of_eq (add_keeps h' hsome)

end Attributes

section Edges

variable {sink sink' : Nat} {f f' : Attributes → Except ExecutionError Attributes}

theorem modifyEdge_cons_eq (e : Nat × Attributes) (es : List (Nat × Attributes)) (h : e.1 = sink) :
    modifyEdge sink f (e :: es) = (f e.2).map fun a => (e.1, a) :: es := by
  rw [modifyEdge, if_pos h]
  cases f e.2 <;> rfl

theorem modifyEdge_cons_ne (e : Nat × Attributes) (es : List (Nat × Attributes)) (h : e.1 ≠ sink) :
    modifyEdge sink f (e :: es) = (modifyEdge sink f es).map (e :: ·) := by
  rw [modifyEdge, if_neg h]
  cases modifyEdge sink f es <;> rfl

/-- Changes of one edge swap as the changes of its attributes do. -/
theorem modifyEdge_swaps (h : Swaps f f') : Swaps (modifyEdge sink f) (modifyEdge sink f') := by
  intro es
  induction es with
  | nil => exact fun _ _ hf _ => absurd hf nofun
  | cons e es ih =>
    intro es₁ es₂ hf hf'
    by_cases he : e.1 = sink
    · rw [modifyEdge_cons_eq e es he] at hf ⊢
      obtain ⟨a, ha, rfl⟩ := except_map_eq_ok.mp hf
      rw [modifyEdge_cons_eq (e.1, a) es he] at hf'
      obtain ⟨a', ha', rfl⟩ := except_map_eq_ok.mp hf'
      obtain ⟨b, hb, hb'⟩ := h e.2 a a' ha ha'
      refine ⟨(e.1, b) :: es, except_map_eq_ok.mpr ⟨b, hb, rfl⟩, ?_⟩
      rw [modifyEdge_cons_eq (e.1, b) es he]
      exact except_map_eq_ok.mpr ⟨a', hb', rfl⟩
    · rw [modifyEdge_cons_ne e es he] at hf ⊢
      obtain ⟨r, hr, rfl⟩ := except_map_eq_ok.mp hf
      rw [modifyEdge_cons_ne e r he] at hf'
      obtain ⟨r', hr', rfl⟩ := except_map_eq_ok.mp hf'
      obtain ⟨t, ht, ht'⟩ := ih r r' hr hr'
      refine ⟨e :: t, except_map_eq_ok.mpr ⟨t, ht, rfl⟩, ?_⟩
      rw [modifyEdge_cons_ne e t he]
      exact except_map_eq_ok.mpr ⟨r', ht', rfl⟩

/-- Changes of different edges swap. -/
theorem modifyEdge_swaps_of_ne (hne : sink ≠ sink') : Swaps (modifyEdge sink f) (modifyEdge sink' f') := by
  intro es
  induction es with
  | nil => exact fun _ _ hf _ => absurd hf nofun
  | cons e es ih =>
    intro es₁ es₂ hf hf'
    by_cases he : e.1 = sink
    · have he' : e.1 ≠ sink' := fun h => hne (he.symm.trans h)
      rw [modifyEdge_cons_eq e es he] at hf
      obtain ⟨a, ha, rfl⟩ := except_map_eq_ok.mp hf
      rw [modifyEdge_cons_ne (e.1, a) es he'] at hf'
      obtain ⟨r, hr, rfl⟩ := except_map_eq_ok.mp hf'
      refine ⟨e :: r, by rw [modifyEdge_cons_ne e es he', hr]; rfl, ?_⟩
      rw [modifyEdge_cons_eq e r he, ha]
      rfl
    · rw [modifyEdge_cons_ne e es he] at hf
      obtain ⟨r, hr, rfl⟩ := except_map_eq_ok.mp hf
      by_cases he' : e.1 = sink'
      · rw [modifyEdge_cons_eq e r he'] at hf'
        obtain ⟨a, ha, rfl⟩ := except_map_eq_ok.mp hf'
        refine ⟨(e.1, a) :: es, by rw [modifyEdge_cons_eq e es he', ha]; rfl, ?_⟩
        rw [modifyEdge_cons_ne (e.1, a) es he, hr]
        rfl
      · rw [modifyEdge_cons_ne e r he'] at hf'
        obtain ⟨r', hr', rfl⟩ := except_map_eq_ok.mp hf'
        obtain ⟨t, ht, ht'⟩ := ih r r' hr hr'
        refine ⟨e :: t, by rw [modifyEdge_cons_ne e es he', ht]; rfl, ?_⟩
        rw [modifyEdge_cons_ne e t he, ht']
        rfl

/-- A change of an edge does not move the edges. -/
theorem modifyEdge_addEdge_swaps (hne : sink ≠ sink') :
    Swaps (modifyEdge sink f) (fun es => .ok (addEdge sink' es)) := by
  intro es
  induction es with
  | nil => exact fun _ _ hf _ => absurd hf nofun
  | cons e es ih =>
    intro es₁ es₂ hf hadd
    obtain rfl := Except.ok.inj hadd
    refine ⟨_, rfl, ?_⟩
    by_cases he : e.1 = sink
    · rw [modifyEdge_cons_eq e es he] at hf
      obtain ⟨a, ha, rfl⟩ := except_map_eq_ok.mp hf
      rw [addEdge, addEdge]
      split
      · rw [modifyEdge_cons_eq e _ he, ha]
        rfl
      · split
        next heq => exact absurd (he.symm.trans heq) hne
        · rw [modifyEdge_cons_ne _ _ (Ne.symm hne), modifyEdge_cons_eq e es he, ha]
          rfl
    · rw [modifyEdge_cons_ne e es he] at hf
      obtain ⟨r, hr, rfl⟩ := except_map_eq_ok.mp hf
      rw [addEdge, addEdge]
      split
      · obtain ⟨t, ht, ht'⟩ := ih r _ hr rfl
        rw [modifyEdge_cons_ne e _ he, Except.ok.inj ht, ht']
        rfl
      · split
        · rw [modifyEdge_cons_ne e es he, hr]
          rfl
        · rw [modifyEdge_cons_ne _ _ (Ne.symm hne), modifyEdge_cons_ne e es he, hr]
          rfl

end Edges

namespace Graph

variable {n m : Nat} {f f' : GraphNode → Except ExecutionError GraphNode}

/-- Changes of different nodes swap. -/
theorem updateNode_swaps_of_ne (hne : n ≠ m) : Swaps (fun g : Graph => g.updateNode n f) (fun g => g.updateNode m f') := by
  intro g g₁ g₂ h h'
  obtain ⟨node, node₁, hn, hf, rfl⟩ := updateNode_ok h
  obtain ⟨node', node₂, hm, hf', rfl⟩ := updateNode_ok h'
  rw [List.getElem?_set_ne hne] at hm
  refine ⟨_, updateNode_of_ok hm hf', ?_⟩
  have hn' : (g.nodes.set m node₂)[n]? = some node := by rw [List.getElem?_set_ne (Ne.symm hne), hn]
  exact (updateNode_of_ok hn' hf).trans (by rw [List.set_comm _ _ hne])

/-- Changes of one node swap as functions of the node do. -/
theorem updateNode_swaps (h : Swaps f f') : Swaps (fun g : Graph => g.updateNode n f) (fun g => g.updateNode n f') := by
  intro g g₁ g₂ hf hf'
  obtain ⟨node, node₁, hn, hnode, rfl⟩ := updateNode_ok hf
  obtain ⟨node', node₂, hn', hnode', rfl⟩ := updateNode_ok hf'
  have hlt : n < g.nodes.length := (List.getElem?_eq_some_iff.mp hn).1
  rw [List.getElem?_set_self hlt, Option.some.injEq] at hn'
  subst hn'
  obtain ⟨node₃, h₃, h₃'⟩ := h node node₁ node₂ hnode hnode'
  refine ⟨_, updateNode_of_ok hn h₃, ?_⟩
  have hset : (g.nodes.set n node₃)[n]? = some node₃ := List.getElem?_set_self hlt
  exact (updateNode_of_ok hset h₃').trans (by rw [List.set_set, List.set_set])

/-- A node at the end is out of the way. -/
theorem updateNode_append {g g' : Graph} (attributes : Attributes) (h : g.updateNode n f = .ok g') :
    (g.addGraphNode attributes).updateNode n f = .ok (g'.addGraphNode attributes) := by
  obtain ⟨node, node', hn, hf, rfl⟩ := updateNode_ok h
  have hlt : n < g.nodes.length := (List.getElem?_eq_some_iff.mp hn).1
  have hn' : (g.addGraphNode attributes).nodes[n]? = some node := by rw [addGraphNode, List.getElem?_append_left hlt, hn]
  exact (updateNode_of_ok hn' hf).trans (by simp [addGraphNode, List.set_append_left _ _ hlt])

/-- Set the attributes of an edge, which is added unless it is there. -/
def setEdge (source sink : GraphNodeRef) (attributes : Attributes) (g : Graph) : Except ExecutionError Graph :=
  g.addEdgeWith source sink fun _ => .ok attributes

end Graph

/-- An attribute that is added to a node or an edge. -/
structure Addition where
  source : GraphNodeRef
  sink : Option GraphNodeRef
  name : Identifier
  value : Value

namespace Addition

def apply (a : Addition) (g : Graph) : Except ExecutionError Graph :=
  match a.sink with
  | none => g.addNodeAttribute a.source a.name a.value
  | some sink => g.addEdgeAttribute a.source sink a.name a.value

/-- What an addition does to its node. -/
def change (a : Addition) (node : GraphNode) : Except ExecutionError GraphNode :=
  match a.sink with
  | none => (node.attributes.add a.name a.value).map fun attrs => { node with attributes := attrs }
  | some sink => (modifyEdge sink (fun attrs => attrs.add a.name a.value) node.outgoingEdges).map fun es =>
    { node with outgoingEdges := es }

theorem apply_eq (a : Addition) : a.apply = fun g => g.updateNode a.source a.change := by
  funext g
  unfold apply change
  cases a.sink with
  | none =>
    simp only [Graph.addNodeAttribute]
    congr 1
    funext node
    cases node.attributes.add a.name a.value <;> rfl
  | some sink =>
    simp only [Graph.addEdgeAttribute, Graph.updateEdge]
    congr 1
    funext node
    cases modifyEdge sink (fun attrs => attrs.add a.name a.value) node.outgoingEdges <;> rfl

theorem change_swaps (a b : Addition) : Swaps a.change b.change := by
  intro node node₁ node₂ h h'
  unfold change at h h' ⊢
  cases hs : a.sink with
  | none =>
    simp only [hs] at h ⊢
    obtain ⟨attrs, ha, rfl⟩ := except_map_eq_ok.mp h
    cases ht : b.sink with
    | none =>
      simp only [ht] at h' ⊢
      obtain ⟨attrs', hb, rfl⟩ := except_map_eq_ok.mp h'
      obtain ⟨attrs₁, h₁, h₂⟩ := Attributes.add_swaps _ _ _ _ _ _ _ ha hb
      exact ⟨_, except_map_eq_ok.mpr ⟨attrs₁, h₁, rfl⟩, except_map_eq_ok.mpr ⟨attrs', h₂, rfl⟩⟩
    | some sink =>
      simp only [ht] at h' ⊢
      obtain ⟨es, hb, rfl⟩ := except_map_eq_ok.mp h'
      exact ⟨_, except_map_eq_ok.mpr ⟨es, hb, rfl⟩, except_map_eq_ok.mpr ⟨attrs, ha, rfl⟩⟩
  | some sink =>
    simp only [hs] at h ⊢
    obtain ⟨es, ha, rfl⟩ := except_map_eq_ok.mp h
    cases ht : b.sink with
    | none =>
      simp only [ht] at h' ⊢
      obtain ⟨attrs, hb, rfl⟩ := except_map_eq_ok.mp h'
      exact ⟨_, except_map_eq_ok.mpr ⟨attrs, hb, rfl⟩, except_map_eq_ok.mpr ⟨es, ha, rfl⟩⟩
    | some sink' =>
      simp only [ht] at h' ⊢
      obtain ⟨es', hb, rfl⟩ := except_map_eq_ok.mp h'
      have hswap : Swaps (modifyEdge sink fun attrs => attrs.add a.name a.value)
        (modifyEdge sink' fun attrs => attrs.add b.name b.value) := by
        by_cases hne : sink = sink'
        · subst hne
          exact modifyEdge_swaps (Attributes.add_swaps _ _ _ _)
        · exact modifyEdge_swaps_of_ne hne
      obtain ⟨es₁, h₁, h₂⟩ := hswap _ _ _ ha hb
      exact ⟨_, except_map_eq_ok.mpr ⟨es₁, h₁, rfl⟩, except_map_eq_ok.mpr ⟨es', h₂, rfl⟩⟩

/-- Attributes are added in either order. -/
theorem swaps (a b : Addition) : Swaps a.apply b.apply := by
  rw [apply_eq, apply_eq]
  by_cases h : a.source = b.source
  · rw [h]
    exact Graph.updateNode_swaps (change_swaps a b)
  · exact Graph.updateNode_swaps_of_ne h

/-- An attribute that is added before an edge is set can be added after it, if it is not one of the edge's. -/
theorem swaps_setEdge (a : Addition) {source sink : GraphNodeRef} (attributes : Attributes)
    (h : ¬ (a.source = source ∧ a.sink = some sink)) : Swaps a.apply (Graph.setEdge source sink attributes) := by
  rw [apply_eq]
  by_cases hs : a.source = source
  · subst hs
    refine Graph.updateNode_swaps fun node node₁ node₂ ha hset => ?_
    unfold change at ha ⊢
    cases ht : a.sink with
    | none =>
      simp only [ht] at ha ⊢
      obtain ⟨attrs, hattrs, rfl⟩ := except_map_eq_ok.mp ha
      simp only at hset
      cases hm : modifyEdge sink (fun _ => Except.ok attributes) (addEdge sink node.outgoingEdges) with
      | error e => rw [hm] at hset; exact absurd hset nofun
      | ok es =>
        rw [hm] at hset
        obtain rfl := Except.ok.inj hset
        exact ⟨_, rfl, except_map_eq_ok.mpr ⟨attrs, hattrs, rfl⟩⟩
    | some sink' =>
      simp only [ht] at ha ⊢
      obtain ⟨es, hes, rfl⟩ := except_map_eq_ok.mp ha
      have hne : sink' ≠ sink := fun e => h ⟨rfl, ht.trans (congrArg _ e)⟩
      have hset' : Swaps (modifyEdge sink' fun attrs => attrs.add a.name a.value)
          (modifyEdge sink fun _ => Except.ok attributes) := modifyEdge_swaps_of_ne hne
      have hswap := swaps_bind (modifyEdge_addEdge_swaps (f := fun attrs => attrs.add a.name a.value) hne) hset'
      simp only at hset
      cases hm : modifyEdge sink (fun _ => Except.ok attributes) (addEdge sink es) with
      | error e => rw [hm] at hset; exact absurd hset nofun
      | ok es' =>
        rw [hm] at hset
        obtain rfl := Except.ok.inj hset
        obtain ⟨es₁, h₁, h₂⟩ := hswap _ _ _ hes hm
        have h₁ : modifyEdge sink (fun _ => Except.ok attributes) (addEdge sink node.outgoingEdges) = .ok es₁ := h₁
        exact ⟨{ node with outgoingEdges := es₁ }, by rw [h₁], except_map_eq_ok.mpr ⟨es', h₂, rfl⟩⟩
  · exact Graph.updateNode_swaps_of_ne hs

theorem apply_append {a : Addition} {g g' : Graph} (attributes : Attributes) (h : a.apply g = .ok g') :
    a.apply (g.addGraphNode attributes) = .ok (g'.addGraphNode attributes) := by
  rw [apply_eq] at h ⊢
  exact Graph.updateNode_append attributes h

end Addition

end CodeQuery.Tsg
