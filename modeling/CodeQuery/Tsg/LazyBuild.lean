/-
  CodeQuery.Tsg.LazyBuild — what evaluating the lazy statements builds.

  With its values given, a lazy statement is a change of the graph: it sets an edge, adds
  attributes, or changes nothing (`Change`). A statement comes to a change when its lazy
  values mean the values of the change (`ComesTo`).

  Proved:
  (1) Statements are evaluated to a graph iff they come to changes that lead to it; neither
      what was forced before nor the order of forcing has a part in it (`evaluateStatements_iff`).
  (2) The whole evaluation succeeds with a graph iff moreover every thunk and every name has
      a meaning, used or not (`evaluateState_iff`).
  (3) The attribute statements can stand in any order: they come to the same graph
      (`evaluateState_perm`).
-/

import CodeQuery.Tsg.GraphOps
import CodeQuery.Tsg.LazyForce

namespace CodeQuery.Tsg.Lazy

open Data

/-- What a lazy statement does to the graph, its values given. -/
inductive Change where
  | setEdge (source sink : GraphNodeRef) (attributes : Attributes)
  | add (additions : List Addition)
  | nothing

def Change.apply : Change → Graph → Except ExecutionError Graph
  | .setEdge source sink attributes => Graph.setEdge source sink attributes
  | .add additions => steps (additions.map Addition.apply)
  | .nothing => .ok

/-- The additions that the attributes of an element come to. -/
def AdditionsMean (config : Config) (d : Defs) (source : GraphNodeRef) (sink : Option GraphNodeRef)
    (attributes : List LazyAttribute) (additions : List Addition) : Prop :=
  List.Forall₂ (fun attr a => a.source = source ∧ a.sink = sink ∧ a.name = attr.1 ∧ Means config d attr.2 a.value)
    attributes additions

inductive ComesTo (config : Config) (d : Defs) : LazyStatement → Change → Prop
  | addGraphNodeAttribute {node : LazyValue} {attributes : List LazyAttribute} {n : GraphNodeRef} {additions : List Addition}
      (hn : Means config d node (.graphNode n)) (ha : AdditionsMean config d n none attributes additions) :
      ComesTo config d (.addGraphNodeAttribute node attributes) (.add additions)
  | createEdge {source sink : LazyValue} {attributes : Attributes} {s t : GraphNodeRef}
      (hs : Means config d source (.graphNode s)) (ht : Means config d sink (.graphNode t)) :
      ComesTo config d (.createEdge source sink attributes) (.setEdge s t attributes)
  | addEdgeAttribute {source sink : LazyValue} {attributes : List LazyAttribute} {s t : GraphNodeRef} {additions : List Addition}
      (hs : Means config d source (.graphNode s)) (ht : Means config d sink (.graphNode t))
      (ha : AdditionsMean config d s (some t) attributes additions) :
      ComesTo config d (.addEdgeAttribute source sink attributes) (.add additions)
  | print {arguments : List (Option LazyValue)} (ha : ∀ v, some v ∈ arguments → ∃ w, Means config d v w) :
      ComesTo config d (.print arguments) .nothing

variable {config : Config} {d : Defs} {s : Stores}

/-! ## Steps of the evaluation -/

theorem intoGraphNodeRef_eq_ok {v : Value} {n : GraphNodeRef} : v.intoGraphNodeRef = .ok n ↔ v = .graphNode n := by
  cases v <;> simp [Value.intoGraphNodeRef]

theorem evaluateAsGraphNode_iff (hs : s.Rest config d) (v : LazyValue) (n : GraphNodeRef) :
    (∃ s', v.evaluateAsGraphNode config s = .ok (n, s')) ↔ Means config d v (.graphNode n) := by
  constructor
  · rintro ⟨s', h⟩
    obtain ⟨w, s₁, hw, hn⟩ := bind_eq_ok.mp h
    exact (evaluate_iff hs v _).mp ⟨s₁, intoGraphNodeRef_eq_ok.mp (liftM_eq_ok.mp hn).1 ▸ hw⟩
  · intro h
    obtain ⟨s', hs'⟩ := (evaluate_iff hs v _).mpr h
    exact ⟨s', by rw [LazyValue.evaluateAsGraphNode, bind_of_ok hs']; rfl⟩

theorem evaluateAsGraphNode_rest {v : LazyValue} {n : GraphNodeRef} {s' : Stores} (hs : s.Rest config d)
    (h : v.evaluateAsGraphNode config s = .ok (n, s')) : s'.Rest config d := by
  obtain ⟨w, s₁, hw, hn⟩ := bind_eq_ok.mp h
  rw [(liftM_eq_ok.mp hn).2]
  exact evaluate_rest hs hw

/-- An attribute is added as the graph takes it. -/
theorem addAttribute_eq_ok {b b' : Building} {key : GraphElementKey} {r : Except ExecutionError Graph} :
    b.addAttribute key r = .ok b' ↔ r = .ok b'.graph ∧ b'.prevElements = key :: b.prevElements := by
  unfold Building.addAttribute
  cases r with
  | error e => exact ⟨nofun, fun h => absurd h.1 nofun⟩
  | ok g =>
    rw [Except.ok.injEq, Except.ok.injEq]
    constructor
    · rintro rfl
      exact ⟨rfl, rfl⟩
    · rintro ⟨hg, hp⟩
      rw [hg, ← hp]

/-- The attributes of one element, added one after another as `apply` adds each. -/
def addAttributesWith (config : Config) (key : Identifier → GraphElementKey)
    (apply : Identifier → Value → Graph → Except ExecutionError Graph) :
    List LazyAttribute → Building → Eval Building
  | [], b => pure b
  | (name, v) :: attrs, b => do
    let value ← v.evaluate config
    let b' ← liftM (b.addAttribute (key name) (apply name value b.graph))
    addAttributesWith config key apply attrs b'

theorem addNodeAttributes_eq (config : Config) (n : GraphNodeRef) (attrs : List LazyAttribute) (b : Building) :
    addNodeAttributes config n attrs b =
      addAttributesWith config (.nodeAttribute n) (fun name value g => (Addition.mk n none name value).apply g) attrs b := by
  induction attrs generalizing b with
  | nil => rfl
  | cons attr attrs ih =>
    rw [addNodeAttributes, addAttributesWith]
    simp only [ih]
    rfl

theorem addEdgeAttributes_eq (config : Config) (source sink : GraphNodeRef) (attrs : List LazyAttribute) (b : Building) :
    addEdgeAttributes config source sink attrs b =
      addAttributesWith config (.edgeAttribute source sink)
        (fun name value g => (Addition.mk source (some sink) name value).apply g) attrs b := by
  induction attrs generalizing b with
  | nil => rfl
  | cons attr attrs ih =>
    rw [addEdgeAttributes, addAttributesWith]
    simp only [ih]
    rfl

theorem addAttributesWith_iff (key : Identifier → GraphElementKey) (source : GraphNodeRef) (sink : Option GraphNodeRef)
    (attrs : List LazyAttribute) (b : Building) (hs : s.Rest config d) (g : Graph) :
    (∃ b' s',
        addAttributesWith config key (fun name value g => (Addition.mk source sink name value).apply g) attrs b s =
            .ok (b', s') ∧
          b'.graph = g) ↔
      ∃ additions, AdditionsMean config d source sink attrs additions ∧ steps (additions.map Addition.apply) b.graph = .ok g := by
  induction attrs generalizing b s with
  | nil =>
    constructor
    · rintro ⟨b', s', h, rfl⟩
      simp only [addAttributesWith, pure_apply, Except.ok.injEq, Prod.mk.injEq] at h
      exact ⟨[], .nil, by rw [h.1]; rfl⟩
    · rintro ⟨additions, ha, h⟩
      cases ha
      exact ⟨b, s, rfl, Except.ok.inj h⟩
  | cons attr attrs ih =>
    obtain ⟨name, v⟩ := attr
    constructor
    · rintro ⟨b', s', h, hg⟩
      obtain ⟨w, s₁, hw, hrest⟩ := bind_eq_ok.mp h
      obtain ⟨b₁, s₂, hb₁, htail⟩ := bind_eq_ok.mp hrest
      obtain ⟨hadd, rfl⟩ := liftM_eq_ok.mp hb₁
      obtain ⟨additions, ha, hsteps⟩ := (ih b₁ (evaluate_rest hs hw)).mp ⟨b', s', htail, hg⟩
      refine ⟨⟨source, sink, name, w⟩ :: additions, .cons ⟨rfl, rfl, rfl, (evaluate_iff hs v w).mp ⟨_, hw⟩⟩ ha, ?_⟩
      exact steps_cons_eq_ok.mpr ⟨b₁.graph, (addAttribute_eq_ok.mp hadd).1, hsteps⟩
    · rintro ⟨additions, ha, h⟩
      cases ha with
      | @cons _ a _ additions hfirst hrest =>
        obtain ⟨hsource, hsink, hname, hmeans⟩ := hfirst
        obtain ⟨g₁, hg₁, hsteps⟩ := steps_cons_eq_ok.mp h
        obtain ⟨s₁, hw⟩ := (evaluate_iff hs v a.value).mpr hmeans
        obtain ⟨b', s', htail, hg⟩ := (ih ⟨g₁, key name :: b.prevElements⟩ (evaluate_rest hs hw)).mpr ⟨additions, hrest, hsteps⟩
        refine ⟨b', s', ?_, hg⟩
        have hadd : b.addAttribute (key name) ((Addition.mk source sink name a.value).apply b.graph) = .ok
          ⟨g₁, key name :: b.prevElements⟩ := by
          have ha : a = ⟨source, sink, name, a.value⟩ := by
            obtain ⟨_, _, _, _⟩ := a
            simp only [Addition.mk.injEq, and_true]
            exact ⟨hsource, hsink, hname⟩
          exact addAttribute_eq_ok.mpr ⟨ha ▸ hg₁, rfl⟩
        rw [addAttributesWith, bind_of_ok hw, bind_of_ok (liftM_eq_ok.mpr ⟨hadd, rfl⟩)]
        exact htail

theorem addAttributesWith_rest {key : Identifier → GraphElementKey}
    {apply : Identifier → Value → Graph → Except ExecutionError Graph} {attrs : List LazyAttribute} {b b' : Building}
    {s' : Stores} (hs : s.Rest config d) (h : addAttributesWith config key apply attrs b s = .ok (b', s')) :
    s'.Rest config d := by
  induction attrs generalizing b s with
  | nil =>
    simp only [addAttributesWith, pure_apply, Except.ok.injEq, Prod.mk.injEq] at h
    exact h.2 ▸ hs
  | cons attr attrs ih =>
    obtain ⟨w, s₁, hw, hrest⟩ := bind_eq_ok.mp h
    obtain ⟨b₁, s₂, hb₁, htail⟩ := bind_eq_ok.mp hrest
    rw [(liftM_eq_ok.mp hb₁).2] at htail
    exact ih (evaluate_rest hs hw) htail

theorem printArguments_iff (hs : s.Rest config d) (args : List (Option LazyValue)) :
    (∃ s', printArguments config args s = .ok ((), s')) ↔ ∀ v, some v ∈ args → ∃ w, Means config d v w := by
  induction args generalizing s with
  | nil => exact ⟨fun _ _ => nofun, fun _ => ⟨s, rfl⟩⟩
  | cons arg args ih =>
    cases arg with
    | none =>
      rw [printArguments, ih hs]
      exact ⟨fun h v hv => h v (by simpa using hv), fun h v hv => h v (List.mem_cons_of_mem _ hv)⟩
    | some v =>
      constructor
      · rintro ⟨s', h⟩ v' hv'
        obtain ⟨w, s₁, hw, hrest⟩ := bind_eq_ok.mp h
        rcases List.mem_cons.mp hv' with hv' | hv'
        · exact ⟨w, Option.some.inj hv' ▸ (evaluate_iff hs v w).mp ⟨s₁, hw⟩⟩
        · exact (ih (evaluate_rest hs hw)).mp ⟨s', hrest⟩ v' hv'
      · intro h
        obtain ⟨w, hw⟩ := h v List.mem_cons_self
        obtain ⟨s₁, hs₁⟩ := (evaluate_iff hs v w).mpr hw
        obtain ⟨s', hs'⟩ := (ih (evaluate_rest hs hs₁)).mpr fun v' hv' => h v' (List.mem_cons_of_mem _ hv')
        exact ⟨s', by rw [printArguments, bind_of_ok hs₁]; exact hs'⟩

theorem printArguments_rest {args : List (Option LazyValue)} {s' : Stores} (hs : s.Rest config d)
    (h : printArguments config args s = .ok ((), s')) : s'.Rest config d := by
  induction args generalizing s with
  | nil =>
    simp only [printArguments, pure_apply, Except.ok.injEq, Prod.mk.injEq] at h
    exact h.2 ▸ hs
  | cons arg args ih =>
    cases arg with
    | none => exact ih hs h
    | some v =>
      obtain ⟨w, s₁, hw, hrest⟩ := bind_eq_ok.mp h
      exact ih (evaluate_rest hs hw) hrest

/-! ## Statements -/

theorem evaluate_statement_iff (stmt : LazyStatement) (b : Building) (hs : s.Rest config d) (g : Graph) :
    (∃ b' s', stmt.evaluate config b s = .ok (b', s') ∧ b'.graph = g) ↔
      ∃ c, ComesTo config d stmt c ∧ c.apply b.graph = .ok g := by
  cases stmt with
  | addGraphNodeAttribute node attributes =>
    constructor
    · rintro ⟨b', s', h, hg⟩
      obtain ⟨n, s₁, hn, hrest⟩ := bind_eq_ok.mp h
      rw [addNodeAttributes_eq] at hrest
      obtain ⟨additions, ha, hsteps⟩ :=
        (addAttributesWith_iff _ _ _ _ b (evaluateAsGraphNode_rest hs hn) g).mp ⟨b', s', hrest, hg⟩
      exact ⟨.add additions, .addGraphNodeAttribute ((evaluateAsGraphNode_iff hs node n).mp ⟨s₁, hn⟩) ha, hsteps⟩
    · rintro ⟨c, hc, hsteps⟩
      cases hc with
      | @addGraphNodeAttribute _ _ n additions hn ha =>
        obtain ⟨s₁, hs₁⟩ := (evaluateAsGraphNode_iff hs node n).mpr hn
        obtain ⟨b', s', hrest, hg⟩ := (addAttributesWith_iff (GraphElementKey.nodeAttribute n) n none attributes b
          (evaluateAsGraphNode_rest hs hs₁) g).mpr ⟨additions, ha, hsteps⟩
        refine ⟨b', s', ?_, hg⟩
        rw [LazyStatement.evaluate, bind_of_ok hs₁, addNodeAttributes_eq]
        exact hrest
  | createEdge source sink attributes =>
    constructor
    · rintro ⟨b', s', h, hg⟩
      obtain ⟨n, s₁, hn, hrest⟩ := bind_eq_ok.mp h
      obtain ⟨t, s₂, ht, hrest⟩ := bind_eq_ok.mp hrest
      obtain ⟨g', s₃, hg', hend⟩ := bind_eq_ok.mp hrest
      obtain rfl : ({ b with graph := g' } : Building) = b' := congrArg Prod.fst (Except.ok.inj hend)
      refine ⟨.setEdge n t attributes, .createEdge ((evaluateAsGraphNode_iff hs source n).mp ⟨s₁, hn⟩)
        ((evaluateAsGraphNode_iff (evaluateAsGraphNode_rest hs hn) sink t).mp ⟨s₂, ht⟩), ?_⟩
      rw [← hg]
      exact (liftM_eq_ok.mp hg').1
    · rintro ⟨c, hc, hset⟩
      cases hc with
      | @createEdge _ _ _ n t hn ht =>
        obtain ⟨s₁, hs₁⟩ := (evaluateAsGraphNode_iff hs source n).mpr hn
        obtain ⟨s₂, hs₂⟩ := (evaluateAsGraphNode_iff (evaluateAsGraphNode_rest hs hs₁) sink t).mpr ht
        refine ⟨{ b with graph := g }, s₂, ?_, rfl⟩
        have hset : b.graph.addEdgeWith n t (fun _ => .ok attributes) = .ok g := hset
        rw [LazyStatement.evaluate, bind_of_ok hs₁, bind_of_ok hs₂, hset]
        rfl
  | addEdgeAttribute source sink attributes =>
    constructor
    · rintro ⟨b', s', h, hg⟩
      obtain ⟨n, s₁, hn, hrest⟩ := bind_eq_ok.mp h
      obtain ⟨t, s₂, ht, hrest⟩ := bind_eq_ok.mp hrest
      have hs₁ := evaluateAsGraphNode_rest hs hn
      rw [addEdgeAttributes_eq] at hrest
      obtain ⟨additions, ha, hsteps⟩ :=
        (addAttributesWith_iff _ _ _ _ b (evaluateAsGraphNode_rest hs₁ ht) g).mp ⟨b', s', hrest, hg⟩
      exact ⟨.add additions, .addEdgeAttribute ((evaluateAsGraphNode_iff hs source n).mp ⟨s₁, hn⟩)
        ((evaluateAsGraphNode_iff hs₁ sink t).mp ⟨s₂, ht⟩) ha, hsteps⟩
    · rintro ⟨c, hc, hsteps⟩
      cases hc with
      | @addEdgeAttribute _ _ _ n t additions hn ht ha =>
        obtain ⟨s₁, hn'⟩ := (evaluateAsGraphNode_iff hs source n).mpr hn
        have hs₁ := evaluateAsGraphNode_rest hs hn'
        obtain ⟨s₂, ht'⟩ := (evaluateAsGraphNode_iff hs₁ sink t).mpr ht
        obtain ⟨b', s', hrest, hg⟩ := (addAttributesWith_iff (GraphElementKey.edgeAttribute n t) n (some t) attributes b
          (evaluateAsGraphNode_rest hs₁ ht') g).mpr ⟨additions, ha, hsteps⟩
        refine ⟨b', s', ?_, hg⟩
        rw [LazyStatement.evaluate, bind_of_ok hn', bind_of_ok ht', addEdgeAttributes_eq]
        exact hrest
  | print arguments =>
    constructor
    · rintro ⟨b', s', h, hg⟩
      obtain ⟨_, s₁, hp, hend⟩ := bind_eq_ok.mp h
      obtain rfl : b = b' := congrArg Prod.fst (Except.ok.inj hend)
      exact ⟨.nothing, .print ((printArguments_iff hs arguments).mp ⟨s₁, hp⟩), congrArg _ hg⟩
    · rintro ⟨c, hc, hg⟩
      cases hc with
      | print ha =>
        obtain ⟨s₁, hs₁⟩ := (printArguments_iff hs arguments).mpr ha
        exact ⟨b, s₁, by rw [LazyStatement.evaluate, bind_of_ok hs₁]; rfl, Except.ok.inj hg⟩

theorem evaluate_statement_rest {stmt : LazyStatement} {b b' : Building} {s' : Stores} (hs : s.Rest config d)
    (h : stmt.evaluate config b s = .ok (b', s')) : s'.Rest config d := by
  cases stmt with
  | addGraphNodeAttribute node attributes =>
    obtain ⟨n, s₁, hn, hrest⟩ := bind_eq_ok.mp h
    rw [addNodeAttributes_eq] at hrest
    exact addAttributesWith_rest (evaluateAsGraphNode_rest hs hn) hrest
  | createEdge source sink attributes =>
    obtain ⟨n, s₁, hn, hrest⟩ := bind_eq_ok.mp h
    obtain ⟨t, s₂, ht, hrest⟩ := bind_eq_ok.mp hrest
    obtain ⟨g', s₃, hg', hend⟩ := bind_eq_ok.mp hrest
    obtain rfl : s₃ = s' := congrArg Prod.snd (Except.ok.inj hend)
    rw [(liftM_eq_ok.mp hg').2]
    exact evaluateAsGraphNode_rest (evaluateAsGraphNode_rest hs hn) ht
  | addEdgeAttribute source sink attributes =>
    obtain ⟨n, s₁, hn, hrest⟩ := bind_eq_ok.mp h
    obtain ⟨t, s₂, ht, hrest⟩ := bind_eq_ok.mp hrest
    rw [addEdgeAttributes_eq] at hrest
    exact addAttributesWith_rest (evaluateAsGraphNode_rest (evaluateAsGraphNode_rest hs hn) ht) hrest
  | print arguments =>
    obtain ⟨_, s₁, hp, hend⟩ := bind_eq_ok.mp h
    obtain rfl : s₁ = s' := congrArg Prod.snd (Except.ok.inj hend)
    exact printArguments_rest hs hp

/-- Statements are evaluated to a graph iff they come to changes that lead to it. -/
theorem evaluateStatements_iff (stmts : List LazyStatement) (b : Building) (hs : s.Rest config d) (g : Graph) :
    (∃ b' s', evaluateStatements config stmts b s = .ok (b', s') ∧ b'.graph = g) ↔
      ∃ cs, List.Forall₂ (ComesTo config d) stmts cs ∧ steps (cs.map Change.apply) b.graph = .ok g := by
  induction stmts generalizing b s with
  | nil =>
    constructor
    · rintro ⟨b', s', h, rfl⟩
      simp only [evaluateStatements, pure_apply, Except.ok.injEq, Prod.mk.injEq] at h
      exact ⟨[], .nil, by rw [h.1]; rfl⟩
    · rintro ⟨cs, hcs, h⟩
      cases hcs
      exact ⟨b, s, rfl, Except.ok.inj h⟩
  | cons stmt stmts ih =>
    constructor
    · rintro ⟨b', s', h, hg⟩
      obtain ⟨b₁, s₁, hb₁, hrest⟩ := bind_eq_ok.mp h
      obtain ⟨c, hc, happly⟩ := (evaluate_statement_iff stmt b hs b₁.graph).mp ⟨b₁, s₁, hb₁, rfl⟩
      obtain ⟨cs, hcs, hsteps⟩ := (ih b₁ (evaluate_statement_rest hs hb₁)).mp ⟨b', s', hrest, hg⟩
      exact ⟨c :: cs, .cons hc hcs, steps_cons_eq_ok.mpr ⟨b₁.graph, happly, hsteps⟩⟩
    · rintro ⟨cs, hcs, h⟩
      cases hcs with
      | @cons _ c _ cs hc hcs =>
        obtain ⟨g₁, hg₁, hsteps⟩ := steps_cons_eq_ok.mp h
        obtain ⟨b₁, s₁, hb₁, rfl⟩ := (evaluate_statement_iff stmt b hs g₁).mpr ⟨c, hc, hg₁⟩
        obtain ⟨b', s', hrest, hg⟩ := (ih b₁ (evaluate_statement_rest hs hb₁)).mpr ⟨cs, hcs, hsteps⟩
        exact ⟨b', s', by rw [evaluateStatements, bind_of_ok hb₁]; exact hrest, hg⟩

theorem evaluateStatements_rest {stmts : List LazyStatement} {b b' : Building} {s' : Stores} (hs : s.Rest config d)
    (h : evaluateStatements config stmts b s = .ok (b', s')) : s'.Rest config d := by
  induction stmts generalizing b s with
  | nil =>
    simp only [evaluateStatements, pure_apply, Except.ok.injEq, Prod.mk.injEq] at h
    exact h.2 ▸ hs
  | cons stmt stmts ih =>
    obtain ⟨b₁, s₁, hb₁, hrest⟩ := bind_eq_ok.mp h
    exact ih (evaluate_statement_rest hs hb₁) hrest

theorem evaluateStatements_append (stmts stmts' : List LazyStatement) (b : Building) :
    evaluateStatements config (stmts ++ stmts') b = evaluateStatements config stmts b >>= evaluateStatements config stmts' := by
  funext s
  induction stmts generalizing b s with
  | nil => rfl
  | cons stmt stmts ih =>
    rw [List.cons_append, evaluateStatements, evaluateStatements]
    cases hb : stmt.evaluate config b s with
    | error e => rw [bind_of_error hb, bind_of_error (bind_of_error hb)]
    | ok r =>
      rw [bind_of_ok hb, ih]
      show _ = ((stmt.evaluate config b >>= evaluateStatements config stmts) s >>= fun r =>
        evaluateStatements config stmts' r.1 r.2)
      rw [bind_of_ok hb]
      rfl

/-- The lazy statements in the order in which they are evaluated. -/
def LazyGraph.statements (g : LazyGraph) : List LazyStatement := g.edgeStatements ++ g.attrStatements ++ g.printStatements

theorem evaluate_lazyGraph (g : LazyGraph) (b : Building) : g.evaluate config b = evaluateStatements config g.statements b := by
  rw [LazyGraph.statements, evaluateStatements_append, evaluateStatements_append, LazyGraph.evaluate]
  funext s
  cases hb : evaluateStatements config g.edgeStatements b s with
  | error e => rw [bind_of_error hb, bind_of_error (bind_of_error hb)]
  | ok r =>
    rw [bind_of_ok hb]
    show _ = ((evaluateStatements config g.edgeStatements b >>= evaluateStatements config g.attrStatements) s >>=
      fun r => evaluateStatements config g.printStatements r.1 r.2)
    rw [bind_of_ok hb]
    rfl

/-- The evaluation succeeds with a graph iff the statements come to changes that lead to it, and
    every thunk and every name has a meaning, used or not. -/
theorem evaluateState_iff {st : State} (hs : st.stores.Rest config d) (g : Graph) :
    (∃ b s', evaluateState config st = .ok (b, s') ∧ b.graph = g) ↔
      (∃ cs, List.Forall₂ (ComesTo config d) st.lazyGraph.statements cs ∧ steps (cs.map Change.apply) st.graph = .ok g) ∧
        (∀ i < d.thunks.length, ∃ w, Means config d (.var i) w) ∧ ∀ name ∈ d.scopes.map Prod.fst, ∃ map,
          ScopesMean config d name map := by
  have hrange : (∀ i ∈ List.range st.stores.thunks.length, ∃ w, Means config d (.var i) w) ↔ ∀ i < d.thunks.length, ∃ w,
    Means config d (.var i) w := by
    simp only [List.mem_range, hs.of.length]
  constructor
  · rintro ⟨b, s', h, hg⟩
    obtain ⟨b₁, s₁, hb₁, hrest⟩ := bind_eq_ok.mp h
    obtain ⟨_, s₂, hs₂, hrest⟩ := bind_eq_ok.mp hrest
    obtain ⟨_, s₃, hs₃, hend⟩ := bind_eq_ok.mp hrest
    obtain rfl : b₁ = b := congrArg Prod.fst (Except.ok.inj hend)
    rw [evaluate_lazyGraph] at hb₁
    have hr₁ := evaluateStatements_rest hs hb₁
    have hr₂ := evaluateThunks_rest hr₁ hs₂
    refine ⟨(evaluateStatements_iff _ _ hs g).mp ⟨b₁, s₁, hb₁, hg⟩, hrange.mp ((evaluateThunks_iff hr₁ _).mp ⟨s₂, hs₂⟩), ?_⟩
    rw [← hs.of.names]
    exact (evaluateScopes_iff hr₂ _).mp ⟨s₃, hs₃⟩
  · rintro ⟨hstmts, hthunks, hnames⟩
    obtain ⟨b₁, s₁, hb₁, hg⟩ := (evaluateStatements_iff _ ⟨st.graph, []⟩ hs g).mpr hstmts
    have hr₁ := evaluateStatements_rest hs hb₁
    obtain ⟨s₂, hs₂⟩ := (evaluateThunks_iff hr₁ _).mpr (hrange.mpr hthunks)
    rw [← hs.of.names] at hnames
    obtain ⟨s₃, hs₃⟩ := (evaluateScopes_iff (evaluateThunks_rest hr₁ hs₂) _).mpr hnames
    refine ⟨b₁, s₃, ?_, hg⟩
    rw [← evaluate_lazyGraph] at hb₁
    rw [evaluateState, bind_of_ok hb₁, bind_of_ok hs₂, bind_of_ok hs₃]
    rfl

/-! ## The order of the attributes -/

def LazyStatement.isAttribute : LazyStatement → Bool
  | .addGraphNodeAttribute _ _ => true
  | .addEdgeAttribute _ _ _ => true
  | _ => false

theorem additions_swap (as bs : List Addition) : Swaps (Change.add as).apply (Change.add bs).apply := by
  refine swaps_steps fun f hf g hg => ?_
  obtain ⟨a, -, rfl⟩ := List.mem_map.mp hf
  obtain ⟨b, -, rfl⟩ := List.mem_map.mp hg
  exact Addition.swaps a b

/-- A statement of attributes comes to additions. -/
theorem comesTo_additions {stmt : LazyStatement} {c : Change} (h : ComesTo config d stmt c) (ha : stmt.isAttribute = true) :
    ∃ additions, c = .add additions := by
  cases h with
  | addGraphNodeAttribute _ _ => exact ⟨_, rfl⟩
  | addEdgeAttribute _ _ _ => exact ⟨_, rfl⟩
  | createEdge _ _ => exact absurd ha nofun
  | print _ => exact absurd ha nofun

theorem forall₂_append_iff {α β : Type} {R : α → β → Prop} {l l' : List α} {bs : List β} :
    List.Forall₂ R (l ++ l') bs ↔ ∃ b b', List.Forall₂ R l b ∧ List.Forall₂ R l' b' ∧ bs = b ++ b' := by
  constructor
  · intro h
    induction l generalizing bs with
    | nil => exact ⟨[], bs, .nil, h, rfl⟩
    | cons a l ih =>
      cases h with
      | cons ha hl =>
        obtain ⟨b, b', hb, hb', rfl⟩ := ih hl
        exact ⟨_ :: b, b', .cons ha hb, hb', rfl⟩
  · rintro ⟨b, b', hb, hb', rfl⟩
    exact List.rel_append hb hb'

/-- What statements of attributes come to, they come to in any order. -/
theorem attributes_perm {attrs attrs' : List LazyStatement} (hattr : ∀ stmt ∈ attrs, stmt.isAttribute = true)
    (hperm : attrs.Perm attrs') {cs : List Change} (hcs : List.Forall₂ (ComesTo config d) attrs cs) {g g' : Graph}
    (h : steps (cs.map Change.apply) g = .ok g') :
    ∃ cs', List.Forall₂ (ComesTo config d) attrs' cs' ∧ steps (cs'.map Change.apply) g = .ok g' := by
  obtain ⟨cs', hcs', hp⟩ := List.perm_comp_forall₂ hperm.symm hcs
  refine ⟨cs', hcs', steps_perm (hp.symm.map _) (fun f hf f' hf' => ?_) h⟩
  have hadd : ∀ c ∈ cs, ∃ additions, c = Change.add additions := by
    intro c hc
    obtain ⟨i, hi, rfl⟩ := List.mem_iff_getElem.mp hc
    have hi' : i < attrs.length := hcs.length_eq ▸ hi
    exact comesTo_additions (List.Forall₂.get hcs hi' hi) (hattr _ (List.getElem_mem hi'))
  obtain ⟨c, hc, rfl⟩ := List.mem_map.mp hf
  obtain ⟨c', hc', rfl⟩ := List.mem_map.mp hf'
  obtain ⟨as, rfl⟩ := hadd c hc
  obtain ⟨bs, rfl⟩ := hadd c' hc'
  exact additions_swap as bs

def State.withAttributes (st : State) (attrs : List LazyStatement) : State :=
  { st with lazyGraph := { st.lazyGraph with attrStatements := attrs } }

theorem evaluateState_of_perm {st : State} (hs : st.stores.Rest config d)
    (hattr : ∀ stmt ∈ st.lazyGraph.attrStatements, stmt.isAttribute = true) {attrs : List LazyStatement}
    (hperm : st.lazyGraph.attrStatements.Perm attrs) {g : Graph}
    (h : ∃ b s', evaluateState config st = .ok (b, s') ∧ b.graph = g) :
    ∃ b s', evaluateState config (st.withAttributes attrs) = .ok (b, s') ∧ b.graph = g := by
  obtain ⟨⟨cs, hcs, hsteps⟩, hmean⟩ := (evaluateState_iff hs g).mp h
  have hs' : (st.withAttributes attrs).stores.Rest config d := hs
  refine (evaluateState_iff hs' g).mpr ⟨?_, hmean⟩
  obtain ⟨c₁₂, c₃, h₁₂, h₃, rfl⟩ := forall₂_append_iff.mp hcs
  obtain ⟨c₁, c₂, h₁, h₂, rfl⟩ := forall₂_append_iff.mp h₁₂
  rw [List.map_append, List.map_append, steps_append_eq_ok] at hsteps
  obtain ⟨g₂, hg₂, hg₃⟩ := hsteps
  obtain ⟨g₁, hg₁, hattrs⟩ := steps_append_eq_ok.mp hg₂
  obtain ⟨c₂', h₂', hattrs'⟩ := attributes_perm hattr hperm h₂ hattrs
  refine ⟨c₁ ++ c₂' ++ c₃, List.rel_append (List.rel_append h₁ h₂') h₃, ?_⟩
  rw [List.map_append, List.map_append]
  exact steps_append_eq_ok.mpr ⟨g₂, steps_append_eq_ok.mpr ⟨g₁, hg₁, hattrs'⟩, hg₃⟩

/-- The order of the attribute statements has no part in the graph. -/
theorem evaluateState_perm {st : State} (hs : st.stores.Rest config d)
    (hattr : ∀ stmt ∈ st.lazyGraph.attrStatements, stmt.isAttribute = true) {attrs : List LazyStatement}
    (hperm : st.lazyGraph.attrStatements.Perm attrs) (g : Graph) :
    (∃ b s', evaluateState config (st.withAttributes attrs) = .ok (b, s') ∧ b.graph = g) ↔
      ∃ b s', evaluateState config st = .ok (b, s') ∧ b.graph = g := by
  constructor
  · intro h
    have hs' : (st.withAttributes attrs).stores.Rest config d := hs
    exact evaluateState_of_perm hs' (fun stmt hstmt => hattr stmt (hperm.mem_iff.mpr hstmt)) hperm.symm h
  · exact evaluateState_of_perm hs hattr hperm

end CodeQuery.Tsg.Lazy
