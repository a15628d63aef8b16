/-
  CodeQuery.Tsg.SameGraph — the lazy execution builds the graph that the strict one builds.

  Where the strict execution has a graph, the lazy one has its nodes, and the statements that
  come to it, the edges first (`GraphAgrees`). Each step of the strict execution is answered by
  a step of the lazy one, after which they agree again (`Agrees`).

  A statement is orderly when the scoped variables that it declares are immutable, with scopes
  that the checker found local, and it assigns none (`orderlyStatement`). The strict execution
  does without, the lazy one does not: it has no mutable scoped variables, and forces all scopes
  of a name together.

  Proved: whatever graph the strict execution of a checked and orderly file builds, the lazy
  execution builds too, where no variable is inherited (`lazy_execution_follows_strict`). Nothing
  is promised where the strict execution fails: it fails for a variable that is read before it
  is declared, where the lazy one may succeed.
-/

import CodeQuery.Tsg.Agreement
import CodeQuery.Tsg.EdgesFirst

namespace CodeQuery.Tsg.Lazy

open Data Checker

/-! ## Orderly rules -/

/-- A scoped variable is declared immutable, its scope local. -/
def orderlyVariable (cx : CheckContext) (env : Scopes VariableResult) (var : Variable) (isMutable : Bool) : Bool :=
  match var with
  | .unscoped _ _ => true
  | .scoped scope _ _ =>
    !isMutable &&
      match checkExpression cx env scope with
      | .ok r => r.isLocal
      | .error _ => false

def isUnscoped : Variable → Bool
  | .unscoped _ _ => true
  | .scoped _ _ _ => false

mutual

def orderlyStatement (cx : CheckContext) : Statement → Scopes VariableResult → Bool
  | .declareImmutable var _, env => orderlyVariable cx env var false
  | .declareMutable var _, env => orderlyVariable cx env var true
  | .assign var _, _ => isUnscoped var
  | .createGraphNode node, env => orderlyVariable cx env node false
  | .addGraphNodeAttribute _ _, _ => true
  | .createEdge _ _ _, _ => true
  | .addEdgeAttribute _ _ _, _ => true
  | .scan _ arms, env => orderlyArms cx arms env
  | .print _, _ => true
  | .ifs arms, env => orderlyIfs cx arms env
  | .forIn var value statements, env =>
    match checkExpression cx env value >>= checkLoop cx env var with
    | .ok env' => orderlyStatements cx statements env'
    | .error _ => false

def orderlyStatements (cx : CheckContext) : List Statement → Scopes VariableResult → Bool
  | [], _ => true
  | s :: ss, env =>
    orderlyStatement cx s env &&
      match checkStatement cx s env with
      | .ok r => orderlyStatements cx ss r.2
      | .error _ => false

def orderlyArms (cx : CheckContext) : List (Regex × List Statement) → Scopes VariableResult → Bool
  | [], _ => true
  | (_, statements) :: arms, env =>
    orderlyStatements cx statements env.nested &&
      match checkStatements cx statements env.nested with
      | .ok r => orderlyArms cx arms r.2.tail
      | .error _ => false

def orderlyIfs (cx : CheckContext) : List (List Condition × List Statement) → Scopes VariableResult → Bool
  | [], _ => true
  | (_, statements) :: arms, env =>
    orderlyStatements cx statements env.nested &&
      match checkStatements cx statements env.nested with
      | .ok r => orderlyIfs cx arms r.2.tail
      | .error _ => false

end

/-! ## The graph -/

/-- The statements come to the graph of the strict execution, the edges first. -/
def GraphAgrees {config : Config} (w : World config) (l : LazyGraph) (nodes g : Graph) : Prop :=
  ∃ es as mid, EdgesFirst config es (List.flatten as) nodes mid g ∧
    List.Forall₂ (fun stmt (e : EdgeSetting) => ComesTo config w.1 stmt (.setEdge e.1 e.2.1 e.2.2)) l.edgeStatements es ∧
    List.Forall₂ (fun stmt additions => ComesTo config w.1 stmt (.add additions)) l.attrStatements as ∧
    ∀ stmt ∈ l.printStatements, ComesTo config w.1 stmt .nothing

section Graph

variable {config : Config} {w w' : World config} {l : LazyGraph} {nodes g g' : Graph}

theorem additionsMean_mono (hinherited : config.inheritedVariables = []) (hle : w ≤ w') {source : GraphNodeRef}
    {sink : Option GraphNodeRef} {attrs : List LazyAttribute} {additions : List Addition}
    (h : AdditionsMean config w.1 source sink attrs additions) : AdditionsMean config w'.1 source sink attrs additions :=
  h.imp fun _ _ ha => ⟨ha.1, ha.2.1, ha.2.2.1, World.means_mono hinherited hle ha.2.2.2⟩

theorem comesTo_mono (hinherited : config.inheritedVariables = []) (hle : w ≤ w') {stmt : LazyStatement} {c : Change}
    (h : ComesTo config w.1 stmt c) : ComesTo config w'.1 stmt c := by
  cases h with
  | addGraphNodeAttribute hn ha =>
    exact .addGraphNodeAttribute (World.means_mono hinherited hle hn) (additionsMean_mono hinherited hle ha)
  | createEdge hs ht => exact .createEdge (World.means_mono hinherited hle hs) (World.means_mono hinherited hle ht)
  | addEdgeAttribute hs ht ha =>
    exact .addEdgeAttribute (World.means_mono hinherited hle hs) (World.means_mono hinherited hle ht)
      (additionsMean_mono hinherited hle ha)
  | print ha =>
    refine .print fun v hv => ?_
    obtain ⟨value, hvalue⟩ := ha v hv
    exact ⟨value, World.means_mono hinherited hle hvalue⟩

namespace GraphAgrees

theorem mono (hinherited : config.inheritedVariables = []) (hle : w ≤ w') (h : GraphAgrees w l nodes g) :
    GraphAgrees w' l nodes g := by
  obtain ⟨es, as, mid, hfirst, hes, has, hprints⟩ := h
  exact ⟨es, as, mid, hfirst, hes.imp fun _ _ => comesTo_mono hinherited hle, has.imp fun _ _ => comesTo_mono hinherited hle,
    fun stmt hs => comesTo_mono hinherited hle (hprints stmt hs)⟩

theorem length (h : GraphAgrees w l nodes g) : nodes.nodes.length = g.nodes.length := by
  obtain ⟨es, as, mid, hfirst, -⟩ := h
  exact hfirst.length

theorem addGraphNode (h : GraphAgrees w l nodes g) (attributes : Attributes) :
    GraphAgrees w l (nodes.addGraphNode attributes) (g.addGraphNode attributes) := by
  obtain ⟨es, as, mid, hfirst, hrest⟩ := h
  exact ⟨es, as, _, hfirst.addGraphNode attributes, hrest⟩

/-- An edge that is created is recorded with its debug attributes. -/
theorem createEdge (h : GraphAgrees w l nodes g) {source sink : GraphNodeRef} {location : Location}
    (hadd : g.addEdgeWith source sink (edgeDebugAttrs config location) = .ok g') :
    ∃ a, edgeDebugAttrs config location .empty = .ok a ∧ ∀ v v', w.Means v (.graphNode source) → w.Means v' (.graphNode sink) →
      GraphAgrees w (l.push (.createEdge v v' a)) nodes g' := by
  obtain ⟨es, as, mid, hfirst, hes, has, hprints⟩ := h
  obtain ⟨a, mid', ha, hfirst'⟩ := hfirst.createEdge hadd
  exact ⟨a, ha, fun v v' hv hv' => ⟨_, as, mid', hfirst', List.rel_append hes (.cons (.createEdge hv hv') .nil), has, hprints⟩⟩

/-- Attributes that are added are recorded as one statement. -/
theorem additions (h : GraphAgrees w l nodes g) {as : List Addition} (hadd : steps (as.map Addition.apply) g = .ok g')
    {stmt : LazyStatement} (hattr : stmt.isAttribute = true) (hstmt : ComesTo config w.1 stmt (.add as)) :
    GraphAgrees w (l.push stmt) nodes g' := by
  obtain ⟨es, as', mid, hfirst, hes, has, hprints⟩ := h
  have hfirst' : EdgesFirst config es (as' ++ [as]).flatten nodes mid g' := by
    rw [List.flatten_append, List.flatten_singleton]
    exact hfirst.additions_append hadd
  have hrecorded := List.rel_append has (.cons hstmt .nil)
  cases stmt with
  | addGraphNodeAttribute node attributes => exact ⟨es, _, mid, hfirst', hes, hrecorded, hprints⟩
  | addEdgeAttribute source sink attributes => exact ⟨es, _, mid, hfirst', hes, hrecorded, hprints⟩
  | createEdge source sink attributes => exact absurd hattr nofun
  | print arguments => exact absurd hattr nofun

theorem print (h : GraphAgrees w l nodes g) {arguments : List (Option LazyValue)}
    (hargs : ∀ v, some v ∈ arguments → ∃ value, w.Means v value) : GraphAgrees w (l.push (.print arguments)) nodes g := by
  obtain ⟨es, as, mid, hfirst, hes, has, hprints⟩ := h
  refine ⟨es, as, mid, hfirst, hes, has, fun stmt hs => ?_⟩
  rcases List.mem_append.mp hs with hs | hs
  · exact hprints stmt hs
  · rw [List.mem_singleton.mp hs]
    exact .print hargs

/-- The statements are evaluated to the graph. -/
theorem changes (h : GraphAgrees w l nodes g) :
    ∃ cs, List.Forall₂ (ComesTo config w.1) l.statements cs ∧ steps (cs.map Change.apply) nodes = .ok g := by
  obtain ⟨es, as, mid, hfirst, hes, has, hprints⟩ := h
  refine ⟨es.map (fun e => .setEdge e.1 e.2.1 e.2.2) ++ as.map .add ++ l.printStatements.map fun _ => .nothing, ?_, ?_⟩
  · refine List.rel_append (List.rel_append (List.forall₂_map_right_iff.mpr hes) (List.forall₂_map_right_iff.mpr has)) ?_
    exact List.forall₂_map_right_iff.mpr (List.forall₂_same.mpr hprints)
  · rw [List.map_append, List.map_append]
    refine steps_append_eq_ok.mpr ⟨g, steps_append_eq_ok.mpr ⟨mid, ?_, ?_⟩, ?_⟩
    · rw [List.map_map]
      exact hfirst.edges
    · have hruns := hfirst.additions
      rw [List.map_flatten] at hruns
      rw [List.map_map]
      have hsteps := steps_flatten.mpr hruns
      rw [List.map_map] at hsteps
      exact hsteps
    · refine steps_of_nothing fun f hf => ?_
      obtain ⟨c, hc, rfl⟩ := List.mem_map.mp hf
      obtain ⟨stmt, -, rfl⟩ := List.mem_map.mp hc
      exact fun _ => rfl

end GraphAgrees

end Graph

/-! ## Steps of both executions -/

/-- The states of both executions where the checker has this environment. -/
structure Agrees {config : Config} (env : Scopes VariableResult) (w : World config) (sst : Strict.State) (st : State) : Prop where
  stores : StoresAgree w sst.scopes st.stores
  locals : LocalsAgree env w sst.locals st.locals
  graph : GraphAgrees w st.lazyGraph st.graph sst.graph

section Steps

variable {cx : CheckContext} {ctx : Context} {env env' : Scopes VariableResult} {w w' : World ctx.config}
  {sst sst' : Strict.State}
  {st : State}

theorem Agrees.same (h : Agrees env w sst st) (hsame : env.Agree Same env') : Agrees env' w sst st :=
  ⟨h.stores, h.locals.same hsame, h.graph⟩

theorem Agrees.nested (h : Agrees env w sst st) :
    Agrees env.nested w { sst with locals := sst.locals.nested } { st with locals := st.locals.nested } :=
  ⟨h.stores, h.locals.nested, h.graph⟩

theorem Agrees.tail (h : Agrees env w sst st) :
    Agrees env.tail w { sst with locals := sst.locals.tail } { st with locals := st.locals.tail } :=
  ⟨h.stores, h.locals.tail, h.graph⟩

/-- A step on the stores alone, in the strict execution none. -/
theorem evaluating_agrees (hinherited : ctx.config.inheritedVariables = []) {α : Type} {m : Eval α}
    {Q : α → World ctx.config → Prop} (hst : Agrees env w sst st)
    (h : Leads Never w st.stores m fun a w' s' => StoresAgree w' sst.scopes s' ∧ Q a w') :
    Leads Never w st (evaluating m) fun a w' st' => Agrees env w' sst st' ∧ Q a w' := by
  refine leads_conseq (evaluating_leads h) fun a w' st' hle h' => ?_
  obtain ⟨stores, rfl, hs, hQ⟩ := h'
  exact ⟨⟨hs, hst.locals.mono hinherited hle, hst.graph.mono hinherited hle⟩, hQ⟩

theorem stateEvaluateLazy_agrees (hctx : Suits cx ctx) (hinherited : ctx.config.inheritedVariables = []) {e : Expression}
    {r : ExpressionResult} (hr : checkExpression cx env e = .ok r) {value : Value} (hvalue : sst.evaluate ctx e = .ok value)
    (hst : Agrees env w sst st) :
    Leads Never w st (State.evaluateLazy ctx e) fun v w' st' =>
      Agrees env w' sst st' ∧ w'.Means v value ∧ (r.isLocal = true → w'.IsLocal v) :=
  evaluating_agrees hinherited hst (evaluateLazy_agrees hctx hinherited e hr hvalue hst.locals hst.stores)

/-- What directs the execution is local, and evaluated at once to the same value. -/
theorem stateEvaluateEager_agrees (hctx : Suits cx ctx) (hinherited : ctx.config.inheritedVariables = []) {e : Expression}
    {r : ExpressionResult} (hr : checkExpression cx env e = .ok r) (hlocal : r.isLocal = true) {value : Value}
    (hvalue : sst.evaluate ctx e = .ok value) (hst : Agrees env w sst st) :
    Leads Never w st (State.evaluateEager ctx e) fun u w' st' => Agrees env w' sst st' ∧ u = value :=
  evaluating_agrees hinherited hst <| leads_bind (evaluateLazy_agrees hctx hinherited e hr hvalue hst.locals hst.stores)
    fun _ _ _ _ h => evaluate_agrees h.1 (h.2.2 hlocal) h.2.1

theorem stateAddThunk_agrees (hinherited : ctx.config.inheritedVariables = []) {v : LazyValue} {value : Value}
    (hst : Agrees env w sst st) (hv : w.Means v value) :
    Leads Never w st (evaluating (Stores.add v)) fun i w' st' =>
      Agrees env w' sst st' ∧ w'.Means (.var i) value ∧ (w.IsLocal v → w'.IsLocal (.var i)) :=
  evaluating_agrees hinherited hst (add_agrees hinherited hst.stores hv)

/-- The state is read, and then a step is taken. -/
theorem leads_get_bind {α : Type} {f : State → Exec α} {Q : α → World ctx.config → State → Prop} (h : Leads Never w st (f st) Q) :
    Leads Never w st (get >>= f) Q :=
  leads_bind (P := fun a w' st' => a = st ∧ w' = w ∧ st' = st) (leads_get ⟨rfl, rfl, rfl⟩) fun a w' st' _ hst => by
    obtain ⟨rfl, rfl, rfl⟩ := hst
    exact h

theorem setLocals_agrees (hst : Agrees env w sst st) {values : Scopes Value} {locals : Scopes LazyValue}
    (h : LocalsAgree env' w values locals) :
    Leads Never w st (State.setLocals locals) fun _ w' st' => Agrees env' w' { sst with locals := values } st' :=
  leads_of_ok rfl le_rfl ⟨hst.stores, h, hst.graph⟩

theorem stateAddLocal_agrees (hctx : Suits cx ctx) (hinherited : ctx.config.inheritedVariables = []) {name : Identifier}
    {r : VariableResult} {isMutable : Bool} (hadd : checkAdd cx env name r isMutable = .ok env') {value : Value}
    {values : Scopes Value} (hvalues : ctx.config.addLocal sst.locals name value isMutable = .ok values) {v : LazyValue}
    (hv : w.Means v value) (hl : r.isLocal = true → w.IsLocal v) (hst : Agrees env w sst st) :
    Leads Never w st (State.addLocal ctx name v isMutable) fun _ w' st' => Agrees env' w' { sst with locals := values } st' := by
  refine leads_bind (stateAddThunk_agrees hinherited hst hv) fun i w₁ st₁ _ h₁ => leads_get_bind ?_
  obtain ⟨hst₁, hmeans, hlocal⟩ := h₁
  obtain ⟨locals', hok, hlocals'⟩ := hst₁.locals.add hctx hadd hvalues hmeans fun h => hlocal (hl h)
  rw [hok]
  exact leads_bind_liftM (fun l hl => Except.ok.inj hl ▸ setLocals_agrees hst₁ hlocals') fun _ he => absurd he nofun

/-- A variable is declared in both executions. -/
theorem stateAdd_agrees (hctx : Suits cx ctx) (hinherited : ctx.config.inheritedVariables = []) {var : Variable}
    {r : VariableResult} {isMutable : Bool} {checked : List Identifier × Scopes VariableResult}
    (hadd : checkVariableAdd cx env var r isMutable = .ok checked)
    (horderly : orderlyVariable cx env var isMutable = true) {value : Value}
    (hrun : sst.add ctx var value isMutable = .ok sst') {v : LazyValue} (hv : w.Means v value)
    (hl : r.isLocal = true → w.IsLocal v) (hst : Agrees env w sst st) :
    Leads Never w st (State.add ctx var v isMutable) fun _ w' st' => Agrees checked.2 w' sst' st' := by
  match var with
  | .unscoped name location =>
    obtain ⟨env', henv', hr⟩ := except_bind_eq_ok.mp hadd
    obtain rfl := Except.ok.inj hr
    obtain ⟨values, hvalues, hrun⟩ := except_bind_eq_ok.mp hrun
    obtain rfl := Except.ok.inj hrun
    exact stateAddLocal_agrees hctx hinherited henv' hvalues hv hl hst
  | .scoped scope name location =>
    obtain ⟨sr, hsr, hr⟩ := except_bind_eq_ok.mp hadd
    obtain rfl := Except.ok.inj hr
    rw [orderlyVariable, hsr, Bool.and_eq_true] at horderly
    obtain ⟨hmutable, hlocal⟩ := horderly
    rw [Bool.not_eq_true'] at hmutable
    subst hmutable
    obtain ⟨sv, hsv, hscope⟩ := except_bind_eq_ok.mp hrun
    obtain ⟨n, hn, hadded⟩ := except_bind_eq_ok.mp hscope
    obtain rfl := scopeOf_eq_ok hn
    rw [State.add, if_neg Bool.false_ne_true]
    split at hadded
    next hnone =>
      obtain rfl := Except.ok.inj hadded
      refine leads_bind (stateEvaluateLazy_agrees hctx hinherited hsr hsv hst) fun s w₁ st₁ hle₁ h₁ => ?_
      refine leads_bind (stateAddThunk_agrees hinherited h₁.1 (World.means_mono hinherited hle₁ hv)) fun i w₂ st₂ hle₂ h₂ => ?_
      have hscoped := addScoped_agrees hinherited h₂.1.stores (World.isLocal_mono hle₂ (h₁.2.2 hlocal))
        (World.means_mono hinherited hle₂ h₁.2.1) h₂.2.1 hnone false
      refine leads_conseq (evaluating_leads hscoped) fun _ w₃ st₃ hle₃ h₃ => ?_
      obtain ⟨stores, rfl, hs⟩ := h₃
      exact ⟨hs, h₂.1.locals.mono hinherited hle₃, h₂.1.graph.mono hinherited hle₃⟩
    · simp at hadded

theorem stateSet_agrees (hctx : Suits cx ctx) (hinherited : ctx.config.inheritedVariables = []) {var : Variable}
    {r : VariableResult} {checked : List Identifier × Scopes VariableResult}
    (hset : checkVariableSet cx env var r = .ok checked) (horderly : isUnscoped var = true) {value : Value}
    (hrun : sst.set ctx var value = .ok sst') {v : LazyValue} (hv : w.Means v value) (hst : Agrees env w sst st) :
    Leads Never w st (State.set ctx var v) fun _ w' st' => Agrees checked.2 w' sst' st' := by
  match var with
  | .scoped scope name location => exact absurd horderly nofun
  | .unscoped name location =>
    obtain ⟨env', henv', hr⟩ := except_bind_eq_ok.mp hset
    obtain rfl := Except.ok.inj hr
    obtain ⟨values, hvalues, hrun⟩ := except_bind_eq_ok.mp hrun
    obtain rfl := Except.ok.inj hrun
    refine leads_bind (stateAddThunk_agrees hinherited hst hv) fun i w₁ st₁ _ h₁ => leads_get_bind ?_
    obtain ⟨locals', hok, hlocals'⟩ := h₁.1.locals.set hctx henv' hvalues h₁.2.1
    rw [hok]
    exact leads_bind_liftM (fun l hl => Except.ok.inj hl ▸ setLocals_agrees h₁.1 hlocals') fun _ he => absurd he nofun

theorem push_agrees (hst : Agrees env w sst st) {stmt : LazyStatement} {g : Graph}
    (hg : GraphAgrees w (st.lazyGraph.push stmt) st.graph g) :
    Leads Never w st (State.push stmt) fun _ w' st' => Agrees env w' { sst with graph := g } st' :=
  leads_of_ok rfl le_rfl ⟨hst.stores, hst.locals, hg⟩

/-! ### Attributes -/

/-- The attributes of an element, as the strict execution adds them. -/
def addTo (source : GraphNodeRef) (sink : Option GraphNodeRef) (name : Identifier) (value : Value) (g : Graph) :
    Except ExecutionError Graph :=
  (Addition.mk source sink name value).apply g

/-- Lazy attributes that come to what the strict execution adds. -/
def AttributesCome {config : Config} (w : World config) (source : GraphNodeRef) (sink : Option GraphNodeRef) (g g' : Graph)
    (attrs : List LazyAttribute) : Prop :=
  ∃ additions, AdditionsMean config w.1 source sink attrs additions ∧ steps (additions.map Addition.apply) g = .ok g'

variable {source : GraphNodeRef} {sink : Option GraphNodeRef} {scopes : Strict.ScopedVariables} {values : Scopes Value}
  {locals : Scopes LazyValue} {s : Stores} {g g' : Graph}

theorem concatAttributes_agree {config : Config} (hinherited : config.inheritedVariables = []) {w : World config}
    {strict : Attribute → Graph → Except ExecutionError Graph} {f : Attribute → Eval (List LazyAttribute)}
    {attrs : List Attribute} {used : List Identifier}
    (h : ∀ attr (w : World config) s r g g', checkExpression cx env attr.value = .ok r →
      LocalsAgree env w values locals → StoresAgree w scopes s → strict attr g = .ok g' →
      Leads Never w s (f attr) fun as w' s' => StoresAgree w' scopes s' ∧ AttributesCome w' source sink g g' as)
    (hr : checkAttributes cx env attrs = .ok used) (hlocals : LocalsAgree env w values locals)
    (hs : StoresAgree w scopes s) (hrun : Strict.eachAttribute strict attrs g = .ok g') :
    Leads Never w s (concatAttributes f attrs) fun as w' s' => StoresAgree w' scopes s' ∧
      AttributesCome w' source sink g g' as := by
  induction attrs generalizing used w s g with
  | nil =>
    obtain rfl := Except.ok.inj hrun
    exact leads_pure ⟨hs, [], .nil, rfl⟩
  | cons attr attrs ih =>
    obtain ⟨r, hvalue, hr⟩ := except_bind_eq_ok.mp hr
    obtain ⟨used', hrest, -⟩ := except_bind_eq_ok.mp hr
    obtain ⟨g₁, hfirst, hrun⟩ := except_bind_eq_ok.mp hrun
    refine leads_bind (h attr w s r g g₁ hvalue hlocals hs hfirst) fun as w₁ s₁ hle₁ h₁ => ?_
    refine leads_bind (ih hrest (hlocals.mono hinherited hle₁) h₁.1 hrun) fun bs w₂ s₂ hle₂ h₂ => ?_
    obtain ⟨additions, hmean, hsteps⟩ := h₁.2
    obtain ⟨additions', hmean', hsteps'⟩ := h₂.2
    refine leads_pure ⟨h₂.1, additions ++ additions', List.rel_append (additionsMean_mono hinherited hle₂ hmean) hmean', ?_⟩
    rw [List.map_append]
    exact steps_append_eq_ok.mpr ⟨g₁, hsteps, hsteps'⟩

/-- An attribute of a statement, or those of its shorthand. -/
theorem executeAttribute_agrees (hctx : Suits cx ctx) (hinherited : ctx.config.inheritedVariables = []) (fuel : Nat)
    {attr : Attribute} {r : ExpressionResult} (hr : checkExpression cx env attr.value = .ok r)
    (hlocals : LocalsAgree env w values locals) (hs : StoresAgree w scopes s)
    (hrun : Strict.executeAttribute scopes (addTo source sink) ctx fuel values attr g = .ok g') :
    Leads Never w s (executeAttribute ctx fuel locals attr) fun as w' s' =>
      StoresAgree w' scopes s' ∧ AttributesCome w' source sink g g' as := by
  induction fuel generalizing cx ctx env attr r values locals s g g' with
  | zero => simp [Strict.executeAttribute] at hrun
  | succ fuel ih =>
    rw [Strict.executeAttribute] at hrun
    obtain ⟨value, hvalue, hrun⟩ := except_bind_eq_ok.mp hrun
    rw [executeAttribute]
    refine leads_bind (evaluateLazy_agrees hctx hinherited attr.value hr hvalue hlocals hs) fun v w₁ s₁ hle₁ h₁ => ?_
    cases hsh : ctx.config.shorthands attr.name with
    | none =>
      simp only [hsh] at hrun
      exact leads_pure ⟨h₁.1, [⟨source, sink, attr.name, value⟩], .cons ⟨rfl, rfl, rfl, h₁.2.1⟩ .nil, steps_singleton.trans hrun⟩
    | some sh =>
      simp only [hsh] at hrun
      obtain ⟨values', hvalues', hrun⟩ := except_bind_eq_ok.mp hrun
      obtain ⟨env₀, used₀, hadd, hattrs⟩ := hctx.shorthands attr.name sh hsh
      refine leads_bind (add_agrees hinherited h₁.1 h₁.2.1) fun i w₂ s₂ hle₂ h₂ => ?_
      obtain ⟨locals', hok, hlocals'⟩ := (LocalsAgree.new w₂).add hctx.ofShorthand hadd hvalues' h₂.2.1 fun hl =>
        absurd hl Bool.false_ne_true
      have hok : ctx.config.addLocal Scopes.new sh.var (.var i) false = .ok locals' := hok
      rw [hok]
      refine leads_bind_liftM (fun l hl => Except.ok.inj hl ▸ ?_) fun _ he => by cases he
      exact concatAttributes_agree hinherited
        (fun _ _ _ _ _ _ hr' hl' hs' hrun' => ih (w := _) hctx.ofShorthand hinherited hr' hl' hs' hrun') hattrs hlocals' h₂.1 hrun

theorem executeAttributes_agree (hctx : Suits cx ctx) (hinherited : ctx.config.inheritedVariables = []) (fuel : Nat)
    {attrs : List Attribute} {used : List Identifier} (hr : checkAttributes cx env attrs = .ok used)
    (hlocals : LocalsAgree env w values locals) (hs : StoresAgree w scopes s)
    (hrun : Strict.executeAttributes ctx scopes (addTo source sink) fuel values attrs g = .ok g') :
    Leads Never w s (executeAttributes ctx fuel locals attrs) fun as w' s' =>
      StoresAgree w' scopes s' ∧ AttributesCome w' source sink g g' as :=
  concatAttributes_agree hinherited (fun _ _ _ _ _ _ hr' hl' hs' hrun' =>
    executeAttribute_agrees hctx hinherited fuel hr' hl' hs' hrun')
    hr hlocals hs hrun

/-- The attributes of a statement are recorded. -/
theorem pushAttributes_agree (hctx : Suits cx ctx) (hinherited : ctx.config.inheritedVariables = []) (fuel : Nat)
    {attrs : List Attribute} {used : List Identifier} (hr : checkAttributes cx env attrs = .ok used)
    (hst : Agrees env w sst st)
    (hrun : Strict.executeAttributes ctx sst.scopes (addTo source sink) fuel sst.locals attrs sst.graph = .ok g)
    (stmt : List LazyAttribute → LazyStatement) (hattr : ∀ as, (stmt as).isAttribute = true)
    (hstmt : ∀ as additions w', w ≤ w' → AdditionsMean ctx.config w'.1 source sink as additions →
      ComesTo ctx.config w'.1 (stmt as) (.add additions)) :
    Leads Never w st (do
        let st ← get
        let attrs ← evaluating (executeAttributes ctx fuel st.locals attrs)
        State.push (stmt attrs)) fun _ w' st' => Agrees env w' { sst with graph := g } st' := by
  refine leads_get_bind ?_
  refine leads_bind (evaluating_agrees hinherited hst
    (executeAttributes_agree hctx hinherited fuel hr hst.locals hst.stores hrun))
    fun as w₁ st₁ hle₁ h₁ => ?_
  obtain ⟨hst₁, additions, hmean, hsteps⟩ := h₁
  exact push_agrees hst₁ (hst₁.graph.additions hsteps (hattr as) (hstmt as additions w₁ hle₁ hmean))

/-! ### Conditions and prints -/

theorem testEager_agrees (hctx : Suits cx ctx) (hinherited : ctx.config.inheritedVariables = []) {c : Condition}
    {used : List Identifier} (hc : checkCondition cx env c = .ok used) {b : Bool}
    (hrun : Strict.testCondition ctx sst c = .ok b) (hst : Agrees env w sst st) :
    Leads Never w st (testEager ctx c) fun b' w' st' => Agrees env w' sst st' ∧ b' = b := by
  obtain ⟨r, hlocal, ⟨e, rfl, hr⟩ | ⟨e, rfl, hr⟩ | ⟨e, rfl, hr⟩⟩ := checkCondition_local hc
  · obtain ⟨value, hvalue, hb⟩ := except_bind_eq_ok.mp hrun
    obtain rfl := Except.ok.inj hb
    exact leads_bind (stateEvaluateEager_agrees hctx hinherited hr hlocal hvalue hst) fun u w₁ st₁ _ h₁ =>
      leads_pure ⟨h₁.1, by rw [h₁.2]⟩
  · obtain ⟨value, hvalue, hb⟩ := except_bind_eq_ok.mp hrun
    obtain rfl := Except.ok.inj hb
    exact leads_bind (stateEvaluateEager_agrees hctx hinherited hr hlocal hvalue hst) fun u w₁ st₁ _ h₁ =>
      leads_pure ⟨h₁.1, by rw [h₁.2]⟩
  · obtain ⟨value, hvalue, hb⟩ := except_bind_eq_ok.mp hrun
    refine leads_bind (stateEvaluateEager_agrees hctx hinherited hr hlocal hvalue hst) fun u w₁ st₁ _ h₁ => ?_
    rw [h₁.2, hb]
    exact leads_liftM (fun b' hb' => ⟨h₁.1, (Except.ok.inj hb').symm⟩) fun _ he => absurd he nofun

theorem testAllEager_agrees (hctx : Suits cx ctx) (hinherited : ctx.config.inheritedVariables = [])
    {cs : List Condition} {used : List Identifier} (hcs : checkConditions cx env cs = .ok used) {b : Bool}
    (hrun : Strict.testConditions ctx sst cs = .ok b) (hst : Agrees env w sst st) :
    Leads Never w st (testAllEager ctx cs) fun b' w' st' => Agrees env w' sst st' ∧ b' = b := by
  induction cs generalizing used w st b with
  | nil => exact leads_pure ⟨hst, Except.ok.inj hrun⟩
  | cons c cs ih =>
    obtain ⟨used₁, hc, h⟩ := except_bind_eq_ok.mp hcs
    obtain ⟨used₂, hcs, -⟩ := except_bind_eq_ok.mp h
    obtain ⟨b₁, hb₁, hrun⟩ := except_bind_eq_ok.mp hrun
    obtain ⟨b₂, hb₂, hrun⟩ := except_bind_eq_ok.mp hrun
    obtain rfl := Except.ok.inj hrun
    refine leads_bind (testEager_agrees hctx hinherited hc hb₁ hst) fun b₁' w₁ st₁ _ h₁ => ?_
    refine leads_bind (ih hcs hb₂ h₁.1) fun b₂' w₂ st₂ _ h₂ => ?_
    exact leads_pure ⟨h₂.1, by rw [h₁.2, h₂.2]⟩

/-- What is printed has a value in the strict execution, so its lazy value means something. -/
theorem executePrint_agrees (hctx : Suits cx ctx) (hinherited : ctx.config.inheritedVariables = []) {es : List Expression}
    {r : Bool × List Identifier} (hes : checkExpressions cx env es = .ok r) (hrun : Strict.executePrint ctx sst es = .ok ())
    (hst : Agrees env w sst st) :
    Leads Never w st (executePrint ctx es) fun args w' st' =>
      Agrees env w' sst st' ∧ ∀ v, some v ∈ args → ∃ value, w'.Means v value := by
  induction es generalizing r w st with
  | nil => exact leads_pure ⟨hst, fun _ h => absurd h List.not_mem_nil⟩
  | cons e es ih =>
    obtain ⟨r₁, he, h⟩ := except_bind_eq_ok.mp hes
    obtain ⟨r₂, hrest, -⟩ := except_bind_eq_ok.mp h
    have hvalue : ∀ value, sst.evaluate ctx e = .ok value → Strict.executePrint ctx sst es = .ok () → Leads Never w st (do
        let v ← State.evaluateLazy ctx e
        let args ← executePrint ctx es
        return some v :: args) fun args w' st' => Agrees env w' sst st' ∧ ∀ v, some v ∈ args → ∃ value, w'.Means v value := by
      intro value hvalue hprint
      refine leads_bind (stateEvaluateLazy_agrees hctx hinherited he hvalue hst) fun v w₁ st₁ hle₁ h₁ => ?_
      refine leads_bind (ih hrest hprint h₁.1) fun args w₂ st₂ hle₂ h₂ => leads_pure ⟨h₂.1, fun u hu => ?_⟩
      rcases List.mem_cons.mp hu with hu | hu
      · exact ⟨value, Option.some.inj hu ▸ World.means_mono hinherited hle₂ h₁.2.1⟩
      · exact h₂.2 u hu
    cases e with
    | stringConstant text =>
      rw [executePrint]
      refine leads_bind (ih hrest hrun hst) fun args w₁ st₁ _ h₁ => leads_pure ⟨h₁.1, fun u hu => h₁.2 u ?_⟩
      simpa using hu
    | _ =>
      obtain ⟨value, hv, hprint⟩ := except_bind_eq_ok.mp hrun
      exact hvalue value hv hprint

/-! ### Blocks, loops and scans -/

/-- A block that is run in environments of its own. -/
theorem inScope_agrees {f : Strict.State → Except ExecutionError Strict.State} {f' : Exec Unit}
    (hst : Agrees env w sst st) (hrun : Strict.State.inScope f sst = .ok sst') (inner : Scopes VariableResult)
    (h : ∀ sst₁ sst₂ st₁, Agrees env.nested w sst₁ st₁ → f sst₁ = .ok sst₂ → Leads Never w st₁ f' fun _ w' st₂ =>
      Agrees inner w' sst₂ st₂) :
    Leads Never w st (State.inScope f') fun _ w' st' => Agrees inner.tail w' sst' st' := by
  obtain ⟨sst₂, hf, hrun⟩ := except_bind_eq_ok.mp hrun
  obtain rfl := Except.ok.inj hrun
  exact inScope_leads (h _ sst₂ _ hst.nested hf) fun _ _ h' => h'.tail

/-- A loop of steps that agree. -/
theorem forEach_agrees {config : Config} {w : World config} {α : Type}
    {f : Strict.State → α → Except ExecutionError Strict.State} {f' : α → Exec Unit}
    {I : World config → Strict.State → State → Prop} {items : List α}
    (hstep : ∀ a ∈ items, ∀ (w : World config) sst sst' st, I w sst st → f sst a = .ok sst' →
      Leads Never w st (f' a) fun _ w' st' => I w' sst' st')
    (hI : I w sst st) (hrun : items.foldlM f sst = .ok sst') :
    Leads Never w st (forEach f' items) fun _ w' st' => I w' sst' st' := by
  induction items generalizing w sst st with
  | nil =>
    obtain rfl := Except.ok.inj hrun
    exact leads_pure hI
  | cons a items ih =>
    rw [List.foldlM_cons] at hrun
    obtain ⟨sst₁, hfirst, hrest⟩ := except_bind_eq_ok.mp hrun
    exact leads_bind (hstep a List.mem_cons_self w sst sst₁ st hI hfirst) fun _ w₁ st₁ _ h₁ =>
      ih (fun b hb => hstep b (List.mem_cons_of_mem _ hb)) h₁ hrest

theorem earliest_agrees {α β : Type} {R : α → β → Prop} {as : List α} {bs : List β} (h : List.Forall₂ R as bs)
    (ms : List (Option RegexMatch)) :
    (earliest (ms.zip as) = none ∧ earliest (ms.zip bs) = none) ∨
      ∃ m a b, earliest (ms.zip as) = some (m, a) ∧ earliest (ms.zip bs) = some (m, b) ∧ R a b := by
  induction h generalizing ms with
  | nil => exact .inl (by simp [earliest])
  | @cons a b as bs hab _ ih =>
    cases ms with
    | nil => exact .inl ⟨rfl, rfl⟩
    | cons m ms =>
      cases m with
      | none => exact ih ms
      | some m =>
        rw [List.zip_cons_cons, List.zip_cons_cons, earliest, earliest]
        rcases ih ms with ⟨ha, hb⟩ | ⟨m', a', b', ha, hb, hR⟩
        · rw [ha, hb]
          exact .inr ⟨m, a, b, rfl, rfl, hab⟩
        · simp only [ha, hb]
          split
          · exact .inr ⟨m', a', b', rfl, rfl, hR⟩
          · exact .inr ⟨m, a, b, rfl, rfl, hab⟩

/-- Arms of a scan that keep the states in agreement. -/
def ArmsAgree {config : Config} (I : World config → Strict.State → State → Prop)
    (arm : List String → Strict.State → Except ExecutionError Strict.State)
    (arm' : List String → State → Except ExecutionError State) : Prop :=
  ∀ captures w sst sst' st, I w sst st → arm captures sst = .ok sst' → ∃ st' w', arm' captures st = .ok st' ∧ w ≤ w' ∧
    I w' sst' st'

/-- A scan finds the same matches, and so runs the same arms. -/
theorem scanLoop_agrees {config : Config} (regexes : List Regex) {I : World config → Strict.State → State → Prop}
    {w : World config} {arms : List (List String → Strict.State → Except ExecutionError Strict.State)}
    {arms' : List (List String → State → Except ExecutionError State)} (harms : List.Forall₂ (ArmsAgree I) arms arms')
    (fuel : Nat) (rest : List Char) (hI : I w sst st) (hrun : scanLoop config regexes arms fuel rest sst = .ok sst') :
    ∃ st' w', scanLoop config regexes arms' fuel rest st = .ok st' ∧ w ≤ w' ∧ I w' sst' st' := by
  induction fuel generalizing rest w sst st with
  | zero =>
    cases rest with
    | nil => exact ⟨st, w, rfl, le_rfl, Except.ok.inj hrun ▸ hI⟩
    | cons c rest => exact absurd hrun nofun
  | succ fuel ih =>
    cases rest with
    | nil => exact ⟨st, w, rfl, le_rfl, Except.ok.inj hrun ▸ hI⟩
    | cons c rest =>
      obtain ⟨ms, hms, hrun⟩ := except_bind_eq_ok.mp hrun
      rw [scanLoop, except_bind_ok hms]
      rcases earliest_agrees harms ms with ⟨ha, hb⟩ | ⟨m, arm, arm', ha, hb, hagree⟩
      · simp only [ha] at hrun
        simp only [hb]
        exact ⟨st, w, rfl, le_rfl, Except.ok.inj hrun ▸ hI⟩
      · simp only [ha] at hrun
        simp only [hb]
        obtain ⟨sst₁, harm, hrest⟩ := except_bind_eq_ok.mp hrun
        obtain ⟨st₁, w₁, hok, hle, hI₁⟩ := hagree m.texts w sst sst₁ st hI harm
        obtain ⟨st', w', hok', hle', hI'⟩ := ih _ hI₁ hrest
        exact ⟨st', w', by rw [except_bind_ok hok]; exact hok', hle.trans hle', hI'⟩

end Steps

/-! ## Statements -/

mutual

/-- A statement that the strict execution executes, the lazy one executes, and they agree again. -/
theorem execute_agrees (fuel : Nat) {cx : CheckContext} {ctx : Context} (hctx : Suits cx ctx)
    (hinherited : ctx.config.inheritedVariables = []) (stmt : Statement) {env : Scopes VariableResult} {w : World ctx.config}
    {sst sst' : Strict.State} {st : State} {r : List Identifier × Scopes VariableResult} (henv : Steady env)
    (hr : checkStatement cx stmt env = .ok r) (horderly : orderlyStatement cx stmt env = true)
    (hrun : Strict.execute fuel ctx stmt sst = .ok sst') (hst : Agrees env w sst st) :
    Leads Never w st (execute fuel ctx stmt) fun _ w' st' => Agrees r.2 w' sst' st' := by
  match stmt with
  | .declareImmutable var e =>
    obtain ⟨v, hv, hr⟩ := except_bind_eq_ok.mp hr
    obtain ⟨r', hadd, hr⟩ := except_bind_eq_ok.mp hr
    obtain rfl := Except.ok.inj hr
    obtain ⟨value, hvalue, hrun⟩ := except_bind_eq_ok.mp hrun
    rw [execute]
    exact leads_bind (stateEvaluateLazy_agrees hctx hinherited hv hvalue hst) fun u w₁ st₁ _ h₁ =>
      stateAdd_agrees hctx hinherited hadd horderly hrun h₁.2.1 h₁.2.2 h₁.1
  | .declareMutable var e =>
    obtain ⟨v, hv, hr⟩ := except_bind_eq_ok.mp hr
    obtain ⟨r', hadd, hr⟩ := except_bind_eq_ok.mp hr
    obtain rfl := Except.ok.inj hr
    obtain ⟨value, hvalue, hrun⟩ := except_bind_eq_ok.mp hrun
    rw [execute]
    exact leads_bind (stateEvaluateLazy_agrees hctx hinherited hv hvalue hst) fun u w₁ st₁ _ h₁ =>
      stateAdd_agrees hctx hinherited hadd horderly hrun h₁.2.1 h₁.2.2 h₁.1
  | .assign var e =>
    obtain ⟨v, hv, hr⟩ := except_bind_eq_ok.mp hr
    obtain ⟨r', hset, hr⟩ := except_bind_eq_ok.mp hr
    obtain rfl := Except.ok.inj hr
    obtain ⟨value, hvalue, hrun⟩ := except_bind_eq_ok.mp hrun
    rw [execute]
    exact leads_bind (stateEvaluateLazy_agrees hctx hinherited hv hvalue hst) fun u w₁ st₁ _ h₁ =>
      stateSet_agrees hctx hinherited hset horderly hrun h₁.2.1 h₁.1
  | .createGraphNode node =>
    obtain ⟨attributes, hattributes, hrun⟩ := except_bind_eq_ok.mp hrun
    rw [execute, hattributes]
    refine leads_bind_liftM (fun attributes' ha => ?_) fun _ he => absurd he nofun
    obtain rfl := Except.ok.inj ha
    refine leads_get_bind ?_
    have hset : Agrees env w { sst with graph := sst.graph.addGraphNode attributes }
      { st with graph := st.graph.addGraphNode attributes } :=
      ⟨hst.stores, hst.locals, hst.graph.addGraphNode attributes⟩
    refine leads_bind (P := fun _ w' st' => Agrees env w' { sst with graph := sst.graph.addGraphNode attributes } st')
      (leads_of_ok rfl le_rfl hset) fun _ w₁ st₁ _ h₁ => ?_
    rw [hst.graph.length]
    exact stateAdd_agrees hctx hinherited hr horderly hrun (means_value.mpr rfl) (fun _ => .value _ _) h₁
  | .addGraphNodeAttribute node attributes =>
    obtain ⟨n, hn, hr⟩ := except_bind_eq_ok.mp hr
    obtain ⟨used, hused, hr⟩ := except_bind_eq_ok.mp hr
    obtain rfl := Except.ok.inj hr
    obtain ⟨value, hvalue, hnode⟩ := except_bind_eq_ok.mp hrun
    obtain ⟨source, hsource, hattrs⟩ := except_bind_eq_ok.mp hnode
    obtain ⟨g, hg, hend⟩ := except_bind_eq_ok.mp hattrs
    obtain rfl := Except.ok.inj hend
    obtain rfl := intoGraphNodeRef_eq_ok.mp hsource
    rw [execute]
    refine leads_bind (stateEvaluateLazy_agrees hctx hinherited hn hvalue hst) fun v w₁ st₁ _ h₁ => ?_
    have hg : Strict.executeAttributes ctx sst.scopes (addTo source none) fuel sst.locals attributes sst.graph = .ok g := hg
    exact pushAttributes_agree hctx hinherited fuel hused h₁.1 hg (.addGraphNodeAttribute v) (fun _ => rfl)
      fun as additions w' hle ha =>
      .addGraphNodeAttribute (World.means_mono hinherited hle h₁.2.1) ha
  | .createEdge source sink location =>
    obtain ⟨n, hn, hr⟩ := except_bind_eq_ok.mp hr
    obtain ⟨t, ht, hr⟩ := except_bind_eq_ok.mp hr
    obtain rfl := Except.ok.inj hr
    obtain ⟨sv, hsv, h₁⟩ := except_bind_eq_ok.mp hrun
    obtain ⟨s, hs, h₂⟩ := except_bind_eq_ok.mp h₁
    obtain ⟨tv, htv, h₃⟩ := except_bind_eq_ok.mp h₂
    obtain ⟨t', ht', h₄⟩ := except_bind_eq_ok.mp h₃
    obtain ⟨g, hg, hend⟩ := except_bind_eq_ok.mp h₄
    obtain rfl := Except.ok.inj hend
    obtain rfl := intoGraphNodeRef_eq_ok.mp hs
    obtain rfl := intoGraphNodeRef_eq_ok.mp ht'
    rw [execute]
    refine leads_bind (stateEvaluateLazy_agrees hctx hinherited hn hsv hst) fun v w₁ st₁ _ h₁ => ?_
    refine leads_bind (stateEvaluateLazy_agrees hctx hinherited ht htv h₁.1) fun v' w₂ st₂ hle₂ h₂ => ?_
    obtain ⟨attributes, hattributes, hgraph⟩ := h₂.1.graph.createEdge hg
    rw [hattributes]
    refine leads_bind_liftM (fun attributes' ha => ?_) fun _ he => absurd he nofun
    obtain rfl := Except.ok.inj ha
    exact push_agrees h₂.1 (hgraph v v' (World.means_mono hinherited hle₂ h₁.2.1) h₂.2.1)
  | .addEdgeAttribute source sink attributes =>
    obtain ⟨n, hn, hr⟩ := except_bind_eq_ok.mp hr
    obtain ⟨t, ht, hr⟩ := except_bind_eq_ok.mp hr
    obtain ⟨used, hused, hr⟩ := except_bind_eq_ok.mp hr
    obtain rfl := Except.ok.inj hr
    obtain ⟨sv, hsv, h₁⟩ := except_bind_eq_ok.mp hrun
    obtain ⟨s, hs, h₂⟩ := except_bind_eq_ok.mp h₁
    obtain ⟨tv, htv, h₃⟩ := except_bind_eq_ok.mp h₂
    obtain ⟨t', ht', h₄⟩ := except_bind_eq_ok.mp h₃
    obtain ⟨g, hg, hend⟩ := except_bind_eq_ok.mp h₄
    obtain rfl := Except.ok.inj hend
    obtain rfl := intoGraphNodeRef_eq_ok.mp hs
    obtain rfl := intoGraphNodeRef_eq_ok.mp ht'
    rw [execute]
    refine leads_bind (stateEvaluateLazy_agrees hctx hinherited hn hsv hst) fun v w₁ st₁ _ h₁ => ?_
    refine leads_bind (stateEvaluateLazy_agrees hctx hinherited ht htv h₁.1) fun v' w₂ st₂ hle₂ h₂ => ?_
    have hg : Strict.executeAttributes ctx sst.scopes (addTo s (some t')) fuel sst.locals attributes sst.graph = .ok g := hg
    exact pushAttributes_agree hctx hinherited fuel hused h₂.1 hg (.addEdgeAttribute v v') (fun _ => rfl)
      fun as additions w' hle ha =>
      .addEdgeAttribute (World.means_mono hinherited (hle₂.trans hle) h₁.2.1) (World.means_mono hinherited hle h₂.2.1) ha
  | .scan e arms =>
    obtain ⟨v, hv, hr⟩ := except_bind_eq_ok.mp hr
    split at hr
    · exact absurd hr nofun
    next hlocal =>
      obtain ⟨r', harms, hr⟩ := except_bind_eq_ok.mp hr
      obtain rfl := Except.ok.inj hr
      obtain ⟨value, hvalue, hrun⟩ := except_bind_eq_ok.mp hrun
      obtain ⟨text, htext, hrun⟩ := except_bind_eq_ok.mp hrun
      rw [execute]
      refine leads_bind (stateEvaluateEager_agrees hctx hinherited hv (Bool.of_not_eq_false hlocal) hvalue hst)
        fun u w₁ st₁ _ h₁ => ?_
      rw [h₁.2, htext]
      refine leads_bind_liftM (fun text' ht => ?_) fun _ he => absurd he nofun
      obtain rfl := Except.ok.inj ht
      obtain ⟨st', w', hok, hle, h'⟩ := scanLoop_agrees (arms.map Prod.fst)
        (scanArms_agree fuel hctx hinherited arms henv (agree_same_refl env) harms horderly) text.toList.length
          text.toList h₁.1 hrun
      refine leads_of_ok (?_ : (_ : Except ExecutionError (Unit × State)) = .ok ((), st')) hle
        (h'.same (checkArms_same henv harms).2)
      rw [scanText, hok]
      rfl
  | .print values =>
    obtain ⟨v, hv, hr⟩ := except_bind_eq_ok.mp hr
    obtain rfl := Except.ok.inj hr
    obtain ⟨_, hprint, hrun⟩ := except_bind_eq_ok.mp hrun
    obtain rfl := Except.ok.inj hrun
    rw [execute]
    exact leads_bind (executePrint_agrees hctx hinherited hv hprint hst) fun args w₁ st₁ _ h₁ =>
      push_agrees h₁.1 (h₁.1.graph.print h₁.2)
  | .ifs arms =>
    rw [execute]
    exact executeIfs_agrees fuel hctx hinherited arms henv hr horderly hrun hst
  | .forIn var e statements =>
    obtain ⟨v, hv, hr⟩ := except_bind_eq_ok.mp hr
    obtain ⟨env', hloop, hr⟩ := except_bind_eq_ok.mp hr
    obtain ⟨r', hbody, hr⟩ := except_bind_eq_ok.mp hr
    obtain rfl := Except.ok.inj hr
    rw [orderlyStatement, except_bind_ok hv, hloop] at horderly
    obtain ⟨value, hvalue, hrun⟩ := except_bind_eq_ok.mp hrun
    obtain ⟨items, hitems, hrun⟩ := except_bind_eq_ok.mp hrun
    obtain ⟨hlocal, -, hadd⟩ := checkLoop_eq_ok.mp hloop
    have hfollows := checkAdd_follows (steady_nested henv) hadd
    have hsame := (hfollows.trans (checkStatements_follows hfollows.steady hbody)).block.2
    rw [execute]
    refine leads_bind (stateEvaluateEager_agrees hctx hinherited hv hlocal hvalue hst) fun u w₁ st₁ _ h₁ => ?_
    rw [h₁.2, hitems]
    refine leads_bind_liftM (fun items' hi => ?_) fun _ he => absurd he nofun
    obtain rfl := Except.ok.inj hi
    refine leads_conseq (forEach_agrees (I := fun w' sst' st' => Agrees env w' sst' st')
      (fun item _ w₂ sst₂ sst₃ st₂ h₂ hitem => ?_) h₁.1 hrun)
      fun _ w' st' _ h' => h'.same hsame
    refine leads_conseq (inScope_agrees h₂ hitem r'.2 fun sst₄ sst₅ st₄ h₄ hrun₄ => ?_)
      fun _ w' st' _ h' => h'.same (hsame.symm.mono fun _ _ => Eq.symm)
    obtain ⟨values, hvalues, hbodyRun⟩ := except_bind_eq_ok.mp hrun₄
    exact leads_bind (stateAddLocal_agrees hctx hinherited hadd hvalues (means_value.mpr rfl) (fun _ => .value _ _) h₄)
      fun _ w₅ st₅ _ h₅ => executeAll_agrees fuel hctx hinherited statements hfollows.steady hbody horderly hbodyRun h₅

theorem executeAll_agrees (fuel : Nat) {cx : CheckContext} {ctx : Context} (hctx : Suits cx ctx)
    (hinherited : ctx.config.inheritedVariables = []) (stmts : List Statement) {env : Scopes VariableResult}
    {w : World ctx.config} {sst sst' : Strict.State} {st : State} {r : List Identifier × Scopes VariableResult}
    (henv : Steady env) (hr : checkStatements cx stmts env = .ok r) (horderly : orderlyStatements cx stmts env = true)
    (hrun : Strict.executeAll fuel ctx stmts sst = .ok sst') (hst : Agrees env w sst st) :
    Leads Never w st (executeAll fuel ctx stmts) fun _ w' st' => Agrees r.2 w' sst' st' := by
  match stmts with
  | [] =>
    obtain rfl := Except.ok.inj hr
    obtain rfl := Except.ok.inj hrun
    rw [executeAll]
    exact leads_pure hst
  | stmt :: stmts =>
    obtain ⟨r₁, hr₁, hr⟩ := except_bind_eq_ok.mp hr
    obtain ⟨r₂, hr₂, hr⟩ := except_bind_eq_ok.mp hr
    obtain rfl := Except.ok.inj hr
    obtain ⟨sst₁, hrun₁, hrun₂⟩ := except_bind_eq_ok.mp hrun
    rw [orderlyStatements, Bool.and_eq_true, hr₁] at horderly
    rw [executeAll]
    exact leads_bind (execute_agrees fuel hctx hinherited stmt henv hr₁ horderly.1 hrun₁ hst) fun _ w₁ st₁ _ h₁ =>
      executeAll_agrees (r := r₂) fuel hctx hinherited stmts (checkStatement_follows henv hr₁).steady hr₂ horderly.2 hrun₂ h₁

theorem scanArms_agree (fuel : Nat) {cx : CheckContext} {ctx : Context} (hctx : Suits cx ctx)
    (hinherited : ctx.config.inheritedVariables = []) (arms : List (Regex × List Statement))
    {env env₀ : Scopes VariableResult} {r : List Identifier × Scopes VariableResult} (henv : Steady env₀)
    (hsame : env.Agree Same env₀) (hr : checkArms cx arms env₀ = .ok r) (horderly : orderlyArms cx arms env₀ = true) :
    List.Forall₂ (ArmsAgree fun (w : World ctx.config) sst st => Agrees env w sst st) (Strict.scanArms fuel ctx arms)
      (scanArms fuel ctx arms) := by
  match arms with
  | [] => exact .nil
  | (regex, statements) :: arms =>
    rw [checkArms] at hr
    split at hr
    · exact absurd hr nofun
    · obtain ⟨r₁, hr₁, hr⟩ := except_bind_eq_ok.mp hr
      obtain ⟨r₂, hr₂, hr⟩ := except_bind_eq_ok.mp hr
      rw [orderlyArms, Bool.and_eq_true, hr₁] at horderly
      obtain ⟨hsteady, hblock⟩ := (checkStatements_follows (steady_nested henv) hr₁).block
      have hsame' : env.Agree Same r₁.2.tail := agree_same_trans hsame hblock
      refine .cons (fun captures w sst sst' st hst hrun => ?_)
        (scanArms_agree fuel hctx hinherited arms hsteady hsame' hr₂ horderly.2)
      have hblock := inScope_agrees (hst.same hsame) hrun r₁.2 fun sst₁ sst₂ st₁ h₁ hrun₁ =>
        executeAll_agrees fuel (hctx.withRegexCaptures captures) hinherited statements
          (steady_nested henv) hr₁ horderly.1 hrun₁ h₁
      obtain ⟨_, st', w', hok, hle, h'⟩ := leads_total hblock
      exact ⟨st', w', except_map_eq_ok.mpr ⟨_, hok, rfl⟩, hle, h'.same (hsame'.symm.mono fun _ _ => Eq.symm)⟩

theorem executeIfs_agrees (fuel : Nat) {cx : CheckContext} {ctx : Context} (hctx : Suits cx ctx)
    (hinherited : ctx.config.inheritedVariables = []) (arms : List (List Condition × List Statement))
    {env : Scopes VariableResult} {w : World ctx.config} {sst sst' : Strict.State} {st : State}
    {r : List Identifier × Scopes VariableResult} (henv : Steady env) (hr : checkIfs cx arms env = .ok r)
    (horderly : orderlyIfs cx arms env = true) (hrun : Strict.executeIfs fuel ctx arms sst = .ok sst')
    (hst : Agrees env w sst st) :
    Leads Never w st (executeIfs fuel ctx arms) fun _ w' st' => Agrees r.2 w' sst' st' := by
  match arms with
  | [] =>
    obtain rfl := Except.ok.inj hr
    obtain rfl := Except.ok.inj hrun
    rw [executeIfs]
    exact leads_pure hst
  | (conditions, statements) :: arms =>
    obtain ⟨used, hconditions, hr⟩ := except_bind_eq_ok.mp hr
    obtain ⟨r₁, hr₁, hr⟩ := except_bind_eq_ok.mp hr
    obtain ⟨r₂, hr₂, hr⟩ := except_bind_eq_ok.mp hr
    obtain rfl := Except.ok.inj hr
    rw [orderlyIfs, Bool.and_eq_true, hr₁] at horderly
    obtain ⟨hsteady, hblock⟩ := (checkStatements_follows (steady_nested henv) hr₁).block
    obtain ⟨b, hb, hrun⟩ := except_bind_eq_ok.mp hrun
    rw [executeIfs]
    refine leads_bind (testAllEager_agrees hctx hinherited hconditions hb hst) fun holds w₁ st₁ _ h₁ => ?_
    obtain ⟨hst₁, rfl⟩ := h₁
    cases holds with
    | true =>
      have hblockRun := inScope_agrees hst₁ hrun r₁.2 fun sst₁ sst₂ st₁ h₁ hrun₁ =>
        executeAll_agrees fuel hctx hinherited statements (steady_nested henv) hr₁ horderly.1 hrun₁ h₁
      exact leads_conseq hblockRun fun _ w₂ st₂ _ h₂ => h₂.same (checkIfs_same hsteady hr₂).2
    | false => exact executeIfs_agrees (r := r₂) fuel hctx hinherited arms hsteady hr₂ horderly.2 hrun (hst₁.same hblock)

end

/-! ## Files -/

/-- The matches of checked and orderly stanzas. -/
theorem executeMatches_agrees (fuel : Nat) (config : Config) (hinherited : config.inheritedVariables = [])
    {declared : Identifier → Option VariableResult}
    (hglobals : ∀ name, config.globals name = none ↔ declared name = none)
    (hshorthands : ShorthandsCheck ⟨declared, [], config.regexMatch⟩ config) {visits : List (Stanza × QueryMatch)}
    (hvisits : ∀ visit ∈ visits, ∃ r, checkStatements ⟨declared, visit.1.captures, config.regexMatch⟩ visit.1.statements
      Scopes.new = .ok r)
    (horderly : ∀ visit ∈ visits, orderlyStatements ⟨declared, visit.1.captures, config.regexMatch⟩ visit.1.statements
      Scopes.new = true)
    {w : World config} {sst sst' : Strict.State} {st : State} (hs : StoresAgree w sst.scopes st.stores)
    (hg : GraphAgrees w st.lazyGraph st.graph sst.graph)
    (hrun : Strict.executeMatches fuel config visits sst = .ok sst') :
    Leads Never w st (executeMatches fuel config visits) fun _ w' st' =>
      StoresAgree w' sst'.scopes st'.stores ∧ GraphAgrees w' st'.lazyGraph st'.graph sst'.graph := by
  induction visits generalizing w sst st with
  | nil =>
    obtain rfl := Except.ok.inj hrun
    exact leads_pure ⟨hs, hg⟩
  | cons visit visits ih =>
    obtain ⟨r, hr⟩ := hvisits visit List.mem_cons_self
    obtain ⟨sst₁, hfirst, hrest⟩ := except_bind_eq_ok.mp hrun
    have hctx : Suits ⟨declared, visit.1.captures, config.regexMatch⟩ ⟨config, visit.1, visit.2, []⟩ :=
      ⟨hglobals, rfl, hshorthands⟩
    have hstart : Agrees Scopes.new w { sst with locals := Scopes.new } { st with locals := Scopes.new } :=
      ⟨hs, LocalsAgree.new w, hg⟩
    rw [executeMatches]
    refine leads_bind (P := fun _ w' st' => Agrees Scopes.new w' { sst with locals := Scopes.new } st')
      (leads_of_ok rfl le_rfl hstart)
      fun _ w₁ st₁ _ h₁ => ?_
    refine leads_bind (executeAll_agrees fuel hctx hinherited visit.1.statements steady_new hr
      (horderly visit List.mem_cons_self) hfirst h₁)
      fun _ w₂ st₂ _ h₂ => ?_
    exact ih (fun v hv => hvisits v (List.mem_cons_of_mem _ hv)) (fun v hv => horderly v (List.mem_cons_of_mem _ hv))
      h₂.stores h₂.graph hrest

/-- In stores that agree with those of the strict execution, everything has a meaning, so what was
    recorded is evaluated to the same graph. -/
theorem evaluateState_agrees {config : Config} {w : World config} {scopes : Strict.ScopedVariables} {st : State} {g : Graph}
    (hs : StoresAgree w scopes st.stores) (hg : GraphAgrees w st.lazyGraph st.graph g) :
    ∃ b s', evaluateState config st = .ok (b, s') ∧ b.graph = g :=
  (evaluateState_iff hs.stores.rest g).mpr ⟨hg.changes, hs.thunks, fun _ hname => w.2.scopesMean hname⟩

/-- The graph that the strict execution of a checked and orderly file builds, the lazy execution of the
    same matches builds, given only globals that the file declares. -/
theorem lazy_execution_follows_strict (fuel : Nat) (file : File) (config : Config)
    {declared : Identifier → Option VariableResult} (hcheck : file.check config.regexMatch = .ok ())
    (hdeclared : declareGlobals file.globals (fun _ => none) = .ok declared)
    (hgiven : ∀ name, config.globals name ≠ none → ∃ g ∈ file.globals, g.name = name)
    (hshorthands : ShorthandsCheck ⟨declared, [], config.regexMatch⟩ config)
    (hinherited : config.inheritedVariables = [])
    (horderly : ∀ stanza ∈ file.stanzas, orderlyStatements
      ⟨declared, stanza.captures, config.regexMatch⟩ stanza.statements Scopes.new = true)
    {visits : List (Stanza × QueryMatch)} (hvisits : ∀ visit ∈ visits, visit.1 ∈ file.stanzas) {g₀ g : Graph}
    (hnew : ∀ node ∈ g₀.nodes, node.outgoingEdges = [])
    (hrun : Strict.executeInto fuel config file.globals visits g₀ = .ok g) :
    executeInto fuel config file.globals visits g₀ = .ok g := by
  obtain ⟨declared', hd, hstanzas⟩ := except_bind_eq_ok.mp hcheck
  obtain rfl := Except.ok.inj (hdeclared.symm.trans hd)
  obtain ⟨given, hglobals, hrun⟩ := except_bind_eq_ok.mp hrun
  obtain ⟨sst, hmatches, hend⟩ := except_bind_eq_ok.mp hrun
  obtain rfl := Except.ok.inj hend
  have hstores : StoresAgree (World.empty { config with globals := given }) (fun _ _ => none) (State.init g₀).stores :=
    storesAgree_new _
  have hgraph₀ : GraphAgrees (World.empty { config with globals := given }) (State.init g₀).lazyGraph (State.init g₀).graph g₀ :=
    ⟨[], [], g₀, EdgesFirst.init hnew, .nil, .nil, fun _ h => absurd h List.not_mem_nil⟩
  have hleads := executeMatches_agrees fuel { config with globals := given } hinherited
    (given_eq_none hdeclared hgiven hglobals) hshorthands
    (fun visit hv => checkStanzas_mem hstanzas (hvisits visit hv)) (fun visit hv => horderly visit.1 (hvisits visit hv))
    hstores hgraph₀ hmatches
  obtain ⟨_, st, w, hok, -, hs, hg⟩ := leads_total hleads
  obtain ⟨b, s', hb, hgraph⟩ := evaluateState_agrees hs hg
  rw [executeInto, except_bind_ok hglobals]
  have hok : executeMatches fuel { config with globals := given } visits ⟨g₀, Scopes.new, Stores.new, LazyGraph.new⟩ =
    .ok ((), st) := hok
  rw [except_bind_ok hok, except_bind_ok hb, ← hgraph]
  rfl

theorem sample_is_followed :
    ∃ g, Strict.executeInto 1 plainConfig [] sampleVisits Graph.empty = .ok g ∧
      executeInto 1 plainConfig [] sampleVisits Graph.empty = .ok g := by
  have hsuccess : ∃ g, Strict.executeInto 1 plainConfig [] sampleVisits Graph.empty = .ok g := ⟨_, rfl⟩
  obtain ⟨g, hg⟩ := hsuccess
  refine ⟨g, hg, ?_⟩
  refine lazy_execution_follows_strict 1 ⟨[], [sampleStanza]⟩ plainConfig rfl rfl (fun _ h => absurd rfl h)
    (fun _ _ h => absurd h nofun) rfl (fun stanza h => ?_) (fun _ h => List.mem_singleton.mp h ▸ List.mem_cons_self)
    (fun _ h => absurd h List.not_mem_nil) hg
  obtain rfl := List.mem_singleton.mp h
  decide +kernel

end CodeQuery.Tsg.Lazy
