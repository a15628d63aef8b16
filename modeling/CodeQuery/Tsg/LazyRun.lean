/-
  CodeQuery.Tsg.LazyRun — the stores in every run of the lazy execution.

  The execution declares thunks and scoped variables while it forces some of them already, for
  conditions, scans and loops. What was forced rests on what was forced with it, and a name is
  closed once its scopes are forced; so what is declared later changes no meaning that was
  found (`rest_add`, `rest_addScoped`).

  Proved: in every state that executing the matches of any file reaches, checked or not, the
  stores are at rest (`executeMatches_keeps`). So the execution as a whole succeeds with a
  graph iff the matches can be executed and the lazy statements come to changes that lead to
  the graph, every thunk and name having a meaning (`lazy_execution_builds_the_meaning`).
-/

import CodeQuery.Tsg.LazyBuild

namespace CodeQuery.Tsg.Lazy

open Data

variable {config : Config} {d : Defs} {s s' : Stores}

/-! ## Declaring -/

theorem rest_new (config : Config) : Stores.new.Rest config ⟨[], []⟩ :=
  rest_unforced config ⟨rfl, fun _ _ h => absurd h nofun, rfl, fun _ _ h => absurd h nofun⟩
    (fun _ h => absurd h List.not_mem_nil) fun _ h => absurd h List.not_mem_nil

namespace Defs

def addThunk (d : Defs) (v : LazyValue) : Defs := { d with thunks := d.thunks ++ [v] }

def addScoped (d : Defs) (scope : LazyValue) (name : Identifier) (value : Nat) : Defs :=
  { d with scopes :=
      match d.scopes.lookup name with
      | none => d.scopes ++ [(name, [(scope, value)])]
      | some pairs => d.scopes.map fun e => if e.1 = name then (e.1, pairs ++ [(scope, value)]) else e }

end Defs

/-- The equations of what was filled are as before. -/
theorem rest_congr {d' : Defs} (hs : s.Rest config d) (hof : s'.Of d') (hmemo : s'.memo = s.memo)
    (heq : ∀ k, Demand.filled s.memo k = true → d'.rhs config k = d.rhs config k) : s'.Rest config d' :=
  ⟨hof, by rw [hmemo]; exact hs.rest.supported.congr heq, by rw [hmemo]; exact hs.rest.clear⟩

theorem filled_thunk_lt {i : Nat} (h : Demand.filled s.memo (.thunk i) = true) : i < s.thunks.length := by
  by_contra hi
  have : s.memo (.thunk i) = .unforced := by simp [Stores.memo, List.getElem?_eq_none (Nat.not_lt.mp hi)]
  simp [Demand.filled, this] at h

theorem memo_add {v : LazyValue} {i : Nat} (h : Stores.add v s = .ok (i, s')) : s'.memo = s.memo := by
  simp only [Stores.add, Except.ok.injEq, Prod.mk.injEq] at h
  obtain ⟨rfl, rfl⟩ := h
  funext k
  cases k with
  | scopes name => rfl
  | thunk j =>
    by_cases hlt : j < s.thunks.length
    · simp only [Stores.memo, List.getElem?_append_left hlt]
    · rcases Nat.eq_or_lt_of_le (Nat.not_lt.mp hlt) with rfl | hgt
      · simp [Stores.memo, ThunkState.cell]
      · simp only [Stores.memo]
        rw [List.getElem?_eq_none (by rw [List.length_append, List.length_singleton]; exact hgt),
          List.getElem?_eq_none (Nat.le_of_lt hgt)]

/-- A thunk is added. -/
theorem rest_add {v : LazyValue} {i : Nat} (hs : s.Rest config d) (h : Stores.add v s = .ok (i, s')) :
    i = d.thunks.length ∧ s'.Rest config (d.addThunk v) := by
  have hmemo := memo_add h
  simp only [Stores.add, Except.ok.injEq, Prod.mk.injEq] at h
  obtain ⟨rfl, rfl⟩ := h
  refine ⟨hs.of.length, rest_congr hs ⟨?_, ?_, hs.of.names, hs.of.pairs⟩ hmemo ?_⟩
  · simp [Defs.addThunk, hs.of.length]
  · intro i w hi
    rw [Defs.addThunk]
    by_cases hlt : i < s.thunks.length
    · rw [List.getElem?_append_left hlt] at hi
      rw [List.getElem?_append_left (hs.of.length ▸ hlt)]
      exact hs.of.thunk i w hi
    · rw [List.getElem?_append_right (Nat.not_lt.mp hlt)] at hi
      rw [List.getElem?_append_right (by rw [← hs.of.length]; exact Nat.not_lt.mp hlt), ← hs.of.length]
      obtain ⟨hz, hw⟩ := List.getElem?_eq_some_iff.mp hi
      have hz : i - s.thunks.length = 0 := by simpa using hz
      simp only [hz, List.getElem_cons_zero, ThunkState.unforced.injEq] at hw
      rw [hz, hw]
      rfl
  · intro k hk
    cases k with
    | scopes name => rfl
    | thunk j =>
      have hlt := filled_thunk_lt hk
      rw [Defs.rhs, Defs.rhs, Defs.addThunk, List.getElem?_append_left (hs.of.length ▸ hlt)]

theorem lookup_append_new {β : Type} {l : List (Identifier × β)} {name : Identifier} (hl : l.lookup name = none) (b : β)
    (other : Identifier) : (l ++ [(name, b)]).lookup other = if other = name then some b else l.lookup other := by
  rw [List.lookup_append]
  by_cases ho : other = name
  · subst ho
    simp [hl]
  · have : [(name, b)].lookup other = none := by rw [List.lookup_cons, beq_eq_false_iff_ne.mpr ho]; rfl
    rw [this, Option.or_none, if_neg ho]

/-- What a name has after a scoped variable is added. -/
theorem lookup_addScoped (d : Defs) (scope : LazyValue) (name : Identifier) (value : Nat) (other : Identifier) :
    (d.addScoped scope name value).scopes.lookup other =
      if other = name then some ((d.scopes.lookup name).getD [] ++ [(scope, value)]) else d.scopes.lookup other := by
  rw [Defs.addScoped]
  cases hl : d.scopes.lookup name with
  | none => exact lookup_append_new hl _ other
  | some pairs =>
    simp only [Option.getD_some]
    rw [lookup_map_name]
    by_cases ho : other = name
    · rw [if_pos ho, if_pos ho, ho, hl]
      rfl
    · rw [if_neg ho, if_neg ho]

theorem memo_addScoped {scope : LazyValue} {name : Identifier} {value : Nat}
    (h : Stores.addScoped scope name value s = .ok ((), s')) :
    s'.memo = s.memo := by
  unfold Stores.addScoped at h
  cases hl : s.scopes.lookup name with
  | none =>
    simp only [hl, Except.ok.injEq, Prod.mk.injEq, true_and] at h
    subst h
    funext k
    cases k with
    | thunk i => rfl
    | scopes other =>
      simp only [Stores.memo, lookup_append_new hl]
      by_cases he : other = name
      · simp [he, hl, ScopedValues.cell]
      · rw [if_neg he]
  | some w =>
    cases w with
    | forcing => simp [hl] at h
    | forced map => simp [hl] at h
    | unforced pairs =>
      simp only [hl, Except.ok.injEq, Prod.mk.injEq, true_and] at h
      subst h
      rw [Stores.memo_setScopes hl]
      refine Function.update_eq_self_iff.mpr ?_
      simp [Stores.memo, hl, ScopedValues.cell]

/-- A scoped variable is added to a name that is not forced. -/
theorem rest_addScoped {scope : LazyValue} {name : Identifier} {value : Nat} (hs : s.Rest config d)
    (h : Stores.addScoped scope name value s = .ok ((), s')) : s'.Rest config (d.addScoped scope name value) := by
  have hrhs : s.memo (.scopes name) = .unforced →
      ∀ k, Demand.filled s.memo k = true → (d.addScoped scope name value).rhs config k = d.rhs config k := by
    intro hun k hk
    cases k with
    | thunk i => rfl
    | scopes other =>
      have hne : other ≠ name := by
        rintro rfl
        simp [Demand.filled, hun] at hk
      rw [Defs.rhs, Defs.rhs, lookup_addScoped, if_neg hne]
  have hmemo := memo_addScoped h
  unfold Stores.addScoped at h
  cases hl : s.scopes.lookup name with
  | none =>
    simp only [hl, Except.ok.injEq, Prod.mk.injEq, true_and] at h
    subst h
    have hdl : d.scopes.lookup name = none := (hs.of.lookup_eq_none name).mp hl
    have hun : s.memo (.scopes name) = .unforced := by simp [Stores.memo, hl]
    refine rest_congr hs ⟨hs.of.length, hs.of.thunk, ?_, ?_⟩ hmemo (hrhs hun)
    · simp [Defs.addScoped, hdl, hs.of.names]
    · intro other pairs ho
      rw [lookup_append_new hl] at ho
      rw [lookup_addScoped]
      by_cases he : other = name
      · rw [if_pos he] at ho ⊢
        simp only [Option.some.injEq, ScopedValues.unforced.injEq] at ho
        rw [hdl, ← ho]
        rfl
      · rw [if_neg he] at ho ⊢
        exact hs.of.pairs other pairs ho
  | some w =>
    cases w with
    | forcing => simp [hl] at h
    | forced map => simp [hl] at h
    | unforced pairs =>
      simp only [hl, Except.ok.injEq, Prod.mk.injEq, true_and] at h
      subst h
      have hdl : d.scopes.lookup name = some pairs := hs.of.pairs name pairs hl
      have hun : s.memo (.scopes name) = .unforced := by simp [Stores.memo, hl, ScopedValues.cell]
      refine rest_congr hs ⟨hs.of.length, hs.of.thunk, ?_, ?_⟩ hmemo (hrhs hun)
      · rw [Stores.setScopes_names, hs.of.names, Defs.addScoped, hdl]
        simp only [List.map_map]
        refine (List.map_congr_left fun e _ => ?_).symm
        simp only [Function.comp_apply]
        split <;> rfl
      · intro other pairs' ho
        rw [Stores.lookup_setScopes] at ho
        rw [lookup_addScoped]
        by_cases he : other = name
        · rw [if_pos he] at ho ⊢
          rw [he, hl] at ho
          simp only [Option.map_some, Option.some.injEq, ScopedValues.unforced.injEq] at ho
          rw [hdl, ← ho]
          rfl
        · rw [if_neg he] at ho ⊢
          exact hs.of.pairs other pairs' ho

theorem earliest_mem {α : Type} {ms : List (Option RegexMatch)} {arms : List α} {r : RegexMatch × α}
    (h : earliest (ms.zip arms) = some r) : r.2 ∈ arms := by
  induction ms generalizing arms r with
  | nil => exact absurd h nofun
  | cons m ms ih =>
    cases arms with
    | nil => exact absurd h nofun
    | cons a arms =>
      cases m with
      | none => exact List.mem_cons_of_mem _ (ih h)
      | some m =>
        rw [List.zip_cons_cons, earliest] at h
        cases he : earliest (ms.zip arms) with
        | none =>
          simp only [he, Option.some.injEq] at h
          exact h ▸ List.mem_cons_self
        | some r' =>
          simp only [he] at h
          split at h
          · exact Option.some.inj h ▸ List.mem_cons_of_mem _ (ih he)
          · exact Option.some.inj h ▸ List.mem_cons_self

/-! ## Every step of the execution -/

/-- The stores are at rest, with some definitions. -/
def AtRest (config : Config) (s : Stores) : Prop := ∃ d, s.Rest config d

theorem add_keeps (config : Config) (v : LazyValue) : Keeps (AtRest config) (Stores.add v) :=
  fun _ _ _ ⟨_, hs⟩ h => ⟨_, (rest_add hs h).2⟩

theorem addScoped_keeps (config : Config) (scope : LazyValue) (name : Identifier) (value : Nat) :
    Keeps (AtRest config) (Stores.addScoped scope name value) :=
  fun _ _ _ ⟨_, hs⟩ h => ⟨_, rest_addScoped hs h⟩

theorem evaluate_keeps (config : Config) (v : LazyValue) : Keeps (AtRest config) (v.evaluate config) :=
  fun _ _ _ ⟨d, hs⟩ h => ⟨d, evaluate_rest hs h⟩

mutual

theorem evaluateLazy_keeps (ctx : Context) (locals : Scopes LazyValue) (e : Expression) :
    Keeps (AtRest ctx.config) (evaluateLazy ctx locals e) := by
  cases e with
  | falseLiteral => exact keeps_pure _
  | nullLiteral => exact keeps_pure _
  | trueLiteral => exact keeps_pure _
  | integerConstant value => exact keeps_pure _
  | stringConstant value => exact keeps_pure _
  | listLiteral elements => exact keeps_bind (evaluateAllLazy_keeps ctx locals elements) fun _ => keeps_pure _
  | setLiteral elements => exact keeps_bind (evaluateAllLazy_keeps ctx locals elements) fun _ => keeps_pure _
  | listComprehension element var value =>
    refine keeps_bind (evaluateLazy_keeps ctx locals value) fun lv => keeps_bind (evaluate_keeps ctx.config lv) fun v =>
      keeps_bind (keeps_liftM _) fun values => keeps_bind (keeps_mapM (fun w => ?_) values) fun _ => keeps_pure _
    exact keeps_bind (add_keeps ctx.config _) fun i => keeps_bind (keeps_liftM _) fun locals' =>
      evaluateLazy_keeps ctx locals' element
  | setComprehension element var value =>
    refine keeps_bind (evaluateLazy_keeps ctx locals value) fun lv => keeps_bind (evaluate_keeps ctx.config lv) fun v =>
      keeps_bind (keeps_liftM _) fun values => keeps_bind (keeps_mapM (fun w => ?_) values) fun _ => keeps_pure _
    exact keeps_bind (add_keeps ctx.config _) fun i => keeps_bind (keeps_liftM _) fun locals' =>
      evaluateLazy_keeps ctx locals' element
  | capture name => exact keeps_bind (keeps_liftM _) fun _ => keeps_pure _
  | scopedVariable scope name => exact keeps_bind (evaluateLazy_keeps ctx locals scope) fun _ => keeps_pure _
  | unscopedVariable name =>
    rw [evaluateLazy]
    split
    · exact keeps_pure _
    · split
      · exact keeps_pure _
      · exact keeps_throw _
  | call function parameters => exact keeps_bind (evaluateAllLazy_keeps ctx locals parameters) fun _ => keeps_pure _
  | regexCapture matchIndex =>
    rw [evaluateLazy]
    split
    · exact keeps_pure _
    · exact keeps_throw _

theorem evaluateAllLazy_keeps (ctx : Context) (locals : Scopes LazyValue) (es : List Expression) :
    Keeps (AtRest ctx.config) (evaluateAllLazy ctx locals es) := by
  cases es with
  | nil => exact keeps_pure []
  | cons e es =>
    exact keeps_bind (evaluateLazy_keeps ctx locals e) fun _ =>
      keeps_bind (evaluateAllLazy_keeps ctx locals es) fun _ => keeps_pure _

end

theorem concatAttributes_keeps {config : Config} {f : Attribute → Eval (List LazyAttribute)}
    (h : ∀ attr, Keeps (AtRest config) (f attr)) (attrs : List Attribute) :
    Keeps (AtRest config) (concatAttributes f attrs) := by
  induction attrs with
  | nil => exact keeps_pure []
  | cons attr attrs ih => exact keeps_bind (h attr) fun _ => keeps_bind ih fun _ => keeps_pure _

theorem executeAttribute_keeps (ctx : Context) (fuel : Nat) (locals : Scopes LazyValue) (attr : Attribute) :
    Keeps (AtRest ctx.config) (executeAttribute ctx fuel locals attr) := by
  induction fuel generalizing ctx locals attr with
  | zero =>
    rw [executeAttribute]
    exact keeps_throw _
  | succ fuel ih =>
    rw [executeAttribute]
    refine keeps_bind (evaluateLazy_keeps ctx locals attr.value) fun value => ?_
    split
    · exact keeps_pure _
    · exact keeps_bind (add_keeps ctx.config _) fun i => keeps_bind (keeps_liftM _) fun locals' =>
        concatAttributes_keeps (ih ctx.ofShorthand locals') _

theorem executeAttributes_keeps (ctx : Context) (fuel : Nat) (locals : Scopes LazyValue) (attrs : List Attribute) :
    Keeps (AtRest ctx.config) (executeAttributes ctx fuel locals attrs) :=
  concatAttributes_keeps (executeAttribute_keeps ctx fuel locals) attrs

/-! ## Statements -/

/-- Statements of attributes stand with their kind. -/
def LazyGraph.Filed (g : LazyGraph) : Prop := ∀ stmt ∈ g.attrStatements, stmt.isAttribute = true

theorem LazyGraph.filed_push {g : LazyGraph} (hg : g.Filed) (stmt : LazyStatement) : (g.push stmt).Filed := by
  cases stmt with
  | addGraphNodeAttribute node attributes =>
    intro s hs
    rcases List.mem_append.mp hs with hs | hs
    · exact hg s hs
    · rw [List.mem_singleton.mp hs]
      rfl
  | addEdgeAttribute source sink attributes =>
    intro s hs
    rcases List.mem_append.mp hs with hs | hs
    · exact hg s hs
    · rw [List.mem_singleton.mp hs]
      rfl
  | createEdge source sink attributes => exact hg
  | print arguments => exact hg

structure StateAtRest (config : Config) (st : State) : Prop where
  stores : AtRest config st.stores
  filed : st.lazyGraph.Filed

section Statements

variable {config : Config} {α : Type}

theorem evaluating_keeps {m : Eval α} (h : Keeps (AtRest config) m) : Keeps (StateAtRest config) (evaluating m) := by
  intro st a st' hst hok
  unfold evaluating at hok
  cases hm : m st.stores with
  | error e => rw [hm] at hok; exact absurd hok nofun
  | ok r =>
    simp only [hm, Except.ok.injEq, Prod.mk.injEq] at hok
    exact hok.2 ▸ ⟨h st.stores r.1 r.2 hst.stores hm, hst.filed⟩

theorem stateEvaluateLazy_keeps (ctx : Context) (e : Expression) : Keeps (StateAtRest ctx.config) (State.evaluateLazy ctx e) :=
  fun st a st' hst h => evaluating_keeps (evaluateLazy_keeps ctx st.locals e) st a st' hst h

theorem stateEvaluateEager_keeps (ctx : Context) (e : Expression) : Keeps (StateAtRest ctx.config) (State.evaluateEager ctx e) :=
  fun st a st' hst h => evaluating_keeps
    (keeps_bind (evaluateLazy_keeps ctx st.locals e) fun v => evaluate_keeps ctx.config v) st a st' hst h

theorem setLocals_keeps (locals : Scopes LazyValue) : Keeps (StateAtRest config) (State.setLocals locals) := by
  intro st a st' hst h
  obtain rfl : { st with locals := locals } = st' := congrArg Prod.snd (Except.ok.inj h)
  exact ⟨hst.stores, hst.filed⟩

theorem push_keeps (stmt : LazyStatement) : Keeps (StateAtRest config) (State.push stmt) := by
  intro st a st' hst h
  obtain rfl : { st with lazyGraph := st.lazyGraph.push stmt } = st' := congrArg Prod.snd (Except.ok.inj h)
  exact ⟨hst.stores, LazyGraph.filed_push hst.filed stmt⟩

theorem addLocal_keeps (ctx : Context) (name : Identifier) (value : LazyValue) (isMutable : Bool) :
    Keeps (StateAtRest ctx.config) (State.addLocal ctx name value isMutable) :=
  keeps_bind (evaluating_keeps (add_keeps ctx.config value)) fun _ => keeps_bind keeps_get fun _ =>
    keeps_bind (keeps_liftM _) fun _ => setLocals_keeps _

theorem stateAdd_keeps (ctx : Context) (var : Variable) (value : LazyValue) (isMutable : Bool) :
    Keeps (StateAtRest ctx.config) (State.add ctx var value isMutable) := by
  match var with
  | .unscoped name location => exact addLocal_keeps ctx name value isMutable
  | .scoped scope name location =>
    rw [State.add]
    split
    · exact keeps_throw _
    · exact keeps_bind (stateEvaluateLazy_keeps ctx scope) fun _ =>
        keeps_bind (evaluating_keeps (add_keeps ctx.config value)) fun _ => evaluating_keeps (addScoped_keeps ctx.config _ name _)

theorem stateSet_keeps (ctx : Context) (var : Variable) (value : LazyValue) :
    Keeps (StateAtRest ctx.config) (State.set ctx var value) := by
  match var with
  | .scoped scope name location => exact keeps_throw _
  | .unscoped name location =>
    exact keeps_bind (evaluating_keeps (add_keeps ctx.config value)) fun _ => keeps_bind keeps_get fun _ =>
      keeps_bind (keeps_liftM _) fun _ => setLocals_keeps _

theorem inScope_keeps {f : Exec Unit} (h : Keeps (StateAtRest config) f) : Keeps (StateAtRest config) (State.inScope f) := by
  intro st a st' hst hok
  unfold State.inScope at hok
  cases hf : f { st with locals := st.locals.nested } with
  | error e => rw [hf] at hok; exact absurd hok nofun
  | ok r =>
    simp only [hf, Except.ok.injEq, Prod.mk.injEq, true_and] at hok
    rw [← hok]
    have hr := h { st with locals := st.locals.nested } r.1 r.2 ⟨hst.stores, hst.filed⟩ hf
    exact ⟨hr.stores, hr.filed⟩

theorem forEach_keeps {f : α → Exec Unit} (h : ∀ a, Keeps (StateAtRest config) (f a)) (l : List α) :
    Keeps (StateAtRest config) (forEach f l) := by
  induction l with
  | nil => exact keeps_pure ()
  | cons a l ih => exact keeps_bind (h a) fun _ => ih

theorem testAllEager_keeps (ctx : Context) (cs : List Condition) : Keeps (StateAtRest ctx.config) (testAllEager ctx cs) := by
  have hone : ∀ c, Keeps (StateAtRest ctx.config) (testEager ctx c) := by
    intro c
    cases c with
    | some value => exact keeps_bind (stateEvaluateEager_keeps ctx value) fun _ => keeps_pure _
    | none value => exact keeps_bind (stateEvaluateEager_keeps ctx value) fun _ => keeps_pure _
    | bool value => exact keeps_bind (stateEvaluateEager_keeps ctx value) fun _ => keeps_liftM _
  induction cs with
  | nil => exact keeps_pure _
  | cons c cs ih => exact keeps_bind (hone c) fun _ => keeps_bind ih fun _ => keeps_pure _

theorem executePrint_keeps (ctx : Context) (es : List Expression) : Keeps (StateAtRest ctx.config) (executePrint ctx es) := by
  induction es with
  | nil => rw [executePrint]; exact keeps_pure _
  | cons e es ih =>
    have hvalue : Keeps (StateAtRest ctx.config) (do
        let v ← State.evaluateLazy ctx e
        let args ← executePrint ctx es
        return some v :: args) :=
      keeps_bind (stateEvaluateLazy_keeps ctx e) fun _ => keeps_bind ih fun _ => keeps_pure _
    cases e with
    | stringConstant value => rw [executePrint]; exact keeps_bind ih fun _ => keeps_pure _
    | _ => exact hvalue

/-- A scan keeps what its arms keep. -/
theorem scanLoop_keeps {σ : Type} {P : σ → Prop} {regexes : List Regex} {arms : List (List String → σ → Except ExecutionError σ)}
    (h : ∀ arm ∈ arms, ∀ captures st st', P st → arm captures st = .ok st' → P st') (fuel : Nat) (rest : List Char) {st st' : σ}
    (hst : P st) (hok : scanLoop config regexes arms fuel rest st = .ok st') : P st' := by
  induction fuel generalizing rest st with
  | zero =>
    cases rest with
    | nil => exact Except.ok.inj hok ▸ hst
    | cons c rest => exact absurd hok nofun
  | succ fuel ih =>
    cases rest with
    | nil => exact Except.ok.inj hok ▸ hst
    | cons c rest =>
      obtain ⟨ms, -, hms⟩ := except_bind_eq_ok.mp hok
      cases he : earliest (ms.zip arms) with
      | none =>
        simp only [he, Except.ok.injEq] at hms
        exact hms ▸ hst
      | some r =>
        simp only [he] at hms
        obtain ⟨st₁, harm, hrest⟩ := except_bind_eq_ok.mp hms
        exact ih _ (h r.2 (earliest_mem he) _ _ _ hst harm) hrest

end Statements

mutual

theorem execute_keeps (fuel : Nat) (ctx : Context) (stmt : Statement) :
    Keeps (StateAtRest ctx.config) (execute fuel ctx stmt) := by
  match stmt with
  | .declareImmutable var value =>
    rw [execute]
    exact keeps_bind (stateEvaluateLazy_keeps ctx value) fun v => stateAdd_keeps ctx var v false
  | .declareMutable var value =>
    rw [execute]
    exact keeps_bind (stateEvaluateLazy_keeps ctx value) fun v => stateAdd_keeps ctx var v true
  | .assign var value =>
    rw [execute]
    exact keeps_bind (stateEvaluateLazy_keeps ctx value) fun v => stateSet_keeps ctx var v
  | .createGraphNode node =>
    rw [execute]
    refine keeps_bind (keeps_liftM _) fun attributes st a st' hst h => ?_
    obtain ⟨st₀, st₁, hget, hrest⟩ := bind_eq_ok.mp h
    obtain ⟨rfl, rfl⟩ : st = st₀ ∧ st = st₁ := by simpa using hget
    obtain ⟨_, st₂, hset, hadd⟩ := bind_eq_ok.mp hrest
    obtain rfl : { st with graph := st.graph.addGraphNode attributes } = st₂ := congrArg Prod.snd (Except.ok.inj hset)
    exact stateAdd_keeps ctx node _ false { st with graph := st.graph.addGraphNode attributes } a st' ⟨hst.stores, hst.filed⟩ hadd
  | .addGraphNodeAttribute node attributes =>
    rw [execute]
    refine keeps_bind (stateEvaluateLazy_keeps ctx node) fun n => keeps_bind keeps_get fun st => ?_
    exact keeps_bind (evaluating_keeps (executeAttributes_keeps ctx fuel st.locals attributes)) fun attrs => push_keeps _
  | .createEdge source sink location =>
    rw [execute]
    refine keeps_bind (stateEvaluateLazy_keeps ctx source) fun s => keeps_bind (stateEvaluateLazy_keeps ctx sink) fun t => ?_
    exact keeps_bind (keeps_liftM _) fun attributes => push_keeps _
  | .addEdgeAttribute source sink attributes =>
    rw [execute]
    refine keeps_bind (stateEvaluateLazy_keeps ctx source) fun s => keeps_bind (stateEvaluateLazy_keeps ctx sink) fun t =>
      keeps_bind keeps_get fun st => ?_
    exact keeps_bind (evaluating_keeps (executeAttributes_keeps ctx fuel st.locals attributes)) fun attrs => push_keeps _
  | .scan value arms =>
    rw [execute]
    refine keeps_bind (stateEvaluateEager_keeps ctx value) fun v => keeps_bind (keeps_liftM _) fun text st a st' hst h => ?_
    obtain ⟨st₁, hscan, hst₁⟩ := except_map_eq_ok.mp h
    obtain rfl : st₁ = st' := congrArg Prod.snd hst₁
    exact scanLoop_keeps (scanArms_keeps fuel ctx arms) _ _ hst hscan
  | .print values =>
    rw [execute]
    exact keeps_bind (executePrint_keeps ctx values) fun _ => push_keeps _
  | .ifs arms =>
    rw [execute]
    exact executeIfs_keeps fuel ctx arms
  | .forIn var value statements =>
    rw [execute]
    refine keeps_bind (stateEvaluateEager_keeps ctx value) fun v => keeps_bind (keeps_liftM _) fun values => ?_
    exact forEach_keeps (fun w => inScope_keeps
      (keeps_bind (addLocal_keeps ctx var (.value w) false) fun _ => executeAll_keeps fuel ctx statements)) values

theorem executeAll_keeps (fuel : Nat) (ctx : Context) (stmts : List Statement) :
    Keeps (StateAtRest ctx.config) (executeAll fuel ctx stmts) := by
  match stmts with
  | [] =>
    rw [executeAll]
    exact keeps_pure ()
  | stmt :: stmts =>
    rw [executeAll]
    exact keeps_bind (execute_keeps fuel ctx stmt) fun _ => executeAll_keeps fuel ctx stmts

theorem scanArms_keeps (fuel : Nat) (ctx : Context) (arms : List (Regex × List Statement)) :
    ∀ arm ∈ scanArms fuel ctx arms, ∀ captures st st', StateAtRest ctx.config st → arm captures st = .ok st' →
      StateAtRest ctx.config st' := by
  match arms with
  | [] => exact fun _ h => absurd h List.not_mem_nil
  | (regex, statements) :: arms =>
    intro arm harm captures st st' hst h
    rw [scanArms] at harm
    rcases List.mem_cons.mp harm with rfl | harm
    · obtain ⟨r, hr, rfl⟩ := except_map_eq_ok.mp h
      exact inScope_keeps (executeAll_keeps fuel { ctx with regexCaptures := captures } statements) st r.1 r.2 hst hr
    · exact scanArms_keeps fuel ctx arms arm harm captures st st' hst h

theorem executeIfs_keeps (fuel : Nat) (ctx : Context) (arms : List (List Condition × List Statement)) :
    Keeps (StateAtRest ctx.config) (executeIfs fuel ctx arms) := by
  match arms with
  | [] =>
    rw [executeIfs]
    exact keeps_pure ()
  | (conditions, statements) :: arms =>
    rw [executeIfs]
    refine keeps_bind (testAllEager_keeps ctx conditions) fun holds => ?_
    cases holds with
    | true => exact inScope_keeps (executeAll_keeps fuel ctx statements)
    | false => exact executeIfs_keeps fuel ctx arms

end

/-- In every state that a run of the matches reaches the stores are at rest. -/
theorem executeMatches_keeps (fuel : Nat) (config : Config) (visits : List (Stanza × QueryMatch)) :
    Keeps (StateAtRest config) (executeMatches fuel config visits) := by
  induction visits with
  | nil => exact keeps_pure ()
  | cons visit visits ih =>
    exact keeps_bind (setLocals_keeps _) fun _ =>
      keeps_bind (executeAll_keeps fuel ⟨config, visit.1, visit.2, []⟩ visit.1.statements) fun _ => ih

/-! ## The execution as a whole -/

def State.init (g : Graph) : State := ⟨g, Scopes.new, Stores.new, LazyGraph.new⟩

theorem init_atRest (config : Config) (g : Graph) : StateAtRest config (State.init g) :=
  ⟨⟨_, rest_new config⟩, fun _ h => absurd h List.not_mem_nil⟩

/-- The lazy execution gives a graph iff the matches can be executed, and the lazy statements that
    they leave come to changes that lead to the graph, where every thunk and every name has a
    meaning. What was forced while the matches were executed, and in which order, has no part in it. -/
theorem lazy_execution_builds_the_meaning (fuel : Nat) (config : Config) (globals : List Global)
    (visits : List (Stanza × QueryMatch)) (g₀ g : Graph) :
    executeInto fuel config globals visits g₀ = .ok g ↔
      ∃ gs st d, checkGlobals globals config.globals = .ok gs ∧
        executeMatches fuel { config with globals := gs } visits (State.init g₀) = .ok ((), st) ∧
        st.stores.Rest { config with globals := gs } d ∧
        (∃ cs, List.Forall₂ (ComesTo { config with globals := gs } d) st.lazyGraph.statements cs ∧
          steps (cs.map Change.apply) st.graph = .ok g) ∧
        (∀ i < d.thunks.length, ∃ w, Means { config with globals := gs } d (.var i) w) ∧
        ∀ name ∈ d.scopes.map Prod.fst, ∃ map, ScopesMean { config with globals := gs } d name map := by
  constructor
  · intro h
    obtain ⟨gs, hgs, h⟩ := except_bind_eq_ok.mp h
    obtain ⟨⟨_, st⟩, hrun, h⟩ := except_bind_eq_ok.mp h
    obtain ⟨⟨b, s'⟩, heval, h⟩ := except_bind_eq_ok.mp h
    obtain ⟨⟨d, hd⟩, -⟩ := executeMatches_keeps fuel { config with globals := gs } visits (State.init g₀) () st
      (init_atRest _ g₀) hrun
    exact ⟨gs, st, d, hgs, hrun, hd, (evaluateState_iff hd g).mp ⟨b, s', heval, Except.ok.inj h⟩⟩
  · rintro ⟨gs, st, d, hgs, hrun, hd, hmean⟩
    obtain ⟨b, s', heval, hg⟩ := (evaluateState_iff hd g).mpr hmean
    rw [executeInto, except_bind_ok hgs]
    refine (except_bind_ok hrun).trans ((except_bind_ok heval).trans ?_)
    exact congrArg Except.ok hg

/-- The attribute statements that a run of the matches leaves can be evaluated in any order: the
    graph is the same, and it fails in all orders or in none. -/
theorem attributes_in_any_order (fuel : Nat) (config : Config) (visits : List (Stanza × QueryMatch)) (g₀ : Graph) {st : State}
    (hrun : executeMatches fuel config visits (State.init g₀) = .ok ((), st)) {attrs : List LazyStatement}
    (hperm : st.lazyGraph.attrStatements.Perm attrs) (g : Graph) :
    (∃ b s', evaluateState config (st.withAttributes attrs) = .ok (b, s') ∧ b.graph = g) ↔
      ∃ b s', evaluateState config st = .ok (b, s') ∧ b.graph = g := by
  obtain ⟨⟨d, hd⟩, hfiled⟩ := executeMatches_keeps fuel config visits (State.init g₀) () st (init_atRest config g₀) hrun
  exact evaluateState_perm hd hfiled hperm g

/-- A configuration with nothing in it. -/
def plainConfig : Config where
  call _ _ := none
  globals _ := none
  locationAttr := none
  variableNameAttr := none
  matchNodeAttr := none
  printable _ := true
  regexMatch _ _ := none
  ancestors _ := []
  inheritedVariables := []
  shorthands _ := none

/-- A node and a variable of the captured syntax node, and attributes of the node. -/
def sampleStanza : Stanza where
  captures := [("x", .one)]
  statements := [
    .createGraphNode (.scoped (.capture "x") "n" ⟨0, 0⟩),
    .forIn "v" (.listLiteral [.capture "x"])
      [.declareImmutable (.scoped (.unscopedVariable "v") "m" ⟨1, 2⟩) (.integerConstant 1)],
    .addGraphNodeAttribute (.scopedVariable (.capture "x") "n") [⟨"a", .scopedVariable (.capture "x") "m"⟩],
    .addGraphNodeAttribute (.scopedVariable (.capture "x") "n") [⟨"b", .integerConstant 2⟩]]

def sampleVisits : List (Stanza × QueryMatch) := [(sampleStanza, ⟨0, fun _ => [0]⟩)]

/-- Whether an execution ends, in such a state. -/
def endsIn (P : State → Bool) : Except ExecutionError (Unit × State) → Bool
  | .error _ => false
  | .ok (_, st) => P st

theorem exists_of_endsIn {P : State → Bool} {r : Except ExecutionError (Unit × State)} (h : endsIn P r = true) :
    ∃ st, r = .ok ((), st) ∧ P st = true := by
  cases r with
  | error e => exact absurd h nofun
  | ok r => exact ⟨r.2, rfl, h⟩

theorem sample_records_two :
    endsIn (fun st => st.lazyGraph.attrStatements.length == 2)
      (executeMatches 1 plainConfig sampleVisits (State.init Graph.empty)) = true := by
  decide +kernel

theorem attributes_of_sample_in_any_order :
    ∃ st, executeMatches 1 plainConfig sampleVisits (State.init Graph.empty) = .ok ((), st) ∧
      st.lazyGraph.attrStatements.length = 2 ∧
      ∀ g, (∃ b s', evaluateState plainConfig (st.withAttributes st.lazyGraph.attrStatements.reverse) = .ok (b, s') ∧
        b.graph = g) ↔
        ∃ b s', evaluateState plainConfig st = .ok (b, s') ∧ b.graph = g := by
  obtain ⟨st, hrun, hlength⟩ := exists_of_endsIn sample_records_two
  exact ⟨st, hrun, beq_iff_eq.mp hlength, fun g =>
    attributes_in_any_order 1 plainConfig sampleVisits Graph.empty hrun (List.reverse_perm _).symm g⟩

end CodeQuery.Tsg.Lazy
