/-
  CodeQuery.Tsg.Locality — what the checker promises of the lazy execution.

  The lazy execution forces values while it still executes statements, for conditions, scans and
  loops. If a scoped variable were forced then, its name would be closed to the statements
  to come. The checker admits only local values there, which rest on no scoped variable
  (`IsLocal`), so the stores stay open (`Stores.Open`): no name is forced before the end.

  Proved: executing the matches of a checked file never fails for a variable that is
  undefined, defined twice, immutable or closed, and forces no name; each statement keeps
  the environment that the checker found for it (`execute_checked`,
  `checked_rules_are_well_scoped`). Shorthands, which the checker leaves out, are assumed to
  pass it with a variable that is not local and without captures.
-/

import CodeQuery.Data.Worlds
import CodeQuery.Tsg.Checker
import CodeQuery.Tsg.LazyRun

namespace CodeQuery.Tsg.Lazy

open Data Checker

/-- Errors in the scoping of variables. -/
def isScoping : ExecutionError → Bool
  | .cannotAssignImmutableVariable _ => true
  | .duplicateVariable _ => true
  | .invalidVariableScope => true
  | .recursivelyDefinedScopedVariable _ => true
  | .recursivelyDefinedVariable => true
  | .undefinedScopedVariable _ => true
  | .undefinedVariable _ => true
  | .variableScopesAlreadyForced _ => true
  | _ => false

abbrev NotScoping (e : ExecutionError) : Prop := isScoping e = false

/-! ## Definitions that grow -/

/-- Thunks are added at the end, and scopes to the names. -/
instance : Preorder Defs where
  le d d' := d.thunks <+: d'.thunks ∧
    ∀ name pairs, d.scopes.lookup name = some pairs → ∃ pairs', d'.scopes.lookup name = some pairs' ∧ pairs ⊆ pairs'
  le_refl d := ⟨List.prefix_rfl, fun _ pairs h => ⟨pairs, h, List.Subset.refl _⟩⟩
  le_trans d d' d'' h h' := by
    refine ⟨h.1.trans h'.1, fun name pairs hp => ?_⟩
    obtain ⟨pairs', hp', hsub⟩ := h.2 name pairs hp
    obtain ⟨pairs'', hp'', hsub'⟩ := h'.2 name pairs' hp'
    exact ⟨pairs'', hp'', List.Subset.trans hsub hsub'⟩

theorem le_addThunk (d : Defs) (v : LazyValue) : d ≤ d.addThunk v :=
  ⟨List.prefix_append _ _, fun _ pairs h => ⟨pairs, h, List.Subset.refl _⟩⟩

theorem le_addScoped (d : Defs) (scope : LazyValue) (name : Identifier) (value : Nat) : d ≤ d.addScoped scope name value := by
  refine ⟨List.prefix_rfl, fun other pairs h => ?_⟩
  rw [lookup_addScoped]
  by_cases ho : other = name
  · subst ho
    rw [if_pos rfl, h]
    exact ⟨_, rfl, List.subset_append_left _ _⟩
  · exact ⟨pairs, by rw [if_neg ho, h], List.Subset.refl _⟩

/-! ## Local values -/

/-- No scoped variable is part of it; the variables are thunks below a bound, each with a local value
    of earlier thunks. -/
inductive IsLocal (ts : List LazyValue) : Nat → LazyValue → Prop
  | value (n : Nat) (v : Value) : IsLocal ts n (.value v)
  | list {n : Nat} {vs : List LazyValue} (h : ∀ v ∈ vs, IsLocal ts n v) : IsLocal ts n (.list vs)
  | set {n : Nat} {vs : List LazyValue} (h : ∀ v ∈ vs, IsLocal ts n v) : IsLocal ts n (.set vs)
  | call {n : Nat} (function : Identifier) {vs : List LazyValue} (h : ∀ v ∈ vs, IsLocal ts n v) : IsLocal ts n (.call function vs)
  | var {n i : Nat} {v : LazyValue} (hi : i < n) (h : ts[i]? = some v) (hv : IsLocal ts i v) : IsLocal ts n (.var i)

theorem getElem?_of_extends {ts ts' : List LazyValue} (hts : ts <+: ts') {i : Nat} {v : LazyValue} (h : ts[i]? = some v) :
    ts'[i]? = some v := by
  obtain ⟨rest, rfl⟩ := hts
  rw [List.getElem?_append_left (List.getElem?_eq_some_iff.mp h).1]
  exact h

theorem IsLocal.mono {ts ts' : List LazyValue} {n n' : Nat} {v : LazyValue} (h : IsLocal ts n v) (hts : ts <+: ts')
    (hn : n ≤ n') :
    IsLocal ts' n' v := by
  induction h generalizing n' with
  | value n v => exact .value n' v
  | list _ ih => exact .list fun v hv => ih v hv hn
  | set _ ih => exact .set fun v hv => ih v hv hn
  | call function _ ih => exact .call function fun v hv => ih v hv hn
  | var hi h _ ih => exact .var (Nat.lt_of_lt_of_le hi hn) (getElem?_of_extends hts h) (ih (Nat.le_refl _))

def Defs.IsLocal (d : Defs) (v : LazyValue) : Prop := Lazy.IsLocal d.thunks d.thunks.length v

theorem Defs.IsLocal.mono {d d' : Defs} {v : LazyValue} (h : d.IsLocal v) (hle : d ≤ d') : d'.IsLocal v :=
  Lazy.IsLocal.mono h hle.1 hle.1.length_le

/-- A thunk that is added with a local value is local. -/
theorem isLocal_var {d : Defs} {v : LazyValue} (h : d.IsLocal v) : (d.addThunk v).IsLocal (.var d.thunks.length) := by
  refine .var (v := v) ?_ ?_ (Lazy.IsLocal.mono h (List.prefix_append _ _) (Nat.le_refl _))
  · rw [Defs.addThunk, List.length_append]
    exact Nat.lt_succ_self _
  · rw [Defs.addThunk, List.getElem?_append_right (Nat.le_refl _), Nat.sub_self]
    rfl

/-! ### Forcing local values -/

section Force

variable {config : Config} {d : Defs} {s : Stores}

def LocalKey (ts : List LazyValue) (n : Nat) : Key → Prop
  | .thunk i => IsLocal ts n (.var i)
  | .scopes _ => False

def FunctionFails (e : ExecutionError) : Prop := ∃ function, e = .functionFailed function

theorem compAll_within {P : Key → Prop} {vs : List LazyValue} (h : ∀ v ∈ vs, (comp config v).Within P FunctionFails) :
    (compAll config vs).Within P FunctionFails := by
  induction vs with
  | nil => trivial
  | cons v vs ih =>
    exact Demand.Comp.within_bind (h v List.mem_cons_self) fun _ =>
      Demand.Comp.within_bind (ih fun w hw => h w (List.mem_cons_of_mem _ hw)) fun _ => trivial

theorem comp_within {ts : List LazyValue} {n : Nat} {v : LazyValue} (h : IsLocal ts n v) :
    (comp config v).Within (LocalKey ts n) FunctionFails := by
  induction h with
  | value n v => trivial
  | list _ ih => exact Demand.Comp.within_bind (compAll_within ih) fun _ => trivial
  | set _ ih => exact Demand.Comp.within_bind (compAll_within ih) fun _ => trivial
  | call function _ ih =>
    refine Demand.Comp.within_bind (compAll_within ih) fun ws => ?_
    unfold Config.callFunction
    cases config.call function ws with
    | none => exact ⟨function, rfl⟩
    | some w => trivial
  | var hi h hv _ => exact ⟨.var hi h hv, fun _ => trivial⟩

theorem localKey_ranked (config : Config) (d : Defs) : Demand.Ranked (d.rhs config) (LocalKey d.thunks) FunctionFails := by
  intro n k hk
  cases k with
  | scopes name => exact hk.elim
  | thunk i =>
    cases hk with
    | var hi h hv =>
      refine ⟨i, fun k' hk' => ?_, ?_⟩
      · cases k' with
        | scopes name => exact hk'.elim
        | thunk j =>
          have hk'' : IsLocal d.thunks i (.var j) := hk'
          cases hk'' with
          | var hj hj' hv' =>
            refine ⟨IsLocal.var (Nat.lt_trans hj hi) hj' hv', fun e => ?_⟩
            rw [Key.thunk.injEq] at e
            omega
      · rw [Defs.rhs, h]
        exact comp_within hv

/-- Stores at rest in which no name was forced. -/
structure Stores.Open (config : Config) (d : Defs) (s : Stores) : Prop where
  rest : s.Rest config d
  unforced : ∀ name, s.memo (.scopes name) = .unforced

theorem open_new (config : Config) : Stores.new.Open config ⟨[], []⟩ := ⟨rest_new config, fun _ => rfl⟩

/-- To evaluate a local value forces no name, and fails only where a function does. -/
theorem evaluate_open {v : LazyValue} (hs : s.Open config d) (hv : d.IsLocal v) :
    Leads NotScoping d s (v.evaluate config) fun w d' s' => d' = d ∧ s'.Open config d ∧ Means config d v w := by
  have hcorr := evaluateWith_corr (force_corr config d s.bound) v s hs.rest.of
  have hframe := Demand.run_framed (localKey_ranked config d) s.bound (comp_within hv : (comp config v).Within _ _)
    fun k _ => hs.rest.rest.clear k
  constructor
  · intro w s' h
    have hrun := (except_eq_ok hcorr h).1
    rw [hrun] at hframe
    refine ⟨d, le_rfl, rfl, ⟨evaluate_rest hs.rest h, fun name => ?_⟩, (evaluate_iff hs.rest v w).mp ⟨s', h⟩⟩
    rw [hframe (.scopes name) id]
    exact hs.unforced name
  · intro e h
    obtain ⟨e', hrun, rfl⟩ := except_eq_error hcorr h
    rw [hrun] at hframe
    cases e' with
    | failed e =>
      obtain ⟨function, rfl⟩ := hframe
      rfl
    | recursive k => exact hframe.elim
    | outOfFuel => rfl

variable {E : ExecutionError → Prop}

theorem add_open (hs : s.Open config d) (v : LazyValue) :
    Leads E d s (Stores.add v) fun i d' s' => i = d.thunks.length ∧ d' = d.addThunk v ∧ s'.Open config d' := by
  have hadd : Stores.add v s = .ok (s.thunks.length, { s with thunks := s.thunks ++ [.unforced v] }) := rfl
  obtain ⟨hi, hrest⟩ := rest_add hs.rest hadd
  refine leads_of_ok hadd (le_addThunk d v) ⟨hi, rfl, hrest, fun name => ?_⟩
  rw [memo_add hadd]
  exact hs.unforced name

/-- A scoped variable can always be added. -/
theorem addScoped_open (hs : s.Open config d) (scope : LazyValue) (name : Identifier) (value : Nat) :
    Leads E d s (Stores.addScoped scope name value) fun _ d' s' => d' = d.addScoped scope name value ∧ s'.Open config d' := by
  have hok : ∃ s', Stores.addScoped scope name value s = .ok ((), s') := by
    have hun := hs.unforced name
    unfold Stores.addScoped
    cases hl : s.scopes.lookup name with
    | none => exact ⟨_, rfl⟩
    | some w =>
      cases w with
      | unforced pairs => exact ⟨_, rfl⟩
      | forcing => simp [Stores.memo, hl, ScopedValues.cell] at hun
      | forced map => simp [Stores.memo, hl, ScopedValues.cell] at hun
  obtain ⟨s', hs'⟩ := hok
  refine leads_of_ok hs' (le_addScoped d scope name value) ⟨rfl, rest_addScoped hs.rest hs', fun other => ?_⟩
  rw [memo_addScoped hs']
  exact hs.unforced other

end Force

/-! ## Environments -/

/-- What the checker takes to be local is local. -/
def Holds (d : Defs) (r : VariableResult) (v : LazyValue) : Prop := r.isLocal = true → d.IsLocal v

/-- The shorthands would pass the check, with a variable that is not local and without captures. -/
def ShorthandsCheck (cx : CheckContext) (config : Config) : Prop :=
  ∀ name sh, config.shorthands name = some sh → ∃ env used,
    checkAdd { cx with captures := [] } Scopes.new sh.var ⟨false, .one⟩ false = .ok env ∧
      checkAttributes { cx with captures := [] } env sh.attributes = .ok used

/-- What is executed is what was checked: the same globals and captures, and shorthands that check. -/
structure Suits (cx : CheckContext) (ctx : Context) : Prop where
  globals : ∀ name, ctx.config.globals name = none ↔ cx.globals name = none
  captures : ctx.stanza.captures = cx.captures
  shorthands : ShorthandsCheck cx ctx.config

section Environments

variable {cx : CheckContext} {ctx : Context} {env env' : Scopes VariableResult} {locals : Scopes LazyValue}
  {d d' : Defs} {name : Identifier}

theorem Suits.ofShorthand (h : Suits cx ctx) : Suits { cx with captures := [] } ctx.ofShorthand := ⟨h.globals, rfl, h.shorthands⟩

theorem Suits.withRegexCaptures (h : Suits cx ctx) (captures : List String) : Suits cx { ctx with regexCaptures := captures } :=
  ⟨h.globals, h.captures, h.shorthands⟩

theorem agree_le (h : env.Agree (Holds d) locals) (hle : d ≤ d') : env.Agree (Holds d') locals :=
  h.mono fun _ _ hv hl => (hv hl).mono hle

/-- What the checker lets be declared can be declared. -/
theorem addLocal_checked (hctx : Suits cx ctx) (h : env.Agree (Holds d) locals) {value : VariableResult} {isMutable : Bool}
    (hadd : checkAdd cx env name value isMutable = .ok env') {v : LazyValue} (hv : value.isLocal = true → d.IsLocal v) :
    ∃ locals', ctx.config.addLocal locals name v isMutable = .ok locals' ∧ env'.Agree (Holds d) locals' := by
  obtain ⟨hg, hadd⟩ := checkAdd_eq_ok.mp hadd
  have hholds : Holds d (if isMutable then { value with isLocal := false } else value) v := by
    cases isMutable with
    | true => exact fun hl => absurd hl Bool.false_ne_true
    | false => exact hv
  obtain ⟨locals', hok, hagree⟩ := h.add_ok hholds hadd
  exact ⟨locals', Config.addLocal_eq_ok.mpr ⟨(hctx.globals name).mpr hg, hok⟩, hagree⟩

theorem setLocal_checked (hctx : Suits cx ctx) (h : env.Agree (Holds d) locals) {value : VariableResult}
    (hset : checkSet cx env name value = .ok env') (v : LazyValue) :
    ∃ locals', ctx.config.setLocal locals name v = .ok locals' ∧ env'.Agree (Holds d) locals' := by
  obtain ⟨hg, hset⟩ := checkSet_eq_ok.mp hset
  have hholds : Holds d { value with isLocal := false } v := fun hl => absurd hl Bool.false_ne_true
  obtain ⟨locals', hok, hagree⟩ := h.set_ok hholds hset
  exact ⟨locals', Config.setLocal_eq_ok.mpr ⟨(hctx.globals name).mpr hg, hok⟩, hagree⟩

end Environments

/-! ## Expressions -/

theorem intoList_notScoping {v : Value} {e : ExecutionError} (h : v.intoList = .error e) : NotScoping e := by
  cases v <;> simp [Value.intoList] at h <;> exact h ▸ rfl

theorem fromNodes_notScoping {nodes : List SyntaxNodeRef} {q : Quantifier} {e : ExecutionError}
    (h : Value.fromNodes nodes q = .error e) :
    NotScoping e := by
  cases q <;> cases nodes <;> simp [Value.fromNodes] at h <;> exact h ▸ rfl

/-- The elements of a comprehension, each evaluated with its own value of the variable. -/
theorem elements_checked {cx : CheckContext} {ctx : Context} (hctx : Suits cx ctx) {env env' : Scopes VariableResult}
    {locals : Scopes LazyValue} {d : Defs} {s : Stores} {var : Identifier} {element : Expression} {v : VariableResult}
      {isLocal : Bool}
    (hadd : checkAdd cx env.nested var v false = .ok env')
    (helement : ∀ locals' d' s', env'.Agree (Holds d') locals' → s'.Open ctx.config d' →
      Leads NotScoping d' s' (evaluateLazy ctx locals' element) fun w d'' s'' =>
        s''.Open ctx.config d'' ∧ (isLocal = true → d''.IsLocal w))
    (hlocals : env.Agree (Holds d) locals) (hs : s.Open ctx.config d) (values : List Value) :
    Leads NotScoping d s (values.mapM fun v => do
        let i ← Stores.add (.value v)
        let locals' ← liftM (ctx.config.addLocal locals.nested var (.var i) false)
        evaluateLazy ctx locals' element) fun ws d' s' =>
      s'.Open ctx.config d' ∧ (isLocal = true → ∀ w ∈ ws, d'.IsLocal w) := by
  refine leads_conseq (leads_each (I := fun d' s' => s'.Open ctx.config d') (R := fun _ w d' => isLocal = true → d'.IsLocal w)
    (fun _ _ _ _ hle h hl => (h hl).mono hle) (fun v _ d₁ s₁ hle hs₁ => ?_) hs) ?_
  · refine leads_bind (add_open hs₁ (.value v)) fun i d₂ s₂ hle₂ h => ?_
    obtain ⟨rfl, rfl, hs₂⟩ := h
    have hagree : env.nested.Agree (Holds (d₁.addThunk (.value v))) locals.nested :=
      Scopes.agree_nested (agree_le hlocals (hle.trans hle₂))
    obtain ⟨locals', hok, hlocals'⟩ := addLocal_checked hctx hagree hadd fun _ => isLocal_var (.value _ v)
    rw [hok]
    exact leads_bind_liftM (fun l hl => Except.ok.inj hl ▸ helement locals' _ _ hlocals' hs₂) fun _ he => absurd he nofun
  · rintro ws d' s' - ⟨hs', hws⟩
    refine ⟨hs', fun hl w hw => ?_⟩
    obtain ⟨i, hi, rfl⟩ := List.mem_iff_getElem.mp hw
    exact List.Forall₂.get hws (hws.length_eq ▸ hi) hi hl

mutual

/-- What the checker lets through evaluates without an error of scoping, to a local value where the
    checker says so. -/
theorem evaluateLazy_checked {cx : CheckContext} {ctx : Context} (hctx : Suits cx ctx) (e : Expression)
    {env : Scopes VariableResult} {locals : Scopes LazyValue} {d : Defs} {s : Stores} {r : ExpressionResult}
    (hr : checkExpression cx env e = .ok r) (hlocals : env.Agree (Holds d) locals) (hs : s.Open ctx.config d) :
    Leads NotScoping d s (evaluateLazy ctx locals e) fun v d' s' =>
      s'.Open ctx.config d' ∧ (r.isLocal = true → d'.IsLocal v) := by
  match e with
  | .falseLiteral => exact leads_pure ⟨hs, fun _ => .value _ _⟩
  | .nullLiteral => exact leads_pure ⟨hs, fun _ => .value _ _⟩
  | .trueLiteral => exact leads_pure ⟨hs, fun _ => .value _ _⟩
  | .integerConstant value => exact leads_pure ⟨hs, fun _ => .value _ _⟩
  | .stringConstant value => exact leads_pure ⟨hs, fun _ => .value _ _⟩
  | .listLiteral elements =>
    obtain ⟨rs, hrs, hr⟩ := except_bind_eq_ok.mp hr
    obtain rfl := Except.ok.inj hr
    rw [evaluateLazy]
    exact leads_bind (evaluateAllLazy_checked hctx elements hrs hlocals hs) fun vs d' s' _ h =>
      leads_pure ⟨h.1, fun hl => .list (h.2 hl)⟩
  | .setLiteral elements =>
    obtain ⟨rs, hrs, hr⟩ := except_bind_eq_ok.mp hr
    obtain rfl := Except.ok.inj hr
    rw [evaluateLazy]
    exact leads_bind (evaluateAllLazy_checked hctx elements hrs hlocals hs) fun vs d' s' _ h =>
      leads_pure ⟨h.1, fun hl => .set (h.2 hl)⟩
  | .listComprehension element var value =>
    obtain ⟨v, hv, hr⟩ := except_bind_eq_ok.mp hr
    obtain ⟨env', hloop, hr⟩ := except_bind_eq_ok.mp hr
    obtain ⟨er, her, hr⟩ := except_bind_eq_ok.mp hr
    obtain rfl := Except.ok.inj hr
    obtain ⟨hlocal, -, hadd⟩ := checkLoop_eq_ok.mp hloop
    rw [evaluateLazy]
    refine leads_bind (evaluateLazy_checked hctx value hv hlocals hs) fun lv d₁ s₁ hle₁ h₁ => ?_
    refine leads_bind (evaluate_open h₁.1 (h₁.2 hlocal)) fun w d₂ s₂ hle₂ h₂ => ?_
    obtain ⟨rfl, hs₂, -⟩ := h₂
    refine leads_bind_liftM (fun values _ => ?_) fun _ => intoList_notScoping
    refine leads_bind (elements_checked hctx hadd (fun _ _ _ hl' hs' => evaluateLazy_checked hctx element her hl' hs')
      (agree_le hlocals hle₁) hs₂ values) fun ws d₃ s₃ _ h₃ => ?_
    exact leads_pure ⟨h₃.1, fun hl => .list (h₃.2 hl)⟩
  | .setComprehension element var value =>
    obtain ⟨v, hv, hr⟩ := except_bind_eq_ok.mp hr
    obtain ⟨env', hloop, hr⟩ := except_bind_eq_ok.mp hr
    obtain ⟨er, her, hr⟩ := except_bind_eq_ok.mp hr
    obtain rfl := Except.ok.inj hr
    obtain ⟨hlocal, -, hadd⟩ := checkLoop_eq_ok.mp hloop
    rw [evaluateLazy]
    refine leads_bind (evaluateLazy_checked hctx value hv hlocals hs) fun lv d₁ s₁ hle₁ h₁ => ?_
    refine leads_bind (evaluate_open h₁.1 (h₁.2 hlocal)) fun w d₂ s₂ hle₂ h₂ => ?_
    obtain ⟨rfl, hs₂, -⟩ := h₂
    refine leads_bind_liftM (fun values _ => ?_) fun _ => intoList_notScoping
    refine leads_bind (elements_checked hctx hadd (fun _ _ _ hl' hs' => evaluateLazy_checked hctx element her hl' hs')
      (agree_le hlocals hle₁) hs₂ values) fun ws d₃ s₃ _ h₃ => ?_
    exact leads_pure ⟨h₃.1, fun hl => .set (h₃.2 hl)⟩
  | .capture name =>
    rw [evaluateLazy]
    refine leads_bind_liftM (fun v _ => leads_pure ⟨hs, fun _ => .value _ _⟩) fun e he => ?_
    rw [checkExpression] at hr
    rw [Context.capture, hctx.captures] at he
    cases hq : cx.captures.lookup name with
    | none => simp [hq] at hr
    | some q =>
      simp only [hq] at he
      exact fromNodes_notScoping he
  | .scopedVariable scope name =>
    obtain ⟨sr, hsr, hr⟩ := except_bind_eq_ok.mp hr
    obtain rfl := Except.ok.inj hr
    rw [evaluateLazy]
    exact leads_bind (evaluateLazy_checked hctx scope hsr hlocals hs) fun v d' s' _ h =>
      leads_pure ⟨h.1, fun hl => absurd hl Bool.false_ne_true⟩
  | .unscopedVariable name =>
    rw [checkExpression, checkGet] at hr
    rw [evaluateLazy]
    cases hg : cx.globals name with
    | some g =>
      cases hgv : ctx.config.globals name with
      | none =>
        rw [(hctx.globals name).mp hgv] at hg
        exact absurd hg nofun
      | some v => exact leads_pure ⟨hs, fun _ => .value _ _⟩
    | none =>
      simp only [(hctx.globals name).mpr hg]
      rw [hg, Option.none_or] at hr
      rcases hlocals.get name with ⟨henv, -⟩ | ⟨a, b, henv, hl, hab⟩
      · rw [henv] at hr
        exact absurd hr nofun
      · rw [henv] at hr
        obtain rfl := Except.ok.inj hr
        simp only [hl]
        exact leads_pure ⟨hs, hab⟩
  | .call function parameters =>
    obtain ⟨rs, hrs, hr⟩ := except_bind_eq_ok.mp hr
    obtain rfl := Except.ok.inj hr
    rw [evaluateLazy]
    exact leads_bind (evaluateAllLazy_checked hctx parameters hrs hlocals hs) fun vs d' s' _ h =>
      leads_pure ⟨h.1, fun hl => .call function (h.2 hl)⟩
  | .regexCapture matchIndex =>
    rw [evaluateLazy]
    cases ctx.regexCaptures[matchIndex]? with
    | none => exact leads_throw rfl
    | some s => exact leads_pure ⟨hs, fun _ => .value _ _⟩

theorem evaluateAllLazy_checked {cx : CheckContext} {ctx : Context} (hctx : Suits cx ctx) (es : List Expression)
    {env : Scopes VariableResult} {locals : Scopes LazyValue} {d : Defs} {s : Stores} {r : Bool × List Identifier}
    (hr : checkExpressions cx env es = .ok r) (hlocals : env.Agree (Holds d) locals) (hs : s.Open ctx.config d) :
    Leads NotScoping d s (evaluateAllLazy ctx locals es) fun vs d' s' =>
      s'.Open ctx.config d' ∧ (r.1 = true → ∀ v ∈ vs, d'.IsLocal v) := by
  match es with
  | [] => exact leads_pure ⟨hs, fun _ _ hv => absurd hv List.not_mem_nil⟩
  | e :: es =>
    obtain ⟨r₁, hr₁, hr⟩ := except_bind_eq_ok.mp hr
    obtain ⟨rs, hrs, hr⟩ := except_bind_eq_ok.mp hr
    obtain rfl := Except.ok.inj hr
    rw [evaluateAllLazy]
    refine leads_bind (evaluateLazy_checked hctx e hr₁ hlocals hs) fun v d₁ s₁ hle₁ h₁ => ?_
    refine leads_bind (evaluateAllLazy_checked hctx es hrs (agree_le hlocals hle₁) h₁.1) fun vs d₂ s₂ hle₂ h₂ => ?_
    refine leads_pure ⟨h₂.1, fun hl w hw => ?_⟩
    rw [Bool.and_eq_true] at hl
    rcases List.mem_cons.mp hw with rfl | hw
    · exact (h₁.2 hl.1).mono hle₂
    · exact h₂.2 hl.2 w hw

end

/-! ## Statements -/

/-- A state as the checker expects it where it has this environment. -/
structure Checked (config : Config) (env : Scopes VariableResult) (d : Defs) (st : State) : Prop where
  stores : st.stores.Open config d
  locals : env.Agree (Holds d) st.locals

section Steps

variable {E : ExecutionError → Prop} {α : Type} {cx : CheckContext} {ctx : Context} {env env' : Scopes VariableResult}
  {d : Defs} {st : State}

theorem Checked.same {config : Config} (h : Checked config env d st) (hs : env.Agree Same env') : Checked config env' d st :=
  ⟨h.stores, hs.symm.comp h.locals fun _ _ _ hab hbc hl => hbc (hab.trans hl)⟩

theorem evaluating_leads {W : Type} [Preorder W] {w : W} {m : Eval α} {Q : α → W → Stores → Prop} (h : Leads E w st.stores m Q) :
    Leads E w st (evaluating m) fun a w' st' => ∃ stores, st' = { st with stores := stores } ∧ Q a w' stores := by
  constructor
  · intro a st' hok
    unfold evaluating at hok
    cases hm : m st.stores with
    | error e =>
      rw [hm] at hok
      exact absurd hok nofun
    | ok r =>
      simp only [hm, Except.ok.injEq, Prod.mk.injEq] at hok
      obtain ⟨rfl, rfl⟩ := hok
      obtain ⟨d', hle, hQ⟩ := h.1 r.1 r.2 hm
      exact ⟨d', hle, r.2, rfl, hQ⟩
  · intro e herr
    unfold evaluating at herr
    cases hm : m st.stores with
    | error e' =>
      simp only [hm, Except.error.injEq] at herr
      exact herr ▸ h.2 e' hm
    | ok r =>
      rw [hm] at herr
      exact absurd herr nofun

theorem stateEvaluateLazy_checked (hctx : Suits cx ctx) {e : Expression} {r : ExpressionResult}
    (hr : checkExpression cx env e = .ok r) (hst : Checked ctx.config env d st) :
    Leads NotScoping d st (State.evaluateLazy ctx e) fun v d' st' => Checked ctx.config env d' st' ∧
      (r.isLocal = true → d'.IsLocal v) := by
  refine leads_conseq (evaluating_leads (evaluateLazy_checked hctx e hr hst.locals hst.stores)) fun v d' st' hle h => ?_
  obtain ⟨stores, rfl, hopen, hl⟩ := h
  exact ⟨⟨hopen, agree_le hst.locals hle⟩, hl⟩

/-- A value that directs the execution is local, so it can be evaluated at once. -/
theorem stateEvaluateEager_checked (hctx : Suits cx ctx) {e : Expression} {r : ExpressionResult}
    (hr : checkExpression cx env e = .ok r) (hlocal : r.isLocal = true) (hst : Checked ctx.config env d st) :
    Leads NotScoping d st (State.evaluateEager ctx e) fun _ d' st' => Checked ctx.config env d' st' := by
  have heval : Leads NotScoping d st.stores (evaluateEager ctx st.locals e) fun _ d' s' => s'.Open ctx.config d' := by
    refine leads_bind (evaluateLazy_checked hctx e hr hst.locals hst.stores) fun v d₁ s₁ _ h₁ => ?_
    exact leads_conseq (evaluate_open h₁.1 (h₁.2 hlocal)) fun w d₂ s₂ _ h₂ => h₂.1 ▸ h₂.2.1
  refine leads_conseq (evaluating_leads heval) fun v d' st' hle h => ?_
  obtain ⟨stores, rfl, hopen⟩ := h
  exact ⟨hopen, agree_le hst.locals hle⟩

theorem stateAdd_thunk {config : Config} (hst : Checked config env d st) (v : LazyValue) :
    Leads E d st (evaluating (Stores.add v)) fun i d' st' => i = d.thunks.length ∧ d' = d.addThunk v ∧
      Checked config env d' st' := by
  refine leads_conseq (evaluating_leads (add_open hst.stores v)) fun i d' st' hle h => ?_
  obtain ⟨stores, rfl, hi, hd, hopen⟩ := h
  exact ⟨hi, hd, hopen, agree_le hst.locals hle⟩

theorem setLocals_checked {config : Config} (hst : Checked config env d st) {locals : Scopes LazyValue}
    (hlocals : env'.Agree (Holds d) locals) : Leads E d st (State.setLocals locals) fun _ d' st' => Checked config env' d' st' :=
  leads_of_ok rfl le_rfl ⟨hst.stores, hlocals⟩

theorem addLocal_state (hctx : Suits cx ctx) {name : Identifier} {value : VariableResult} {isMutable : Bool}
    (hadd : checkAdd cx env name value isMutable = .ok env') {v : LazyValue} (hv : value.isLocal = true → d.IsLocal v)
    (hst : Checked ctx.config env d st) :
    Leads E d st (State.addLocal ctx name v isMutable) fun _ d' st' => Checked ctx.config env' d' st' := by
  refine leads_bind (stateAdd_thunk hst v) fun i d₁ st₁ hle₁ h₁ => ?_
  obtain ⟨rfl, rfl, hst₁⟩ := h₁
  refine leads_bind (leads_get (P := fun a d' st' => a = st₁ ∧ d' = d.addThunk v ∧ st' = st₁) ⟨rfl, rfl, rfl⟩)
    fun a d₂ st₂ _ h₂ => ?_
  obtain ⟨rfl, rfl, rfl⟩ := h₂
  obtain ⟨locals', hok, hlocals'⟩ := addLocal_checked hctx hst₁.locals hadd fun hl => isLocal_var (hv hl)
  rw [hok]
  exact leads_bind_liftM (fun l hl => Except.ok.inj hl ▸ setLocals_checked hst₁ hlocals') fun _ he => absurd he nofun

theorem stateAdd_checked (hctx : Suits cx ctx) {var : Variable} {value : VariableResult} {isMutable : Bool}
    {r : List Identifier × Scopes VariableResult} (hadd : checkVariableAdd cx env var value isMutable = .ok r) {v : LazyValue}
    (hv : value.isLocal = true → d.IsLocal v) (hst : Checked ctx.config env d st) :
    Leads NotScoping d st (State.add ctx var v isMutable) fun _ d' st' => Checked ctx.config r.2 d' st' := by
  match var with
  | .unscoped name location =>
    obtain ⟨env', henv', hr⟩ := except_bind_eq_ok.mp hadd
    obtain rfl := Except.ok.inj hr
    exact addLocal_state hctx henv' hv hst
  | .scoped scope name location =>
    obtain ⟨sr, hsr, hr⟩ := except_bind_eq_ok.mp hadd
    obtain rfl := Except.ok.inj hr
    rw [State.add]
    split
    · exact leads_throw rfl
    · refine leads_bind (stateEvaluateLazy_checked hctx hsr hst) fun s d₁ st₁ _ h₁ => ?_
      refine leads_bind (stateAdd_thunk h₁.1 v) fun i d₂ st₂ _ h₂ => ?_
      refine leads_conseq (evaluating_leads (addScoped_open h₂.2.2.stores s name i)) fun _ d₃ st₃ hle₃ h₃ => ?_
      obtain ⟨stores, rfl, -, hopen⟩ := h₃
      exact ⟨hopen, agree_le h₂.2.2.locals hle₃⟩

theorem stateSet_checked (hctx : Suits cx ctx) {var : Variable} {value : VariableResult}
    {r : List Identifier × Scopes VariableResult} (hset : checkVariableSet cx env var value = .ok r) (v : LazyValue)
    (hst : Checked ctx.config env d st) :
    Leads NotScoping d st (State.set ctx var v) fun _ d' st' => Checked ctx.config r.2 d' st' := by
  match var with
  | .scoped scope name location => exact leads_throw rfl
  | .unscoped name location =>
    obtain ⟨env', henv', hr⟩ := except_bind_eq_ok.mp hset
    obtain rfl := Except.ok.inj hr
    refine leads_bind (stateAdd_thunk hst v) fun i d₁ st₁ hle₁ h₁ => ?_
    obtain ⟨rfl, rfl, hst₁⟩ := h₁
    refine leads_bind (leads_get (P := fun a d' st' => a = st₁ ∧ d' = d.addThunk v ∧ st' = st₁) ⟨rfl, rfl, rfl⟩)
      fun a d₂ st₂ _ h₂ => ?_
    obtain ⟨rfl, rfl, rfl⟩ := h₂
    obtain ⟨locals', hok, hlocals'⟩ := setLocal_checked hctx hst₁.locals henv' (.var d.thunks.length)
    rw [hok]
    exact leads_bind_liftM (fun l hl => Except.ok.inj hl ▸ setLocals_checked hst₁ hlocals') fun _ he => absurd he nofun

theorem push_checked {config : Config} (stmt : LazyStatement) (hst : Checked config env d st) :
    Leads E d st (State.push stmt) fun _ d' st' => Checked config env d' st' := leads_of_ok rfl le_rfl ⟨hst.stores, hst.locals⟩

/-- A block that is run in an environment of its own. -/
theorem inScope_leads {W : Type} [Preorder W] {w : W} {f : Exec Unit} {P Q : W → State → Prop}
    (h : Leads E w { st with locals := st.locals.nested } f fun _ w' st' => P w' st')
    (hPQ : ∀ w' st', P w' st' → Q w' { st' with locals := st'.locals.tail }) :
    Leads E w st (State.inScope f) fun _ w' st' => Q w' st' := by
  constructor
  · intro _ st' hok
    unfold State.inScope at hok
    cases hf : f { st with locals := st.locals.nested } with
    | error e =>
      rw [hf] at hok
      exact absurd hok nofun
    | ok r =>
      simp only [hf, Except.ok.injEq, Prod.mk.injEq, true_and] at hok
      obtain ⟨d', hle, hP⟩ := h.1 r.1 r.2 hf
      exact ⟨d', hle, hok ▸ hPQ d' r.2 hP⟩
  · intro e herr
    unfold State.inScope at herr
    cases hf : f { st with locals := st.locals.nested } with
    | error e' =>
      simp only [hf, Except.error.injEq] at herr
      exact herr ▸ h.2 e' hf
    | ok r =>
      rw [hf] at herr
      exact absurd herr nofun

theorem inScope_checked {config : Config} {f : Exec Unit} (hst : Checked config env d st) (inner : Scopes VariableResult)
    (h : ∀ st', Checked config env.nested d st' → Leads E d st' f fun _ d' st'' => Checked config inner d' st'') :
    Leads E d st (State.inScope f) fun _ d' st' => Checked config inner.tail d' st' :=
  inScope_leads (h _ ⟨hst.stores, Scopes.agree_nested hst.locals⟩) fun _ _ h' => ⟨h'.stores, h'.locals.tail⟩

theorem forEach_leads {f : α → Exec Unit} {I : Defs → State → Prop} {items : List α}
    (hstep : ∀ a ∈ items, ∀ d st, I d st → Leads E d st (f a) fun _ d' st' => I d' st') (hI : I d st) :
    Leads E d st (forEach f items) fun _ d' st' => I d' st' := by
  induction items generalizing d st with
  | nil => exact leads_pure hI
  | cons a items ih =>
    exact leads_bind (hstep a List.mem_cons_self d st hI) fun _ d₁ st₁ _ h₁ =>
      ih (fun a' ha' => hstep a' (List.mem_cons_of_mem _ ha')) h₁

/-- An arm of a scan as a step. -/
def armStep {σ : Type} (arm : σ → Except ExecutionError σ) : StateT σ (Except ExecutionError) Unit :=
  fun st => (arm st).map ((), ·)

theorem armStep_apply {σ : Type} (arm : σ → Except ExecutionError σ) (st : σ) : armStep arm st = (arm st).map ((), ·) := rfl

theorem armStep_leads {σ W : Type} [Preorder W] {w : W} {st : σ} {arm : σ → Except ExecutionError σ} {Q : W → σ → Prop}
    (hok : ∀ st', arm st = .ok st' → ∃ w', w ≤ w' ∧ Q w' st') (herr : ∀ e, arm st = .error e → E e) :
    Leads E w st (armStep arm) fun _ w' st' => Q w' st' := by
  cases harm : arm st with
  | error e => exact leads_of_error (by rw [armStep_apply, harm]; rfl) (herr e harm)
  | ok st' =>
    obtain ⟨w', hle, hQ⟩ := hok st' harm
    exact leads_of_ok (by rw [armStep_apply, harm]; rfl) hle hQ

theorem leads_armStep {σ W : Type} [Preorder W] {w : W} {st : σ} {arm : σ → Except ExecutionError σ} {Q : W → σ → Prop}
    (h : Leads E w st (armStep arm) fun _ w' st' => Q w' st') :
    (∀ st', arm st = .ok st' → ∃ w', w ≤ w' ∧ Q w' st') ∧ ∀ e, arm st = .error e → E e := by
  constructor
  · exact fun st' hst' => h.1 () st' (by rw [armStep_apply, hst']; rfl)
  · exact fun e he => h.2 e (by rw [armStep_apply, he]; rfl)

theorem armMatches_notScoping {config : Config} {rest : List Char} {regexes : List Regex} {e : ExecutionError}
    (h : armMatches config rest regexes = .error e) : NotScoping e := by
  induction regexes with
  | nil => exact absurd h nofun
  | cons r rs ih =>
    rw [armMatches] at h
    have hmap : ∀ f : List (Option RegexMatch) → List (Option RegexMatch),
      (armMatches config rest rs).map f = .error e → NotScoping e := by
      intro f hf
      cases hrs : armMatches config rest rs with
      | error e' =>
        rw [hrs] at hf
        exact ih (hrs.trans (congrArg _ (Except.error.inj hf)))
      | ok ms =>
        rw [hrs] at hf
        exact absurd hf nofun
    split at h
    · exact hmap _ h
    · split at h
      · exact Except.error.inj h ▸ rfl
      · exact hmap _ h

/-- A scan keeps what its arms keep, and fails as they do. -/
theorem scanLoop_leads (config : Config) (regexes : List Regex) {I : Defs → State → Prop}
    {arms : List (List String → State → Except ExecutionError State)}
    (harms : ∀ arm ∈ arms, ∀ captures d st, I d st → Leads NotScoping d st (armStep (arm captures)) fun _ d' st' => I d' st')
    (fuel : Nat) (rest : List Char) (hI : I d st) :
    Leads NotScoping d st (armStep (scanLoop config regexes arms fuel rest)) fun _ d' st' => I d' st' := by
  have hend : ∀ {d st}, I d st → ∀ st', (Except.ok st : Except ExecutionError State) = .ok st' → ∃ d', d ≤ d' ∧ I d' st' := by
    intro d st hI st' h
    exact ⟨d, le_rfl, Except.ok.inj h ▸ hI⟩
  induction fuel generalizing rest d st with
  | zero =>
    cases rest with
    | nil => exact armStep_leads (hend hI) nofun
    | cons c rest => exact armStep_leads nofun fun e he => Except.error.inj he ▸ rfl
  | succ fuel ih =>
    cases rest with
    | nil => exact armStep_leads (hend hI) nofun
    | cons c rest =>
      refine armStep_leads ?_ ?_
      · intro st' h
        obtain ⟨ms, -, hms⟩ := except_bind_eq_ok.mp h
        cases he : earliest (ms.zip arms) with
        | none =>
          simp only [he] at hms
          exact hend hI st' hms
        | some r =>
          simp only [he] at hms
          obtain ⟨st₁, harm, hrest⟩ := except_bind_eq_ok.mp hms
          obtain ⟨d₁, hle₁, hI₁⟩ := (leads_armStep (harms r.2 (earliest_mem he) _ d st hI)).1 st₁ harm
          obtain ⟨d₂, hle₂, hI₂⟩ := (leads_armStep (ih _ hI₁)).1 st' hrest
          exact ⟨d₂, hle₁.trans hle₂, hI₂⟩
      · intro e h
        rw [scanLoop] at h
        cases hms : armMatches config (c :: rest) regexes with
        | error e' =>
          rw [hms] at h
          exact Except.error.inj h ▸ armMatches_notScoping hms
        | ok ms =>
          rw [except_bind_ok hms] at h
          cases he : earliest (ms.zip arms) with
          | none =>
            simp only [he] at h
            exact absurd h nofun
          | some r =>
            simp only [he] at h
            have hr := leads_armStep (harms r.2 (earliest_mem he) r.1.texts d st hI)
            cases harm : r.2 r.1.texts st with
            | error e' =>
              rw [harm] at h
              exact Except.error.inj h ▸ hr.2 e' harm
            | ok st₁ =>
              rw [except_bind_ok harm] at h
              obtain ⟨d₁, hle₁, hI₁⟩ := hr.1 st₁ harm
              exact (leads_armStep (ih _ hI₁)).2 e h

theorem intoString_notScoping {v : Value} {e : ExecutionError} (h : v.intoString = .error e) : NotScoping e := by
  cases v <;> simp [Value.intoString] at h <;> exact h ▸ rfl

theorem intoBoolean_notScoping {v : Value} {e : ExecutionError} (h : v.intoBoolean = .error e) : NotScoping e := by
  cases v <;> simp [Value.intoBoolean] at h <;> exact h ▸ rfl

theorem add_notScoping {a : Attributes} {name : Identifier} {value : Value} {e : ExecutionError}
    (h : a.add name value = .error e) :
    NotScoping e := by
  unfold Attributes.add at h
  split at h
  · exact absurd h nofun
  · split at h
    · exact absurd h nofun
    · exact Except.error.inj h ▸ rfl

theorem addOptional_notScoping {a : Attributes} {name : Option Identifier} {value : Value} {e : ExecutionError}
    (h : a.addOptional name value = .error e) : NotScoping e := by
  cases name with
  | none => exact absurd h nofun
  | some name => exact add_notScoping h

theorem nodeAttrs_notScoping {var : Variable} {config : Config} {full : SyntaxNodeRef} {e : ExecutionError}
    (h : var.nodeAttrs config full = .error e) : NotScoping e := by
  rcases except_bind_eq_error h with h | ⟨a, -, h⟩
  · exact addOptional_notScoping h
  · rcases except_bind_eq_error h with h | ⟨b, -, h⟩
    · exact addOptional_notScoping h
    · exact addOptional_notScoping h

/-- What is tested was checked to be local. -/
theorem checkCondition_local {c : Condition} {used : List Identifier} (h : checkCondition cx env c = .ok used) :
    ∃ r : ExpressionResult, r.isLocal = true ∧
      ((∃ v, c = .some v ∧ checkExpression cx env v = .ok r) ∨ (∃ v, c = .none v ∧ checkExpression cx env v = .ok r) ∨
        ∃ v, c = .bool v ∧ checkExpression cx env v = .ok r) := by
  cases c with
  | some v =>
    obtain ⟨r, hr, h⟩ := except_bind_eq_ok.mp h
    split at h
    · exact absurd h nofun
    next hl => exact ⟨r, Bool.of_not_eq_false hl, .inl ⟨v, rfl, hr⟩⟩
  | none v =>
    obtain ⟨r, hr, h⟩ := except_bind_eq_ok.mp h
    split at h
    · exact absurd h nofun
    next hl => exact ⟨r, Bool.of_not_eq_false hl, .inr (.inl ⟨v, rfl, hr⟩)⟩
  | bool v =>
    obtain ⟨r, hr, h⟩ := except_bind_eq_ok.mp h
    split at h
    · exact absurd h nofun
    next hl => exact ⟨r, Bool.of_not_eq_false hl, .inr (.inr ⟨v, rfl, hr⟩)⟩

theorem testEager_checked (hctx : Suits cx ctx) {c : Condition} {used : List Identifier}
    (hc : checkCondition cx env c = .ok used) (hst : Checked ctx.config env d st) :
    Leads NotScoping d st (testEager ctx c) fun _ d' st' => Checked ctx.config env d' st' := by
  obtain ⟨r, hlocal, ⟨v, rfl, hr⟩ | ⟨v, rfl, hr⟩ | ⟨v, rfl, hr⟩⟩ := checkCondition_local hc
  · exact leads_bind (stateEvaluateEager_checked hctx hr hlocal hst) fun w d₁ st₁ _ h₁ => leads_pure h₁
  · exact leads_bind (stateEvaluateEager_checked hctx hr hlocal hst) fun w d₁ st₁ _ h₁ => leads_pure h₁
  · exact leads_bind (stateEvaluateEager_checked hctx hr hlocal hst) fun w d₁ st₁ _ h₁ =>
      leads_liftM (fun _ _ => h₁) fun _ => intoBoolean_notScoping

theorem testAllEager_checked (hctx : Suits cx ctx) {cs : List Condition} {used : List Identifier}
    (hcs : checkConditions cx env cs = .ok used) (hst : Checked ctx.config env d st) :
    Leads NotScoping d st (testAllEager ctx cs) fun _ d' st' => Checked ctx.config env d' st' := by
  induction cs generalizing used d st with
  | nil => exact leads_pure hst
  | cons c cs ih =>
    obtain ⟨used₁, hc, h⟩ := except_bind_eq_ok.mp hcs
    obtain ⟨used₂, hcs, -⟩ := except_bind_eq_ok.mp h
    exact leads_bind (testEager_checked hctx hc hst) fun b d₁ st₁ _ h₁ =>
      leads_bind (ih hcs h₁) fun bs d₂ st₂ _ h₂ => leads_pure h₂

theorem executePrint_checked (hctx : Suits cx ctx) {es : List Expression} {r : Bool × List Identifier}
    (hes : checkExpressions cx env es = .ok r) (hst : Checked ctx.config env d st) :
    Leads NotScoping d st (executePrint ctx es) fun _ d' st' => Checked ctx.config env d' st' := by
  induction es generalizing r d st with
  | nil => exact leads_pure hst
  | cons e es ih =>
    obtain ⟨r₁, he, h⟩ := except_bind_eq_ok.mp hes
    obtain ⟨r₂, hrest, -⟩ := except_bind_eq_ok.mp h
    have hvalue : Leads NotScoping d st (do
        let v ← State.evaluateLazy ctx e
        let args ← executePrint ctx es
        return some v :: args) fun _ d' st' => Checked ctx.config env d' st' :=
      leads_bind (stateEvaluateLazy_checked hctx he hst) fun v d₁ st₁ _ h₁ =>
        leads_bind (ih hrest h₁.1) fun args d₂ st₂ _ h₂ => leads_pure h₂
    cases e with
    | stringConstant value =>
      rw [executePrint]
      exact leads_bind (ih hrest hst) fun args d₂ st₂ _ h₂ => leads_pure h₂
    | _ => exact hvalue

theorem concatAttributes_checked {env : Scopes VariableResult} {locals : Scopes LazyValue} {config : Config}
    {f : Attribute → Eval (List LazyAttribute)} {attrs : List Attribute} {used : List Identifier}
    (h : ∀ attr d s r, checkExpression cx env attr.value = .ok r → env.Agree (Holds d) locals → s.Open config d →
      Leads NotScoping d s (f attr) fun _ d' s' => s'.Open config d')
    (hr : checkAttributes cx env attrs = .ok used) (hlocals : env.Agree (Holds d) locals) {s : Stores} (hs : s.Open config d) :
    Leads NotScoping d s (concatAttributes f attrs) fun _ d' s' => s'.Open config d' := by
  induction attrs generalizing used d s with
  | nil => exact leads_pure hs
  | cons attr attrs ih =>
    obtain ⟨r, hvalue, hr⟩ := except_bind_eq_ok.mp hr
    obtain ⟨used', hrest, -⟩ := except_bind_eq_ok.mp hr
    refine leads_bind (h attr d s r hvalue hlocals hs) fun as d₁ s₁ hle₁ h₁ => ?_
    exact leads_bind (ih hrest (agree_le hlocals hle₁) h₁) fun bs d₂ s₂ _ h₂ => leads_pure h₂

/-- An attribute of a statement, or those of its shorthand. -/
theorem executeAttribute_checked {env : Scopes VariableResult} (hctx : Suits cx ctx) (fuel : Nat) {attr : Attribute}
    {r : ExpressionResult} {locals : Scopes LazyValue} {s : Stores} (hr : checkExpression cx env attr.value = .ok r)
    (hlocals : env.Agree (Holds d) locals) (hs : s.Open ctx.config d) :
    Leads NotScoping d s (executeAttribute ctx fuel locals attr) fun _ d' s' => s'.Open ctx.config d' := by
  induction fuel generalizing cx ctx env attr r locals d s with
  | zero => exact leads_throw rfl
  | succ fuel ih =>
    rw [executeAttribute]
    refine leads_bind (evaluateLazy_checked hctx attr.value hr hlocals hs) fun v d₁ s₁ hle₁ h₁ => ?_
    cases hsh : ctx.config.shorthands attr.name with
    | none => exact leads_pure h₁.1
    | some sh =>
      obtain ⟨env₀, used₀, hadd, hattrs⟩ := hctx.shorthands attr.name sh hsh
      refine leads_bind (add_open h₁.1 v) fun i d₂ s₂ hle₂ h₂ => ?_
      obtain ⟨rfl, rfl, hs₂⟩ := h₂
      obtain ⟨locals', hok, hlocals'⟩ := addLocal_checked (v := .var d₁.thunks.length) hctx.ofShorthand
        (Scopes.agree_new (R := Holds (d₁.addThunk v))) hadd fun hl => absurd hl Bool.false_ne_true
      have hok : ctx.config.addLocal Scopes.new sh.var (.var d₁.thunks.length) false = .ok locals' := hok
      rw [hok]
      refine leads_bind_liftM (fun l hl => Except.ok.inj hl ▸ ?_) fun _ he => by cases he
      exact concatAttributes_checked (fun _ _ _ _ hr' hl' hs' => ih hctx.ofShorthand hr' hl' hs') hattrs hlocals' hs₂

theorem executeAttributes_checked (hctx : Suits cx ctx) (fuel : Nat) {attrs : List Attribute} {used : List Identifier}
    {locals : Scopes LazyValue} {s : Stores} (hr : checkAttributes cx env attrs = .ok used) (hlocals : env.Agree (Holds d) locals)
    (hs : s.Open ctx.config d) :
    Leads NotScoping d s (executeAttributes ctx fuel locals attrs) fun _ d' s' => s'.Open ctx.config d' :=
  concatAttributes_checked (fun _ _ _ _ hr' hl' hs' => executeAttribute_checked hctx fuel hr' hl' hs') hr hlocals hs

theorem pushAttributes_checked (hctx : Suits cx ctx) (fuel : Nat) {attrs : List Attribute} {used : List Identifier}
    (hr : checkAttributes cx env attrs = .ok used) (hst : Checked ctx.config env d st)
    (stmt : List LazyAttribute → LazyStatement) :
    Leads NotScoping d st (do
        let st ← get
        let attrs ← evaluating (executeAttributes ctx fuel st.locals attrs)
        State.push (stmt attrs)) fun _ d' st' => Checked ctx.config env d' st' := by
  refine leads_bind (leads_get (P := fun a d' st' => a = st ∧ d' = d ∧ st' = st) ⟨rfl, rfl, rfl⟩) fun a d₁ st₁ _ h₁ => ?_
  obtain ⟨rfl, rfl, rfl⟩ := h₁
  refine leads_bind (evaluating_leads (executeAttributes_checked hctx fuel hr hst.locals hst.stores)) fun as d₂ st₂ hle₂ h₂ => ?_
  obtain ⟨stores, rfl, hopen⟩ := h₂
  exact push_checked _ ⟨hopen, agree_le hst.locals hle₂⟩

end Steps

mutual

/-- A statement that the checker lets through fails for no error of scoping, and leaves the environment
    that the checker found. -/
theorem execute_checked (fuel : Nat) {cx : CheckContext} {ctx : Context} (hctx : Suits cx ctx) (stmt : Statement)
    {env : Scopes VariableResult} {d : Defs} {st : State} {r : List Identifier × Scopes VariableResult} (henv : Steady env)
    (hr : checkStatement cx stmt env = .ok r) (hst : Checked ctx.config env d st) :
    Leads NotScoping d st (execute fuel ctx stmt) fun _ d' st' => Checked ctx.config r.2 d' st' := by
  match stmt with
  | .declareImmutable var value =>
    obtain ⟨v, hv, hr⟩ := except_bind_eq_ok.mp hr
    obtain ⟨r', hadd, hr⟩ := except_bind_eq_ok.mp hr
    obtain rfl := Except.ok.inj hr
    rw [execute]
    exact leads_bind (stateEvaluateLazy_checked hctx hv hst) fun w d₁ st₁ _ h₁ => stateAdd_checked hctx hadd h₁.2 h₁.1
  | .declareMutable var value =>
    obtain ⟨v, hv, hr⟩ := except_bind_eq_ok.mp hr
    obtain ⟨r', hadd, hr⟩ := except_bind_eq_ok.mp hr
    obtain rfl := Except.ok.inj hr
    rw [execute]
    exact leads_bind (stateEvaluateLazy_checked hctx hv hst) fun w d₁ st₁ _ h₁ => stateAdd_checked hctx hadd h₁.2 h₁.1
  | .assign var value =>
    obtain ⟨v, hv, hr⟩ := except_bind_eq_ok.mp hr
    obtain ⟨r', hset, hr⟩ := except_bind_eq_ok.mp hr
    obtain rfl := Except.ok.inj hr
    rw [execute]
    exact leads_bind (stateEvaluateLazy_checked hctx hv hst) fun w d₁ st₁ _ h₁ => stateSet_checked hctx hset w h₁.1
  | .createGraphNode node =>
    rw [execute]
    refine leads_bind_liftM (fun attributes _ => ?_) fun _ => nodeAttrs_notScoping
    refine leads_bind (leads_get (P := fun a d' st' => a = st ∧ d' = d ∧ st' = st) ⟨rfl, rfl, rfl⟩) fun a d₁ st₁ _ h₁ => ?_
    obtain ⟨rfl, rfl, rfl⟩ := h₁
    have hset : Checked ctx.config env d₁ { st₁ with graph := st₁.graph.addGraphNode attributes } := ⟨hst.stores, hst.locals⟩
    refine leads_bind (P := fun _ d' st' => Checked ctx.config env d' st') (leads_of_ok rfl le_rfl hset) fun _ d₂ st₂ _ h₂ => ?_
    exact stateAdd_checked hctx hr (fun _ => .value _ _) h₂
  | .addGraphNodeAttribute node attributes =>
    obtain ⟨n, hn, hr⟩ := except_bind_eq_ok.mp hr
    obtain ⟨used, hused, hr⟩ := except_bind_eq_ok.mp hr
    obtain rfl := Except.ok.inj hr
    rw [execute]
    exact leads_bind (stateEvaluateLazy_checked hctx hn hst) fun w d₁ st₁ _ h₁ => pushAttributes_checked hctx fuel hused h₁.1 _
  | .createEdge source sink location =>
    obtain ⟨n, hn, hr⟩ := except_bind_eq_ok.mp hr
    obtain ⟨t, ht, hr⟩ := except_bind_eq_ok.mp hr
    obtain rfl := Except.ok.inj hr
    rw [execute]
    refine leads_bind (stateEvaluateLazy_checked hctx hn hst) fun w d₁ st₁ _ h₁ => ?_
    refine leads_bind (stateEvaluateLazy_checked hctx ht h₁.1) fun w' d₂ st₂ _ h₂ => ?_
    exact leads_bind_liftM (fun _ _ => push_checked _ h₂.1) fun _ => addOptional_notScoping
  | .addEdgeAttribute source sink attributes =>
    obtain ⟨n, hn, hr⟩ := except_bind_eq_ok.mp hr
    obtain ⟨t, ht, hr⟩ := except_bind_eq_ok.mp hr
    obtain ⟨used, hused, hr⟩ := except_bind_eq_ok.mp hr
    obtain rfl := Except.ok.inj hr
    rw [execute]
    refine leads_bind (stateEvaluateLazy_checked hctx hn hst) fun w d₁ st₁ _ h₁ => ?_
    refine leads_bind (stateEvaluateLazy_checked hctx ht h₁.1) fun w' d₂ st₂ _ h₂ => ?_
    exact pushAttributes_checked hctx fuel hused h₂.1 _
  | .scan value arms =>
    obtain ⟨v, hv, hr⟩ := except_bind_eq_ok.mp hr
    split at hr
    · exact absurd hr nofun
    next hlocal =>
      obtain ⟨r', harms, hr⟩ := except_bind_eq_ok.mp hr
      obtain rfl := Except.ok.inj hr
      rw [execute]
      refine leads_bind (stateEvaluateEager_checked hctx hv (Bool.of_not_eq_false hlocal) hst) fun w d₁ st₁ _ h₁ => ?_
      refine leads_bind_liftM (fun text _ => ?_) fun _ => intoString_notScoping
      have hscan := scanLoop_leads ctx.config (arms.map Prod.fst)
        (scanArms_checked fuel hctx arms henv (agree_same_refl env) harms) text.toList.length text.toList h₁
      exact leads_conseq hscan fun _ d₂ st₂ _ h₂ => h₂.same (checkArms_same henv harms).2
  | .print values =>
    obtain ⟨v, hv, hr⟩ := except_bind_eq_ok.mp hr
    obtain rfl := Except.ok.inj hr
    rw [execute]
    exact leads_bind (executePrint_checked hctx hv hst) fun args d₁ st₁ _ h₁ => push_checked _ h₁
  | .ifs arms =>
    rw [execute]
    exact executeIfs_checked fuel hctx arms henv hr hst
  | .forIn var value statements =>
    obtain ⟨v, hv, hr⟩ := except_bind_eq_ok.mp hr
    obtain ⟨env', hloop, hr⟩ := except_bind_eq_ok.mp hr
    obtain ⟨r', hbody, hr⟩ := except_bind_eq_ok.mp hr
    obtain rfl := Except.ok.inj hr
    obtain ⟨hlocal, -, hadd⟩ := checkLoop_eq_ok.mp hloop
    have hfollows := checkAdd_follows (steady_nested henv) hadd
    have hsame := (hfollows.trans (checkStatements_follows hfollows.steady hbody)).block.2
    rw [execute]
    refine leads_bind (stateEvaluateEager_checked hctx hv hlocal hst) fun w d₁ st₁ _ h₁ => ?_
    refine leads_bind_liftM (fun values _ => ?_) fun _ => intoList_notScoping
    refine leads_conseq (forEach_leads (I := fun d' st' => Checked ctx.config env d' st') (fun u _ d₂ st₂ h₂ => ?_) h₁)
      fun _ d₂ st₂ _ h₂ => h₂.same hsame
    have hiteration := inScope_checked h₂ r'.2 fun st₃ h₃ => leads_bind (addLocal_state hctx hadd (fun _ => .value _ u) h₃)
      fun _ d₄ st₄ _ h₄ => executeAll_checked fuel hctx statements hfollows.steady hbody h₄
    exact leads_conseq hiteration fun _ d₃ st₃ _ h₃ => h₃.same (hsame.symm.mono fun _ _ => Eq.symm)

theorem executeAll_checked (fuel : Nat) {cx : CheckContext} {ctx : Context} (hctx : Suits cx ctx) (stmts : List Statement)
    {env : Scopes VariableResult} {d : Defs} {st : State} {r : List Identifier × Scopes VariableResult} (henv : Steady env)
    (hr : checkStatements cx stmts env = .ok r) (hst : Checked ctx.config env d st) :
    Leads NotScoping d st (executeAll fuel ctx stmts) fun _ d' st' => Checked ctx.config r.2 d' st' := by
  match stmts with
  | [] =>
    obtain rfl := Except.ok.inj hr
    rw [executeAll]
    exact leads_pure hst
  | stmt :: stmts =>
    obtain ⟨r₁, hr₁, hr⟩ := except_bind_eq_ok.mp hr
    obtain ⟨r₂, hr₂, hr⟩ := except_bind_eq_ok.mp hr
    obtain rfl := Except.ok.inj hr
    rw [executeAll]
    exact leads_bind (execute_checked fuel hctx stmt henv hr₁ hst) fun _ d₁ st₁ _ h₁ =>
      executeAll_checked (r := r₂) fuel hctx stmts (checkStatement_follows henv hr₁).steady hr₂ h₁

/-- The arms of a scan, each of which may be run any number of times. -/
theorem scanArms_checked (fuel : Nat) {cx : CheckContext} {ctx : Context} (hctx : Suits cx ctx)
    (arms : List (Regex × List Statement)) {env env₀ : Scopes VariableResult}
    {r : List Identifier × Scopes VariableResult} (henv : Steady env₀) (hsame : env.Agree Same env₀)
    (hr : checkArms cx arms env₀ = .ok r) :
    ∀ arm ∈ scanArms fuel ctx arms, ∀ captures d st, Checked ctx.config env d st →
      Leads NotScoping d st (armStep (arm captures)) fun _ d' st' => Checked ctx.config env d' st' := by
  match arms with
  | [] => exact fun _ h => absurd h List.not_mem_nil
  | (regex, statements) :: arms =>
    rw [checkArms] at hr
    split at hr
    · exact absurd hr nofun
    · obtain ⟨r₁, hr₁, hr⟩ := except_bind_eq_ok.mp hr
      obtain ⟨r₂, hr₂, hr⟩ := except_bind_eq_ok.mp hr
      obtain ⟨hsteady, hblock⟩ := (checkStatements_follows (steady_nested henv) hr₁).block
      have hsame' : env.Agree Same r₁.2.tail := agree_same_trans hsame hblock
      intro arm harm captures d st hst
      rw [scanArms] at harm
      rcases List.mem_cons.mp harm with rfl | harm
      · have hblock := inScope_checked (hst.same hsame) r₁.2 fun st' h' =>
          executeAll_checked fuel (hctx.withRegexCaptures captures) statements (steady_nested henv) hr₁ h'
        refine armStep_leads (fun st' h => ?_) fun e h => ?_
        · obtain ⟨a, ha, rfl⟩ := except_map_eq_ok.mp h
          obtain ⟨d', hle, h'⟩ := hblock.1 a.1 a.2 ha
          exact ⟨d', hle, h'.same (hsame'.symm.mono fun _ _ => Eq.symm)⟩
        · refine hblock.2 e ?_
          cases hf : State.inScope (executeAll fuel { ctx with regexCaptures := captures } statements) st with
          | error e' =>
            simp only [hf] at h
            exact congrArg Except.error (Except.error.inj h)
          | ok a =>
            simp only [hf] at h
            exact absurd h nofun
      · exact scanArms_checked fuel hctx arms hsteady hsame' hr₂ arm harm captures d st hst

theorem executeIfs_checked (fuel : Nat) {cx : CheckContext} {ctx : Context} (hctx : Suits cx ctx)
    (arms : List (List Condition × List Statement)) {env : Scopes VariableResult} {d : Defs} {st : State}
    {r : List Identifier × Scopes VariableResult} (henv : Steady env) (hr : checkIfs cx arms env = .ok r)
    (hst : Checked ctx.config env d st) :
    Leads NotScoping d st (executeIfs fuel ctx arms) fun _ d' st' => Checked ctx.config r.2 d' st' := by
  match arms with
  | [] =>
    obtain rfl := Except.ok.inj hr
    rw [executeIfs]
    exact leads_pure hst
  | (conditions, statements) :: arms =>
    obtain ⟨used, hconditions, hr⟩ := except_bind_eq_ok.mp hr
    obtain ⟨r₁, hr₁, hr⟩ := except_bind_eq_ok.mp hr
    obtain ⟨r₂, hr₂, hr⟩ := except_bind_eq_ok.mp hr
    obtain rfl := Except.ok.inj hr
    obtain ⟨hsteady, hblock⟩ := (checkStatements_follows (steady_nested henv) hr₁).block
    rw [executeIfs]
    refine leads_bind (testAllEager_checked hctx hconditions hst) fun holds d₁ st₁ _ h₁ => ?_
    cases holds with
    | true =>
      have hrun := inScope_checked h₁ r₁.2 fun st' h' => executeAll_checked fuel hctx statements (steady_nested henv) hr₁ h'
      exact leads_conseq hrun fun _ d₂ st₂ _ h₂ => h₂.same (checkIfs_same hsteady hr₂).2
    | false => exact executeIfs_checked (r := r₂) fuel hctx arms hsteady hr₂ (h₁.same hblock)

end

/-! ## Files -/

theorem declareGlobals_eq_none {gs : List Global} {globals declared : Identifier → Option VariableResult}
    (h : declareGlobals gs globals = .ok declared) (name : Identifier) :
    declared name = none ↔ globals name = none ∧ ∀ g ∈ gs, g.name ≠ name := by
  induction gs generalizing globals with
  | nil =>
    obtain rfl := Except.ok.inj h
    simp
  | cons g gs ih =>
    rw [declareGlobals] at h
    cases hg : globals g.name with
    | some r =>
      rw [hg] at h
      exact absurd h nofun
    | none =>
      rw [hg] at h
      rw [ih h, List.forall_mem_cons]
      by_cases hn : g.name = name
      · subst hn
        simp
      · simp [Function.update_of_ne (Ne.symm hn), hn]

theorem checkGlobals_eq_none {gs : List Global} {globals given : Identifier → Option Value}
    (h : checkGlobals gs globals = .ok given) (name : Identifier) :
    given name = none ↔ globals name = none ∧ ∀ g ∈ gs, g.name ≠ name := by
  induction gs generalizing globals with
  | nil =>
    obtain rfl := Except.ok.inj h
    simp
  | cons g gs ih =>
    rw [checkGlobals] at h
    rw [List.forall_mem_cons]
    cases hg : globals g.name with
    | none =>
      simp only [hg] at h
      cases hd : g.default with
      | none =>
        rw [hd] at h
        exact absurd h nofun
      | some d =>
        rw [hd] at h
        rw [ih h]
        by_cases hn : g.name = name
        · subst hn
          simp
        · simp [Function.update_of_ne (Ne.symm hn), hn]
    | some v =>
      have hrest : checkGlobals gs globals = .ok given := by
        simp only [hg] at h
        split at h
        · split at h
          · exact absurd h nofun
          · exact h
        · exact h
      rw [ih hrest]
      by_cases hn : g.name = name
      · subst hn
        simp [hg]
      · simp [hn]

theorem checkStanzas_mem {declared : Identifier → Option VariableResult} {regexMatch : Regex → List Char → Option RegexMatch}
    {stanzas : List Stanza} (h : checkStanzas declared regexMatch stanzas = .ok ()) {stanza : Stanza} (hs : stanza ∈ stanzas) :
    ∃ r, checkStatements ⟨declared, stanza.captures, regexMatch⟩ stanza.statements Scopes.new = .ok r := by
  induction stanzas with
  | nil => exact absurd hs List.not_mem_nil
  | cons s stanzas ih =>
    obtain ⟨_, hfirst, hrest⟩ := except_bind_eq_ok.mp h
    rcases List.mem_cons.mp hs with rfl | hs
    · obtain ⟨r, hr, -⟩ := except_bind_eq_ok.mp hfirst
      exact ⟨r, hr⟩
    · exact ih hrest hs

/-- The matches of checked stanzas, each begun with no local variables. -/
theorem executeMatches_checked (fuel : Nat) (config : Config) {declared : Identifier → Option VariableResult}
    (hglobals : ∀ name, config.globals name = none ↔ declared name = none)
    (hshorthands : ShorthandsCheck ⟨declared, [], config.regexMatch⟩ config) {visits : List (Stanza × QueryMatch)}
    (hvisits : ∀ visit ∈ visits, ∃ r, checkStatements ⟨declared, visit.1.captures, config.regexMatch⟩ visit.1.statements
      Scopes.new = .ok r)
    {d : Defs} {st : State} (hst : st.stores.Open config d) :
    Leads NotScoping d st (executeMatches fuel config visits) fun _ d' st' => st'.stores.Open config d' := by
  induction visits generalizing d st with
  | nil => exact leads_pure hst
  | cons visit visits ih =>
    obtain ⟨r, hr⟩ := hvisits visit List.mem_cons_self
    have hctx : Suits ⟨declared, visit.1.captures, config.regexMatch⟩ ⟨config, visit.1, visit.2, []⟩ :=
      ⟨hglobals, rfl, hshorthands⟩
    rw [executeMatches]
    have hstart : Checked config Scopes.new d { st with locals := Scopes.new } := ⟨hst, Scopes.agree_new⟩
    refine leads_bind (P := fun _ d' st' => Checked config Scopes.new d' st') (leads_of_ok rfl le_rfl hstart)
      fun _ d₁ st₁ _ h₁ => ?_
    refine leads_bind (executeAll_checked fuel hctx visit.1.statements steady_new hr h₁) fun _ d₂ st₂ _ h₂ => ?_
    exact ih (fun v hv => hvisits v (List.mem_cons_of_mem _ hv)) h₂.stores

/-- Where only declared globals are given, those that are given in the end are the declared ones. -/
theorem given_eq_none {gs : List Global} {globals given : Identifier → Option Value}
    {declared : Identifier → Option VariableResult} (hdeclared : declareGlobals gs (fun _ => none) = .ok declared)
    (hgiven : ∀ name, globals name ≠ none → ∃ g ∈ gs, g.name = name) (hglobals : checkGlobals gs globals = .ok given)
    (name : Identifier) : given name = none ↔ declared name = none := by
  rw [checkGlobals_eq_none hglobals, declareGlobals_eq_none hdeclared]
  refine ⟨fun h => ⟨rfl, h.2⟩, fun h => ⟨?_, h.2⟩⟩
  by_contra hg
  obtain ⟨g, hmem, hname⟩ := hgiven name hg
  exact h.2 g hmem hname

/-- The lazy execution of a checked file, given only globals that it declares, never fails for a
    variable while it executes the matches, and leaves every name of scoped variables unforced. -/
theorem checked_rules_are_well_scoped (fuel : Nat) (file : File) (config : Config) {declared : Identifier → Option VariableResult}
    (hcheck : file.check config.regexMatch = .ok ()) (hdeclared : declareGlobals file.globals (fun _ => none) = .ok declared)
    (hgiven : ∀ name, config.globals name ≠ none → ∃ g ∈ file.globals, g.name = name)
    (hshorthands : ShorthandsCheck ⟨declared, [], config.regexMatch⟩ config) {visits : List (Stanza × QueryMatch)}
    (hvisits : ∀ visit ∈ visits, visit.1 ∈ file.stanzas) {given : Identifier → Option Value}
    (hglobals : checkGlobals file.globals config.globals = .ok given) (g₀ : Graph) :
    (∀ e, executeMatches fuel { config with globals := given } visits (State.init g₀) = .error e → isScoping e = false) ∧
      ∀ st, executeMatches fuel { config with globals := given } visits (State.init g₀) = .ok ((), st) →
        ∀ name v, st.stores.scopes.lookup name = some v → ∃ pairs, v = .unforced pairs := by
  obtain ⟨declared', hd, hstanzas⟩ := except_bind_eq_ok.mp hcheck
  obtain rfl := Except.ok.inj (hdeclared.symm.trans hd)
  have hstart : (State.init g₀).stores.Open { config with globals := given } ⟨[], []⟩ := open_new { config with globals := given }
  have hleads := executeMatches_checked fuel { config with globals := given }
    (given_eq_none hdeclared hgiven hglobals) hshorthands
    (fun visit hv => checkStanzas_mem hstanzas (hvisits visit hv)) hstart
  refine ⟨hleads.2, fun st hst name v hv => ?_⟩
  obtain ⟨d, -, hopen⟩ := hleads.1 () st hst
  have hun := hopen.unforced name
  cases v with
  | unforced pairs => exact ⟨pairs, rfl⟩
  | forcing => simp [Stores.memo, hv, ScopedValues.cell] at hun
  | forced map => simp [Stores.memo, hv, ScopedValues.cell] at hun

theorem sample_is_well_scoped :
    (∀ e, executeMatches 1 { plainConfig with globals := fun _ => none } sampleVisits (State.init Graph.empty) = .error e →
        isScoping e = false) ∧
      ∀ st, executeMatches 1 { plainConfig with globals := fun _ => none } sampleVisits (State.init Graph.empty) = .ok ((), st) →
        ∀ name v, st.stores.scopes.lookup name = some v → ∃ pairs, v = .unforced pairs :=
  checked_rules_are_well_scoped 1 ⟨[], [sampleStanza]⟩ plainConfig rfl rfl (fun _ h => absurd rfl h)
    (fun _ _ h => absurd h nofun) (fun _ h => List.mem_singleton.mp h ▸ List.mem_cons_self) rfl Graph.empty

end CodeQuery.Tsg.Lazy
