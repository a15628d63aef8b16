/-
  CodeQuery.Tsg.Agreement — values of the strict execution, and lazy values that mean them.

  The two executions are run side by side. What is known of the lazy stores is a world: the
  definitions, with every name settled (`World`). Worlds grow, and a meaning stays in every
  world above (`World.means_mono`). In a world the stores agree with the scoped variables that
  the strict execution has (`StoresAgree`), and the local variables of both agree with each
  other and with what the checker knows (`LocalsAgree`).

  Proved: where the strict execution has a value for an expression that the checker lets through,
  the lazy one has a lazy value that means it, and fails at nothing on the way
  (`evaluateLazy_agrees`). What the checker found local can be evaluated at once, to that very
  value (`evaluate_agrees`). A thunk and a scoped variable can be added
  (`add_agrees`, `addScoped_agrees`).
-/

import CodeQuery.Tsg.Settled
import CodeQuery.Tsg.Strict

namespace CodeQuery.Tsg.Lazy

open Data Checker

/-! ## Worlds -/

/-- Definitions in which every name is settled. -/
def World (config : Config) : Type := { d : Defs // Settled config d }

namespace World

instance (config : Config) : Preorder (World config) := Preorder.lift Subtype.val

def Means {config : Config} (w : World config) (v : LazyValue) (value : Value) : Prop := Lazy.Means config w.1 v value

def IsLocal {config : Config} (w : World config) (v : LazyValue) : Prop := w.1.IsLocal v

variable {config : Config} {w w' : World config}

/-- Where no variable is inherited, what is meant is meant in every world above. -/
theorem means_mono (hinherited : config.inheritedVariables = []) (hle : w ≤ w') {v : LazyValue} {value : Value}
    (h : w.Means v value) :
    w'.Means v value := Lazy.means_mono hinherited hle w.2 w'.2 h

theorem isLocal_mono (hle : w ≤ w') {v : LazyValue} (h : w.IsLocal v) : w'.IsLocal v := Defs.IsLocal.mono h hle

/-- Nothing is defined. -/
def empty (config : Config) : World config := ⟨⟨[], []⟩, fun _ _ h => by simp at h⟩

/-- A thunk is added. -/
def addThunk (w : World config) (v : LazyValue) : World config :=
  ⟨w.1.addThunk v, fun name pairs hl => by
    obtain ⟨ns, hns, hat⟩ := w.2 name pairs hl
    exact ⟨ns, hns, hat.mono (le_addThunk w.1 v)⟩⟩

theorem le_addThunk (w : World config) (v : LazyValue) : w ≤ w.addThunk v := Lazy.le_addThunk w.1 v

end World

/-- A scope of a name stands for a node at which the strict execution has the value of its thunk. -/
def ScopeAgrees {config : Config} (w : World config) (scopes : Strict.ScopedVariables) (name : Identifier) (p : LazyValue × Nat)
    (n : SyntaxNodeRef) : Prop :=
  Means config w.1.plain p.1 (.syntaxNode n) ∧ ∃ v isMutable, scopes n name = some (v, isMutable) ∧ w.Means (.var p.2) v

/-- The scoped variables of all names: at each node one in both executions, or in neither. -/
def NamesAgree {config : Config} (w : World config) (scopes : Strict.ScopedVariables) : Prop :=
  ∀ name, ∃ ns, ns.Nodup ∧ List.Forall₂ (ScopeAgrees w scopes name) ((w.1.scopes.lookup name).getD []) ns ∧
    ∀ n, scopes n name ≠ none → n ∈ ns

/-- The stores, with the scoped variables that the strict execution has. -/
structure StoresAgree {config : Config} (w : World config) (scopes : Strict.ScopedVariables) (s : Stores) : Prop where
  stores : s.Open config w.1
  names : NamesAgree w scopes
  thunks : ∀ i < w.1.thunks.length, ∃ v, w.Means (.var i) v

section Stores

variable {config : Config} {w w' : World config} {scopes : Strict.ScopedVariables} {s : Stores}

/-- No step fails. -/
abbrev Never (_ : ExecutionError) : Prop := False

theorem ScopeAgrees.mono (hinherited : config.inheritedVariables = []) (hle : w ≤ w') {name : Identifier} {p : LazyValue × Nat}
    {n : SyntaxNodeRef} (h : ScopeAgrees w scopes name p n) : ScopeAgrees w' scopes name p n := by
  obtain ⟨hp, v, isMutable, hv, hmeans⟩ := h
  exact ⟨means_plain_mono hle hp, v, isMutable, hv, World.means_mono hinherited hle hmeans⟩

theorem storesAgree_new (config : Config) : StoresAgree (World.empty config) (fun _ _ => none) Stores.new :=
  ⟨open_new config, fun _ => ⟨[], .nil, .nil, fun _ h => absurd rfl h⟩, fun _ h => absurd h (Nat.not_lt_zero _)⟩

theorem means_addThunk (hinherited : config.inheritedVariables = []) {v : LazyValue} {value : Value} (h : w.Means v value) :
    (w.addThunk v).Means (.var w.1.thunks.length) value := by
  refine means_var.mpr ⟨v, ?_, World.means_mono hinherited (w.le_addThunk v) h⟩
  have hlast : (w.1.thunks ++ [v])[w.1.thunks.length]? = some v := by
    rw [List.getElem?_append_right (Nat.le_refl _), Nat.sub_self]; rfl
  exact hlast

/-- A value that is put into the store means what it meant. -/
theorem add_agrees (hinherited : config.inheritedVariables = []) (hs : StoresAgree w scopes s) {v : LazyValue}
    {value : Value} (hv : w.Means v value) :
    Leads Never w s (Stores.add v) fun i w' s' => StoresAgree w' scopes s' ∧ w'.Means (.var i) value ∧
      (w.IsLocal v → w'.IsLocal (.var i)) := by
  obtain ⟨i, s', d', hok, -, rfl, rfl, hopen⟩ := leads_total (add_open (E := Never) hs.stores v)
  have hvar := means_addThunk hinherited hv
  refine leads_of_ok hok (w.le_addThunk v) ⟨⟨hopen, fun name => ?_, fun i hi => ?_⟩, hvar, isLocal_var⟩
  · obtain ⟨ns, hns, hall, hmem⟩ := hs.names name
    exact ⟨ns, hns, hall.imp fun _ _ h => h.mono hinherited (w.le_addThunk v), hmem⟩
  · have hlength : (w.addThunk v).1.thunks.length = w.1.thunks.length + 1 := List.length_append
    rcases Nat.lt_succ_iff_lt_or_eq.mp (hlength ▸ hi) with hlt | rfl
    · obtain ⟨u, hu⟩ := hs.thunks i hlt
      exact ⟨u, World.means_mono hinherited (w.le_addThunk v) hu⟩
    · exact ⟨value, hvar⟩

/-- A local value is evaluated to what it means. -/
theorem evaluate_agrees (hs : StoresAgree w scopes s) {v : LazyValue} {value : Value} (hl : w.IsLocal v) (hv : w.Means v value) :
    Leads Never w s (v.evaluate config) fun u w' s' => StoresAgree w' scopes s' ∧ u = value := by
  obtain ⟨s', hok⟩ := (evaluate_iff hs.stores.rest v value).mpr hv
  obtain ⟨d', -, rfl, hopen, -⟩ := (evaluate_open hs.stores hl).1 value s' hok
  exact leads_of_ok hok le_rfl ⟨⟨hopen, hs.names, hs.thunks⟩, rfl⟩

/-- A scoped variable means the value that the strict execution has there. -/
theorem means_scoped (hinherited : config.inheritedVariables = []) (hs : StoresAgree w scopes s) {scope : LazyValue}
    {n : SyntaxNodeRef} {name : Identifier} {value : Value} (hscope : w.Means scope (.syntaxNode n))
    (h : Strict.scopedGet config scopes n name = some value) :
    w.Means (.scopedVariable scope name) value := by
  have hthere : ∃ isMutable, scopes n name = some (value, isMutable) := by
    rw [Strict.scopedGet, hinherited, if_neg List.not_mem_nil] at h
    split at h
    next v hv => exact ⟨v.2, by rw [hv, ← Option.some.inj h]⟩
    · exact absurd h nofun
  obtain ⟨isMutable, hthere⟩ := hthere
  obtain ⟨ns, hns, hall, hmem⟩ := hs.names name
  obtain ⟨p, hp, -, v, _, hv, hmeans⟩ := exists_zip_of_mem_right hall (hmem n (by rw [hthere]; exact nofun))
  rw [hthere, Option.some.injEq, Prod.mk.injEq] at hv
  cases hl : w.1.scopes.lookup name with
  | none =>
    rw [hl] at hp
    exact absurd hp List.not_mem_nil
  | some pairs =>
    rw [hl] at hall hp
    obtain ⟨map, hmap, hzip, -⟩ := scopesMean_of_scopesAt hl hns (hall.imp fun _ _ h => h.1)
    exact means_scopedVariable.mpr ⟨n, map, p.2, hscope, hmap, (resolve_eq hinherited).trans (hzip p n hp), hv.1 ▸ hmeans⟩

theorem update_ne {m n : SyntaxNodeRef} {other name : Identifier} (h : ¬ (m = n ∧ other = name)) (x : Option (Value × Bool)) :
    Function.update scopes n (Function.update (scopes n) name x) m other = scopes m other := by
  by_cases hm : m = n
  · subst hm
    rw [Function.update_self, Function.update_of_ne fun ho => h ⟨rfl, ho⟩]
  · rw [Function.update_of_ne hm]

/-- A scope that agrees has a value, so it agrees also when a variable is added where none was. -/
theorem ScopeAgrees.update {n m : SyntaxNodeRef} {name other : Identifier} {p : LazyValue × Nat}
    (h : ScopeAgrees w scopes other p m) (hnone : scopes n name = none) (x : Option (Value × Bool)) :
    ScopeAgrees w (Function.update scopes n (Function.update (scopes n) name x)) other p m := by
  obtain ⟨hp, v, isMutable, hv, hmeans⟩ := h
  refine ⟨hp, v, isMutable, (update_ne ?_ x).trans hv, hmeans⟩
  rintro ⟨rfl, rfl⟩
  rw [hnone] at hv
  exact absurd hv nofun

/-- A scoped variable is added at a node that has none of its name, under a scope that is local. -/
theorem addScoped_agrees (hinherited : config.inheritedVariables = []) (hs : StoresAgree w scopes s) {scope : LazyValue}
    {n : SyntaxNodeRef} {name : Identifier} (hl : w.IsLocal scope) (hscope : w.Means scope (.syntaxNode n)) {i : Nat}
    {value : Value} (hi : w.Means (.var i) value) (hnone : scopes n name = none) (isMutable : Bool) :
    Leads Never w s (Stores.addScoped scope name i) fun _ w' s' =>
      StoresAgree w' (Function.update scopes n (Function.update (scopes n) name (some (value, isMutable)))) s' := by
  obtain ⟨_, s', d', hok, hle, rfl, hopen⟩ := leads_total (addScoped_open (E := Never) hs.stores scope name i)
  have hplain : Means config (w.1.addScoped scope name i).plain scope (.syntaxNode n) := means_plain_mono hle (hscope.plain hl)
  obtain ⟨ns, hns, hall, hmem⟩ := hs.names name
  have hnew : n ∉ ns := by
    intro hn
    obtain ⟨p, -, -, v, _, hv, -⟩ := exists_zip_of_mem_right hall hn
    rw [hnone] at hv
    exact absurd hv nofun
  have hnodup : (ns ++ [n]).Nodup := List.nodup_append'.mpr ⟨hns, List.nodup_singleton n, List.disjoint_singleton.mpr hnew⟩
  have hsettled : Settled config (w.1.addScoped scope name i) := by
    intro other pairs ho
    rw [lookup_addScoped] at ho
    by_cases he : other = name
    · rw [if_pos he, Option.some.injEq] at ho
      subst ho
      exact ⟨ns ++ [n], hnodup, List.rel_append (hall.imp fun _ _ h => means_plain_mono hle h.1) (.cons hplain .nil)⟩
    · rw [if_neg he] at ho
      obtain ⟨ns', hns', hat⟩ := w.2 other pairs ho
      exact ⟨ns', hns', hat.mono hle⟩
  have hle' : w ≤ (⟨w.1.addScoped scope name i, hsettled⟩ : World config) := hle
  have hkeep : ∀ other p m, ScopeAgrees w scopes other p m → ScopeAgrees (⟨w.1.addScoped scope name i, hsettled⟩ : World config)
      (Function.update scopes n (Function.update (scopes n) name (some (value, isMutable)))) other p m :=
    fun other p m h => (h.mono hinherited hle').update hnone _
  refine leads_of_ok hok hle' ⟨hopen, fun other => ?_, fun j hj => ?_⟩
  · by_cases he : other = name
    · subst he
      refine ⟨ns ++ [n], hnodup, ?_, fun m hm => ?_⟩
      · rw [lookup_addScoped, if_pos rfl, Option.getD_some]
        refine List.rel_append (hall.imp (hkeep other))
          (.cons ⟨hplain, value, isMutable, ?_, World.means_mono hinherited hle' hi⟩ .nil)
        rw [Function.update_self, Function.update_self]
      · by_cases hmn : m = n
        · exact List.mem_append_right _ (hmn ▸ List.mem_singleton_self _)
        · rw [Function.update_of_ne hmn] at hm
          exact List.mem_append_left _ (hmem m hm)
    · obtain ⟨ns', hns', hall', hmem'⟩ := hs.names other
      refine ⟨ns', hns', ?_, fun m hm => hmem' m ?_⟩
      · rw [lookup_addScoped, if_neg he]
        exact hall'.imp (hkeep other)
      · rwa [update_ne fun h => he h.2] at hm
  · obtain ⟨u, hu⟩ := hs.thunks j hj
    exact ⟨u, World.means_mono hinherited hle' hu⟩

end Stores

/-! ## Local variables -/

/-- The local variables of both executions, and what the checker knows of them. -/
structure LocalsAgree {config : Config} (env : Scopes VariableResult) (w : World config) (values : Scopes Value)
    (locals : Scopes LazyValue) : Prop where
  checked : env.Agree (Holds w.1) locals
  values : values.Agree (fun value v => w.Means v value) locals

namespace LocalsAgree

variable {config : Config} {w w' : World config} {env env' : Scopes VariableResult} {values values' : Scopes Value}
  {locals : Scopes LazyValue} {name : Identifier}

theorem mono (hinherited : config.inheritedVariables = []) (hle : w ≤ w') (h : LocalsAgree env w values locals) :
    LocalsAgree env w' values locals :=
  ⟨agree_le h.checked hle, h.values.mono fun _ _ hv => World.means_mono hinherited hle hv⟩

theorem new (w : World config) : LocalsAgree Scopes.new w Scopes.new Scopes.new := ⟨Scopes.agree_new, Scopes.agree_new⟩

theorem nested (h : LocalsAgree env w values locals) : LocalsAgree env.nested w values.nested locals.nested :=
  ⟨Scopes.agree_nested h.checked, Scopes.agree_nested h.values⟩

theorem tail (h : LocalsAgree env w values locals) : LocalsAgree env.tail w values.tail locals.tail :=
  ⟨h.checked.tail, h.values.tail⟩

theorem same (h : LocalsAgree env w values locals) (hsame : env.Agree Same env') : LocalsAgree env' w values locals :=
  ⟨hsame.symm.comp h.checked fun _ _ _ hab hbc hl => hbc (hab.trans hl), h.values⟩

variable {cx : CheckContext} {ctx : Context} {w : World ctx.config}

/-- A variable that is declared in the one execution can be in the other. -/
theorem add (hctx : Suits cx ctx) (h : LocalsAgree env w values locals) {r : VariableResult} {isMutable : Bool}
    (hadd : checkAdd cx env name r isMutable = .ok env') {value : Value}
    (hvalue : ctx.config.addLocal values name value isMutable = .ok values') {v : LazyValue} (hv : w.Means v value)
    (hl : r.isLocal = true → w.IsLocal v) :
    ∃ locals', ctx.config.addLocal locals name v isMutable = .ok locals' ∧ LocalsAgree env' w values' locals' := by
  obtain ⟨locals', hok, hchecked⟩ := addLocal_checked hctx h.checked hadd hl
  obtain ⟨locals'', hok', hvalues⟩ := Config.addLocal_agree h.values (b := v) hv hvalue
  obtain rfl := Except.ok.inj (hok.symm.trans hok')
  exact ⟨locals', hok, hchecked, hvalues⟩

theorem set (hctx : Suits cx ctx) (h : LocalsAgree env w values locals) {r : VariableResult}
    (hset : checkSet cx env name r = .ok env') {value : Value}
    (hvalue : ctx.config.setLocal values name value = .ok values') {v : LazyValue} (hv : w.Means v value) :
    ∃ locals', ctx.config.setLocal locals name v = .ok locals' ∧ LocalsAgree env' w values' locals' := by
  obtain ⟨locals', hok, hchecked⟩ := setLocal_checked hctx h.checked hset v
  obtain ⟨locals'', hok', hvalues⟩ := Config.setLocal_agree h.values (b := v) hv hvalue
  obtain rfl := Except.ok.inj (hok.symm.trans hok')
  exact ⟨locals', hok, hchecked, hvalues⟩

end LocalsAgree

/-! ## Expressions -/

section Expressions

variable {cx : CheckContext} {ctx : Context} {scopes : Strict.ScopedVariables}

theorem scopeOf_eq_ok {v : Value} {n : SyntaxNodeRef} (h : Strict.scopeOf v = .ok n) : v = .syntaxNode n := by
  cases v <;> simp [Strict.scopeOf] at h
  rw [h]

/-- The elements of a comprehension, one after another in both executions. -/
theorem elements_agree (hctx : Suits cx ctx) (hinherited : ctx.config.inheritedVariables = []) {env env' : Scopes VariableResult}
    {values : Scopes Value} {locals : Scopes LazyValue} {w : World ctx.config} {s : Stores} {var : Identifier}
      {element : Expression}
    {r : VariableResult} {isLocal : Bool} (hadd : checkAdd cx env.nested var r false = .ok env')
    (helement : ∀ values' locals' (w' : World ctx.config) s' value, LocalsAgree env' w' values' locals' →
      StoresAgree w' scopes s' →
      Strict.evaluate ctx scopes values' element = .ok value →
      Leads Never w' s' (evaluateLazy ctx locals' element) fun v w'' s'' =>
        StoresAgree w'' scopes s'' ∧ w''.Means v value ∧ (isLocal = true → w''.IsLocal v))
    (hlocals : LocalsAgree env w values locals) (hs : StoresAgree w scopes s) {items results : List Value}
    (hitems : (items.mapM fun item => do
      let values' ← ctx.config.addLocal values.nested var item false
      Strict.evaluate ctx scopes values' element) = .ok results) :
    Leads Never w s (items.mapM fun item => do
        let i ← Stores.add (.value item)
        let locals' ← liftM (ctx.config.addLocal locals.nested var (.var i) false)
        evaluateLazy ctx locals' element) fun vs w' s' =>
      StoresAgree w' scopes s' ∧ MeansAll ctx.config w'.1 vs results ∧ (isLocal = true → ∀ v ∈ vs, w'.IsLocal v) := by
  induction items generalizing results w s with
  | nil =>
    obtain rfl := Except.ok.inj hitems
    exact leads_pure ⟨hs, meansAll_nil.mpr rfl, fun _ _ h => absurd h List.not_mem_nil⟩
  | cons item items ih =>
    obtain ⟨value, rest, hvalue, hrest, rfl⟩ := mapM_cons_eq_ok.mp hitems
    obtain ⟨values', hvalues', hvalue⟩ := except_bind_eq_ok.mp hvalue
    rw [List.mapM_cons]
    refine leads_bind (P := fun v w' s' => StoresAgree w' scopes s' ∧ w'.Means v value ∧ (isLocal = true → w'.IsLocal v)) ?_ ?_
    · refine leads_bind (add_agrees hinherited hs (means_value.mpr rfl)) fun i w₁ s₁ hle₁ h₁ => ?_
      obtain ⟨hs₁, hmeans, hl⟩ := h₁
      obtain ⟨locals', hok, hlocals'⟩ :=
        (hlocals.mono hinherited hle₁).nested.add hctx hadd hvalues' hmeans fun _ => hl (.value _ item)
      rw [hok]
      exact leads_bind_liftM (fun l hl => Except.ok.inj hl ▸ helement values' locals' w₁ s₁ value hlocals' hs₁ hvalue)
        fun _ he => absurd he nofun
    · intro v w₁ s₁ hle₁ h₁
      refine leads_bind (ih (hlocals.mono hinherited hle₁) h₁.1 hrest) fun vs w₂ s₂ hle₂ h₂ => ?_
      refine leads_pure ⟨h₂.1, meansAll_cons.mpr ⟨value, rest, World.means_mono hinherited hle₂ h₁.2.1, h₂.2.1, rfl⟩,
        fun hl u hu => ?_⟩
      rcases List.mem_cons.mp hu with rfl | hu
      · exact World.isLocal_mono hle₂ (h₁.2.2 hl)
      · exact h₂.2.2 hl u hu

mutual

/-- Where the strict execution has a value, the lazy one has a lazy value that means it. -/
theorem evaluateLazy_agrees (hctx : Suits cx ctx) (hinherited : ctx.config.inheritedVariables = []) (e : Expression)
    {env : Scopes VariableResult} {values : Scopes Value} {locals : Scopes LazyValue} {w : World ctx.config}
    {s : Stores} {r : ExpressionResult} {value : Value} (hr : checkExpression cx env e = .ok r)
    (hvalue : Strict.evaluate ctx scopes values e = .ok value) (hlocals : LocalsAgree env w values locals)
    (hs : StoresAgree w scopes s) :
    Leads Never w s (evaluateLazy ctx locals e) fun v w' s' =>
      StoresAgree w' scopes s' ∧ w'.Means v value ∧ (r.isLocal = true → w'.IsLocal v) := by
  match e with
  | .falseLiteral => exact leads_pure ⟨hs, means_value.mpr (Except.ok.inj hvalue), fun _ => .value _ _⟩
  | .nullLiteral => exact leads_pure ⟨hs, means_value.mpr (Except.ok.inj hvalue), fun _ => .value _ _⟩
  | .trueLiteral => exact leads_pure ⟨hs, means_value.mpr (Except.ok.inj hvalue), fun _ => .value _ _⟩
  | .integerConstant n => exact leads_pure ⟨hs, means_value.mpr (Except.ok.inj hvalue), fun _ => .value _ _⟩
  | .stringConstant text => exact leads_pure ⟨hs, means_value.mpr (Except.ok.inj hvalue), fun _ => .value _ _⟩
  | .listLiteral elements =>
    obtain ⟨rs, hrs, hr⟩ := except_bind_eq_ok.mp hr
    obtain rfl := Except.ok.inj hr
    obtain ⟨vs, hvs, hvalue⟩ := except_bind_eq_ok.mp hvalue
    obtain rfl := Except.ok.inj hvalue
    rw [evaluateLazy]
    exact leads_bind (evaluateAllLazy_agrees hctx hinherited elements hrs hvs hlocals hs) fun lvs w' s' _ h =>
      leads_pure ⟨h.1, means_list.mpr ⟨vs, h.2.1, rfl⟩, fun hl => .list (h.2.2 hl)⟩
  | .setLiteral elements =>
    obtain ⟨rs, hrs, hr⟩ := except_bind_eq_ok.mp hr
    obtain rfl := Except.ok.inj hr
    obtain ⟨vs, hvs, hvalue⟩ := except_bind_eq_ok.mp hvalue
    obtain rfl := Except.ok.inj hvalue
    rw [evaluateLazy]
    exact leads_bind (evaluateAllLazy_agrees hctx hinherited elements hrs hvs hlocals hs) fun lvs w' s' _ h =>
      leads_pure ⟨h.1, means_set.mpr ⟨vs, h.2.1, rfl⟩, fun hl => .set (h.2.2 hl)⟩
  | .listComprehension element var list =>
    obtain ⟨lr, hlr, hr⟩ := except_bind_eq_ok.mp hr
    obtain ⟨env', hloop, hr⟩ := except_bind_eq_ok.mp hr
    obtain ⟨er, her, hr⟩ := except_bind_eq_ok.mp hr
    obtain rfl := Except.ok.inj hr
    obtain ⟨hlocal, -, hadd⟩ := checkLoop_eq_ok.mp hloop
    obtain ⟨lv, hlv, hvalue⟩ := except_bind_eq_ok.mp hvalue
    obtain ⟨items, hitems, hvalue⟩ := except_bind_eq_ok.mp hvalue
    obtain ⟨results, hresults, hvalue⟩ := except_bind_eq_ok.mp hvalue
    obtain rfl := Except.ok.inj hvalue
    rw [evaluateLazy]
    refine leads_bind (evaluateLazy_agrees hctx hinherited list hlr hlv hlocals hs) fun v w₁ s₁ hle₁ h₁ => ?_
    refine leads_bind (evaluate_agrees h₁.1 (h₁.2.2 hlocal) h₁.2.1) fun u w₂ s₂ hle₂ h₂ => ?_
    obtain ⟨hs₂, rfl⟩ := h₂
    rw [hitems]
    refine leads_bind_liftM (fun items' hi => ?_) fun _ he => absurd he nofun
    obtain rfl := Except.ok.inj hi
    refine leads_bind (elements_agree hctx hinherited hadd
      (fun _ _ _ _ _ hl' hs' hv' => evaluateLazy_agrees hctx hinherited element her hv' hl' hs')
      (hlocals.mono hinherited (hle₁.trans hle₂)) hs₂ hresults) fun vs w₃ s₃ _ h₃ => ?_
    exact leads_pure ⟨h₃.1, means_list.mpr ⟨results, h₃.2.1, rfl⟩, fun hl => .list (h₃.2.2 hl)⟩
  | .setComprehension element var list =>
    obtain ⟨lr, hlr, hr⟩ := except_bind_eq_ok.mp hr
    obtain ⟨env', hloop, hr⟩ := except_bind_eq_ok.mp hr
    obtain ⟨er, her, hr⟩ := except_bind_eq_ok.mp hr
    obtain rfl := Except.ok.inj hr
    obtain ⟨hlocal, -, hadd⟩ := checkLoop_eq_ok.mp hloop
    obtain ⟨lv, hlv, hvalue⟩ := except_bind_eq_ok.mp hvalue
    obtain ⟨items, hitems, hvalue⟩ := except_bind_eq_ok.mp hvalue
    obtain ⟨results, hresults, hvalue⟩ := except_bind_eq_ok.mp hvalue
    obtain rfl := Except.ok.inj hvalue
    rw [evaluateLazy]
    refine leads_bind (evaluateLazy_agrees hctx hinherited list hlr hlv hlocals hs) fun v w₁ s₁ hle₁ h₁ => ?_
    refine leads_bind (evaluate_agrees h₁.1 (h₁.2.2 hlocal) h₁.2.1) fun u w₂ s₂ hle₂ h₂ => ?_
    obtain ⟨hs₂, rfl⟩ := h₂
    rw [hitems]
    refine leads_bind_liftM (fun items' hi => ?_) fun _ he => absurd he nofun
    obtain rfl := Except.ok.inj hi
    refine leads_bind (elements_agree hctx hinherited hadd
      (fun _ _ _ _ _ hl' hs' hv' => evaluateLazy_agrees hctx hinherited element her hv' hl' hs')
      (hlocals.mono hinherited (hle₁.trans hle₂)) hs₂ hresults) fun vs w₃ s₃ _ h₃ => ?_
    exact leads_pure ⟨h₃.1, means_set.mpr ⟨results, h₃.2.1, rfl⟩, fun hl => .set (h₃.2.2 hl)⟩
  | .capture name =>
    have hcapture : ctx.capture name = .ok value := hvalue
    rw [evaluateLazy, hcapture]
    exact leads_bind_liftM (fun v hv => leads_pure ⟨hs, means_value.mpr (Except.ok.inj hv).symm, fun _ => .value _ _⟩)
      fun _ he => absurd he nofun
  | .scopedVariable scope name =>
    obtain ⟨sr, hsr, hr⟩ := except_bind_eq_ok.mp hr
    obtain rfl := Except.ok.inj hr
    obtain ⟨sv, hsv, hscope⟩ := except_bind_eq_ok.mp hvalue
    obtain ⟨n, hn, hfound⟩ := except_bind_eq_ok.mp hscope
    obtain rfl := scopeOf_eq_ok hn
    have hget : Strict.scopedGet ctx.config scopes n name = some value := by
      split at hfound
      next v hg => rw [hg, Except.ok.inj hfound]
      · exact absurd hfound nofun
    rw [evaluateLazy]
    exact leads_bind (evaluateLazy_agrees hctx hinherited scope hsr hsv hlocals hs) fun v w' s' _ h =>
      leads_pure ⟨h.1, means_scoped hinherited h.1 h.2.1 hget, fun hl => absurd hl Bool.false_ne_true⟩
  | .unscopedVariable name =>
    rw [checkExpression, checkGet] at hr
    rw [Strict.evaluate] at hvalue
    rw [evaluateLazy]
    cases hg : ctx.config.globals name with
    | some v =>
      simp only [hg] at hvalue
      exact leads_pure ⟨hs, means_value.mpr (Except.ok.inj hvalue), fun _ => .value _ _⟩
    | none =>
      simp only [hg] at hvalue
      rw [(hctx.globals name).mp hg, Option.none_or] at hr
      rcases hlocals.values.get name with ⟨hnone, -⟩ | ⟨v, lv, hv, hlv, hmeans⟩
      · simp [hnone] at hvalue
      · simp only [hv, Except.ok.injEq] at hvalue
        subst hvalue
        rcases hlocals.checked.get name with ⟨-, hnone⟩ | ⟨a, b, ha, hb, hab⟩
        · rw [hlv] at hnone
          exact absurd hnone nofun
        · obtain rfl := Option.some.inj (hlv.symm.trans hb)
          rw [ha] at hr
          obtain rfl := Except.ok.inj hr
          simp only [hlv]
          exact leads_pure ⟨hs, hmeans, hab⟩
  | .call function parameters =>
    obtain ⟨rs, hrs, hr⟩ := except_bind_eq_ok.mp hr
    obtain rfl := Except.ok.inj hr
    obtain ⟨vs, hvs, hvalue⟩ := except_bind_eq_ok.mp hvalue
    have hcall : ctx.config.call function vs = some value := by
      unfold Config.callFunction at hvalue
      split at hvalue
      next v hv => rw [hv, Except.ok.inj hvalue]
      · exact absurd hvalue nofun
    rw [evaluateLazy]
    exact leads_bind (evaluateAllLazy_agrees hctx hinherited parameters hrs hvs hlocals hs) fun lvs w' s' _ h =>
      leads_pure ⟨h.1, means_call.mpr ⟨vs, h.2.1, hcall⟩, fun hl => .call function (h.2.2 hl)⟩
  | .regexCapture matchIndex =>
    rw [Strict.evaluate] at hvalue
    rw [evaluateLazy]
    cases hc : ctx.regexCaptures[matchIndex]? with
    | none => simp [hc] at hvalue
    | some text =>
      simp only [hc] at hvalue
      exact leads_pure ⟨hs, means_value.mpr (Except.ok.inj hvalue), fun _ => .value _ _⟩

theorem evaluateAllLazy_agrees (hctx : Suits cx ctx) (hinherited : ctx.config.inheritedVariables = []) (es : List Expression)
    {env : Scopes VariableResult} {values : Scopes Value} {locals : Scopes LazyValue} {w : World ctx.config} {s : Stores}
    {r : Bool × List Identifier} {results : List Value} (hr : checkExpressions cx env es = .ok r)
    (hresults : Strict.evaluateAll ctx scopes values es = .ok results) (hlocals : LocalsAgree env w values locals)
    (hs : StoresAgree w scopes s) :
    Leads Never w s (evaluateAllLazy ctx locals es) fun vs w' s' =>
      StoresAgree w' scopes s' ∧ MeansAll ctx.config w'.1 vs results ∧ (r.1 = true → ∀ v ∈ vs, w'.IsLocal v) := by
  match es with
  | [] =>
    obtain rfl := Except.ok.inj hresults
    exact leads_pure ⟨hs, meansAll_nil.mpr rfl, fun _ _ hv => absurd hv List.not_mem_nil⟩
  | e :: es =>
    obtain ⟨r₁, hr₁, hr⟩ := except_bind_eq_ok.mp hr
    obtain ⟨rs, hrs, hr⟩ := except_bind_eq_ok.mp hr
    obtain rfl := Except.ok.inj hr
    obtain ⟨value, hvalue, hresults⟩ := except_bind_eq_ok.mp hresults
    obtain ⟨rest, hrest, hresults⟩ := except_bind_eq_ok.mp hresults
    obtain rfl := Except.ok.inj hresults
    rw [evaluateAllLazy]
    refine leads_bind (evaluateLazy_agrees hctx hinherited e hr₁ hvalue hlocals hs) fun v w₁ s₁ hle₁ h₁ => ?_
    refine leads_bind (evaluateAllLazy_agrees hctx hinherited es hrs hrest (hlocals.mono hinherited hle₁) h₁.1)
      fun vs w₂ s₂ hle₂ h₂ => ?_
    refine leads_pure ⟨h₂.1, meansAll_cons.mpr ⟨value, rest, World.means_mono hinherited hle₂ h₁.2.1, h₂.2.1, rfl⟩,
      fun hl u hu => ?_⟩
    rw [Bool.and_eq_true] at hl
    rcases List.mem_cons.mp hu with rfl | hu
    · exact World.isLocal_mono hle₂ (h₁.2.2 hl.1)
    · exact h₂.2.2 hl.2 u hu

end

end Expressions

end CodeQuery.Tsg.Lazy
