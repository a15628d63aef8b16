/-
  CodeQuery.Tsg.Settled — meanings while definitions are added.

  A name is settled when its scopes are local and mean nodes, no two the same (`Settled`). Then
  the name has its scopes whatever other names have, so a scoped variable can be added for a
  node that is not taken, and what was meant before is still meant.

  Proved: a settled name means the map from its nodes to its thunks (`Settled.scopesMean`), and
  where no variable is inherited a meaning stays when settled definitions grow to settled
  ones (`means_mono`). An inherited variable would not: a nearer ancestor may be given the
  name later.
-/

import CodeQuery.Tsg.Locality

namespace CodeQuery.Tsg.Lazy

open Data

variable {config : Config} {d d' : Defs}

/-- Without the scoped variables. -/
def Defs.plain (d : Defs) : Defs := ⟨d.thunks, []⟩

theorem Means.of_plain {v : LazyValue} {w : Value} (h : Means config d.plain v w) : Means config d v w := by
  refine Demand.Yields.of_le (fun k => ?_) h
  cases k with
  | thunk i => exact .inl rfl
  | scopes name => exact .inr ⟨_, rfl⟩

theorem means_plain_mono (hle : d ≤ d') {v : LazyValue} {w : Value} (h : Means config d.plain v w) :
    Means config d'.plain v w := by
  refine Demand.Yields.of_le (fun k => ?_) h
  cases k with
  | thunk i =>
    cases hi : d.thunks[i]? with
    | none => exact .inr ⟨.panicked, by rw [Defs.rhs, Defs.plain, hi]⟩
    | some v => exact .inl (by rw [Defs.rhs, Defs.rhs, Defs.plain, Defs.plain, hi, getElem?_of_extends hle.1 hi])
  | scopes name => exact .inl rfl

theorem meansAll_of_forall {vs : List LazyValue} {ws : List Value} (h : MeansAll config d vs ws)
    (hstep : ∀ v ∈ vs, ∀ w, Means config d v w → Means config d' v w) : MeansAll config d' vs ws := by
  induction vs generalizing ws with
  | nil => exact meansAll_nil.mpr (meansAll_nil.mp h)
  | cons v vs ih =>
    obtain ⟨w, ws', hw, hws, rfl⟩ := meansAll_cons.mp h
    exact meansAll_cons.mpr ⟨w, ws', hstep v List.mem_cons_self w hw, ih hws fun u hu => hstep u (List.mem_cons_of_mem _ hu), rfl⟩

/-- A local value means the same without the scoped variables. -/
theorem Means.plain {n : Nat} {v : LazyValue} {w : Value} (hv : Lazy.IsLocal d.thunks n v) (h : Means config d v w) :
    Means config d.plain v w := by
  induction hv generalizing w with
  | value n v => exact means_value.mpr (means_value.mp h)
  | list _ ih =>
    obtain ⟨ws, hws, rfl⟩ := means_list.mp h
    exact means_list.mpr ⟨ws, meansAll_of_forall hws fun v hv w hw => ih v hv hw, rfl⟩
  | set _ ih =>
    obtain ⟨ws, hws, rfl⟩ := means_set.mp h
    exact means_set.mpr ⟨ws, meansAll_of_forall hws fun v hv w hw => ih v hv hw, rfl⟩
  | call function _ ih =>
    obtain ⟨ws, hws, hcall⟩ := means_call.mp h
    exact means_call.mpr ⟨ws, meansAll_of_forall hws fun v hv w hw => ih v hv hw, hcall⟩
  | var hi hv _ ih =>
    obtain ⟨v', hv', hw⟩ := means_var.mp h
    obtain rfl := Option.some.inj (hv.symm.trans hv')
    exact means_var.mpr ⟨_, hv, ih hw⟩

/-! ## Settled names -/

/-- The scopes of a name, each with the node that it means. -/
def ScopesAt (config : Config) (d : Defs) (pairs : List (LazyValue × Nat)) (ns : List SyntaxNodeRef) : Prop :=
  List.Forall₂ (fun p n => Means config d.plain p.1 (.syntaxNode n)) pairs ns

def Settled (config : Config) (d : Defs) : Prop :=
  ∀ name pairs, d.scopes.lookup name = some pairs → ∃ ns, ns.Nodup ∧ ScopesAt config d pairs ns

theorem ScopesAt.mono (hle : d ≤ d') {pairs : List (LazyValue × Nat)} {ns : List SyntaxNodeRef} (h : ScopesAt config d pairs ns) :
    ScopesAt config d' pairs ns := h.imp fun _ _ hp => means_plain_mono hle hp

/-- Scopes of different nodes fill a map, which is left alone elsewhere. -/
theorem compScopes_yields (name : Identifier) {pairs : List (LazyValue × Nat)} {ns : List SyntaxNodeRef} (hns : ns.Nodup)
    (h : ScopesAt config d pairs ns) (map₀ : ScopeMap) (h₀ : ∀ n ∈ ns, map₀ n = none) :
    ∃ map, Demand.Yields (d.rhs config) (compScopes config name pairs map₀) map ∧
      (∀ p n, (p, n) ∈ pairs.zip ns → map n = some p.2) ∧ ∀ n ∉ ns, map n = map₀ n := by
  induction h generalizing map₀ with
  | nil => exact ⟨map₀, Demand.yields_done.mpr rfl, fun _ _ h => absurd h List.not_mem_nil, fun _ _ => rfl⟩
  | @cons p n pairs ns hp hpairs ih =>
    obtain ⟨hn, hns⟩ := List.nodup_cons.mp hns
    have hother : ∀ n' ∈ ns, Function.update map₀ n (some p.2) n' = none := by
      intro n' hn'
      rw [Function.update_of_ne fun e : n' = n => hn (e ▸ hn')]
      exact h₀ n' (List.mem_cons_of_mem _ hn')
    obtain ⟨map, hmap, hzip, hrest⟩ := ih hns _ hother
    refine ⟨map, ?_, ?_, ?_⟩
    · refine Demand.yields_bind.mpr ⟨.syntaxNode n, hp.of_plain, Demand.yields_bind.mpr ⟨n, yields_ofExcept.mpr rfl, ?_⟩⟩
      simp only [h₀ n List.mem_cons_self]
      exact hmap
    · intro p' n' hmem
      rw [List.zip_cons_cons] at hmem
      rcases List.mem_cons.mp hmem with heq | hmem
      · obtain ⟨rfl, rfl⟩ := Prod.mk.inj heq
        rw [hrest n' hn, Function.update_self]
      · exact hzip p' n' hmem
    · intro n' hn'
      rw [List.mem_cons, not_or] at hn'
      rw [hrest n' hn'.2, Function.update_of_ne hn'.1]

theorem scopesMean_of_scopesAt {name : Identifier} {pairs : List (LazyValue × Nat)} {ns : List SyntaxNodeRef}
    (hl : d.scopes.lookup name = some pairs) (hns : ns.Nodup) (h : ScopesAt config d pairs ns) :
    ∃ map, ScopesMean config d name map ∧ (∀ p n, (p, n) ∈ pairs.zip ns → map n = some p.2) ∧ ∀ n ∉ ns, map n = none := by
  obtain ⟨map, hmap, hzip, hrest⟩ := compScopes_yields name hns h (fun _ => none) fun _ _ => rfl
  refine ⟨map, Demand.answers_iff.mpr ?_, hzip, hrest⟩
  rw [Defs.rhs, hl]
  exact hmap

/-- A settled name has scopes. -/
theorem Settled.scopesMean (hd : Settled config d) {name : Identifier} (hname : name ∈ d.scopes.map Prod.fst) :
    ∃ map, ScopesMean config d name map := by
  cases hl : d.scopes.lookup name with
  | none =>
    obtain ⟨e, he, rfl⟩ := List.mem_map.mp hname
    exact absurd hl (by
      intro hnone
      have := List.lookup_eq_none_iff.mp hnone e he
      simp at this)
  | some pairs =>
    obtain ⟨ns, hns, hat⟩ := hd name pairs hl
    obtain ⟨map, hmap, -⟩ := scopesMean_of_scopesAt hl hns hat
    exact ⟨map, hmap⟩

theorem exists_zip_of_mem {α β : Type} {R : α → β → Prop} {l : List α} {m : List β} (h : List.Forall₂ R l m) {a : α}
    (ha : a ∈ l) :
    ∃ b, (a, b) ∈ l.zip m ∧ R a b := by
  induction h with
  | nil => exact absurd ha List.not_mem_nil
  | @cons a' b' l m hab _ ih =>
    rcases List.mem_cons.mp ha with rfl | ha
    · exact ⟨b', List.mem_cons_self, hab⟩
    · obtain ⟨b, hb, hR⟩ := ih ha
      exact ⟨b, List.mem_cons_of_mem _ hb, hR⟩

theorem exists_zip_of_mem_right {α β : Type} {R : α → β → Prop} {l : List α} {m : List β} (h : List.Forall₂ R l m)
    {b : β} (hb : b ∈ m) :
    ∃ a, (a, b) ∈ l.zip m ∧ R a b := by
  induction h with
  | nil => exact absurd hb List.not_mem_nil
  | @cons a' b' l m hab _ ih =>
    rcases List.mem_cons.mp hb with rfl | hb
    · exact ⟨a', List.mem_cons_self, hab⟩
    · obtain ⟨a, ha, hR⟩ := ih hb
      exact ⟨a, List.mem_cons_of_mem _ ha, hR⟩

/-- A node's thunk under a name stays when definitions grow. -/
theorem scopesMean_mono (hle : d ≤ d') (hd : Settled config d) (hd' : Settled config d') {name : Identifier} {map : ScopeMap}
    (hmap : ScopesMean config d name map) : ∃ map', ScopesMean config d' name map' ∧ ∀ n i, map n = some i → map' n = some i := by
  cases hl : d.scopes.lookup name with
  | none =>
    rw [ScopesMean, Demand.answers_iff, Defs.rhs, hl] at hmap
    exact absurd hmap Demand.yields_fail
  | some pairs =>
    obtain ⟨ns, hns, hat⟩ := hd name pairs hl
    obtain ⟨map₁, hmap₁, hzip, hrest⟩ := scopesMean_of_scopesAt hl hns hat
    obtain rfl := Demand.Answers.unique hmap hmap₁
    obtain ⟨pairs', hl', hsub⟩ := hle.2 name pairs hl
    obtain ⟨ns', hns', hat'⟩ := hd' name pairs' hl'
    obtain ⟨map', hmap', hzip', -⟩ := scopesMean_of_scopesAt hl' hns' hat'
    refine ⟨map', hmap', fun n i hi => ?_⟩
    by_cases hn : n ∈ ns
    · obtain ⟨p, hp, hmeans⟩ := exists_zip_of_mem_right hat hn
      obtain ⟨n', hp', hmeans'⟩ := exists_zip_of_mem hat' (hsub (List.of_mem_zip hp).1)
      have heq := (means_plain_mono hle hmeans).unique hmeans'
      rw [Value.syntaxNode.injEq] at heq
      rw [heq, hzip' p n' hp', ← hzip p n hp]
      exact hi
    · rw [hrest n hn] at hi
      simp at hi

/-! ## Meanings stay -/

/-- The answers that `n` questions find stay answers. -/
structure Stay (config : Config) (d d' : Defs) (n : Nat) : Prop where
  thunks : ∀ i w, Demand.answer (d.rhs config) n (.thunk i) = some w → Demand.Answers (d'.rhs config) (.thunk i) w
  scopes : ∀ name map node i, Demand.answer (d.rhs config) n (.scopes name) = some map → resolve config map node name = some i →
    ∃ map', ScopesMean config d' name map' ∧ resolve config map' node name = some i

mutual

/-- What is computed of a lazy value from answers that stay, stays. -/
theorem comp_under_mono {n : Nat} (hstay : Stay config d d' n) (v : LazyValue) {w : Value}
    (h : (comp config v).under (Demand.answer (d.rhs config) n) = some w) :
    Means config d' v w := by
  match v with
  | .value v => exact means_value.mpr (Option.some.inj h)
  | .list elements =>
    rw [comp, Demand.Comp.under_bind] at h
    obtain ⟨ws, hws, h⟩ := Option.bind_eq_some_iff.mp h
    exact means_list.mpr ⟨ws, compAll_under_mono hstay elements hws, (Option.some.inj h).symm⟩
  | .set elements =>
    rw [comp, Demand.Comp.under_bind] at h
    obtain ⟨ws, hws, h⟩ := Option.bind_eq_some_iff.mp h
    exact means_set.mpr ⟨ws, compAll_under_mono hstay elements hws, (Option.some.inj h).symm⟩
  | .var i =>
    rw [comp, Demand.Comp.under_ask] at h
    obtain ⟨w', hw', h⟩ := Option.bind_eq_some_iff.mp h
    obtain rfl := Option.some.inj h
    exact Demand.yields_ask.mpr ⟨w', hstay.thunks i w' hw', Demand.yields_done.mpr rfl⟩
  | .scopedVariable scope name =>
    rw [comp, Demand.Comp.under_bind] at h
    obtain ⟨s, hs, h₁⟩ := Option.bind_eq_some_iff.mp h
    rw [Demand.Comp.under_bind] at h₁
    obtain ⟨node, hnode, h₂⟩ := Option.bind_eq_some_iff.mp h₁
    rw [Demand.Comp.under_ask] at h₂
    obtain ⟨map, hmap, h₃⟩ := Option.bind_eq_some_iff.mp h₂
    have hvalue : s = .syntaxNode node := by
      cases hr : s.intoSyntaxNodeRef with
      | error e =>
        rw [hr] at hnode
        exact absurd hnode nofun
      | ok node' =>
        rw [hr] at hnode
        obtain rfl := Option.some.inj hnode
        exact intoSyntaxNodeRef_eq_ok.mp hr
    cases hi : resolve config map node name with
    | none =>
      rw [hi] at h₃
      exact absurd h₃ nofun
    | some i =>
      simp only [hi] at h₃
      rw [Demand.Comp.under_ask] at h₃
      obtain ⟨w', hw', h₄⟩ := Option.bind_eq_some_iff.mp h₃
      obtain rfl := Option.some.inj h₄
      obtain ⟨map', hmap', hi'⟩ := hstay.scopes name map node i hmap hi
      refine means_scopedVariable.mpr ⟨node, map', i, comp_under_mono hstay scope (hvalue ▸ hs), hmap', hi', ?_⟩
      exact Demand.yields_ask.mpr ⟨w', hstay.thunks i w' hw', Demand.yields_done.mpr rfl⟩
  | .call function arguments =>
    rw [comp, Demand.Comp.under_bind] at h
    obtain ⟨ws, hws, h⟩ := Option.bind_eq_some_iff.mp h
    refine means_call.mpr ⟨ws, compAll_under_mono hstay arguments hws, ?_⟩
    unfold Config.callFunction at h
    cases hc : config.call function ws with
    | none =>
      rw [hc] at h
      exact absurd h nofun
    | some w' =>
      rw [hc] at h
      exact h

theorem compAll_under_mono {n : Nat} (hstay : Stay config d d' n) (vs : List LazyValue) {ws : List Value}
    (h : (compAll config vs).under (Demand.answer (d.rhs config) n) = some ws) : MeansAll config d' vs ws := by
  match vs with
  | [] => exact meansAll_nil.mpr (Option.some.inj h).symm
  | v :: vs =>
    rw [compAll, Demand.Comp.under_bind] at h
    obtain ⟨w, hw, h⟩ := Option.bind_eq_some_iff.mp h
    rw [Demand.Comp.under_bind] at h
    obtain ⟨ws', hws', h⟩ := Option.bind_eq_some_iff.mp h
    exact meansAll_cons.mpr ⟨w, ws', comp_under_mono hstay v hw, compAll_under_mono hstay vs hws', (Option.some.inj h).symm⟩

end

theorem resolve_eq (hinherited : config.inheritedVariables = []) {map : ScopeMap} {n : SyntaxNodeRef} {name : Identifier} :
    resolve config map n name = map n := by
  unfold resolve
  cases map n with
  | some i => rfl
  | none => rw [hinherited, if_neg List.not_mem_nil]

/-- Where no variable is inherited, a meaning stays when definitions are added. -/
theorem means_mono (hinherited : config.inheritedVariables = []) (hle : d ≤ d') (hd : Settled config d) (hd' : Settled config d')
    {v : LazyValue} {w : Value} (h : Means config d v w) : Means config d' v w := by
  have hstay : ∀ n, Stay config d d' n := by
    intro n
    induction n with
    | zero => exact ⟨fun _ _ h => by simp [Demand.answer] at h, fun _ _ _ _ h => by simp [Demand.answer] at h⟩
    | succ n ih =>
      refine ⟨fun i w hi => ?_, fun name map node i hmap hi => ?_⟩
      · rw [Demand.answer, Defs.rhs] at hi
        cases hv : d.thunks[i]? with
        | none =>
          rw [hv] at hi
          simp [Demand.Comp.under] at hi
        | some v =>
          rw [hv] at hi
          refine Demand.answers_iff.mpr ?_
          rw [Defs.rhs, getElem?_of_extends hle.1 hv]
          exact comp_under_mono ih v hi
      · obtain ⟨map', hmap', hkeep⟩ := scopesMean_mono hle hd hd' ⟨n + 1, hmap⟩
        rw [resolve_eq hinherited] at hi
        exact ⟨map', hmap', by rw [resolve_eq hinherited]; exact hkeep node i hi⟩
  obtain ⟨n, hn⟩ := h
  exact comp_under_mono (hstay n) v hn

end CodeQuery.Tsg.Lazy
