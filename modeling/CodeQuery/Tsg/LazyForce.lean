/-
  CodeQuery.Tsg.LazyForce — what lazy values mean, and that forcing them finds it.

  The meaning of a lazy value is the plain one: a variable means what its thunk's lazy value
  means, and a scoped variable means what it was given at the node that its scope means,
  where all scopes of the name mean nodes, no two the same (`Means`; `means_var`,
  `means_scopedVariable`, `means_call`). No store, mark or order is part of it.

  Proved:
  (1) To force is the memoised evaluation of these equations (`evaluateWith_corr`,
      `force_corr`), so it always ends (`evaluate_ne_outOfFuel`): a variable defined through
      itself is an error and no endless loop.
  (2) In a store that is at rest, forced in part already in any way, evaluation gives exactly
      the meaning, and leaves the store at rest (`evaluate_iff`, `evaluate_rest`).
  (3) To force all thunks and names succeeds iff each has a meaning (`evaluateThunks_iff`,
      `evaluateScopes_iff`).
-/

import CodeQuery.Data.Demand
import CodeQuery.Data.Results
import CodeQuery.Tsg.Lazy

namespace CodeQuery.Tsg.Lazy

open Data

/-- What is forced: a thunk, or all scopes of a name. -/
inductive Key where
  | thunk (i : Nat)
  | scopes (name : Identifier)
deriving DecidableEq

@[reducible] def Answer : Key → Type
  | .thunk _ => Value
  | .scopes _ => ScopeMap

abbrev Comp (β : Type) : Type := Demand.Comp Key Answer ExecutionError β

/-- The result of a step that asks nothing. -/
def ofExcept {β : Type} : Except ExecutionError β → Comp β
  | .ok b => .done b
  | .error e => .fail e

mutual

/-- A lazy value as a computation that asks for thunks and names. -/
def comp (config : Config) : LazyValue → Comp Value
  | .value v => .done v
  | .list elements => (compAll config elements).bind fun values => .done (.list values)
  | .set elements => (compAll config elements).bind fun values => .done (.set (Value.setOf values))
  | .var i => .ask (.thunk i) .done
  | .scopedVariable scope name =>
    (comp config scope).bind fun s => (ofExcept s.intoSyntaxNodeRef).bind fun n => .ask (.scopes name) fun map =>
      match resolve config map n name with
      | none => .fail (.undefinedScopedVariable name)
      | some i => .ask (.thunk i) .done
  | .call function arguments => (compAll config arguments).bind fun values => ofExcept (config.callFunction function values)

def compAll (config : Config) : List LazyValue → Comp (List Value)
  | [] => .done []
  | v :: vs => (comp config v).bind fun w => (compAll config vs).bind fun ws => .done (w :: ws)

end

def compScopes (config : Config) (name : Identifier) : List (LazyValue × Nat) → ScopeMap → Comp ScopeMap
  | [], map => .done map
  | (scope, value) :: pairs, map =>
    (comp config scope).bind fun s => (ofExcept s.intoSyntaxNodeRef).bind fun n =>
      match map n with
      | some _ => .fail (.duplicateVariable name)
      | none => compScopes config name pairs (Function.update map n (some value))

/-- What was put into the stores: the lazy value of each thunk, and the scopes of each name. -/
structure Defs where
  thunks : List LazyValue
  scopes : List (Identifier × List (LazyValue × Nat))

namespace Defs

/-- The equations of the thunks and names. -/
def rhs (d : Defs) (config : Config) : (k : Key) → Comp (Answer k)
  | .thunk i =>
    match d.thunks[i]? with
    | none => .fail .panicked
    | some v => comp config v
  | .scopes name =>
    match d.scopes.lookup name with
    | none => .fail (.undefinedScopedVariable name)
    | some pairs => compScopes config name pairs fun _ => none

end Defs

/-! ## Meanings -/

def Means (config : Config) (d : Defs) (v : LazyValue) (w : Value) : Prop := Demand.Yields (d.rhs config) (comp config v) w

def MeansAll (config : Config) (d : Defs) (vs : List LazyValue) (ws : List Value) : Prop :=
  Demand.Yields (d.rhs config) (compAll config vs) ws

/-- The node of each scope of a name, with the thunk that it has there. -/
def ScopesMean (config : Config) (d : Defs) (name : Identifier) (map : ScopeMap) : Prop :=
  Demand.Answers (d.rhs config) (.scopes name) map

section Means

variable {config : Config} {d : Defs}

theorem yields_ofExcept {β : Type} {r : Except ExecutionError β} {b : β} :
    Demand.Yields (d.rhs config) (ofExcept r) b ↔ r = .ok b := by
  cases r with
  | error e => exact ⟨fun h => absurd h Demand.yields_fail, nofun⟩
  | ok b' => rw [ofExcept, Demand.yields_done, Except.ok.injEq]

theorem intoSyntaxNodeRef_eq_ok {v : Value} {n : SyntaxNodeRef} : v.intoSyntaxNodeRef = .ok n ↔ v = .syntaxNode n := by
  cases v <;> simp [Value.intoSyntaxNodeRef]

@[simp] theorem means_value {v w : Value} : Means config d (.value v) w ↔ v = w := Demand.yields_done

theorem means_list {vs : List LazyValue} {w : Value} :
    Means config d (.list vs) w ↔ ∃ ws, MeansAll config d vs ws ∧ w = .list ws := by
  rw [Means, comp, Demand.yields_bind]
  simp only [Demand.yields_done, eq_comm]
  rfl

theorem means_set {vs : List LazyValue} {w : Value} :
    Means config d (.set vs) w ↔ ∃ ws, MeansAll config d vs ws ∧ w = .set (Value.setOf ws) := by
  rw [Means, comp, Demand.yields_bind]
  simp only [Demand.yields_done, eq_comm]
  rfl

/-- A variable means what its thunk's lazy value means. -/
theorem means_var {i : Nat} {w : Value} : Means config d (.var i) w ↔ ∃ v, d.thunks[i]? = some v ∧ Means config d v w := by
  rw [Means, comp, Demand.yields_ask]
  simp only [Demand.yields_done, exists_eq_right, Demand.answers_iff, Defs.rhs]
  cases d.thunks[i]? with
  | none =>
    constructor
    · intro h
      exact absurd h Demand.yields_fail
    · rintro ⟨v, hv, h⟩
      cases hv
  | some v =>
    constructor
    · intro h
      exact ⟨v, rfl, h⟩
    · rintro ⟨v', hv, h⟩
      obtain rfl := Option.some.inj hv
      exact h

/-- A scoped variable means what it has at the node of its scope. -/
theorem means_scopedVariable {scope : LazyValue} {name : Identifier} {w : Value} :
    Means config d (.scopedVariable scope name) w ↔ ∃ n map i, Means config d scope (.syntaxNode n) ∧
      ScopesMean config d name map ∧ resolve config map n name = some i ∧ Means config d (.var i) w := by
  rw [Means, comp, Demand.yields_bind]
  constructor
  · rintro ⟨s, hs, hrest⟩
    obtain ⟨n, hn, hask⟩ := Demand.yields_bind.mp hrest
    obtain ⟨map, hmap, h⟩ := Demand.yields_ask.mp hask
    have hscope : Means config d scope (.syntaxNode n) := intoSyntaxNodeRef_eq_ok.mp (yields_ofExcept.mp hn) ▸ hs
    cases hres : resolve config map n name with
    | none =>
      rw [hres] at h
      exact absurd h Demand.yields_fail
    | some i =>
      rw [hres] at h
      exact ⟨n, map, i, hscope, hmap, hres, h⟩
  · rintro ⟨n, map, i, hs, hmap, hres, h⟩
    refine ⟨.syntaxNode n, hs, Demand.yields_bind.mpr ⟨n, yields_ofExcept.mpr rfl, Demand.yields_ask.mpr ⟨map, hmap, ?_⟩⟩⟩
    rw [hres]
    exact h

theorem means_call {function : Identifier} {arguments : List LazyValue} {w : Value} :
    Means config d (.call function arguments) w ↔ ∃ ws, MeansAll config d arguments ws ∧ config.call function ws = some w := by
  rw [Means, comp, Demand.yields_bind]
  simp only [yields_ofExcept, Config.callFunction]
  refine exists_congr fun ws => and_congr Iff.rfl ?_
  cases config.call function ws <;> simp

@[simp] theorem meansAll_nil {ws : List Value} : MeansAll config d [] ws ↔ ws = [] := by
  rw [MeansAll, compAll, Demand.yields_done, eq_comm]

theorem meansAll_cons {v : LazyValue} {vs : List LazyValue} {ws : List Value} :
    MeansAll config d (v :: vs) ws ↔ ∃ w ws', Means config d v w ∧ MeansAll config d vs ws' ∧ ws = w :: ws' := by
  rw [MeansAll, compAll, Demand.yields_bind]
  refine exists_congr fun w => ?_
  rw [Demand.yields_bind]
  simp only [Demand.yields_done]
  constructor
  · rintro ⟨hw, ws', hws', rfl⟩
    exact ⟨ws', hw, hws', rfl⟩
  · rintro ⟨ws', hw, hws', rfl⟩
    exact ⟨hw, ws', hws', rfl⟩

theorem Means.unique {v : LazyValue} {w w' : Value} (h : Means config d v w) (h' : Means config d v w') : w = w' :=
  Demand.Yields.unique h h'

end Means

/-! ## Forcing is the memoised evaluation -/

def ThunkState.cell : ThunkState → Demand.Cell Value
  | .unforced _ => .unforced
  | .forcing => .forcing
  | .forced v => .forced v

def ScopedValues.cell : ScopedValues → Demand.Cell ScopeMap
  | .unforced _ => .unforced
  | .forcing => .forcing
  | .forced map => .forced map

theorem lookup_map_name {β : Type} (l : List (Identifier × β)) (name : Identifier) (b : β) (other : Identifier) :
    (l.map fun e => if e.1 = name then (e.1, b) else e).lookup other =
      if other = name then (l.lookup other).map fun _ => b else l.lookup other := by
  induction l with
  | nil => simp
  | cons e es ih =>
    rw [List.map_cons, List.lookup_cons, List.lookup_cons, ih]
    by_cases he : e.1 = name
    · by_cases ho : other = name
      · simp [he, ho]
      · simp [he, ho, beq_eq_false_iff_ne.mpr ho]
    · by_cases ho : other = e.1
      · simp [he, ho]
      · simp [he, beq_eq_false_iff_ne.mpr ho]

namespace Stores

/-- What the stores know of each answer. -/
def memo (s : Stores) : Demand.Memo Key Answer
  | .thunk i => (s.thunks[i]?.map ThunkState.cell).getD Demand.Cell.unforced
  | .scopes name => ((s.scopes.lookup name).map ScopedValues.cell).getD Demand.Cell.unforced

/-- The stores hold these definitions, of which some were forced. -/
structure Of (d : Defs) (s : Stores) : Prop where
  length : s.thunks.length = d.thunks.length
  thunk : ∀ (i : Nat) v, s.thunks[i]? = some (.unforced v) → d.thunks[i]? = some v
  names : s.scopes.map Prod.fst = d.scopes.map Prod.fst
  pairs : ∀ name pairs, s.scopes.lookup name = some (.unforced pairs) → d.scopes.lookup name = some pairs

theorem lookup_setScopes (s : Stores) (name other : Identifier) (v : ScopedValues) :
    (s.setScopes name v).scopes.lookup other =
      if other = name then (s.scopes.lookup other).map fun _ => v else s.scopes.lookup other :=
  lookup_map_name s.scopes name v other

theorem setScopes_names (s : Stores) (name : Identifier) (v : ScopedValues) :
    (s.setScopes name v).scopes.map Prod.fst = s.scopes.map Prod.fst := by
  unfold setScopes
  rw [List.map_map]
  refine List.map_congr_left fun e _ => ?_
  simp only [Function.comp_apply]
  split <;> rfl

theorem memo_setThunk {s : Stores} {i : Nat} (hi : i < s.thunks.length) (t : ThunkState) :
    (s.setThunk i t).memo = Function.update s.memo (.thunk i) t.cell := by
  funext k
  cases k with
  | thunk j =>
    by_cases hj : j = i
    · subst hj
      simp [memo, setThunk, hi]
    · rw [Function.update_of_ne (by simpa using hj)]
      simp [memo, setThunk, List.getElem?_set_ne (Ne.symm hj)]
  | scopes name => rw [Function.update_of_ne (show Key.scopes name ≠ Key.thunk i from nofun)]; rfl

theorem memo_setScopes {s : Stores} {name : Identifier} {w : ScopedValues} (hw : s.scopes.lookup name = some w)
    (v : ScopedValues) :
    (s.setScopes name v).memo = Function.update s.memo (.scopes name) v.cell := by
  funext k
  cases k with
  | thunk j => rw [Function.update_of_ne (show Key.thunk j ≠ Key.scopes name from nofun)]; rfl
  | scopes other =>
    by_cases ho : other = name
    · subst ho
      simp [memo, lookup_setScopes, hw]
    · rw [Function.update_of_ne (by simpa using ho)]
      simp [memo, lookup_setScopes, ho]

variable {d : Defs} {s : Stores}

theorem Of.setThunk (h : s.Of d) {i : Nat} {t : ThunkState} (ht : ∀ v, t ≠ .unforced v) : (s.setThunk i t).Of d where
  length := by rw [← h.length, Stores.setThunk, List.length_set]
  thunk j v hj := by
    rw [Stores.setThunk, List.getElem?_set] at hj
    split at hj
    · split at hj
      · exact absurd (Option.some.inj hj) (ht v)
      · exact absurd hj nofun
    · exact h.thunk j v hj
  names := h.names
  pairs := h.pairs

theorem Of.setScopes (h : s.Of d) {name : Identifier} {w : ScopedValues} (hw : ∀ pairs, w ≠ .unforced pairs) :
    (s.setScopes name w).Of d where
  length := h.length
  thunk := h.thunk
  names := (setScopes_names s name w).trans h.names
  pairs other pairs ho := by
    rw [lookup_setScopes] at ho
    split at ho
    · obtain ⟨_, -, hp⟩ := Option.map_eq_some_iff.mp ho
      exact absurd hp (hw pairs)
    · exact h.pairs other pairs ho

/-- A name has a cell iff it is defined. -/
theorem Of.lookup_eq_none (h : s.Of d) (name : Identifier) : s.scopes.lookup name = none ↔ d.scopes.lookup name = none := by
  have key : ∀ {α β : Type} (l : List (Identifier × α)) (l' : List (Identifier × β)), l.map Prod.fst = l'.map Prod.fst →
      (l.lookup name = none ↔ l'.lookup name = none) := by
    intro α β l
    induction l with
    | nil =>
      intro l' hl
      cases l' with
      | nil => simp
      | cons e l' => exact absurd hl nofun
    | cons e l ih =>
      intro l' hl
      cases l' with
      | nil => exact absurd hl nofun
      | cons e' l' =>
        rw [List.map_cons, List.map_cons, List.cons.injEq] at hl
        rw [List.lookup_cons, List.lookup_cons, hl.1]
        cases name == e'.1 with
        | true => simp
        | false => exact ih l' hl.2
  exact key _ _ h.names

end Stores

/-- The error that the memoised evaluation's error stands for. -/
def errorOf : Demand.Err Key ExecutionError → ExecutionError
  | .failed e => e
  | .recursive (.thunk _) => .recursivelyDefinedVariable
  | .recursive (.scopes name) => .recursivelyDefinedScopedVariable name
  | .outOfFuel => .outOfFuel

/-- A result over the stores, and one over what they know. -/
def Corr {α : Type} (d : Defs) (r : Except ExecutionError (α × Stores))
    (r' : Except (Demand.Err Key ExecutionError) (α × Demand.Memo Key Answer)) : Prop :=
  match r, r' with
  | .ok (a, s), .ok (b, m) => a = b ∧ s.Of d ∧ s.memo = m
  | .error e, .error e' => e = errorOf e'
  | _, _ => False

section Corr

variable {config : Config} {d : Defs} {α β : Type}

theorem Corr.bind
    {ask : (k : Key) → Demand.Memo Key Answer → Except (Demand.Err Key ExecutionError) (Answer k × Demand.Memo Key Answer)}
    {x : Eval α} {f : α → Eval β} {c : Comp α} {g : α → Comp β} {s : Stores}
    (hx : Corr d (x s) (Demand.run ask c s.memo))
    (hf : ∀ a (s' : Stores), s'.Of d → Corr d (f a s') (Demand.run ask (g a) s'.memo)) :
    Corr d ((x >>= f) s) (Demand.run ask (c.bind g) s.memo) := by
  rw [Demand.run_bind]
  cases hxs : x s with
  | error e =>
    rw [bind_of_error hxs]
    cases hrun : Demand.run ask c s.memo with
    | error e' =>
      rw [hxs, hrun] at hx
      exact hx
    | ok r' => rw [hxs, hrun] at hx; exact hx.elim
  | ok r =>
    rw [bind_of_ok hxs]
    cases hrun : Demand.run ask c s.memo with
    | error e' => rw [hxs, hrun] at hx; exact hx.elim
    | ok r' =>
      rw [hxs, hrun] at hx
      obtain ⟨ha, hof, hm⟩ := hx
      show Corr d (f r.1 r.2) (Demand.run ask (g r'.1) r'.2)
      rw [← ha, ← hm]
      exact hf r.1 r.2 hof

theorem Corr.pure
    {ask : (k : Key) → Demand.Memo Key Answer → Except (Demand.Err Key ExecutionError) (Answer k × Demand.Memo Key Answer)}
    {s : Stores} (hs : s.Of d) (a : α) : Corr d ((Pure.pure a : Eval α) s) (Demand.run ask (.done a) s.memo) :=
  ⟨rfl, hs, rfl⟩

theorem Corr.ofExcept
    {ask : (k : Key) → Demand.Memo Key Answer → Except (Demand.Err Key ExecutionError) (Answer k × Demand.Memo Key Answer)}
    {s : Stores} (hs : s.Of d) (r : Except ExecutionError α) :
    Corr d ((liftM r : Eval α) s) (Demand.run ask (Lazy.ofExcept r) s.memo) := by
  cases r with
  | error e => exact rfl
  | ok a => exact ⟨rfl, hs, rfl⟩

variable (config) in
/-- The two ways to force agree. -/
structure Forces (d : Defs) (fuel : Nat) : Prop where
  thunk : ∀ i (s : Stores), s.Of d → Corr d (forceThunk config fuel i s) (Demand.force (d.rhs config) fuel (.thunk i) s.memo)
  scopes : ∀ name (s : Stores), s.Of d →
    Corr d (forceScopes config fuel name s) (Demand.force (d.rhs config) fuel (.scopes name) s.memo)

variable {fuel : Nat}

/-- To ask and be done is to force. -/
theorem run_ask_done (k : Key) (m : Demand.Memo Key Answer) :
    Demand.run (Demand.force (d.rhs config) fuel) (.ask k .done) m = Demand.force (d.rhs config) fuel k m := by
  rw [Demand.run]
  cases Demand.force (d.rhs config) fuel k m <;> rfl

theorem ask_eq_bind (k : Key) (next : Answer k → Comp β) : Demand.Comp.ask k next = (Demand.Comp.ask k .done).bind next := rfl

mutual

theorem evaluateWith_corr (hf : Forces config d fuel) (v : LazyValue) (s : Stores) (hs : s.Of d) :
    Corr d (evaluateWith config (forceThunk config fuel) (forceScopes config fuel) v s)
      (Demand.run (Demand.force (d.rhs config) fuel) (comp config v) s.memo) := by
  match v with
  | .value v => exact Corr.pure hs v
  | .list elements =>
    rw [evaluateWith, comp]
    exact Corr.bind (evaluateAllWith_corr hf elements s hs) fun values s' hs' => Corr.pure hs' _
  | .set elements =>
    rw [evaluateWith, comp]
    exact Corr.bind (evaluateAllWith_corr hf elements s hs) fun values s' hs' => Corr.pure hs' _
  | .var i =>
    rw [evaluateWith, comp, run_ask_done]
    exact hf.thunk i s hs
  | .scopedVariable scope name =>
    rw [evaluateWith, comp]
    refine Corr.bind (evaluateWith_corr hf scope s hs) fun w s₁ hs₁ => ?_
    refine Corr.bind (Corr.ofExcept hs₁ _) fun n s₂ hs₂ => ?_
    rw [ask_eq_bind]
    refine Corr.bind (by rw [run_ask_done]; exact hf.scopes name s₂ hs₂) fun map s₃ hs₃ => ?_
    cases resolve config map n name with
    | none => exact rfl
    | some i =>
      rw [run_ask_done]
      exact hf.thunk i s₃ hs₃
  | .call function arguments =>
    rw [evaluateWith, comp]
    exact Corr.bind (evaluateAllWith_corr hf arguments s hs) fun values s' hs' => Corr.ofExcept hs' _

theorem evaluateAllWith_corr (hf : Forces config d fuel) (vs : List LazyValue) (s : Stores) (hs : s.Of d) :
    Corr d (evaluateAllWith config (forceThunk config fuel) (forceScopes config fuel) vs s)
      (Demand.run (Demand.force (d.rhs config) fuel) (compAll config vs) s.memo) := by
  match vs with
  | [] => exact Corr.pure hs []
  | v :: vs =>
    rw [evaluateAllWith, compAll]
    refine Corr.bind (evaluateWith_corr hf v s hs) fun w s₁ hs₁ => ?_
    exact Corr.bind (evaluateAllWith_corr hf vs s₁ hs₁) fun ws s₂ hs₂ => Corr.pure hs₂ _

end

theorem scopesWith_corr (hf : Forces config d fuel) (name : Identifier) (pairs : List (LazyValue × Nat))
    (map : ScopeMap) (s : Stores) (hs : s.Of d) :
    Corr d (scopesWith config (forceThunk config fuel) (forceScopes config fuel) name pairs map s)
      (Demand.run (Demand.force (d.rhs config) fuel) (compScopes config name pairs map) s.memo) := by
  induction pairs generalizing map s with
  | nil => exact Corr.pure hs map
  | cons p pairs ih =>
    rw [scopesWith, compScopes]
    refine Corr.bind (evaluateWith_corr hf p.1 s hs) fun w s₁ hs₁ => ?_
    refine Corr.bind (Corr.ofExcept hs₁ _) fun n s₂ hs₂ => ?_
    cases map n with
    | some _ => exact rfl
    | none => exact ih _ s₂ hs₂

theorem forceThunk_corr (hf : Forces config d fuel) (i : Nat) (s : Stores) (hs : s.Of d) :
    Corr d (forceThunk config (fuel + 1) i s) (Demand.force (d.rhs config) (fuel + 1) (.thunk i) s.memo) := by
  rw [forceThunk, Demand.force]
  cases hi : s.thunks[i]? with
  | none =>
    have hnone : d.thunks[i]? = none := by
      rw [List.getElem?_eq_none_iff] at hi ⊢
      rw [← hs.length]
      exact hi
    have hrhs : d.rhs config (.thunk i) = .fail .panicked := by rw [Defs.rhs, hnone]
    have hm : s.memo (.thunk i) = .unforced := by simp [Stores.memo, hi]
    simp only [hi, hm, hrhs]
    exact rfl
  | some t =>
    have hm : s.memo (.thunk i) = t.cell := by simp [Stores.memo, hi]
    have hlt : i < s.thunks.length := (List.getElem?_eq_some_iff.mp hi).1
    cases t with
    | forced v =>
      simp only [hi, hm, ThunkState.cell]
      exact ⟨rfl, hs, rfl⟩
    | forcing =>
      simp only [hi, hm, ThunkState.cell]
      exact rfl
    | unforced lv =>
      have hrhs : d.rhs config (.thunk i) = comp config lv := by rw [Defs.rhs, hs.thunk i lv hi]
      have hmark : Function.update s.memo (.thunk i) .forcing = (s.setThunk i .forcing).memo :=
        (Stores.memo_setThunk hlt .forcing).symm
      have hcorr := evaluateWith_corr hf lv (s.setThunk i .forcing) (hs.setThunk (by simp))
      simp only [hi, hm, ThunkState.cell, hrhs, hmark]
      cases hev : evaluateWith config (forceThunk config fuel) (forceScopes config fuel) lv (s.setThunk i .forcing) with
      | error e =>
        cases hrun : Demand.run (Demand.force (d.rhs config) fuel) (comp config lv) (s.setThunk i .forcing).memo with
        | error e' =>
          rw [hev, hrun] at hcorr
          exact hcorr
        | ok r' => rw [hev, hrun] at hcorr; exact hcorr.elim
      | ok r =>
        cases hrun : Demand.run (Demand.force (d.rhs config) fuel) (comp config lv) (s.setThunk i .forcing).memo with
        | error e' => rw [hev, hrun] at hcorr; exact hcorr.elim
        | ok r' =>
          rw [hev, hrun] at hcorr
          obtain ⟨hv, hof, hmemo⟩ := hcorr
          refine ⟨hv, hof.setThunk (by simp), ?_⟩
          have hlt' : i < r.2.thunks.length := by
            rw [hof.length, ← hs.length]
            exact hlt
          rw [Stores.memo_setThunk hlt', hmemo, hv]
          rfl

theorem forceScopes_corr (hf : Forces config d fuel) (name : Identifier) (s : Stores) (hs : s.Of d) :
    Corr d (forceScopes config (fuel + 1) name s) (Demand.force (d.rhs config) (fuel + 1) (.scopes name) s.memo) := by
  rw [forceScopes, Demand.force]
  cases hi : s.scopes.lookup name with
  | none =>
    have hrhs : d.rhs config (.scopes name) = .fail (.undefinedScopedVariable name) := by
      rw [Defs.rhs, (hs.lookup_eq_none name).mp hi]
    have hm : s.memo (.scopes name) = .unforced := by simp [Stores.memo, hi]
    simp only [hi, hm, hrhs]
    exact rfl
  | some t =>
    have hm : s.memo (.scopes name) = t.cell := by simp [Stores.memo, hi]
    cases t with
    | forced v =>
      simp only [hi, hm, ScopedValues.cell]
      exact ⟨rfl, hs, rfl⟩
    | forcing =>
      simp only [hi, hm, ScopedValues.cell]
      exact rfl
    | unforced pairs =>
      have hrhs : d.rhs config (.scopes name) = compScopes config name pairs fun _ => none := by
        rw [Defs.rhs, hs.pairs name pairs hi]
      have hmark : Function.update s.memo (.scopes name) .forcing = (s.setScopes name .forcing).memo :=
        (Stores.memo_setScopes hi .forcing).symm
      have hcorr := scopesWith_corr hf name pairs (fun _ => none) (s.setScopes name .forcing) (hs.setScopes (by simp))
      simp only [hi, hm, ScopedValues.cell, hrhs, hmark]
      cases hev : scopesWith config (forceThunk config fuel) (forceScopes config fuel) name pairs (fun _ => none)
        (s.setScopes name .forcing) with
      | error e =>
        cases hrun : Demand.run (Demand.force (d.rhs config) fuel) (compScopes config name pairs fun _ => none)
          (s.setScopes name .forcing).memo with
        | error e' =>
          rw [hev, hrun] at hcorr
          exact hcorr
        | ok r' => rw [hev, hrun] at hcorr; exact hcorr.elim
      | ok r =>
        cases hrun : Demand.run (Demand.force (d.rhs config) fuel) (compScopes config name pairs fun _ => none)
          (s.setScopes name .forcing).memo with
        | error e' => rw [hev, hrun] at hcorr; exact hcorr.elim
        | ok r' =>
          rw [hev, hrun] at hcorr
          obtain ⟨hv, hof, hmemo⟩ := hcorr
          refine ⟨hv, hof.setScopes (by simp), ?_⟩
          have hsome : ∃ w, r.2.scopes.lookup name = some w := by
            refine Option.ne_none_iff_exists'.mp fun hnone => ?_
            rw [hof.lookup_eq_none, hs.pairs name pairs hi] at hnone
            cases hnone
          obtain ⟨w, hw⟩ := hsome
          rw [Stores.memo_setScopes hw, hmemo, hv]
          rfl

theorem force_corr (config : Config) (d : Defs) (fuel : Nat) : Forces config d fuel := by
  induction fuel with
  | zero => exact ⟨fun _ _ _ => rfl, fun _ _ _ => rfl⟩
  | succ fuel ih => exact ⟨forceThunk_corr ih, forceScopes_corr ih⟩

end Corr

/-! ## Evaluation gives the meaning -/

section Results

variable {config : Config} {d : Defs} {s : Stores} {α : Type}

theorem except_eq_error {r : Except ExecutionError (α × Stores)}
    {r' : Except (Demand.Err Key ExecutionError) (α × Demand.Memo Key Answer)} (h : Corr d r r') {e : ExecutionError}
    (hr : r = .error e) : ∃ e', r' = .error e' ∧ e = errorOf e' := by
  subst hr
  cases r' with
  | error e' => exact ⟨e', rfl, h⟩
  | ok r' => exact h.elim

theorem except_eq_ok {r : Except ExecutionError (α × Stores)}
    {r' : Except (Demand.Err Key ExecutionError) (α × Demand.Memo Key Answer)} (h : Corr d r r') {a : α} {s' : Stores}
    (hr : r = .ok (a, s')) : r' = .ok (a, s'.memo) ∧ s'.Of d := by
  subst hr
  cases r' with
  | error e' => exact h.elim
  | ok r' =>
    obtain ⟨ha, hof, hm⟩ := h
    exact ⟨by rw [ha, hm], hof⟩

theorem exists_of_ok {r : Except ExecutionError (α × Stores)}
    {r' : Except (Demand.Err Key ExecutionError) (α × Demand.Memo Key Answer)} (h : Corr d r r') {a : α}
    {m : Demand.Memo Key Answer} (hr : r' = .ok (a, m)) : ∃ s', r = .ok (a, s') ∧ s'.memo = m := by
  subst hr
  cases r with
  | error e => exact h.elim
  | ok r =>
    obtain ⟨rfl, -, hm⟩ := h
    exact ⟨r.2, rfl, hm⟩

/-- The thunks and the names that are defined. -/
def Defs.keys (d : Defs) : Finset Key :=
  (Finset.range d.thunks.length).image Key.thunk ∪ (d.scopes.map Prod.fst).toFinset.image Key.scopes

theorem lookup_eq_none_of_not_mem {β : Type} {name : Identifier} {l : List (Identifier × β)} (h : name ∉ l.map Prod.fst) :
    l.lookup name = none := by
  induction l with
  | nil => rfl
  | cons e l ih =>
    rw [List.map_cons, List.mem_cons, not_or] at h
    rw [List.lookup_cons, beq_eq_false_iff_ne.mpr h.1]
    exact ih h.2

/-- What is not defined fails at once. -/
theorem Defs.rhs_of_not_mem (k : Key) (h : k ∉ d.keys) : ∃ e, d.rhs config k = .fail e := by
  rw [Defs.keys, Finset.mem_union, not_or] at h
  cases k with
  | thunk i =>
    have hi : ¬ i < d.thunks.length := fun hlt => h.1 (Finset.mem_image_of_mem _ (Finset.mem_range.mpr hlt))
    refine ⟨.panicked, ?_⟩
    rw [Defs.rhs, List.getElem?_eq_none (Nat.not_lt.mp hi)]
  | scopes name =>
    have hname : name ∉ d.scopes.map Prod.fst := fun hmem => h.2 (Finset.mem_image_of_mem _ (List.mem_toFinset.mpr hmem))
    refine ⟨.undefinedScopedVariable name, ?_⟩
    rw [Defs.rhs, lookup_eq_none_of_not_mem hname]

theorem left_lt_bound (hs : s.Of d) : Demand.left d.keys s.memo < s.bound := by
  have hcard : d.keys.card ≤ d.thunks.length + d.scopes.length := by
    refine (Finset.card_union_le _ _).trans (Nat.add_le_add ?_ ?_)
    · exact Finset.card_image_le.trans (Finset.card_range _).le
    · exact Finset.card_image_le.trans ((List.toFinset_card_le _).trans_eq (List.length_map ..))
  have hleft : Demand.left d.keys s.memo ≤ d.keys.card := Finset.card_filter_le _ _
  have hnames : s.scopes.length = d.scopes.length := by simpa using congrArg List.length hs.names
  have := hs.length
  unfold Stores.bound
  omega

/-! ### Termination -/

theorem failsOnly_ofExcept {β : Type} {r : Except ExecutionError β} (h : r ≠ .error .outOfFuel) :
    (ofExcept r).FailsOnly (· ≠ .outOfFuel) := by
  cases r with
  | error e => exact fun he => h (congrArg _ he)
  | ok b => trivial

theorem intoSyntaxNodeRef_ne (v : Value) : v.intoSyntaxNodeRef ≠ .error .outOfFuel := by
  cases v <;> simp [Value.intoSyntaxNodeRef]

theorem callFunction_ne (config : Config) (function : Identifier) (vs : List Value) :
    config.callFunction function vs ≠ .error .outOfFuel := by
  unfold Config.callFunction
  cases config.call function vs <;> simp

mutual

theorem comp_failsOnly (config : Config) (v : LazyValue) : (comp config v).FailsOnly (· ≠ .outOfFuel) := by
  match v with
  | .value v => trivial
  | .list elements => exact Demand.Comp.failsOnly_bind (compAll_failsOnly config elements) fun _ => trivial
  | .set elements => exact Demand.Comp.failsOnly_bind (compAll_failsOnly config elements) fun _ => trivial
  | .var i => exact fun _ => trivial
  | .scopedVariable scope name =>
    refine Demand.Comp.failsOnly_bind (comp_failsOnly config scope) fun w => ?_
    refine Demand.Comp.failsOnly_bind (failsOnly_ofExcept (intoSyntaxNodeRef_ne w)) fun n map => ?_
    cases hres : resolve config map n name with
    | none => simp only [hres]; exact nofun
    | some i => simp only [hres]; exact fun _ => trivial
  | .call function arguments =>
    exact Demand.Comp.failsOnly_bind (compAll_failsOnly config arguments) fun vs =>
      failsOnly_ofExcept (callFunction_ne config function vs)

theorem compAll_failsOnly (config : Config) (vs : List LazyValue) : (compAll config vs).FailsOnly (· ≠ .outOfFuel) := by
  match vs with
  | [] => trivial
  | v :: vs =>
    exact Demand.Comp.failsOnly_bind (comp_failsOnly config v) fun _ =>
      Demand.Comp.failsOnly_bind (compAll_failsOnly config vs) fun _ => trivial

end

theorem compScopes_failsOnly (config : Config) (name : Identifier) (pairs : List (LazyValue × Nat)) (map : ScopeMap) :
    (compScopes config name pairs map).FailsOnly (· ≠ .outOfFuel) := by
  induction pairs generalizing map with
  | nil => trivial
  | cons p pairs ih =>
    refine Demand.Comp.failsOnly_bind (comp_failsOnly config p.1) fun w => ?_
    refine Demand.Comp.failsOnly_bind (failsOnly_ofExcept (intoSyntaxNodeRef_ne w)) fun n => ?_
    cases hn : map n with
    | some _ => exact nofun
    | none => exact ih _

theorem rhs_failsOnly (k : Key) : (d.rhs config k).FailsOnly (· ≠ .outOfFuel) := by
  cases k with
  | thunk i =>
    rw [Defs.rhs]
    split
    · exact nofun
    · exact comp_failsOnly config _
  | scopes name =>
    rw [Defs.rhs]
    split
    · exact nofun
    · exact compScopes_failsOnly config name _ _

/-- Every store holds some definitions. -/
theorem exists_of (s : Stores) : ∃ d, s.Of d := by
  refine ⟨⟨s.thunks.map fun | .unforced v => v | _ => .value .null,
    s.scopes.map fun | (name, .unforced pairs) => (name, pairs) | (name, _) => (name, [])⟩, ?_, ?_, ?_, ?_⟩
  · exact (List.length_map ..).symm
  · intro i v hi
    rw [List.getElem?_map, hi]
    rfl
  · rw [List.map_map]
    refine List.map_congr_left fun e _ => ?_
    obtain ⟨name, v⟩ := e
    cases v <;> rfl
  · intro name pairs
    generalize s.scopes = l
    induction l with
    | nil => exact nofun
    | cons e l ih =>
      obtain ⟨other, v⟩ := e
      intro h
      rw [List.lookup_cons] at h
      rw [List.map_cons, List.lookup_cons]
      by_cases ho : name = other
      · subst ho
        simp only [beq_self_eq_true, Option.some.injEq] at h
        subst h
        simp
      · rw [beq_eq_false_iff_ne.mpr ho] at h
        have hfst : (match (other, v) with | (name, .unforced pairs) => (name, pairs) | (name, _) => (name, [])).1 = other := by
          cases v <;> rfl
        rw [hfst, beq_eq_false_iff_ne.mpr ho]
        exact ih h

/-- Whatever the stores hold, also thunks that refer to each other in a circle, evaluation ends. -/
theorem evaluate_ne_outOfFuel (config : Config) (v : LazyValue) (s : Stores) : v.evaluate config s ≠ .error .outOfFuel := by
  intro h
  obtain ⟨d, hs⟩ := exists_of s
  obtain ⟨e, hrun, he⟩ := except_eq_error (evaluateWith_corr (force_corr config d s.bound) v s hs) h
  cases e with
  | failed e => exact Demand.run_failed rhs_failsOnly (comp_failsOnly config v) hrun he.symm
  | recursive k => cases k <;> exact absurd he nofun
  | outOfFuel => exact Demand.run_ne_outOfFuel Defs.rhs_of_not_mem (left_lt_bound hs) hrun

/-! ### Results -/

/-- The stores between evaluations: no mark is left, and what was forced holds its meaning. -/
structure Stores.Rest (config : Config) (d : Defs) (s : Stores) : Prop where
  of : s.Of d
  rest : Demand.Rest (d.rhs config) .panicked s.memo

/-- Nothing forced yet. -/
theorem rest_unforced (config : Config) (hs : s.Of d) (ht : ∀ t ∈ s.thunks, ∃ v, t = .unforced v)
    (hn : ∀ e ∈ s.scopes, ∃ pairs, e.2 = .unforced pairs) : s.Rest config d := by
  have hmemo : ∀ k, s.memo k = .unforced := by
    intro k
    cases k with
    | thunk i =>
      rw [Stores.memo]
      cases hi : s.thunks[i]? with
      | none => rfl
      | some t =>
        obtain ⟨v, rfl⟩ := ht t (List.mem_of_getElem? hi)
        rfl
    | scopes name =>
      rw [Stores.memo]
      cases hi : s.scopes.lookup name with
      | none => rfl
      | some w =>
        obtain ⟨before, after, hl, -⟩ := List.lookup_eq_some_iff.mp hi
        obtain ⟨pairs, hp⟩ := hn (name, w) (hl ▸ List.mem_append_right _ List.mem_cons_self)
        simp only at hp
        rw [hp]
        rfl
  refine ⟨hs, fun k a hk => ?_, fun k hk => ?_⟩
  · rw [hmemo k] at hk
    exact absurd hk nofun
  · rw [hmemo k] at hk
    exact absurd hk nofun

/-- Evaluation gives the meaning, in whatever order and way the stores were forced before. -/
theorem evaluate_iff (hs : s.Rest config d) (v : LazyValue) (w : Value) :
    (∃ s', v.evaluate config s = .ok (w, s')) ↔ Means config d v w := by
  have hcorr := evaluateWith_corr (force_corr config d s.bound) v s hs.of
  have hiff := Demand.run_iff Defs.rhs_of_not_mem (left_lt_bound hs.of) hs.rest (comp config v) w
  constructor
  · rintro ⟨s', h⟩
    exact hiff.mp ⟨s'.memo, (except_eq_ok hcorr h).1⟩
  · intro h
    obtain ⟨m, hm⟩ := hiff.mpr h
    obtain ⟨s', hs', -⟩ := exists_of_ok hcorr hm
    exact ⟨s', hs'⟩

theorem evaluate_rest {s' : Stores} {v : LazyValue} {w : Value} (hs : s.Rest config d) (h : v.evaluate config s = .ok (w, s')) :
    s'.Rest config d := by
  obtain ⟨hrun, hof⟩ := except_eq_ok (evaluateWith_corr (force_corr config d s.bound) v s hs.of) h
  obtain ⟨-, hsupp, hext⟩ := Demand.run_supported s.bound hs.rest.supported hrun
  exact ⟨hof, hs.rest.of_extends hsupp hext⟩

/-- To force every thunk succeeds iff each has a meaning. -/
theorem evaluateThunks_iff (hs : s.Rest config d) (is : List Nat) :
    (∃ s', evaluateThunks config is s = .ok ((), s')) ↔ ∀ i ∈ is, ∃ w, Means config d (.var i) w := by
  induction is generalizing s with
  | nil => exact ⟨fun _ => nofun, fun _ => ⟨s, rfl⟩⟩
  | cons i is ih =>
    rw [List.forall_mem_cons]
    constructor
    · rintro ⟨s', h⟩
      obtain ⟨w, s₁, hw, hrest⟩ := bind_eq_ok.mp h
      have hw : (LazyValue.var i).evaluate config s = .ok (w, s₁) := hw
      exact ⟨⟨w, (evaluate_iff hs _ w).mp ⟨s₁, hw⟩⟩, (ih (evaluate_rest hs hw)).mp ⟨s', hrest⟩⟩
    · rintro ⟨⟨w, hw⟩, hall⟩
      obtain ⟨s₁, hs₁⟩ := (evaluate_iff hs _ w).mpr hw
      obtain ⟨s', h⟩ := (ih (evaluate_rest hs hs₁)).mpr hall
      refine ⟨s', ?_⟩
      have hs₁ : forceThunk config s.bound i s = .ok (w, s₁) := hs₁
      rw [evaluateThunks, bind_of_ok (x := fun s => forceThunk config s.bound i s) hs₁]
      exact h

theorem evaluateThunks_rest {s' : Stores} (hs : s.Rest config d) {is : List Nat} (h : evaluateThunks config is s = .ok ((), s')) :
    s'.Rest config d := by
  induction is generalizing s with
  | nil =>
    simp only [evaluateThunks, pure_apply, Except.ok.injEq, Prod.mk.injEq] at h
    exact h.2 ▸ hs
  | cons i is ih =>
    obtain ⟨w, s₁, hw, hrest⟩ := bind_eq_ok.mp h
    exact ih (evaluate_rest (v := .var i) hs hw) hrest

theorem forceScopes_iff (hs : s.Rest config d) (name : Identifier) (map : ScopeMap) :
    (∃ s', forceScopes config s.bound name s = .ok (map, s')) ↔ ScopesMean config d name map := by
  have hcorr := (force_corr config d s.bound).scopes name s hs.of
  have hiff := Demand.force_iff Defs.rhs_of_not_mem (left_lt_bound hs.of) hs.rest (.scopes name) map
  constructor
  · rintro ⟨s', h⟩
    exact hiff.mp ⟨s'.memo, (except_eq_ok hcorr h).1⟩
  · intro h
    obtain ⟨m, hm⟩ := hiff.mpr h
    obtain ⟨s', hs', -⟩ := exists_of_ok hcorr hm
    exact ⟨s', hs'⟩

theorem forceScopes_rest {s' : Stores} {name : Identifier} {map : ScopeMap} (hs : s.Rest config d)
    (h : forceScopes config s.bound name s = .ok (map, s')) : s'.Rest config d := by
  obtain ⟨hrun, hof⟩ := except_eq_ok ((force_corr config d s.bound).scopes name s hs.of) h
  obtain ⟨-, hsupp, hext⟩ := Demand.force_supported s.bound hs.rest.supported hrun
  exact ⟨hof, hs.rest.of_extends hsupp hext⟩

/-- To force the scopes of every name succeeds iff each name's scopes have a meaning. -/
theorem evaluateScopes_iff (hs : s.Rest config d) (names : List Identifier) :
    (∃ s', evaluateScopes config names s = .ok ((), s')) ↔ ∀ name ∈ names, ∃ map, ScopesMean config d name map := by
  induction names generalizing s with
  | nil => exact ⟨fun _ => nofun, fun _ => ⟨s, rfl⟩⟩
  | cons name names ih =>
    rw [List.forall_mem_cons]
    constructor
    · rintro ⟨s', h⟩
      obtain ⟨map, s₁, hmap, hrest⟩ := bind_eq_ok.mp h
      exact ⟨⟨map, (forceScopes_iff hs name map).mp ⟨s₁, hmap⟩⟩, (ih (forceScopes_rest hs hmap)).mp ⟨s', hrest⟩⟩
    · rintro ⟨⟨map, hmap⟩, hall⟩
      obtain ⟨s₁, hs₁⟩ := (forceScopes_iff hs name map).mpr hmap
      obtain ⟨s', h⟩ := (ih (forceScopes_rest hs hs₁)).mpr hall
      refine ⟨s', ?_⟩
      rw [evaluateScopes, bind_of_ok (x := fun s => forceScopes config s.bound name s) hs₁]
      exact h

end Results

end CodeQuery.Tsg.Lazy
