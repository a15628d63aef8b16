/-
  CodeQuery.Tsg.Checker — the check of a file of rules before it is executed
  (`tree-sitter-graph/src/checker.rs`).

  The checker goes through the statements of a stanza with an environment that holds, for each
  variable, whether its value is local and which quantifier it has. A value is local when no
  scoped variable is part of it; what directs the execution (scanned texts, conditions,
  lists that are looped over) has to be local. A mutable variable never counts as local. The
  attribute shorthands of a file are not checked.

  Proved: a nested block leaves the environment around it as it was, in what is defined,
  mutable and local (`Follows.block`), so the check of a block holds for each time it is run.
-/

import CodeQuery.Tsg.Environments

namespace CodeQuery.Tsg.Checker

open Data

/-- An error, without the location that it names: of a location only variables and edges have one here. -/
inductive CheckError where
  | cannotHideGlobalVariable (name : Identifier)
  | cannotSetGlobalVariable (name : Identifier)
  | duplicateGlobalVariable (name : Identifier)
  | expectedListValue
  | expectedLocalValue
  | expectedOptionalValue
  | nullableRegex (regex : Regex)
  | undefinedSyntaxCapture (name : Identifier)
  | undefinedVariable (name : Identifier)
  | unusedCaptures (names : List Identifier)
  | ofVariable (error : VariableError) (name : Identifier)

structure VariableResult where
  isLocal : Bool
  quantifier : Quantifier

structure ExpressionResult where
  isLocal : Bool
  quantifier : Quantifier
  usedCaptures : List Identifier

def ExpressionResult.toVariable (r : ExpressionResult) : VariableResult := ⟨r.isLocal, r.quantifier⟩

structure CheckContext where
  globals : Identifier → Option VariableResult
  captures : List (Identifier × Quantifier)
  regexMatch : Regex → List Char → Option RegexMatch

/-- A literal: local, and one value. -/
def literal : ExpressionResult := ⟨true, .one, []⟩

/-! ## Variables -/

/-- Check the declaration of a local variable. -/
def checkAdd (ctx : CheckContext) (locals : Scopes VariableResult) (name : Identifier) (value : VariableResult)
    (isMutable : Bool) :
    Except CheckError (Scopes VariableResult) :=
  match ctx.globals name with
  | some _ => .error (.cannotHideGlobalVariable name)
  | none =>
    -- an assignment in a loop could make an earlier value non-local
    match locals.add name (if isMutable then { value with isLocal := false } else value) isMutable with
    | .error e => .error (.ofVariable e name)
    | .ok locals' => .ok locals'

/-- Check the assignment of a local variable. -/
def checkSet (ctx : CheckContext) (locals : Scopes VariableResult) (name : Identifier) (value : VariableResult) :
    Except CheckError (Scopes VariableResult) :=
  match ctx.globals name with
  | some _ => .error (.cannotSetGlobalVariable name)
  | none =>
    match locals.set name { value with isLocal := false } with
    | .error e => .error (.ofVariable e name)
    | .ok locals' => .ok locals'

def checkGet (ctx : CheckContext) (locals : Scopes VariableResult) (name : Identifier) : Except CheckError ExpressionResult :=
  match (ctx.globals name).or (locals.get name) with
  | some r => .ok ⟨r.isLocal, r.quantifier, []⟩
  | none => .error (.undefinedVariable name)

/-- The environment of a loop's body, the list that is looped over checked. The variable is given
    the quantifier of the list. -/
def checkLoop (ctx : CheckContext) (locals : Scopes VariableResult) (var : Identifier) (value : ExpressionResult) :
    Except CheckError (Scopes VariableResult) :=
  if value.isLocal = false then .error .expectedLocalValue
  else if value.quantifier ≠ .zeroOrMore ∧ value.quantifier ≠ .oneOrMore then .error .expectedListValue
  else checkAdd ctx locals.nested var value.toVariable false

/-! ## Expressions -/

mutual

def checkExpression (ctx : CheckContext) (locals : Scopes VariableResult) : Expression → Except CheckError ExpressionResult
  | .falseLiteral => .ok literal
  | .nullLiteral => .ok literal
  | .trueLiteral => .ok literal
  | .integerConstant _ => .ok literal
  | .stringConstant _ => .ok literal
  | .listLiteral elements => do
    let r ← checkExpressions ctx locals elements
    return ⟨r.1, .zeroOrMore, r.2⟩
  | .setLiteral elements => do
    let r ← checkExpressions ctx locals elements
    return ⟨r.1, .zeroOrMore, r.2⟩
  | .listComprehension element var value => do
    let v ← checkExpression ctx locals value
    let locals' ← checkLoop ctx locals var v
    let e ← checkExpression ctx locals' element
    return ⟨e.isLocal, .zeroOrMore, v.usedCaptures ++ e.usedCaptures⟩
  | .setComprehension element var value => do
    let v ← checkExpression ctx locals value
    let locals' ← checkLoop ctx locals var v
    let e ← checkExpression ctx locals' element
    return ⟨e.isLocal, .zeroOrMore, v.usedCaptures ++ e.usedCaptures⟩
  | .capture name =>
    match ctx.captures.lookup name with
    | none => .error (.undefinedSyntaxCapture name)
    | some quantifier => .ok ⟨true, quantifier, [name]⟩
  | .scopedVariable scope _ => do
    let r ← checkExpression ctx locals scope
    return ⟨false, .one, r.usedCaptures⟩
  | .unscopedVariable name => checkGet ctx locals name
  | .call _ parameters => do
    let r ← checkExpressions ctx locals parameters
    return ⟨r.1, .one, r.2⟩
  | .regexCapture _ => .ok literal

/-- Whether all are local, and the captures they use. -/
def checkExpressions (ctx : CheckContext) (locals : Scopes VariableResult) :
    List Expression → Except CheckError (Bool × List Identifier)
  | [] => .ok (true, [])
  | e :: es => do
    let r ← checkExpression ctx locals e
    let rs ← checkExpressions ctx locals es
    return (r.isLocal && rs.1, r.usedCaptures ++ rs.2)

end

/-- Check the declaration of a variable. Of a scoped one only the scope is checked. -/
def checkVariableAdd (ctx : CheckContext) (locals : Scopes VariableResult) (var : Variable) (value : VariableResult)
    (isMutable : Bool) :
    Except CheckError (List Identifier × Scopes VariableResult) :=
  match var with
  | .unscoped name _ => do
    let locals' ← checkAdd ctx locals name value isMutable
    return ([], locals')
  | .scoped scope _ _ => do
    let r ← checkExpression ctx locals scope
    return (r.usedCaptures, locals)

/-- Check the assignment of a variable. Of a scoped one only the scope is checked. -/
def checkVariableSet (ctx : CheckContext) (locals : Scopes VariableResult) (var : Variable) (value : VariableResult) :
    Except CheckError (List Identifier × Scopes VariableResult) :=
  match var with
  | .unscoped name _ => do
    let locals' ← checkSet ctx locals name value
    return ([], locals')
  | .scoped scope _ _ => do
    let r ← checkExpression ctx locals scope
    return (r.usedCaptures, locals)

/-! ## Statements -/

def checkAttributes (ctx : CheckContext) (locals : Scopes VariableResult) : List Attribute → Except CheckError (List Identifier)
  | [] => .ok []
  | a :: as => do
    let r ← checkExpression ctx locals a.value
    let used ← checkAttributes ctx locals as
    return r.usedCaptures ++ used

def checkCondition (ctx : CheckContext) (locals : Scopes VariableResult) : Condition → Except CheckError (List Identifier)
  | .none value => do
    let r ← checkExpression ctx locals value
    if r.isLocal = false then .error .expectedLocalValue
    else if r.quantifier ≠ .zeroOrOne then .error .expectedOptionalValue
    else .ok r.usedCaptures
  | .some value => do
    let r ← checkExpression ctx locals value
    if r.isLocal = false then .error .expectedLocalValue
    else if r.quantifier ≠ .zeroOrOne then .error .expectedOptionalValue
    else .ok r.usedCaptures
  | .bool value => do
    let r ← checkExpression ctx locals value
    if r.isLocal = false then .error .expectedLocalValue else .ok r.usedCaptures

def checkConditions (ctx : CheckContext) (locals : Scopes VariableResult) : List Condition → Except CheckError (List Identifier)
  | [] => .ok []
  | c :: cs => do
    let used ← checkCondition ctx locals c
    let used' ← checkConditions ctx locals cs
    return used ++ used'

mutual

/-- Check a statement: the captures that it uses, and the environment after it. -/
def checkStatement (ctx : CheckContext) :
    Statement → Scopes VariableResult → Except CheckError (List Identifier × Scopes VariableResult)
  | .declareImmutable var value, locals => do
    let v ← checkExpression ctx locals value
    let r ← checkVariableAdd ctx locals var v.toVariable false
    return (v.usedCaptures ++ r.1, r.2)
  | .declareMutable var value, locals => do
    let v ← checkExpression ctx locals value
    let r ← checkVariableAdd ctx locals var v.toVariable true
    return (v.usedCaptures ++ r.1, r.2)
  | .assign var value, locals => do
    let v ← checkExpression ctx locals value
    let r ← checkVariableSet ctx locals var v.toVariable
    return (v.usedCaptures ++ r.1, r.2)
  | .createGraphNode node, locals => checkVariableAdd ctx locals node ⟨true, .one⟩ false
  | .addGraphNodeAttribute node attributes, locals => do
    let n ← checkExpression ctx locals node
    let used ← checkAttributes ctx locals attributes
    return (n.usedCaptures ++ used, locals)
  | .createEdge source sink _, locals => do
    let s ← checkExpression ctx locals source
    let t ← checkExpression ctx locals sink
    return (s.usedCaptures ++ t.usedCaptures, locals)
  | .addEdgeAttribute source sink attributes, locals => do
    let s ← checkExpression ctx locals source
    let t ← checkExpression ctx locals sink
    let used ← checkAttributes ctx locals attributes
    return (s.usedCaptures ++ t.usedCaptures ++ used, locals)
  | .scan value arms, locals => do
    let v ← checkExpression ctx locals value
    if v.isLocal = false then .error .expectedLocalValue
    else do
      let r ← checkArms ctx arms locals
      return (v.usedCaptures ++ r.1, r.2)
  | .print values, locals => do
    let r ← checkExpressions ctx locals values
    return (r.2, locals)
  | .ifs arms, locals => checkIfs ctx arms locals
  | .forIn var value statements, locals => do
    let v ← checkExpression ctx locals value
    let locals' ← checkLoop ctx locals var v
    let r ← checkStatements ctx statements locals'
    return (v.usedCaptures ++ r.1, r.2.tail)

def checkStatements (ctx : CheckContext) :
    List Statement → Scopes VariableResult → Except CheckError (List Identifier × Scopes VariableResult)
  | [], locals => .ok ([], locals)
  | s :: ss, locals => do
    let r ← checkStatement ctx s locals
    let rs ← checkStatements ctx ss r.2
    return (r.1 ++ rs.1, rs.2)

/-- Check the arms of a scan. A regular expression that matches the empty text is refused. -/
def checkArms (ctx : CheckContext) :
    List (Regex × List Statement) → Scopes VariableResult → Except CheckError (List Identifier × Scopes VariableResult)
  | [], locals => .ok ([], locals)
  | (regex, statements) :: arms, locals =>
    if (ctx.regexMatch regex []).isSome then .error (.nullableRegex regex)
    else do
      let r ← checkStatements ctx statements locals.nested
      let rs ← checkArms ctx arms r.2.tail
      return (r.1 ++ rs.1, rs.2)

/-- Check the arms of a conditional. -/
def checkIfs (ctx : CheckContext) :
    List (List Condition × List Statement) → Scopes VariableResult → Except CheckError (List Identifier × Scopes VariableResult)
  | [], locals => .ok ([], locals)
  | (conditions, statements) :: arms, locals => do
    let used ← checkConditions ctx locals conditions
    let r ← checkStatements ctx statements locals.nested
    let rs ← checkIfs ctx arms r.2.tail
    return (used ++ r.1 ++ rs.1, rs.2)

end

/-! ## Stanzas and files -/

/-- Check a stanza. A capture that no statement uses has to begin with an underscore. -/
def checkStanza (globals : Identifier → Option VariableResult) (regexMatch : Regex → List Char → Option RegexMatch)
    (stanza : Stanza) :
    Except CheckError Unit := do
  let r ← checkStatements ⟨globals, stanza.captures, regexMatch⟩ stanza.statements Scopes.new
  let unused := (stanza.captures.map Prod.fst).filter fun c => c ∉ r.1 ∧ c.toList.head? ≠ some '_'
  if unused = [] then .ok () else .error (.unusedCaptures unused)

/-- The globals of a file, each declared once. -/
def declareGlobals : List Global → (Identifier → Option VariableResult) → Except CheckError (Identifier → Option VariableResult)
  | [], globals => .ok globals
  | g :: gs, globals =>
    match globals g.name with
    | some _ => .error (.duplicateGlobalVariable g.name)
    | none => declareGlobals gs (Function.update globals g.name (some ⟨true, g.quantifier⟩))

def checkStanzas (globals : Identifier → Option VariableResult) (regexMatch : Regex → List Char → Option RegexMatch) :
    List Stanza → Except CheckError Unit
  | [] => .ok ()
  | stanza :: stanzas => do
    checkStanza globals regexMatch stanza
    checkStanzas globals regexMatch stanzas

structure File where
  globals : List Global
  stanzas : List Stanza

/-- Check a file. -/
def File.check (regexMatch : Regex → List Char → Option RegexMatch) (file : File) : Except CheckError Unit := do
  let globals ← declareGlobals file.globals fun _ => none
  checkStanzas globals regexMatch file.stanzas

/-! ## What a check leaves of the environment -/

section Environments

variable {ctx : CheckContext} {locals locals' : Scopes VariableResult} {name : Identifier}

theorem checkAdd_eq_ok {value : VariableResult} {isMutable : Bool} :
    checkAdd ctx locals name value isMutable = .ok locals' ↔
      ctx.globals name = none ∧ locals.add name (if isMutable then { value with isLocal := false } else value)
        isMutable = .ok locals' := by
  unfold checkAdd
  cases ctx.globals name with
  | some r => simp
  | none => cases locals.add name (if isMutable then { value with isLocal := false } else value) isMutable <;> simp

theorem checkSet_eq_ok {value : VariableResult} :
    checkSet ctx locals name value = .ok locals' ↔
      ctx.globals name = none ∧ locals.set name { value with isLocal := false } = .ok locals' := by
  unfold checkSet
  cases ctx.globals name with
  | some r => simp
  | none => cases locals.set name { value with isLocal := false } <;> simp

theorem checkLoop_eq_ok {value : ExpressionResult} :
    checkLoop ctx locals name value = .ok locals' ↔
      value.isLocal = true ∧ (value.quantifier = .zeroOrMore ∨ value.quantifier = .oneOrMore) ∧
        checkAdd ctx locals.nested name value.toVariable false = .ok locals' := by
  unfold checkLoop
  by_cases hl : value.isLocal = false
  · simp [hl]
  · by_cases hq : value.quantifier ≠ .zeroOrMore ∧ value.quantifier ≠ .oneOrMore
    · rw [if_neg hl, if_pos hq]
      simp [hq.1, hq.2]
    · rw [if_neg hl, if_neg hq]
      have hor : value.quantifier = .zeroOrMore ∨ value.quantifier = .oneOrMore := by
        by_contra h
        exact hq (not_or.mp h)
      simp [hor, Bool.of_not_eq_false hl]

/-- Mutable variables are not local. -/
def Steady (locals : Scopes VariableResult) : Prop := ∀ m ∈ locals, ∀ name r, m name = some (r, true) → r.isLocal = false

/-- Both are local or neither is. -/
def Same (r r' : VariableResult) : Prop := r.isLocal = r'.isLocal

theorem agree_same_refl (locals : Scopes VariableResult) : locals.Agree Same locals := by
  induction locals with
  | nil => exact .nil
  | cons m locals ih =>
    refine .cons (fun name => ?_) ih
    cases m name with
    | none => exact .none
    | some r => exact .some r.2 rfl

theorem agree_same_trans {l l' l'' : Scopes VariableResult} (h : l.Agree Same l') (h' : l'.Agree Same l'') : l.Agree Same l'' :=
  h.comp h' fun _ _ _ hab hbc => Eq.trans hab hbc

theorem steady_new : Steady Scopes.new := by
  intro m hm name r hr
  rw [List.mem_singleton.mp hm] at hr
  cases hr

theorem steady_nested (h : Steady locals) : Steady locals.nested := by
  intro m hm name r hr
  rcases List.mem_cons.mp hm with rfl | hm
  · cases hr
  · exact h m hm name r hr

theorem Steady.tail (h : Steady locals) : Steady locals.tail := fun m hm => h m (List.mem_of_mem_tail hm)

theorem steady_update {m : VariableMap VariableResult} (hm : ∀ name r, m name = some (r, true) → r.isLocal = false)
    {value : VariableResult} {isMutable : Bool} (hv : isMutable = true → value.isLocal = false) (other : Identifier)
    (r : VariableResult) (hr : Function.update m name (some (value, isMutable)) other = some (r, true)) :
    r.isLocal = false := by
  by_cases h : other = name
  · subst h
    rw [Function.update_self] at hr
    obtain ⟨rfl, rfl⟩ := Prod.mk.inj (Option.some.inj hr)
    exact hv rfl
  · rw [Function.update_of_ne h] at hr
    exact hm other r hr

theorem add_follows {value : VariableResult} {isMutable : Bool} (h : Steady locals)
    (hv : isMutable = true → value.isLocal = false) (hadd : locals.add name value isMutable = .ok locals') :
    Steady locals' ∧ locals'.tail = locals.tail := by
  cases locals with
  | nil => exact absurd hadd nofun
  | cons m locals =>
    rw [Scopes.add] at hadd
    cases hm : m name with
    | some r => simp [hm] at hadd
    | none =>
      simp only [hm, Except.ok.injEq] at hadd
      subst hadd
      refine ⟨fun m' hm' other r hr => ?_, rfl⟩
      rcases List.mem_cons.mp hm' with rfl | hm'
      · exact steady_update (h m List.mem_cons_self) hv other r hr
      · exact h m' (List.mem_cons_of_mem _ hm') other r hr

/-- What is assigned was mutable, and not local before or after. -/
theorem set_follows {value : VariableResult} (h : Steady locals) (hv : value.isLocal = false)
    (hset : locals.set name value = .ok locals') : Steady locals' ∧ locals.Agree Same locals' := by
  induction locals generalizing locals' with
  | nil => exact absurd hset nofun
  | cons m locals ih =>
    rw [Scopes.set] at hset
    have htail : Steady locals := fun m' hm' => h m' (List.mem_cons_of_mem _ hm')
    cases hm : m name with
    | none =>
      simp only [hm] at hset
      cases hrest : Scopes.set locals name value with
      | error e => simp [hrest] at hset
      | ok l =>
        simp only [hrest, Except.ok.injEq] at hset
        subst hset
        obtain ⟨hl, hagree⟩ := ih htail hrest
        refine ⟨fun m' hm' => ?_, .cons (fun other => ?_) hagree⟩
        · rcases List.mem_cons.mp hm' with rfl | hm'
          · exact h m' List.mem_cons_self
          · exact hl m' hm'
        · cases m other with
          | none => exact .none
          | some r => exact .some r.2 rfl
    | some r =>
      obtain ⟨r, isMutable⟩ := r
      cases isMutable with
      | false => simp [hm] at hset
      | true =>
        simp only [hm, Except.ok.injEq] at hset
        subst hset
        refine ⟨fun m' hm' other r' hr' => ?_, .cons (fun other => ?_) (agree_same_refl locals)⟩
        · rcases List.mem_cons.mp hm' with rfl | hm'
          · exact steady_update (h m List.mem_cons_self) (fun _ => hv) other r' hr'
          · exact htail m' hm' other r' hr'
        · by_cases ho : other = name
          · subst ho
            rw [Function.update_self, hm]
            exact .some true ((h m List.mem_cons_self other r hm).trans hv.symm)
          · rw [Function.update_of_ne ho]
            cases m other with
            | none => exact .none
            | some r => exact .some r.2 rfl

/-- An environment after checks that began with another: mutable variables are not local, and below
    the innermost environment nothing else is defined, mutable or local. -/
structure Follows (locals locals' : Scopes VariableResult) : Prop where
  steady : Steady locals'
  tail : Scopes.Agree Same locals.tail locals'.tail

theorem Follows.refl (h : Steady locals) : Follows locals locals := ⟨h, agree_same_refl _⟩

theorem Follows.trans {l l' l'' : Scopes VariableResult} (h : Follows l l') (h' : Follows l' l'') : Follows l l'' :=
  ⟨h'.steady, agree_same_trans h.tail h'.tail⟩

/-- After a nested block the environment is as it was. -/
theorem Follows.block (h : Follows locals.nested locals') : Steady locals'.tail ∧ locals.Agree Same locals'.tail :=
  ⟨h.steady.tail, h.tail⟩

theorem follows_of_same (h : Steady locals' ∧ locals.Agree Same locals') : Follows locals locals' := ⟨h.1, h.2.tail⟩

theorem checkAdd_follows {value : VariableResult} {isMutable : Bool} (h : Steady locals)
    (hadd : checkAdd ctx locals name value isMutable = .ok locals') : Follows locals locals' := by
  obtain ⟨-, hadd⟩ := checkAdd_eq_ok.mp hadd
  obtain ⟨hs, htail⟩ := add_follows h (by rintro rfl; rfl) hadd
  exact ⟨hs, htail ▸ agree_same_refl _⟩

theorem checkVariableAdd_follows {var : Variable} {value : VariableResult} {isMutable : Bool}
    {r : List Identifier × Scopes VariableResult} (h : Steady locals)
    (hadd : checkVariableAdd ctx locals var value isMutable = .ok r) : Follows locals r.2 := by
  match var with
  | .unscoped name location =>
    obtain ⟨l, hl, hr⟩ := except_bind_eq_ok.mp hadd
    obtain rfl : ([], l) = r := Except.ok.inj hr
    exact checkAdd_follows h hl
  | .scoped scope name location =>
    obtain ⟨s, -, hr⟩ := except_bind_eq_ok.mp hadd
    obtain rfl : (s.usedCaptures, locals) = r := Except.ok.inj hr
    exact .refl h

theorem checkVariableSet_follows {var : Variable} {value : VariableResult} {r : List Identifier × Scopes VariableResult}
    (h : Steady locals) (hset : checkVariableSet ctx locals var value = .ok r) : Follows locals r.2 := by
  match var with
  | .unscoped name location =>
    obtain ⟨l, hl, hr⟩ := except_bind_eq_ok.mp hset
    obtain rfl : ([], l) = r := Except.ok.inj hr
    obtain ⟨-, hl⟩ := checkSet_eq_ok.mp hl
    exact follows_of_same (set_follows h rfl hl)
  | .scoped scope name location =>
    obtain ⟨s, -, hr⟩ := except_bind_eq_ok.mp hset
    obtain rfl : (s.usedCaptures, locals) = r := Except.ok.inj hr
    exact .refl h

mutual

theorem checkStatement_follows {locals : Scopes VariableResult} {stmt : Statement}
    {r : List Identifier × Scopes VariableResult} (h : Steady locals) (hr : checkStatement ctx stmt locals = .ok r) :
    Follows locals r.2 := by
  match stmt with
  | .declareImmutable var value =>
    obtain ⟨v, -, hr⟩ := except_bind_eq_ok.mp hr
    obtain ⟨r', hadd, hr⟩ := except_bind_eq_ok.mp hr
    obtain rfl : (v.usedCaptures ++ r'.1, r'.2) = r := Except.ok.inj hr
    have hfollows := checkVariableAdd_follows h hadd
    exact hfollows
  | .declareMutable var value =>
    obtain ⟨v, -, hr⟩ := except_bind_eq_ok.mp hr
    obtain ⟨r', hadd, hr⟩ := except_bind_eq_ok.mp hr
    obtain rfl : (v.usedCaptures ++ r'.1, r'.2) = r := Except.ok.inj hr
    have hfollows := checkVariableAdd_follows h hadd
    exact hfollows
  | .assign var value =>
    obtain ⟨v, -, hr⟩ := except_bind_eq_ok.mp hr
    obtain ⟨r', hset, hr⟩ := except_bind_eq_ok.mp hr
    obtain rfl : (v.usedCaptures ++ r'.1, r'.2) = r := Except.ok.inj hr
    have hfollows := checkVariableSet_follows h hset
    exact hfollows
  | .createGraphNode node => exact checkVariableAdd_follows h hr
  | .addGraphNodeAttribute node attributes =>
    obtain ⟨n, -, hr⟩ := except_bind_eq_ok.mp hr
    obtain ⟨used, -, hr⟩ := except_bind_eq_ok.mp hr
    obtain rfl : (n.usedCaptures ++ used, locals) = r := Except.ok.inj hr
    exact .refl h
  | .createEdge source sink location =>
    obtain ⟨s, -, hr⟩ := except_bind_eq_ok.mp hr
    obtain ⟨t, -, hr⟩ := except_bind_eq_ok.mp hr
    obtain rfl : (s.usedCaptures ++ t.usedCaptures, locals) = r := Except.ok.inj hr
    exact .refl h
  | .addEdgeAttribute source sink attributes =>
    obtain ⟨s, -, hr⟩ := except_bind_eq_ok.mp hr
    obtain ⟨t, -, hr⟩ := except_bind_eq_ok.mp hr
    obtain ⟨used, -, hr⟩ := except_bind_eq_ok.mp hr
    obtain rfl : (s.usedCaptures ++ t.usedCaptures ++ used, locals) = r := Except.ok.inj hr
    exact .refl h
  | .scan value arms =>
    obtain ⟨v, -, hr⟩ := except_bind_eq_ok.mp hr
    split at hr
    · exact absurd hr nofun
    · obtain ⟨r', harms, hr⟩ := except_bind_eq_ok.mp hr
      obtain rfl : (v.usedCaptures ++ r'.1, r'.2) = r := Except.ok.inj hr
      have hsame := checkArms_same h harms
      exact follows_of_same hsame
  | .print values =>
    obtain ⟨v, -, hr⟩ := except_bind_eq_ok.mp hr
    obtain rfl : (v.2, locals) = r := Except.ok.inj hr
    exact .refl h
  | .ifs arms => exact follows_of_same (checkIfs_same h hr)
  | .forIn var value statements =>
    obtain ⟨v, -, hr⟩ := except_bind_eq_ok.mp hr
    obtain ⟨l, hl, hr⟩ := except_bind_eq_ok.mp hr
    obtain ⟨r', hbody, hr⟩ := except_bind_eq_ok.mp hr
    obtain rfl : (v.usedCaptures ++ r'.1, r'.2.tail) = r := Except.ok.inj hr
    have hloop := checkAdd_follows (steady_nested h) (checkLoop_eq_ok.mp hl).2.2
    exact follows_of_same (hloop.trans (checkStatements_follows hloop.steady hbody)).block

theorem checkStatements_follows {locals : Scopes VariableResult} {stmts : List Statement}
    {r : List Identifier × Scopes VariableResult} (h : Steady locals) (hr : checkStatements ctx stmts locals = .ok r) :
    Follows locals r.2 := by
  match stmts with
  | [] =>
    obtain rfl : ([], locals) = r := Except.ok.inj hr
    exact .refl h
  | stmt :: stmts =>
    obtain ⟨r₁, hr₁, hr⟩ := except_bind_eq_ok.mp hr
    obtain ⟨r₂, hr₂, hr⟩ := except_bind_eq_ok.mp hr
    obtain rfl : (r₁.1 ++ r₂.1, r₂.2) = r := Except.ok.inj hr
    have hfirst := checkStatement_follows h hr₁
    have hrest := checkStatements_follows hfirst.steady hr₂
    exact hfirst.trans hrest

theorem checkArms_same {locals : Scopes VariableResult} {arms : List (Regex × List Statement)}
    {r : List Identifier × Scopes VariableResult} (h : Steady locals) (hr : checkArms ctx arms locals = .ok r) :
    Steady r.2 ∧ locals.Agree Same r.2 := by
  match arms with
  | [] =>
    obtain rfl : ([], locals) = r := Except.ok.inj hr
    exact ⟨h, agree_same_refl _⟩
  | (regex, statements) :: arms =>
    rw [checkArms] at hr
    split at hr
    · exact absurd hr nofun
    · obtain ⟨r₁, hr₁, hr⟩ := except_bind_eq_ok.mp hr
      obtain ⟨r₂, hr₂, hr⟩ := except_bind_eq_ok.mp hr
      obtain rfl : (r₁.1 ++ r₂.1, r₂.2) = r := Except.ok.inj hr
      obtain ⟨hs, hsame⟩ := (checkStatements_follows (steady_nested h) hr₁).block
      obtain ⟨hs', hsame'⟩ := checkArms_same hs hr₂
      exact ⟨hs', agree_same_trans hsame hsame'⟩

theorem checkIfs_same {locals : Scopes VariableResult} {arms : List (List Condition × List Statement)}
    {r : List Identifier × Scopes VariableResult} (h : Steady locals) (hr : checkIfs ctx arms locals = .ok r) :
    Steady r.2 ∧ locals.Agree Same r.2 := by
  match arms with
  | [] =>
    obtain rfl : ([], locals) = r := Except.ok.inj hr
    exact ⟨h, agree_same_refl _⟩
  | (conditions, statements) :: arms =>
    obtain ⟨used, -, hr⟩ := except_bind_eq_ok.mp hr
    obtain ⟨r₁, hr₁, hr⟩ := except_bind_eq_ok.mp hr
    obtain ⟨r₂, hr₂, hr⟩ := except_bind_eq_ok.mp hr
    obtain rfl : (used ++ r₁.1 ++ r₂.1, r₂.2) = r := Except.ok.inj hr
    obtain ⟨hs, hsame⟩ := (checkStatements_follows (steady_nested h) hr₁).block
    obtain ⟨hs', hsame'⟩ := checkIfs_same hs hr₂
    exact ⟨hs', agree_same_trans hsame hsame'⟩

end

end Environments

end CodeQuery.Tsg.Checker
