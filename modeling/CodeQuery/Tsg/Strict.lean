/-
  CodeQuery.Tsg.Strict — the strict execution of graph rules
  (`tree-sitter-graph/src/execution/strict.rs`).

  Expressions are evaluated where they stand, and the graph is built statement by statement.
  To evaluate an expression changes nothing, so `evaluate` reads the local and the scoped
  variables and gives a value. Attribute shorthands may name each other, so their expansion
  has a bound.
-/

import CodeQuery.Tsg.Ast

namespace CodeQuery.Tsg.Strict

/-- The scoped variables of each syntax node. -/
abbrev ScopedVariables : Type := SyntaxNodeRef → VariableMap Value

structure State where
  graph : Graph
  locals : Scopes Value
  scopes : ScopedVariables

/-- A scoped variable of a node, or of its nearest ancestor that has it when the name is inherited. -/
def scopedGet (config : Config) (scopes : ScopedVariables) (scope : SyntaxNodeRef) (name : Identifier) : Option Value :=
  match scopes scope name with
  | some v => some v.1
  | none =>
    if name ∈ config.inheritedVariables then (config.ancestors scope).findSome? fun n => (scopes n name).map Prod.fst
    else none

/-- The node that a scope stands for. -/
def scopeOf : Value → Except ExecutionError SyntaxNodeRef
  | .syntaxNode n => .ok n
  | _ => .error .invalidVariableScope

mutual

def evaluate (ctx : Context) (scopes : ScopedVariables) (locals : Scopes Value) : Expression → Except ExecutionError Value
  | .falseLiteral => .ok (.boolean false)
  | .nullLiteral => .ok .null
  | .trueLiteral => .ok (.boolean true)
  | .integerConstant value => .ok (.integer value)
  | .stringConstant value => .ok (.string value)
  | .listLiteral elements => do
    let values ← evaluateAll ctx scopes locals elements
    return .list values
  | .setLiteral elements => do
    let values ← evaluateAll ctx scopes locals elements
    return .set (Value.setOf values)
  | .listComprehension element var value => do
    let v ← evaluate ctx scopes locals value
    let values ← v.intoList
    let elements ← values.mapM fun v => do
      let locals' ← ctx.config.addLocal locals.nested var v false
      evaluate ctx scopes locals' element
    return .list elements
  | .setComprehension element var value => do
    let v ← evaluate ctx scopes locals value
    let values ← v.intoList
    let elements ← values.mapM fun v => do
      let locals' ← ctx.config.addLocal locals.nested var v false
      evaluate ctx scopes locals' element
    return .set (Value.setOf elements)
  | .capture name => ctx.capture name
  | .scopedVariable scope name => do
    let s ← evaluate ctx scopes locals scope
    let n ← scopeOf s
    match scopedGet ctx.config scopes n name with
    | some v => return v
    | none => .error (.undefinedVariable name)
  | .unscopedVariable name =>
    match ctx.config.globals name with
    | some v => .ok v
    | none =>
      match locals.get name with
      | some v => .ok v
      | none => .error (.undefinedVariable name)
  | .call function parameters => do
    let values ← evaluateAll ctx scopes locals parameters
    ctx.config.callFunction function values
  | .regexCapture matchIndex =>
    match ctx.regexCaptures[matchIndex]? with
    | some s => .ok (.string s)
    | none => .error .undefinedRegexCapture

def evaluateAll (ctx : Context) (scopes : ScopedVariables) (locals : Scopes Value) :
    List Expression → Except ExecutionError (List Value)
  | [] => .ok []
  | e :: es => do
    let v ← evaluate ctx scopes locals e
    let vs ← evaluateAll ctx scopes locals es
    return v :: vs

end

namespace State

def evaluate (ctx : Context) (e : Expression) (st : State) : Except ExecutionError Value :=
  Strict.evaluate ctx st.scopes st.locals e

/-- Declare a variable. -/
def add (ctx : Context) (var : Variable) (value : Value) (isMutable : Bool) (st : State) : Except ExecutionError State :=
  match var with
  | .scoped scope name _ => do
    let s ← st.evaluate ctx scope
    let n ← scopeOf s
    match st.scopes n name with
    | none => .ok { st with scopes := Function.update st.scopes n (Function.update (st.scopes n) name (some (value, isMutable))) }
    | some _ => .error (.duplicateVariable name)
  | .unscoped name _ => do
    let locals ← ctx.config.addLocal st.locals name value isMutable
    return { st with locals := locals }

/-- Assign a variable. A scoped variable that cannot be assigned is reported as a duplicate. -/
def set (ctx : Context) (var : Variable) (value : Value) (st : State) : Except ExecutionError State :=
  match var with
  | .scoped scope name _ => do
    let s ← st.evaluate ctx scope
    let n ← scopeOf s
    match st.scopes n name with
    | some (_, true) =>
      .ok { st with scopes := Function.update st.scopes n (Function.update (st.scopes n) name (some (value, true))) }
    | _ => .error (.duplicateVariable name)
  | .unscoped name _ => do
    let locals ← ctx.config.setLocal st.locals name value
    return { st with locals := locals }

/-- Run with a nested environment of its own. -/
def inScope (f : State → Except ExecutionError State) (st : State) : Except ExecutionError State := do
  let st' ← f { st with locals := st.locals.nested }
  return { st' with locals := st'.locals.tail }

end State

/-- Each attribute, one after another. -/
def eachAttribute (f : Attribute → Graph → Except ExecutionError Graph) : List Attribute → Graph → Except ExecutionError Graph
  | [], g => .ok g
  | attr :: attrs, g => do
    let g' ← f attr g
    eachAttribute f attrs g'

/-- An attribute is added, or its shorthand is expanded in an environment of its own. -/
def executeAttribute (scopes : ScopedVariables) (add : Identifier → Value → Graph → Except ExecutionError Graph) :
    Context → Nat → Scopes Value → Attribute → Graph → Except ExecutionError Graph
  | _, 0, _, _, _ => .error .outOfFuel
  | ctx, fuel + 1, locals, attr, g => do
    let value ← evaluate ctx scopes locals attr.value
    match ctx.config.shorthands attr.name with
    | none => add attr.name value g
    | some sh => do
      let locals' ← ctx.config.addLocal Scopes.new sh.var value false
      eachAttribute (executeAttribute scopes add ctx.ofShorthand fuel locals') sh.attributes g

def executeAttributes (ctx : Context) (scopes : ScopedVariables) (add : Identifier → Value → Graph → Except ExecutionError Graph)
    (fuel : Nat) (locals : Scopes Value) (attrs : List Attribute) (g : Graph) : Except ExecutionError Graph :=
  eachAttribute (executeAttribute scopes add ctx fuel locals) attrs g

def testCondition (ctx : Context) (st : State) : Condition → Except ExecutionError Bool
  | .some value => do
    let v ← st.evaluate ctx value
    return !v.isNull
  | .none value => do
    let v ← st.evaluate ctx value
    return v.isNull
  | .bool value => do
    let v ← st.evaluate ctx value
    v.intoBoolean

/-- All conditions are tested, also after one that does not hold. -/
def testConditions (ctx : Context) (st : State) : List Condition → Except ExecutionError Bool
  | [] => .ok true
  | c :: cs => do
    let b ← testCondition ctx st c
    let bs ← testConditions ctx st cs
    return b && bs

/-- The values that are printed. A string constant is printed as it is. -/
def executePrint (ctx : Context) (st : State) : List Expression → Except ExecutionError Unit
  | [] => .ok ()
  | .stringConstant _ :: es => executePrint ctx st es
  | e :: es => do
    let _ ← st.evaluate ctx e
    executePrint ctx st es

mutual

/-- Execute a statement, attribute shorthands nested at most `fuel` deep. -/
def execute (fuel : Nat) (ctx : Context) : Statement → State → Except ExecutionError State
  | .declareImmutable var value, st => do
    let v ← st.evaluate ctx value
    st.add ctx var v false
  | .declareMutable var value, st => do
    let v ← st.evaluate ctx value
    st.add ctx var v true
  | .assign var value, st => do
    let v ← st.evaluate ctx value
    st.set ctx var v
  | .createGraphNode node, st => do
    let attributes ← node.nodeAttrs ctx.config ctx.mat.full
    State.add ctx node (.graphNode st.graph.nodes.length) false { st with graph := st.graph.addGraphNode attributes }
  | .addGraphNodeAttribute node attributes, st => do
    let v ← st.evaluate ctx node
    let n ← v.intoGraphNodeRef
    let graph ← executeAttributes ctx st.scopes (fun name value g => g.addNodeAttribute n name value) fuel st.locals
      attributes st.graph
    return { st with graph := graph }
  | .createEdge source sink location, st => do
    let v ← st.evaluate ctx source
    let s ← v.intoGraphNodeRef
    let w ← st.evaluate ctx sink
    let t ← w.intoGraphNodeRef
    let graph ← st.graph.addEdgeWith s t (edgeDebugAttrs ctx.config location)
    return { st with graph := graph }
  | .addEdgeAttribute source sink attributes, st => do
    let v ← st.evaluate ctx source
    let s ← v.intoGraphNodeRef
    let w ← st.evaluate ctx sink
    let t ← w.intoGraphNodeRef
    let graph ← executeAttributes ctx st.scopes (fun name value g => g.addEdgeAttribute s t name value) fuel st.locals
      attributes st.graph
    return { st with graph := graph }
  | .scan value arms, st => do
    let v ← st.evaluate ctx value
    let text ← v.intoString
    scanText ctx.config (arms.map Prod.fst) (scanArms fuel ctx arms) text st
  | .print values, st => do
    executePrint ctx st values
    return st
  | .ifs arms, st => executeIfs fuel ctx arms st
  | .forIn var value statements, st => do
    let v ← st.evaluate ctx value
    let values ← v.intoList
    values.foldlM (fun st v => State.inScope (fun st => do
      let locals ← ctx.config.addLocal st.locals var v false
      executeAll fuel ctx statements { st with locals := locals }) st) st

def executeAll (fuel : Nat) (ctx : Context) : List Statement → State → Except ExecutionError State
  | [], st => .ok st
  | s :: ss, st => do
    let st' ← execute fuel ctx s st
    executeAll fuel ctx ss st'

/-- What each arm of a scan does with the captures of its match. -/
def scanArms (fuel : Nat) (ctx : Context) :
    List (Regex × List Statement) → List (List String → State → Except ExecutionError State)
  | [] => []
  | (_, statements) :: arms =>
    (fun captures st => State.inScope (executeAll fuel { ctx with regexCaptures := captures } statements) st) ::
      scanArms fuel ctx arms

/-- The first arm whose conditions all hold. -/
def executeIfs (fuel : Nat) (ctx : Context) : List (List Condition × List Statement) → State → Except ExecutionError State
  | [], st => .ok st
  | (conditions, statements) :: arms, st => do
    let holds ← testConditions ctx st conditions
    if holds then State.inScope (executeAll fuel ctx statements) st else executeIfs fuel ctx arms st

end

/-- Execute the matches of a file's stanzas, each with no local variables at first. -/
def executeMatches (fuel : Nat) (config : Config) : List (Stanza × QueryMatch) → State → Except ExecutionError State
  | [], st => .ok st
  | (stanza, mat) :: visits, st => do
    let st' ← executeAll fuel ⟨config, stanza, mat, []⟩ stanza.statements { st with locals := Scopes.new }
    executeMatches fuel config visits st'

/-- Execute a file into a graph, the matches in the order in which they are visited. -/
def executeInto (fuel : Nat) (config : Config) (globals : List Global) (visits : List (Stanza × QueryMatch)) (g : Graph) :
    Except ExecutionError Graph := do
  let globals ← checkGlobals globals config.globals
  let st ← executeMatches fuel { config with globals := globals } visits ⟨g, Scopes.new, fun _ _ => none⟩
  return st.graph

end CodeQuery.Tsg.Strict
