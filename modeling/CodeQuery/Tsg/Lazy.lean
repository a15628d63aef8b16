/-
  CodeQuery.Tsg.Lazy — the lazy execution of graph rules
  (`tree-sitter-graph/src/execution/lazy.rs` and `lazy/values.rs`, `store.rs`, `statements.rs`).

  Executing the matches evaluates expressions to lazy values only, puts each declared value
  into a store as a thunk, and records edges, attributes and prints as lazy statements; only
  what directs the execution (conditions, scanned texts, lists that are looped over) is
  evaluated at once (`evaluateEager`). Then the lazy statements are evaluated, edges first,
  and every thunk and scoped variable that is left is forced. A thunk is marked while it is
  forced, and so are the scopes of all scoped variables of one name, which are forced
  together.

  To force has a bound here, which counts the thunks and the names (`Stores.bound`).
-/

import CodeQuery.Tsg.Ast

namespace CodeQuery.Tsg.Lazy

/-- A lazy value: a variable stands for a thunk of the store. -/
inductive LazyValue where
  | value (v : Value)
  | list (elements : List LazyValue)
  | set (elements : List LazyValue)
  | var (storeLocation : Nat)
  | scopedVariable (scope : LazyValue) (name : Identifier)
  | call (function : Identifier) (arguments : List LazyValue)

inductive ThunkState where
  | unforced (v : LazyValue)
  | forcing
  | forced (v : Value)

/-- The thunk of a scoped variable's value at each node. -/
abbrev ScopeMap : Type := SyntaxNodeRef → Option Nat

/-- The scoped variables of one name. A value that is added is always a variable of the store. -/
inductive ScopedValues where
  | unforced (pairs : List (LazyValue × Nat))
  | forcing
  | forced (map : ScopeMap)

/-- The store of thunks, and the scoped variables by name. -/
structure Stores where
  thunks : List ThunkState
  scopes : List (Identifier × ScopedValues)

abbrev Eval : Type → Type := StateT Stores (Except ExecutionError)

namespace Stores

def new : Stores := ⟨[], []⟩

/-- More than the thunks and names that can be left to force. -/
def bound (s : Stores) : Nat := s.thunks.length + s.scopes.length + 1

def setThunk (s : Stores) (i : Nat) (t : ThunkState) : Stores := { s with thunks := s.thunks.set i t }

/-- Replace the scoped variables of a name. -/
def setScopes (s : Stores) (name : Identifier) (v : ScopedValues) : Stores :=
  { s with scopes := s.scopes.map fun e => if e.1 = name then (e.1, v) else e }

/-- Add a thunk; its place in the store. -/
def add (v : LazyValue) : Eval Nat := fun s => .ok (s.thunks.length, { s with thunks := s.thunks ++ [.unforced v] })

/-- Add a scoped variable. -/
def addScoped (scope : LazyValue) (name : Identifier) (value : Nat) : Eval Unit := fun s =>
  match s.scopes.lookup name with
  | none => .ok ((), { s with scopes := s.scopes ++ [(name, .unforced [(scope, value)])] })
  | some (.unforced pairs) => .ok ((), s.setScopes name (.unforced (pairs ++ [(scope, value)])))
  | some .forcing => .error (.recursivelyDefinedScopedVariable name)
  | some (.forced _) => .error (.variableScopesAlreadyForced name)

end Stores

/-- The scoped variable at a node, or at its nearest ancestor that has it when the name is inherited. -/
def resolve (config : Config) (map : ScopeMap) (scope : SyntaxNodeRef) (name : Identifier) : Option Nat :=
  match map scope with
  | some i => some i
  | none => if name ∈ config.inheritedVariables then (config.ancestors scope).findSome? map else none

mutual

/-- Evaluate a lazy value, given how thunks and names are forced. -/
def evaluateWith (config : Config) (thunk : Nat → Eval Value) (scopes : Identifier → Eval ScopeMap) : LazyValue → Eval Value
  | .value v => pure v
  | .list elements => do
    let values ← evaluateAllWith config thunk scopes elements
    return .list values
  | .set elements => do
    let values ← evaluateAllWith config thunk scopes elements
    return .set (Value.setOf values)
  | .var i => thunk i
  | .scopedVariable scope name => do
    let s ← evaluateWith config thunk scopes scope
    let n ← liftM s.intoSyntaxNodeRef
    let map ← scopes name
    match resolve config map n name with
    | none => throw (.undefinedScopedVariable name)
    | some i => thunk i
  | .call function arguments => do
    let values ← evaluateAllWith config thunk scopes arguments
    liftM (config.callFunction function values)

def evaluateAllWith (config : Config) (thunk : Nat → Eval Value) (scopes : Identifier → Eval ScopeMap) :
    List LazyValue → Eval (List Value)
  | [] => pure []
  | v :: vs => do
    let w ← evaluateWith config thunk scopes v
    let ws ← evaluateAllWith config thunk scopes vs
    return w :: ws

end

/-- The scopes of one name, each of a node of its own. -/
def scopesWith (config : Config) (thunk : Nat → Eval Value) (scopes : Identifier → Eval ScopeMap) (name : Identifier) :
    List (LazyValue × Nat) → ScopeMap → Eval ScopeMap
  | [], map => pure map
  | (scope, value) :: pairs, map => do
    let s ← evaluateWith config thunk scopes scope
    let n ← liftM s.intoSyntaxNodeRef
    match map n with
    | some _ => throw (.duplicateVariable name)
    | none => scopesWith config thunk scopes name pairs (Function.update map n (some value))

mutual

/-- Force a thunk. -/
def forceThunk (config : Config) : Nat → Nat → Eval Value
  | 0, _ => throw .outOfFuel
  | fuel + 1, i => fun s =>
    match s.thunks[i]? with
    | none => .error .panicked
    | some (.forced v) => .ok (v, s)
    | some .forcing => .error .recursivelyDefinedVariable
    | some (.unforced lv) =>
      match evaluateWith config (forceThunk config fuel) (forceScopes config fuel) lv (s.setThunk i .forcing) with
      | .error e => .error e
      | .ok (v, s') => .ok (v, s'.setThunk i (.forced v))

/-- Force the scopes of a name. -/
def forceScopes (config : Config) : Nat → Identifier → Eval ScopeMap
  | 0, _ => throw .outOfFuel
  | fuel + 1, name => fun s =>
    match s.scopes.lookup name with
    | none => .error (.undefinedScopedVariable name)
    | some (.forced map) => .ok (map, s)
    | some .forcing => .error (.recursivelyDefinedScopedVariable name)
    | some (.unforced pairs) =>
      match scopesWith config (forceThunk config fuel) (forceScopes config fuel) name pairs (fun _ => none)
        (s.setScopes name .forcing) with
      | .error e => .error e
      | .ok (map, s') => .ok (map, s'.setScopes name (.forced map))

end

namespace LazyValue

def evaluate (config : Config) (v : LazyValue) : Eval Value := fun s =>
  evaluateWith config (forceThunk config s.bound) (forceScopes config s.bound) v s

def evaluateAsGraphNode (config : Config) (v : LazyValue) : Eval GraphNodeRef := do
  let w ← v.evaluate config
  liftM w.intoGraphNodeRef

end LazyValue

/-- Force every thunk. -/
def evaluateThunks (config : Config) : List Nat → Eval Unit
  | [] => pure ()
  | i :: is => do
    let _ ← fun s => forceThunk config s.bound i s
    evaluateThunks config is

/-- Force the scopes of every name. -/
def evaluateScopes (config : Config) : List Identifier → Eval Unit
  | [] => pure ()
  | name :: names => do
    let _ ← fun s => forceScopes config s.bound name s
    evaluateScopes config names

/-! ## Lazy statements -/

abbrev LazyAttribute : Type := Identifier × LazyValue

inductive LazyStatement where
  | addGraphNodeAttribute (node : LazyValue) (attributes : List LazyAttribute)
  | createEdge (source sink : LazyValue) (attributes : Attributes)
  | addEdgeAttribute (source sink : LazyValue) (attributes : List LazyAttribute)
  /-- A text that is printed is no value. -/
  | print (arguments : List (Option LazyValue))

/-- The lazy statements, by the order in which they are evaluated. -/
structure LazyGraph where
  edgeStatements : List LazyStatement
  attrStatements : List LazyStatement
  printStatements : List LazyStatement

namespace LazyGraph

def new : LazyGraph := ⟨[], [], []⟩

def push (g : LazyGraph) (s : LazyStatement) : LazyGraph :=
  match s with
  | .addGraphNodeAttribute _ _ => { g with attrStatements := g.attrStatements ++ [s] }
  | .createEdge _ _ _ => { g with edgeStatements := g.edgeStatements ++ [s] }
  | .addEdgeAttribute _ _ _ => { g with attrStatements := g.attrStatements ++ [s] }
  | .print _ => { g with printStatements := g.printStatements ++ [s] }

end LazyGraph

inductive GraphElementKey where
  | nodeAttribute (node : GraphNodeRef) (name : Identifier)
  | edgeAttribute (source sink : GraphNodeRef) (name : Identifier)
deriving DecidableEq

/-- The graph as it is built, with the attributes whose origin is known. -/
structure Building where
  graph : Graph
  prevElements : List GraphElementKey

/-- The error of an attribute that is there with another value names where it was set before,
    which panics when that is not known. -/
def duplicateError (prev : List GraphElementKey) (key : GraphElementKey) : ExecutionError → ExecutionError
  | .duplicateAttribute name => if key ∈ prev then .duplicateAttribute name else .panicked
  | e => e

/-- Add an attribute's value under the key of its element. -/
def Building.addAttribute (b : Building) (key : GraphElementKey) (graph : Except ExecutionError Graph) :
    Except ExecutionError Building :=
  match graph with
  | .error e => .error (duplicateError b.prevElements key e)
  | .ok g => .ok ⟨g, key :: b.prevElements⟩

def addNodeAttributes (config : Config) (n : GraphNodeRef) : List LazyAttribute → Building → Eval Building
  | [], b => pure b
  | (name, v) :: attrs, b => do
    let value ← v.evaluate config
    let b' ← liftM (b.addAttribute (.nodeAttribute n name) (b.graph.addNodeAttribute n name value))
    addNodeAttributes config n attrs b'

def addEdgeAttributes (config : Config) (source sink : GraphNodeRef) : List LazyAttribute → Building → Eval Building
  | [], b => pure b
  | (name, v) :: attrs, b => do
    let value ← v.evaluate config
    let b' ← liftM (b.addAttribute (.edgeAttribute source sink name) (b.graph.addEdgeAttribute source sink name value))
    addEdgeAttributes config source sink attrs b'

def printArguments (config : Config) : List (Option LazyValue) → Eval Unit
  | [] => pure ()
  | none :: args => printArguments config args
  | some v :: args => do
    let _ ← v.evaluate config
    printArguments config args

/-- Evaluate a lazy statement. The attributes of an edge are set anew, whether it was there or not. -/
def LazyStatement.evaluate (config : Config) (b : Building) : LazyStatement → Eval Building
  | .addGraphNodeAttribute node attributes => do
    let n ← node.evaluateAsGraphNode config
    addNodeAttributes config n attributes b
  | .createEdge source sink attributes => do
    let s ← source.evaluateAsGraphNode config
    let t ← sink.evaluateAsGraphNode config
    let graph ← liftM (b.graph.addEdgeWith s t fun _ => .ok attributes)
    return { b with graph := graph }
  | .addEdgeAttribute source sink attributes => do
    let s ← source.evaluateAsGraphNode config
    let t ← sink.evaluateAsGraphNode config
    addEdgeAttributes config s t attributes b
  | .print arguments => do
    printArguments config arguments
    return b

def evaluateStatements (config : Config) : List LazyStatement → Building → Eval Building
  | [], b => pure b
  | s :: ss, b => do
    let b' ← s.evaluate config b
    evaluateStatements config ss b'

/-- Evaluate the lazy statements: the edges, the attributes, the prints. -/
def LazyGraph.evaluate (config : Config) (g : LazyGraph) (b : Building) : Eval Building := do
  let b ← evaluateStatements config g.edgeStatements b
  let b ← evaluateStatements config g.attrStatements b
  evaluateStatements config g.printStatements b

/-! ## Executing the matches -/

structure State where
  graph : Graph
  locals : Scopes LazyValue
  stores : Stores
  lazyGraph : LazyGraph

abbrev Exec : Type → Type := StateT State (Except ExecutionError)

/-- An evaluation as a step of the execution. -/
def evaluating {α : Type} (m : Eval α) : Exec α := fun st =>
  match m st.stores with
  | .error e => .error e
  | .ok (a, stores) => .ok (a, { st with stores := stores })

mutual

/-- The lazy value of an expression; the lists of comprehensions are evaluated at once. -/
def evaluateLazy (ctx : Context) (locals : Scopes LazyValue) : Expression → Eval LazyValue
  | .falseLiteral => pure (.value (.boolean false))
  | .nullLiteral => pure (.value .null)
  | .trueLiteral => pure (.value (.boolean true))
  | .integerConstant value => pure (.value (.integer value))
  | .stringConstant value => pure (.value (.string value))
  | .listLiteral elements => do
    let values ← evaluateAllLazy ctx locals elements
    return .list values
  | .setLiteral elements => do
    let values ← evaluateAllLazy ctx locals elements
    return .set values
  | .listComprehension element var value => do
    let lv ← evaluateLazy ctx locals value
    let v ← lv.evaluate ctx.config
    let values ← liftM v.intoList
    let elements ← values.mapM fun v => do
      let i ← Stores.add (.value v)
      let locals' ← liftM (ctx.config.addLocal locals.nested var (.var i) false)
      evaluateLazy ctx locals' element
    return .list elements
  | .setComprehension element var value => do
    let lv ← evaluateLazy ctx locals value
    let v ← lv.evaluate ctx.config
    let values ← liftM v.intoList
    let elements ← values.mapM fun v => do
      let i ← Stores.add (.value v)
      let locals' ← liftM (ctx.config.addLocal locals.nested var (.var i) false)
      evaluateLazy ctx locals' element
    return .set elements
  | .capture name => do
    let v ← liftM (ctx.capture name)
    return .value v
  | .scopedVariable scope name => do
    let s ← evaluateLazy ctx locals scope
    return .scopedVariable s name
  | .unscopedVariable name =>
    match ctx.config.globals name with
    | some v => pure (.value v)
    | none =>
      match locals.get name with
      | some v => pure v
      | none => throw (.undefinedVariable name)
  | .call function parameters => do
    let values ← evaluateAllLazy ctx locals parameters
    return .call function values
  | .regexCapture matchIndex =>
    match ctx.regexCaptures[matchIndex]? with
    | some s => pure (.value (.string s))
    | none => throw .panicked

def evaluateAllLazy (ctx : Context) (locals : Scopes LazyValue) : List Expression → Eval (List LazyValue)
  | [] => pure []
  | e :: es => do
    let v ← evaluateLazy ctx locals e
    let vs ← evaluateAllLazy ctx locals es
    return v :: vs

end

/-- Evaluate an expression at once. -/
def evaluateEager (ctx : Context) (locals : Scopes LazyValue) (e : Expression) : Eval Value := do
  let v ← evaluateLazy ctx locals e
  v.evaluate ctx.config

namespace State

def evaluateLazy (ctx : Context) (e : Expression) : Exec LazyValue := fun st => evaluating (Lazy.evaluateLazy ctx st.locals e) st

def evaluateEager (ctx : Context) (e : Expression) : Exec Value := fun st => evaluating (Lazy.evaluateEager ctx st.locals e) st

def setLocals (locals : Scopes LazyValue) : Exec Unit := fun st => .ok ((), { st with locals := locals })

/-- Declare a local variable, as a thunk. -/
def addLocal (ctx : Context) (name : Identifier) (value : LazyValue) (isMutable : Bool) : Exec Unit := do
  let i ← evaluating (Stores.add value)
  let st ← get
  let locals ← liftM (ctx.config.addLocal st.locals name (.var i) isMutable)
  setLocals locals

/-- Declare a variable, as a thunk. -/
def add (ctx : Context) (var : Variable) (value : LazyValue) (isMutable : Bool) : Exec Unit :=
  match var with
  | .scoped scope name _ =>
    if isMutable then throw (.cannotDefineMutableScopedVariable name)
    else do
      let s ← evaluateLazy ctx scope
      let i ← evaluating (Stores.add value)
      evaluating (Stores.addScoped s name i)
  | .unscoped name _ => addLocal ctx name value isMutable

/-- Assign a variable, as a new thunk. -/
def set (ctx : Context) (var : Variable) (value : LazyValue) : Exec Unit :=
  match var with
  | .scoped _ name _ => throw (.cannotAssignScopedVariable name)
  | .unscoped name _ => do
    let i ← evaluating (Stores.add value)
    let st ← get
    let locals ← liftM (ctx.config.setLocal st.locals name (.var i))
    setLocals locals

def push (s : LazyStatement) : Exec Unit := fun st => .ok ((), { st with lazyGraph := st.lazyGraph.push s })

/-- Run with a nested environment of its own. -/
def inScope (f : Exec Unit) : Exec Unit := fun st =>
  match f { st with locals := st.locals.nested } with
  | .error e => .error e
  | .ok (_, st') => .ok ((), { st' with locals := st'.locals.tail })

end State

/-- The lazy attributes of each, one after another. -/
def concatAttributes (f : Attribute → Eval (List LazyAttribute)) : List Attribute → Eval (List LazyAttribute)
  | [] => pure []
  | attr :: attrs => do
    let as ← f attr
    let bs ← concatAttributes f attrs
    return as ++ bs

/-- An attribute's lazy value, or those of its shorthand, in an environment of its own. -/
def executeAttribute : Context → Nat → Scopes LazyValue → Attribute → Eval (List LazyAttribute)
  | _, 0, _, _ => throw .outOfFuel
  | ctx, fuel + 1, locals, attr => do
    let value ← evaluateLazy ctx locals attr.value
    match ctx.config.shorthands attr.name with
    | none => return [(attr.name, value)]
    | some sh => do
      let i ← Stores.add value
      let locals' ← liftM (ctx.config.addLocal Scopes.new sh.var (.var i) false)
      concatAttributes (executeAttribute ctx.ofShorthand fuel locals') sh.attributes

def executeAttributes (ctx : Context) (fuel : Nat) (locals : Scopes LazyValue) (attrs : List Attribute) :
    Eval (List LazyAttribute) :=
  concatAttributes (executeAttribute ctx fuel locals) attrs

def testEager (ctx : Context) : Condition → Exec Bool
  | .some value => do
    let v ← State.evaluateEager ctx value
    return !v.isNull
  | .none value => do
    let v ← State.evaluateEager ctx value
    return v.isNull
  | .bool value => do
    let v ← State.evaluateEager ctx value
    liftM v.intoBoolean

/-- All conditions are tested, also after one that does not hold. -/
def testAllEager (ctx : Context) : List Condition → Exec Bool
  | [] => pure true
  | c :: cs => do
    let b ← testEager ctx c
    let bs ← testAllEager ctx cs
    return b && bs

/-- The lazy arguments of a print. -/
def executePrint (ctx : Context) : List Expression → Exec (List (Option LazyValue))
  | [] => pure []
  | .stringConstant _ :: es => do
    let args ← executePrint ctx es
    return none :: args
  | e :: es => do
    let v ← State.evaluateLazy ctx e
    let args ← executePrint ctx es
    return some v :: args

/-- Run a step for each value. -/
def forEach {α : Type} (f : α → Exec Unit) : List α → Exec Unit
  | [] => pure ()
  | a :: as => do
    f a
    forEach f as

mutual

/-- Execute a statement, attribute shorthands nested at most `fuel` deep. -/
def execute (fuel : Nat) (ctx : Context) : Statement → Exec Unit
  | .declareImmutable var value => do
    let v ← State.evaluateLazy ctx value
    State.add ctx var v false
  | .declareMutable var value => do
    let v ← State.evaluateLazy ctx value
    State.add ctx var v true
  | .assign var value => do
    let v ← State.evaluateLazy ctx value
    State.set ctx var v
  | .createGraphNode node => do
    let attributes ← liftM (node.nodeAttrs ctx.config ctx.mat.full)
    let st ← get
    StateT.set { st with graph := st.graph.addGraphNode attributes }
    State.add ctx node (.value (.graphNode st.graph.nodes.length)) false
  | .addGraphNodeAttribute node attributes => do
    let n ← State.evaluateLazy ctx node
    let st ← get
    let attrs ← evaluating (executeAttributes ctx fuel st.locals attributes)
    State.push (.addGraphNodeAttribute n attrs)
  | .createEdge source sink location => do
    let s ← State.evaluateLazy ctx source
    let t ← State.evaluateLazy ctx sink
    let attributes ← liftM (edgeDebugAttrs ctx.config location Attributes.empty)
    State.push (.createEdge s t attributes)
  | .addEdgeAttribute source sink attributes => do
    let s ← State.evaluateLazy ctx source
    let t ← State.evaluateLazy ctx sink
    let st ← get
    let attrs ← evaluating (executeAttributes ctx fuel st.locals attributes)
    State.push (.addEdgeAttribute s t attrs)
  | .scan value arms => do
    let v ← State.evaluateEager ctx value
    let text ← liftM v.intoString
    fun st => (scanText ctx.config (arms.map Prod.fst) (scanArms fuel ctx arms) text st).map ((), ·)
  | .print values => do
    let arguments ← executePrint ctx values
    State.push (.print arguments)
  | .ifs arms => executeIfs fuel ctx arms
  | .forIn var value statements => do
    let v ← State.evaluateEager ctx value
    let values ← liftM v.intoList
    forEach (fun v => State.inScope do
      State.addLocal ctx var (.value v) false
      executeAll fuel ctx statements) values

def executeAll (fuel : Nat) (ctx : Context) : List Statement → Exec Unit
  | [] => pure ()
  | s :: ss => do
    execute fuel ctx s
    executeAll fuel ctx ss

/-- What each arm of a scan does with the captures of its match. -/
def scanArms (fuel : Nat) (ctx : Context) :
    List (Regex × List Statement) → List (List String → State → Except ExecutionError State)
  | [] => []
  | (_, statements) :: arms =>
    (fun captures st => (State.inScope (executeAll fuel { ctx with regexCaptures := captures } statements) st).map Prod.snd) ::
      scanArms fuel ctx arms

/-- The first arm whose conditions all hold. -/
def executeIfs (fuel : Nat) (ctx : Context) : List (List Condition × List Statement) → Exec Unit
  | [] => pure ()
  | (conditions, statements) :: arms => do
    let holds ← testAllEager ctx conditions
    if holds then State.inScope (executeAll fuel ctx statements) else executeIfs fuel ctx arms

end

/-- Execute the matches of a file's stanzas, each with no local variables at first. -/
def executeMatches (fuel : Nat) (config : Config) : List (Stanza × QueryMatch) → Exec Unit
  | [] => pure ()
  | (stanza, mat) :: visits => do
    State.setLocals Scopes.new
    executeAll fuel ⟨config, stanza, mat, []⟩ stanza.statements
    executeMatches fuel config visits

/-- Evaluate what an execution of the matches left. -/
def evaluateState (config : Config) (st : State) : Except ExecutionError (Building × Stores) :=
  (do
    let b ← st.lazyGraph.evaluate config ⟨st.graph, []⟩
    evaluateThunks config (List.range st.stores.thunks.length)
    evaluateScopes config (st.stores.scopes.map Prod.fst)
    return b : Eval Building) st.stores

/-- Execute a file into a graph, the matches in the order in which they are visited. -/
def executeInto (fuel : Nat) (config : Config) (globals : List Global) (visits : List (Stanza × QueryMatch)) (g : Graph) :
    Except ExecutionError Graph := do
  let globals ← checkGlobals globals config.globals
  let config' := { config with globals := globals }
  let r ← executeMatches fuel config' visits ⟨g, Scopes.new, Stores.new, LazyGraph.new⟩
  let b ← evaluateState config' r.2
  return b.1.graph

end CodeQuery.Tsg.Lazy
