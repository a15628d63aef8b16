/-
  CodeQuery.Parse.Extraction — the two ways to extract symbols (`extract.rs`,
  `extract_engine.rs`), and the texts that the bodies of the symbols are.

  A language compiled in has an extractor of its own, any other the rules of its package.
  The former take a symbol's body from the node that its lines are of; a rule takes the
  first line from the name and the body, with the last line, from another capture.
  `bodies` keeps the body's node beside each symbol that has a body (`map_fst_bodies`).
-/

import CodeQuery.Index.Extracted
import CodeQuery.Parse.DefinitionNodes
import CodeQuery.Parse.ExtractEngine

namespace CodeQuery.Parse

open CodeQuery.Core CodeQuery.Index CodeQuery.Text

section Symbols

variable (texts : Definition → Texts) (file : Path) (d : Definition)

@[simp] theorem Definition.toSymbol_endLine : (d.toSymbol texts file).endLine = d.node.endPosition.row + 1 := by
  cases d; rw [Definition.toSymbol]

@[simp] theorem Definition.toSymbol_body : (d.toSymbol texts file).body = (texts d).body := by
  cases d; rw [Definition.toSymbol]

end Symbols

theorem toSymbols_eq_map (texts : Definition → Texts) (file : Path) (ds : List Definition) :
    toSymbols texts file ds = ds.map (Definition.toSymbol texts file) := by
  induction ds with
  | nil => rfl
  | cons d ds ih => rw [toSymbols, ih, List.map_cons]

/-! ## Extractions -/

/-- What symbols are extracted with: the extractor of a language, with the texts that are
    not modelled, or a package's rules. -/
inductive Extraction where
  | builtin (language : Language) (texts : TextsOf)
  | declared (config : ExtractConfig) (grammar : QueryLanguage)

/-- Every extractor takes the body from the definition's node. -/
def withBodies (texts : TextsOf) : TextsOf := fun source tree language d =>
  { texts source tree language d with body := some (extractBody source d.node) }

/-- No texts but the body, and all that is public. -/
def noTexts : TextsOf := fun _ _ _ _ => ⟨.public_, none, none, none⟩

/-- A match with a body, and the node of the body. -/
def matchBody (rule : CompiledRule) (source : Str) (file : Path) (captures : List Capture) : Option (Symbol × Node) :=
  ((matchSymbol rule source file captures).filter (·.body.isSome)).bind fun s =>
    (rule.bodyCapture.bind (captureSpot rule.query captures)).map fun spot => (s, spot.node)

namespace Extraction

section Results

variable (source : Str) (tree : Node) (file : Path)

def forest : Extraction → List Symbol
  | builtin language texts => extractSymbols (withBodies texts) source tree file language
  | declared config grammar => extractWithConfigUncached config source tree file grammar

/-- Ghost: the symbols with a body, at any depth, each with the node of its body. -/
def bodies : Extraction → List (Symbol × Node)
  | builtin language texts =>
    (preorderDefinitions (extractDefinitions source tree file language)).map fun d =>
      (d.toSymbol (withBodies texts source tree language) file, d.node)
  | declared config grammar =>
    (CompiledExtractor.compile config grammar).rules.flatMap fun rule =>
      (rule.query.run tree source).filterMap (matchBody rule source file)

end Results

end Extraction

/-- What the tree-sitter library promises of a query: it captures nodes of the tree. -/
def QueryLanguage.CapturesNodes (grammar : QueryLanguage) : Prop :=
  ∀ text query, grammar.query text = some query → ∀ tree source, ∀ captures ∈ query.run tree source,
    ∀ c ∈ captures, c.spot.node ∈ tree.preorder

def Extraction.CapturesNodes : Extraction → Prop
  | .builtin _ _ => True
  | .declared _ grammar => grammar.CapturesNodes

/-! ## The body's node -/

section Bodies

variable {source : Str} {tree : Node} {file : Path}

theorem utf8Text_eq_nodeSource {n : Node} {text : Str} (h : n.utf8Text source = some text) : text = nodeSource source n := by
  unfold Node.utf8Text at h
  split at h
  · exact (Option.some.inj h).symm
  · cases h

theorem compile_rules {config : ExtractConfig} {grammar : QueryLanguage} {rule : CompiledRule}
    (h : rule ∈ (CompiledExtractor.compile config grammar).rules) : ∃ text, grammar.query text = some rule.query := by
  obtain ⟨declared, -, hcompiled⟩ := List.mem_filterMap.mp h
  simp only [SymbolRule.compile, Option.bind_eq_bind, Option.bind_eq_some_iff, Option.some.injEq] at hcompiled
  obtain ⟨kind, -, query, hquery, rfl⟩ := hcompiled
  exact ⟨declared.query, hquery⟩

theorem captureSpot_mem {query : Query} {captures : List Capture} {name : String} {spot : Spot}
    (h : captureSpot query captures name = some spot) : ∃ c ∈ captures, c.spot = spot := by
  simp only [captureSpot, Option.bind_eq_bind, Option.bind_eq_some_iff, Option.map_eq_some_iff] at h
  obtain ⟨idx, -, c, hc, hspot⟩ := h
  exact ⟨c, List.mem_of_find?_eq_some hc, hspot⟩

/-- A match's symbol: the name and the body are captured, and the lines are from the name
    to the body's end. -/
theorem matchSymbol_some {rule : CompiledRule} {captures : List Capture} {s : Symbol}
    (h : matchSymbol rule source file captures = some s) :
    ∃ name, captureSpot rule.query captures rule.nameCapture = some name ∧ s.line = name.node.startPosition.row + 1 ∧
      s.children = [] ∧ s.body = rule.bodyCapture.bind (captureText rule.query captures · source) ∧
      ∀ body, rule.bodyCapture.bind (captureSpot rule.query captures) = some body →
        s.endLine = body.node.endPosition.row + 1 := by
  obtain ⟨text, htext, rfl⟩ := Option.map_eq_some_iff.mp h
  obtain ⟨name, hname, -⟩ := Option.bind_eq_some_iff.mp htext
  refine ⟨name, hname, ?_, rfl, rfl, fun body hbody => ?_⟩
  · simp only [matchRange, hname]
  · simp only [matchRange, hname, hbody, Option.getD_some]

/-- A body is the text of the node captured. -/
theorem matchSymbol_body {rule : CompiledRule} {captures : List Capture} {s : Symbol} {body : Str}
    (h : matchSymbol rule source file captures = some s) (hbody : s.body = some body) :
    ∃ spot, rule.bodyCapture.bind (captureSpot rule.query captures) = some spot ∧ body = nodeSource source spot.node := by
  obtain ⟨name, -, -, -, heq, -⟩ := matchSymbol_some h
  rw [heq] at hbody
  obtain ⟨capture, hcapture, htext⟩ := Option.bind_eq_some_iff.mp hbody
  obtain ⟨spot, hspot, htext⟩ := Option.bind_eq_some_iff.mp htext
  exact ⟨spot, by rw [hcapture, Option.bind_some, hspot], utf8Text_eq_nodeSource htext⟩

theorem matchBody_fst (rule : CompiledRule) (captures : List Capture) :
    (matchBody rule source file captures).map Prod.fst =
      (matchSymbol rule source file captures).filter (·.body.isSome) := by
  unfold matchBody
  cases hfound : (matchSymbol rule source file captures).filter (·.body.isSome) with
  | none => rfl
  | some s =>
    obtain ⟨hs, hsome⟩ := Option.filter_eq_some_iff.mp hfound
    obtain ⟨body, hbody⟩ := Option.isSome_iff_exists.mp hsome
    obtain ⟨spot, hspot, -⟩ := matchSymbol_body hs hbody
    rw [Option.bind_some, hspot]
    rfl

/-- Symbols without children are all there is. -/
theorem flattenAll_of_no_children {ss : List Symbol} (h : ∀ s ∈ ss, s.children = []) : SymbolIndex.flattenAll ss = ss := by
  induction ss with
  | nil => rfl
  | cons s ss ih =>
    obtain ⟨hs, hss⟩ := List.forall_mem_cons.mp h
    rw [SymbolIndex.flattenAll_eq, List.flatMap_cons, ← SymbolIndex.flattenAll_eq, ih hss, hs]
    rfl

theorem declared_no_children {config : ExtractConfig} {grammar : QueryLanguage} :
    ∀ s ∈ extractWithConfigUncached config source tree file grammar, s.children = [] := by
  intro s hs
  obtain ⟨rule, -, hs⟩ := List.mem_flatMap.mp hs
  obtain ⟨captures, -, hs⟩ := List.mem_filterMap.mp hs
  obtain ⟨-, -, -, hchildren, -⟩ := matchSymbol_some hs
  exact hchildren

/-- The symbols that have a body are those that `bodies` has a node for. -/
theorem Extraction.map_fst_bodies (x : Extraction) :
    (x.bodies source tree file).map Prod.fst =
      (SymbolIndex.flattenAll (x.forest source tree file)).filter (·.body.isSome) := by
  cases x with
  | builtin language texts =>
    have hbody : ∀ s ∈ (preorderDefinitions (extractDefinitions source tree file language)).map
        (Definition.toSymbol (withBodies texts source tree language) file), s.body.isSome = true := by
      intro s hs
      obtain ⟨d, -, rfl⟩ := List.mem_map.mp hs
      rw [Definition.toSymbol_body]
      rfl
    rw [forest, extractSymbols, flattenAll_toSymbols, List.filter_eq_self.mpr hbody, bodies, List.map_map]
    rfl
  | declared config grammar =>
    rw [forest, flattenAll_of_no_children declared_no_children, bodies, extractWithConfigUncached,
      CompiledExtractor.extract, List.map_flatMap, List.filter_flatMap]
    refine List.flatMap_congr fun rule _ => ?_
    rw [extractWithRule, List.map_filterMap, List.filter_filterMap]
    congr 1
    funext captures
    exact matchBody_fst rule captures

/-- The body is the text of its node, which is of the tree, and ends on the last line. -/
structure BodyOf (source : Str) (tree : Node) (s : Symbol) (n : Node) : Prop where
  mem : n ∈ tree.preorder
  body : s.body = some (nodeSource source n)
  endLine : s.endLine = n.endPosition.row + 1

theorem Extraction.bodyOf {x : Extraction} (hx : x.CapturesNodes) {s : Symbol} {n : Node}
    (h : (s, n) ∈ x.bodies source tree file) : BodyOf source tree s n := by
  cases x with
  | builtin language texts =>
    obtain ⟨d, hd, he⟩ := List.mem_map.mp h
    cases he
    exact ⟨(extractDefinitions_below source tree file language).preorder d hd,
      Definition.toSymbol_body .., Definition.toSymbol_endLine ..⟩
  | declared config grammar =>
    obtain ⟨rule, hrule, h⟩ := List.mem_flatMap.mp h
    obtain ⟨captures, hcaptures, h⟩ := List.mem_filterMap.mp h
    obtain ⟨symbol, hsymbol, h⟩ := Option.bind_eq_some_iff.mp h
    obtain ⟨hsymbol, hsome⟩ := Option.filter_eq_some_iff.mp hsymbol
    obtain ⟨spot, hspot, h⟩ := Option.map_eq_some_iff.mp h
    cases h
    obtain ⟨body, hbody⟩ := Option.isSome_iff_exists.mp hsome
    obtain ⟨own, hown, htext⟩ := matchSymbol_body hsymbol hbody
    rw [hspot] at hown
    cases hown
    obtain ⟨-, -, -, -, -, hendLine⟩ := matchSymbol_some hsymbol
    obtain ⟨text, hquery⟩ := compile_rules hrule
    obtain ⟨capture, -, hspot'⟩ := Option.bind_eq_some_iff.mp hspot
    obtain ⟨c, hc, rfl⟩ := captureSpot_mem hspot'
    exact ⟨hx text rule.query hquery tree source captures hcaptures c hc, by rw [hbody, htext], hendLine _ hspot⟩

/-- The extractors compiled in take the first line from the body's node too. -/
theorem Extraction.builtin_line {language : Language} {texts : TextsOf} {s : Symbol} {n : Node}
    (h : (s, n) ∈ (Extraction.builtin language texts).bodies source tree file) : s.line = n.startPosition.row + 1 := by
  obtain ⟨d, -, he⟩ := List.mem_map.mp h
  cases he
  exact Definition.toSymbol_line ..

end Bodies

end CodeQuery.Parse
