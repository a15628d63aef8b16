/-
  CodeQuery.Parse.DefinitionNodes — the nodes that definitions are of
  (`codequery-parse/src/languages/*.rs`).

  Every extractor takes the nodes of its definitions from the tree, and those of the
  definitions in a definition from below its node (`extractDefinitions_below`). For the
  extractors whose texts are modelled this is part of `RendersBelow`.
-/

import CodeQuery.Parse.Extract
import CodeQuery.Parse.SymbolRanges

namespace CodeQuery.Parse

open CodeQuery.Core CodeQuery.Text

/-! ## Definitions at every depth -/

section Preorder

variable {P : Definition → Prop}

mutual

/-- What a definition hands on to those in it, all of them have. -/
theorem Definition.preorder_closed (hchild : ∀ d, P d → ∀ c ∈ d.children, P c) : ∀ d : Definition, P d → ∀ e ∈ d.preorder, P e
  | ⟨_, _, _, _, children⟩, h, e, he => by
    rw [Definition.preorder] at he
    rcases List.mem_cons.mp he with rfl | he
    · exact h
    · exact preorderDefinitions_closed hchild children (hchild _ h) e he

theorem preorderDefinitions_closed (hchild : ∀ d, P d → ∀ c ∈ d.children, P c) : ∀ ds : List Definition, (∀ d ∈ ds, P d) →
    ∀ e ∈ preorderDefinitions ds, P e
  | [], _, e, he => by cases he
  | d :: ds, h, e, he => by
    rw [preorderDefinitions] at he
    rcases List.mem_append.mp he with he | he
    · exact Definition.preorder_closed hchild d (h d List.mem_cons_self) e he
    · exact preorderDefinitions_closed hchild ds (fun d' hd' => h d' (List.mem_cons_of_mem _ hd')) e he

end

theorem mem_preorderDefinitions {ds : List Definition} {e : Definition} (h : e ∈ preorderDefinitions ds) :
    ∃ d ∈ ds, e ∈ d.preorder := by
  induction ds with
  | nil => cases h
  | cons d ds ih =>
    rw [preorderDefinitions] at h
    rcases List.mem_append.mp h with h | h
    · exact ⟨d, List.mem_cons_self, h⟩
    · obtain ⟨d', hd', h⟩ := ih h
      exact ⟨d', List.mem_cons_of_mem _ hd', h⟩

theorem mem_preorderDefinitions_of_mem {ds : List Definition} {d e : Definition} (hd : d ∈ ds) (he : e ∈ d.preorder) :
    e ∈ preorderDefinitions ds := by
  induction ds with
  | nil => cases hd
  | cons d' ds ih =>
    rw [preorderDefinitions]
    rcases List.mem_cons.mp hd with rfl | hd
    · exact List.mem_append_left _ he
    · exact List.mem_append_right _ (ih hd)

theorem Definition.self_mem_preorder (d : Definition) : d ∈ d.preorder := by
  cases d
  rw [Definition.preorder]
  exact List.mem_cons_self

theorem Definition.child_mem_preorder {d c : Definition} (hc : c ∈ d.children) : c ∈ d.preorder := by
  cases d
  rw [Definition.preorder]
  exact List.mem_cons_of_mem _ (mem_preorderDefinitions_of_mem hc c.self_mem_preorder)

mutual

theorem Definition.preorder_children : ∀ d : Definition, ∀ e ∈ d.preorder, ∀ c ∈ e.children, c ∈ d.preorder
  | ⟨name, kind, node, place, children⟩, e, he, c, hc => by
    rw [Definition.preorder] at he
    rcases List.mem_cons.mp he with rfl | he
    · exact Definition.child_mem_preorder hc
    · rw [Definition.preorder]
      exact List.mem_cons_of_mem _ (preorderDefinitions_children children e he c hc)

/-- With a definition there are those in it. -/
theorem preorderDefinitions_children : ∀ ds : List Definition, ∀ e ∈ preorderDefinitions ds, ∀ c ∈ e.children,
    c ∈ preorderDefinitions ds
  | [], e, he, _, _ => by cases he
  | d :: ds, e, he, c, hc => by
    rw [preorderDefinitions] at he ⊢
    rcases List.mem_append.mp he with he | he
    · exact List.mem_append_left _ (Definition.preorder_children d e he c hc)
    · exact List.mem_append_right _ (preorderDefinitions_children ds e he c hc)

end

end Preorder

/-! ## Definitions below a node -/

/-- The definition is of a node below, or this one, and the definitions in it are of nodes
    below its own. -/
inductive StandsBelow : Node → Definition → Prop where
  | mk {n : Node} {d : Definition} :
      d.node ∈ n.preorder → (∀ c ∈ d.children, StandsBelow d.node c) → StandsBelow n d

def AllBelow (n : Node) (ds : List Definition) : Prop := ∀ d ∈ ds, StandsBelow n d

/-! ## Among the children -/

section Below

variable {α : Type*} {n m : Node} {name : Str} {kind : SymbolKind} {place : Option Point}

theorem StandsBelow.mono {d : Definition} (hm : m ∈ n.preorder) (h : StandsBelow m d) : StandsBelow n d := by
  cases h with
  | mk hnode hchildren => exact .mk (preorder_trans hm hnode) hchildren

/-- A definition of the node itself. -/
theorem standsBelow_self {children : List Definition} (h : AllBelow n children) :
    StandsBelow n ⟨name, kind, n, place, children⟩ := .mk (self_mem_preorder n) h

theorem standsBelow_leaf (kind : SymbolKind) (name : Str × Point) : StandsBelow n (.leaf kind n name) :=
  standsBelow_self fun _ h => absurd h List.not_mem_nil

theorem StandsBelow.node_mem {d : Definition} (h : StandsBelow n d) : d.node ∈ n.preorder := by
  cases h with
  | mk hnode _ => exact hnode

theorem StandsBelow.child {d : Definition} (h : StandsBelow n d) : ∀ c ∈ d.children, StandsBelow n c := by
  cases h with
  | mk hnode hchildren => exact fun c hc => (hchildren c hc).mono hnode

namespace AllBelow

/-- At every depth. -/
theorem preorder {ds : List Definition} (h : AllBelow n ds) : ∀ e ∈ preorderDefinitions ds, e.node ∈ n.preorder :=
  fun e he => (preorderDefinitions_closed (fun _ hd => hd.child) ds h e he).node_mem

theorem nil : AllBelow n [] := fun _ h => absurd h List.not_mem_nil

theorem mono {ds : List Definition} (hm : m ∈ n.preorder) (h : AllBelow m ds) : AllBelow n ds :=
  fun d hd => (h d hd).mono hm

theorem append {ds es : List Definition} (hd : AllBelow n ds) (he : AllBelow n es) : AllBelow n (ds ++ es) := by
  intro d h
  rcases List.mem_append.mp h with h | h
  · exact hd d h
  · exact he d h

theorem singleton {d : Definition} (h : StandsBelow n d) : AllBelow n [d] := by
  intro e he
  rw [List.mem_singleton.mp he]
  exact h

/-- At most one definition. -/
theorem map {f : α → Definition} (o : Option α) (h : ∀ a, StandsBelow n (f a)) : AllBelow n (o.map f).toList := by
  cases o with
  | none => exact nil
  | some a => exact singleton (h a)

theorem bind {f : α → Option Definition} (o : Option α) (h : ∀ a, AllBelow n (f a).toList) :
    AllBelow n (o.bind f).toList := by
  cases o with
  | none => exact nil
  | some a => exact h a

theorem leaf (kind : SymbolKind) (name : Option (Str × Point)) : AllBelow n (name.map (.leaf kind n)).toList :=
  map name (standsBelow_leaf kind)

theorem flatMap {f : α → List Definition} {as : List α} (h : ∀ a ∈ as, AllBelow n (f a)) : AllBelow n (as.flatMap f) := by
  intro d hd
  obtain ⟨a, ha, hd⟩ := List.mem_flatMap.mp hd
  exact h a ha d hd

/-- A loop over some of the node's children. -/
theorem children {f : Node → List Definition} {cs : List Node} (hcs : cs ⊆ n.children)
    (h : ∀ c ∈ cs, AllBelow c (f c)) : AllBelow n (cs.flatMap f) :=
  flatMap fun c hc => (h c hc).mono (child_mem_preorder (hcs hc))

theorem children_filterMap {f : Node → Option Definition} {cs : List Node} (hcs : cs ⊆ n.children)
    (h : ∀ c ∈ cs, AllBelow c (f c).toList) : AllBelow n (cs.filterMap f) := by
  rw [List.filterMap_eq_flatMap_toList]
  exact children hcs h

theorem ite {p : Prop} [Decidable p] {ds es : List Definition} (hd : AllBelow n ds) (he : AllBelow n es) :
    AllBelow n (if p then ds else es) := by
  split
  · exact hd
  · exact he

end AllBelow

theorem soundChildren_subset (n : Node) : n.soundChildren ⊆ n.children := List.filter_subset_self _

/-- Every child that is gone into. -/
theorem allBelow_soundChildren {f : Node → List Definition} (h : ∀ c, AllBelow c (f c)) :
    AllBelow n (n.soundChildren.flatMap f) := .children (soundChildren_subset n) fun c _ => h c

theorem allBelow_soundChildren_filterMap {f : Node → Option Definition} (h : ∀ c, AllBelow c (f c).toList) :
    AllBelow n (n.soundChildren.filterMap f) := .children_filterMap (soundChildren_subset n) fun c _ => h c

/-- The loops over the children of one kind, and over what is in these. -/
theorem allBelow_filter {p : Node → Bool} {f : Node → List Definition} (h : ∀ c, AllBelow c (f c)) :
    AllBelow n ((n.children.filter p).flatMap f) := .children (List.filter_subset_self _) fun c _ => h c

theorem allBelow_filter_filterMap {p : Node → Bool} {f : Node → Option Definition} (h : ∀ c, AllBelow c (f c).toList) :
    AllBelow n ((n.children.filter p).filterMap f) := .children_filterMap (List.filter_subset_self _) fun c _ => h c

end Below

/-! ## The extractors -/

section Extractors

variable {source : Str}

theorem Bash.extractTopLevel_below (node : Node) : AllBelow node (Bash.extractTopLevel source node) := by
  unfold Bash.extractTopLevel
  split
  · exact .leaf _ _
  · exact .nil

theorem C.extractTopLevel_below (node : Node) : AllBelow node (C.extractTopLevel source node).toList := by
  unfold C.extractTopLevel
  split
  all_goals first | exact .leaf _ _ | exact .nil

mutual

theorem C.walkChildren_below : ∀ n : Node, AllBelow n (C.walkChildren source n)
  | ⟨_, _, _, _, _, _, _, _, _, cs⟩ => by
    rw [C.walkChildren]
    exact C.walkAll_below cs (List.Subset.refl cs)

theorem C.walkAll_below {n : Node} : ∀ cs : List Node, cs ⊆ n.children → AllBelow n (C.walkAll source cs)
  | [], _ => by
    rw [C.walkAll]
    exact .nil
  | c :: cs, h => by
    obtain ⟨hc, hcs⟩ := List.cons_subset.mp h
    rw [C.walkAll]
    refine .append (.mono (child_mem_preorder hc) (.ite .nil (.ite ?_ ?_))) (C.walkAll_below cs hcs)
    · exact C.walkChildren_below c
    · exact C.extractTopLevel_below c

end

theorem Css.extractCustomProperty_below (node : Node) : AllBelow node (Css.extractCustomProperty source node).toList :=
  .bind _ fun name => by
    split
    · exact .singleton (standsBelow_leaf _ name)
    · exact .nil

theorem Css.extractBlock_below (node : Node) : AllBelow node (Css.extractBlock source node) := by
  unfold Css.extractBlock
  split
  · exact .nil
  · rename_i block hblock
    exact .mono (child_mem_preorder (List.mem_of_find?_eq_some hblock))
      (allBelow_filter_filterMap Css.extractCustomProperty_below)

theorem Css.extractMediaQuery_below (node : Node) : StandsBelow node (Css.extractMediaQuery source node) := by
  unfold Css.extractMediaQuery
  dsimp only
  split
  · exact standsBelow_leaf _ _
  · exact standsBelow_leaf _ _

theorem Css.extractTopLevel_below (node : Node) : AllBelow node (Css.extractTopLevel source node) := by
  unfold Css.extractTopLevel
  split
  · exact .append (.leaf _ _) (Css.extractBlock_below node)
  · exact .singleton (Css.extractMediaQuery_below node)
  · exact .map _ fun _ => standsBelow_self .nil
  · exact Css.extractCustomProperty_below node
  · exact .nil

theorem Go.extractTypeSpec_below (child : Node) : AllBelow child (Go.extractTypeSpec source child).toList := by
  unfold Go.extractTypeSpec
  split
  · exact .map _ fun name => standsBelow_leaf _ name
  · exact .leaf _ _
  · exact .nil

theorem Go.extractVarDeclaration_below (node : Node) : AllBelow node (Go.extractVarDeclaration source node) := by
  refine .children (List.Subset.refl _) fun child _ => ?_
  split
  · exact .leaf _ _
  · exact allBelow_filter_filterMap fun _ => .leaf _ _
  · exact .nil

theorem Go.extractTopLevel_below (isTestFile : Bool) (node : Node) :
    AllBelow node (Go.extractTopLevel source isTestFile node) := by
  have named : ∀ kind : Str × Point → SymbolKind,
      AllBelow node ((nodeFieldText source node "name").toList.map fun name => .leaf (kind name) node name) := by
    intro kind
    rw [← Option.toList_map]
    exact .map _ fun name => standsBelow_leaf _ name
  unfold Go.extractTopLevel
  split
  · exact named _
  · exact named _
  · exact .children_filterMap (List.Subset.refl _) fun child _ => Go.extractTypeSpec_below child
  · exact allBelow_filter_filterMap fun _ => .leaf _ _
  · exact Go.extractVarDeclaration_below node
  · exact .nil

theorem Html.extractElement_below (node : Node) : AllBelow node (Html.extractElement source node).toList := by
  unfold Html.extractElement
  dsimp only
  split
  · exact .singleton (standsBelow_self .nil)
  · exact .singleton (standsBelow_self .nil)
  · split
    · exact .singleton (standsBelow_self .nil)
    · exact .nil

mutual

theorem Html.extractRecursive_below (depth : Nat) : ∀ n : Node, AllBelow n (Html.extractRecursive source depth n)
  | ⟨kind, field, startByte, endByte, startPosition, endPosition, isNamed, isError, isMissing, cs⟩ => by
    rw [Html.extractRecursive]
    refine .ite .nil (.append (.ite ?_ .nil) ?_)
    · exact Html.extractElement_below _
    · exact Html.extractRecursiveAll_below (depth + 1) cs (List.Subset.refl cs)

theorem Html.extractRecursiveAll_below {n : Node} (depth : Nat) : ∀ cs : List Node, cs ⊆ n.children →
    AllBelow n (Html.extractRecursiveAll source depth cs)
  | [], _ => by
    rw [Html.extractRecursiveAll]
    exact .nil
  | c :: cs, h => by
    obtain ⟨hc, hcs⟩ := List.cons_subset.mp h
    rw [Html.extractRecursiveAll]
    refine .append (.mono (child_mem_preorder hc) (.ite .nil ?_)) (Html.extractRecursiveAll_below depth cs hcs)
    exact Html.extractRecursive_below depth c

end

theorem Json.extractPair_below (node : Node) : AllBelow node (Json.extractPair source node).toList :=
  .bind _ fun name => .map _ fun _ => standsBelow_leaf _ name

theorem Json.extractSymbols_below (tree : Node) : AllBelow tree (Json.extractSymbols source tree) := by
  unfold Json.extractSymbols
  split
  · rename_i obj hobj
    refine .ite (.mono ?_ (allBelow_filter_filterMap Json.extractPair_below)) .nil
    -- the document's value, or the tree
    unfold Json.valueNode at hobj
    split at hobj
    · exact child_mem_preorder (List.mem_of_find?_eq_some hobj)
    · split at hobj
      · cases hobj
        exact self_mem_preorder tree
      · cases hobj
  · exact .nil

theorem Kotlin.extractMember_below (member : Node) : AllBelow member (Kotlin.extractMember source member).toList := by
  unfold Kotlin.extractMember
  split
  · exact .leaf _ _
  · exact .leaf _ _
  · exact .nil

theorem Kotlin.extractClassBodyMembers_below (node : Node) :
    AllBelow node (Kotlin.extractClassBodyMembers source node) :=
  allBelow_filter fun _ => allBelow_soundChildren_filterMap Kotlin.extractMember_below

theorem Kotlin.extractTopLevel_below (node : Node) : AllBelow node (Kotlin.extractTopLevel source node).toList := by
  have members : AllBelow node (Kotlin.extractClassBodyMembers source node) := Kotlin.extractClassBodyMembers_below node
  unfold Kotlin.extractTopLevel
  split
  · exact .leaf _ _
  · refine .map _ fun name => ?_
    dsimp only
    split_ifs
    · exact standsBelow_self .nil
    · exact standsBelow_self members
    · exact standsBelow_self .nil
    · exact standsBelow_self members
  · exact .map _ fun _ => standsBelow_self members
  · exact .nil

theorem Lua.extractVariableSymbol_below (node : Node) : AllBelow node (Lua.extractVariableSymbol source node) := by
  refine .flatMap fun child _ => ?_
  split
  · split
    · exact .ite .nil (.singleton (standsBelow_leaf _ _))
    · exact .nil
  · exact .nil

theorem Lua.extractTopLevel_below (node : Node) : AllBelow node (Lua.extractTopLevel source node) := by
  unfold Lua.extractTopLevel
  split
  · exact .singleton (standsBelow_self .nil)
  · exact Lua.extractVariableSymbol_below node
  · exact .nil

theorem Php.extractConstDeclaration_below (node : Node) : AllBelow node (Php.extractConstDeclaration source node) :=
  .flatMap fun _ _ => .leaf _ _

theorem Php.extractMember_below (member : Node) : AllBelow member (Php.extractMember source member) := by
  unfold Php.extractMember
  split
  · exact .leaf _ _
  · exact Php.extractConstDeclaration_below member
  · exact .nil

theorem Php.extractType_below (kind : SymbolKind) (node : Node) : AllBelow node (Php.extractType source kind node).toList :=
  .map _ fun _ => standsBelow_self (allBelow_filter fun _ => allBelow_soundChildren Php.extractMember_below)

theorem Php.extractTopLevel_below (node : Node) : AllBelow node (Php.extractTopLevel source node) := by
  unfold Php.extractTopLevel
  split
  · exact .leaf _ _
  · exact Php.extractType_below _ node
  · exact Php.extractType_below _ node
  · exact Php.extractType_below _ node
  · exact Php.extractConstDeclaration_below node
  · exact .leaf _ _
  · exact .nil

theorem Scala.extractMember_below (member : Node) : AllBelow member (Scala.extractMember source member).toList := by
  unfold Scala.extractMember
  split
  · exact .leaf _ _
  · exact .leaf _ _
  · exact .leaf _ _
  · exact .nil

theorem Scala.extractTopLevel_below (node : Node) : AllBelow node (Scala.extractTopLevel source node).toList := by
  have members : AllBelow node (Scala.extractTemplateBodyMembers source node) :=
    allBelow_filter fun _ => allBelow_soundChildren_filterMap Scala.extractMember_below
  refine .bind _ fun name => ?_
  dsimp only
  split
  · split
    · exact .singleton (standsBelow_self .nil)
    · exact .singleton (standsBelow_self members)
  · exact .singleton (standsBelow_self members)
  · exact .singleton (standsBelow_self members)
  · exact .singleton (standsBelow_self .nil)
  · exact .singleton (standsBelow_self .nil)
  · exact .nil

theorem Swift.extractMembers_below (bodyKind methodKind : String) (node : Node) :
    AllBelow node (Swift.extractMembers source bodyKind methodKind node) := by
  refine allBelow_filter fun body => .children_filterMap ?_ fun _ _ => .leaf _ _
  exact List.Subset.trans (List.filter_subset_self _) (soundChildren_subset body)

theorem Swift.extractClassDeclaration_below (node : Node) :
    AllBelow node (Swift.extractClassDeclaration source node).toList := by
  have members : AllBelow node (Swift.extractClassBodyMembers source node) := Swift.extractMembers_below _ _ node
  refine .bind _ fun name => ?_
  dsimp only
  split
  · exact .singleton (standsBelow_self members)
  · exact .singleton (standsBelow_self members)
  · exact .singleton (standsBelow_self .nil)
  · exact .singleton (standsBelow_self members)
  · exact .nil

theorem Swift.extractTopLevel_below (node : Node) : AllBelow node (Swift.extractTopLevel source node).toList := by
  unfold Swift.extractTopLevel
  split
  · exact .leaf _ _
  · exact Swift.extractClassDeclaration_below node
  · exact .map _ fun _ => standsBelow_self (Swift.extractMembers_below _ _ node)
  · exact .nil

theorem Toml.extractTopLevel_below (node : Node) : AllBelow node (Toml.extractTopLevel source node).toList := by
  unfold Toml.extractTopLevel
  split
  · exact .leaf _ _
  · exact .leaf _ _
  · refine .bind _ fun name => ?_
    split
    · exact .nil
    · exact .singleton (standsBelow_leaf _ name)
  · exact .nil

theorem Yaml.extractMappingPair_below (node : Node) (depth : Nat) :
    AllBelow node (Yaml.extractMappingPair source node depth).toList := by
  unfold Yaml.extractMappingPair
  split
  · exact .nil
  · refine .bind _ fun name => ?_
    split
    · exact .nil
    · exact .singleton (standsBelow_leaf _ name)

theorem Yaml.extractAnchor_below (node : Node) : AllBelow node (Yaml.extractAnchor source node).toList := by
  refine .bind _ fun text => ?_
  split
  · dsimp only
    split
    · exact .nil
    · exact .singleton (standsBelow_self .nil)
  · exact .nil

mutual

theorem Yaml.extractFromChild_below (depth : Nat) : ∀ n : Node, AllBelow n (Yaml.extractFromChild source depth n)
  | ⟨kind, field, startByte, endByte, startPosition, endPosition, isNamed, isError, isMissing, cs⟩ => by
    have below := Yaml.extractFromChildren_below (n := ⟨kind, field, startByte, endByte, startPosition, endPosition,
      isNamed, isError, isMissing, cs⟩) depth cs (List.Subset.refl cs)
    unfold Yaml.extractFromChild
    split
    · exact Yaml.extractMappingPair_below _ depth
    · exact Yaml.extractMappingPair_below _ depth
    · exact Yaml.extractAnchor_below _
    · exact .ite .nil below

theorem Yaml.extractFromChildren_below {n : Node} (depth : Nat) : ∀ cs : List Node, cs ⊆ n.children →
    AllBelow n (Yaml.extractFromChildren source depth cs)
  | [], _ => by
    rw [Yaml.extractFromChildren]
    exact .nil
  | c :: cs, h => by
    obtain ⟨hc, hcs⟩ := List.cons_subset.mp h
    rw [Yaml.extractFromChildren]
    refine .append (.mono (child_mem_preorder hc) (.ite .nil ?_)) (Yaml.extractFromChildren_below depth cs hcs)
    exact Yaml.extractFromChild_below depth c

end

theorem Zig.extractTopLevel_below (node : Node) : AllBelow node (Zig.extractTopLevel source node).toList := by
  unfold Zig.extractTopLevel
  split
  · exact .leaf _ _
  · exact .bind _ fun name => .map _ fun _ => standsBelow_leaf _ name
  · exact .singleton (standsBelow_self .nil)
  · exact .nil

theorem Yaml.extractSymbols_below (tree : Node) : AllBelow tree (Yaml.extractSymbols source tree) := by
  unfold Yaml.extractSymbols Yaml.extractFromNode
  exact .ite .nil (Yaml.extractFromChildren_below 0 tree.children (List.Subset.refl _))

/-! ## Those with their texts -/

mutual

theorem standsBelow_of_renders {file : Path} {n : Node} : ∀ (d : Definition) (s : Symbol), d.node ∈ n.preorder →
    Renders source file d s → StandsBelow n d
  | ⟨name, kind, node, place, children⟩, s, hnode, h => by
    rw [Renders] at h
    obtain ⟨-, -, -, -, -, -, -, hchildren⟩ := h
    exact .mk hnode (allBelow_of_rendersAll children s.children hchildren)

theorem allBelow_of_rendersAll {file : Path} {n : Node} : ∀ (ds : List Definition) (ss : List Symbol),
    RendersAll source file n ds ss → AllBelow n ds
  | [], _, _ => .nil
  | d :: ds, ss, h => by
    rw [RendersAll] at h
    obtain ⟨s, ss', -, ⟨hnode, hs⟩, hss⟩ := h
    intro e he
    rcases List.mem_cons.mp he with he | he
    · rw [he]
      exact standsBelow_of_renders d s hnode hs
    · exact allBelow_of_rendersAll ds ss' hss e he

end

theorem Extractor.definitions_below (tree : Node) (e : Extractor) : AllBelow tree (e.definitions source tree) :=
  allBelow_of_rendersAll _ _ (rendersAll_iff.mpr (@Extractor.extractSymbols_renders source [] tree e))

/-- Whatever the language and the tree. -/
theorem extractDefinitions_below (source : Str) (tree : Node) (file : Path) (language : Language) :
    AllBelow tree (extractDefinitions source tree file language) := by
  cases language with
  | rust => exact Extractor.definitions_below tree .rust
  | python => exact Extractor.definitions_below tree .python
  | typeScript => exact Extractor.definitions_below tree .typeScript
  | javaScript => exact Extractor.definitions_below tree .typeScript
  | cpp => exact Extractor.definitions_below tree .cpp
  | java => exact Extractor.definitions_below tree .java
  | cSharp => exact Extractor.definitions_below tree .cSharp
  | ruby => exact Extractor.definitions_below tree .ruby
  | go => exact allBelow_soundChildren (Go.extractTopLevel_below _)
  | c => exact C.walkChildren_below tree
  | php => exact allBelow_soundChildren Php.extractTopLevel_below
  | swift => exact allBelow_soundChildren_filterMap Swift.extractTopLevel_below
  | kotlin => exact allBelow_soundChildren_filterMap Kotlin.extractTopLevel_below
  | scala => exact allBelow_soundChildren_filterMap Scala.extractTopLevel_below
  | zig => exact allBelow_soundChildren_filterMap Zig.extractTopLevel_below
  | lua => exact allBelow_soundChildren Lua.extractTopLevel_below
  | bash => exact allBelow_soundChildren Bash.extractTopLevel_below
  | html => exact Html.extractRecursive_below 0 tree
  | css => exact allBelow_soundChildren Css.extractTopLevel_below
  | json => exact Json.extractSymbols_below tree
  | yaml => exact Yaml.extractSymbols_below tree
  | toml => exact allBelow_soundChildren_filterMap Toml.extractTopLevel_below

end Extractors

end CodeQuery.Parse
