/-
  CodeQuery.Parse.RustItems — which items of a Rust file become symbols.

  Items stand at the top level, in the body of an `impl`, of a trait or of a module, in
  one another to any depth. The extractor yields those at the top level and the functions
  right in an `impl` there (`chains_extractSymbols`). So every item has its symbol, under
  that of what encloses it, exactly when the file has no others (`symbols_complete_iff`);
  what is in a module or a trait has none.
-/

import CodeQuery.Parse.Items

namespace CodeQuery.Parse.Rust

open CodeQuery.Core CodeQuery.Text

/-! ## The items of a file -/

/-- Functions, structs, enums, traits, types, consts, statics and modules; those without
    a body or a value too. -/
def itemKinds : List String :=
  ["function_item", "function_signature_item", "struct_item", "enum_item", "trait_item", "type_item", "associated_type",
    "const_item", "static_item", "mod_item"]

/-- Those that the extractor has an arm for. -/
def yieldedKinds : List String :=
  ["function_item", "struct_item", "enum_item", "trait_item", "type_item", "const_item", "static_item", "mod_item"]

def enclosingKinds : List String := ["impl_item", "trait_item", "mod_item"]

mutual

/-- The items in a node's body, each behind those that enclose it there. -/
def itemsIn : Node → List (List Node)
  | ⟨kind, _, _, _, _, _, _, _, _, cs⟩ => if enclosingKinds.contains kind then itemsInBody cs else []

def itemsInBody : List Node → List (List Node)
  | [] => []
  | ⟨_, field, _, _, _, _, _, _, _, inner⟩ :: cs => if field = some "body" then itemsAmong inner else itemsInBody cs

def itemsAmong : List Node → List (List Node)
  | [] => []
  | c :: cs =>
    (if c.isError || c.isMissing then []
      else (if itemKinds.contains c.kind then [[c]] else []) ++ (itemsIn c).map (c :: ·)) ++ itemsAmong cs

end

def itemChains (tree : Node) : List (List Node) := itemsAmong tree.children

section Labels

variable (source : Str)

/-- An `impl` is named by its type and its trait. -/
def itemName (n : Node) : Option Str :=
  if n.kind = "impl_item" then (extractImplName source n).map (·.1) else (nodeFieldText source n "name").map (·.1)

def itemLabel (n : Node) : Label := n.label (itemName source n)

/-- The chains of the symbols of items: an `impl` is none. -/
def isItemChain (chain : List Symbol) : Bool := chain.getLast?.any (·.kind != .impl)

/-- Every item yields one symbol, with its name and its range, under that of the item
    that encloses it. -/
def Complete (texts : TextsOf) (file : Path) (tree : Node) : Prop :=
  ((symbolChainsAll (Parse.extractSymbols texts source tree file .rust)).filter isItemChain).map (List.map symbolLabel) =
    (itemChains tree).map (List.map (itemLabel source))

/-- At the top level, of these kinds; or a function in an `impl` there. Each has a name
    that can be read. -/
def isShallow : List Node → Bool
  | [n] => yieldedKinds.contains n.kind && (itemName source n).isSome
  | [i, n] => (i.kind == "impl_item" && (itemName source i).isSome) && (n.kind == "function_item" && (itemName source n).isSome)
  | _ => false

end Labels

/-! ## Among some nodes -/

/-- An item, then those in it. -/
def itemsAt (n : Node) : List (List Node) :=
  (if itemKinds.contains n.kind then [[n]] else []) ++ (itemsIn n).map (n :: ·)

theorem itemsAmong_eq (cs : List Node) :
    itemsAmong cs = (cs.filter fun c => !(c.isError || c.isMissing)).flatMap itemsAt := by
  induction cs with
  | nil => rfl
  | cons c cs ih =>
    rw [itemsAmong, ih, List.filter_cons]
    by_cases hskip : (c.isError || c.isMissing) = true
    · simp [hskip]
    · simp [hskip, itemsAt]

theorem itemsInBody_eq (cs : List Node) :
    itemsInBody cs = ((cs.find? (·.field == some "body")).map fun body => itemsAmong body.children).getD [] := by
  induction cs with
  | nil => rfl
  | cons c cs ih =>
    obtain ⟨kind, field, _, _, _, _, _, _, _, inner⟩ := c
    rw [itemsInBody, ih, List.find?_cons]
    by_cases hbody : field = some "body"
    · rw [if_pos hbody, beq_iff_eq.mpr hbody]
      rfl
    · rw [if_neg hbody, beq_eq_false_iff_ne.mpr hbody]

theorem itemsIn_eq (n : Node) : itemsIn n =
    if enclosingKinds.contains n.kind then ((n.childByFieldName "body").map fun body => itemsAmong body.children).getD []
    else [] := by
  obtain ⟨kind, _, _, _, _, _, _, _, _, cs⟩ := n
  rw [itemsIn, itemsInBody_eq]
  rfl

theorem itemsAt_ne_nil {n : Node} {chain : List Node} (h : chain ∈ itemsAt n) : chain ≠ [] := by
  rcases List.mem_append.mp h with h | h
  · split at h
    · rw [List.mem_singleton.mp h]
      exact List.cons_ne_nil _ _
    · exact absurd h List.not_mem_nil
  · obtain ⟨rest, _, rfl⟩ := List.mem_map.mp h
    exact List.cons_ne_nil _ _

theorem itemsIn_ne_nil {n : Node} {chain : List Node} (h : chain ∈ itemsIn n) : chain ≠ [] := by
  rw [itemsIn_eq] at h
  split at h
  · cases hbody : n.childByFieldName "body" with
    | none => simp [hbody] at h
    | some body =>
      simp only [hbody, Option.map_some, Option.getD_some, itemsAmong_eq] at h
      obtain ⟨c, _, hc⟩ := List.mem_flatMap.mp h
      exact itemsAt_ne_nil hc
  · exact absurd h List.not_mem_nil

def isSingle (q : Node → Bool) : List Node → Bool
  | [n] => q n
  | _ => false

theorem itemsAt_filter_isSingle (q : Node → Bool) (n : Node) :
    (itemsAt n).filter (isSingle q) = if itemKinds.contains n.kind && q n then [[n]] else [] := by
  have hbelow : ((itemsIn n).map (n :: ·)).filter (isSingle q) = [] := by
    refine List.filter_eq_nil_iff.mpr fun chain hchain => ?_
    obtain ⟨rest, hrest, rfl⟩ := List.mem_map.mp hchain
    cases rest with
    | nil => exact absurd rfl (itemsIn_ne_nil hrest)
    | cons m rest => exact Bool.false_ne_true
  rw [itemsAt, List.filter_append, hbelow, List.append_nil]
  cases itemKinds.contains n.kind with
  | false => rfl
  | true => cases hq : q n <;> simp [isSingle, hq]

/-- The items right among some nodes. -/
theorem itemsAmong_filter_isSingle (q : Node → Bool) (cs : List Node) : (itemsAmong cs).filter (isSingle q) =
    ((cs.filter fun c => !(c.isError || c.isMissing)).filter fun c => itemKinds.contains c.kind && q c).map ([·]) := by
  rw [itemsAmong_eq]
  induction cs.filter fun c => !(c.isError || c.isMissing) with
  | nil => rfl
  | cons c cs ih =>
    rw [List.flatMap_cons, List.filter_append, itemsAt_filter_isSingle, ih, List.filter_cons]
    by_cases hq : (itemKinds.contains c.kind && q c) = true
    · rw [if_pos hq, if_pos hq]
      rfl
    · rw [if_neg hq, if_neg hq]
      rfl

/-! ## What is yielded -/

section Yield

variable (source : Str)

def isItemDefinitions (chain : List Definition) : Bool := chain.getLast?.any (·.kind != .impl)

/-- The labels of the chains of items among some definitions. -/
def labelChains (ds : List Definition) : List (List Label) :=
  ((chainsAll ds).filter isItemDefinitions).map (List.map Definition.label)

theorem labelChains_append (ds ds' : List Definition) : labelChains (ds ++ ds') = labelChains ds ++ labelChains ds' := by
  rw [labelChains, chainsAll_append, List.filter_append, List.map_append]
  rfl

theorem itemName_of_ne_impl {n : Node} (h : n.kind ≠ "impl_item") :
    itemName source n = (nodeFieldText source n "name").map (·.1) := if_neg h

/-- What is in anything but an `impl` is left out. -/
theorem below_not_shallow {n : Node} (h : n.kind ≠ "impl_item") :
    ((itemsIn n).map (n :: ·)).filter (isShallow source) = [] := by
  refine List.filter_eq_nil_iff.mpr fun chain hchain => ?_
  obtain ⟨rest, hrest, rfl⟩ := List.mem_map.mp hchain
  match rest with
  | [] => exact absurd rfl (itemsIn_ne_nil hrest)
  | [m] => simp [isShallow, h]
  | m :: m' :: rest => exact Bool.false_ne_true

/-- An item that the extractor reads by its name. -/
theorem labelChains_leaf {n : Node} {kind : SymbolKind} (hkind : kind ≠ .impl) (hn : n.kind ∈ yieldedKinds) :
    labelChains ((nodeFieldText source n "name").map (.leaf kind n)).toList =
      ((itemsAt n).filter (isShallow source)).map (List.map (itemLabel source)) := by
  have himpl : n.kind ≠ "impl_item" := by
    intro h
    rw [h] at hn
    exact absurd hn (by decide)
  have hitem : n.kind ∈ itemKinds := List.Sublist.subset (by decide) hn
  rw [itemsAt, List.filter_append, below_not_shallow source himpl, List.append_nil, if_pos (List.contains_iff_mem.mpr hitem)]
  cases hname : nodeFieldText source n "name" with
  | none => simp [isShallow, itemName_of_ne_impl source himpl, hname, labelChains, chainsAll]
  | some name =>
    simp [isShallow, itemName_of_ne_impl source himpl, hname, labelChains, chainsAll, Definition.chains, Definition.leaf,
      List.filter_cons, isItemDefinitions, hkind, hn, itemLabel, Definition.label]

/-! ### Methods -/

theorem chainsAll_leaves {ds : List Definition} (h : ∀ d ∈ ds, d.children = []) : chainsAll ds = ds.map ([·]) := by
  induction ds with
  | nil => rfl
  | cons d ds ih =>
    have hnone := h d List.mem_cons_self
    obtain ⟨name, kind, node, place, children⟩ := d
    change children = [] at hnone
    subst hnone
    rw [chainsAll, ih fun d hd => h d (List.mem_cons_of_mem _ hd), Definition.chains, List.map_cons]
    rfl

def isMethod (n : Node) : Bool := n.kind == "function_item" && (itemName source n).isSome

/-- The functions right in an `impl`. -/
def methodNodes (implNode : Node) : List Node :=
  ((implNode.childByFieldName "body").map fun body => body.soundChildren.filter (isMethod source)).getD []

theorem mem_extractImplMethods {n : Node} {d : Definition} (h : d ∈ extractImplMethods source n) :
    d.kind = .method ∧ d.children = [] := by
  unfold extractImplMethods at h
  split at h
  · exact absurd h List.not_mem_nil
  · obtain ⟨child, _, hd⟩ := List.mem_filterMap.mp h
    obtain ⟨name, _, rfl⟩ := Option.map_eq_some_iff.mp hd
    exact ⟨rfl, rfl⟩

theorem methods_labels (ns : List Node) :
    ((ns.filter (·.kind == "function_item")).filterMap fun n =>
        (nodeFieldText source n "name").map (.leaf .method n)).map Definition.label =
      (ns.filter (isMethod source)).map (itemLabel source) := by
  induction ns with
  | nil => rfl
  | cons n ns ih =>
    rw [List.filter_cons, List.filter_cons, isMethod]
    cases hkind : n.kind == "function_item" with
    | false => exact ih
    | true =>
      have himpl : n.kind ≠ "impl_item" := by
        rw [beq_iff_eq.mp hkind]
        decide
      have hitem := itemName_of_ne_impl source himpl
      rw [if_pos rfl, Bool.true_and, List.filterMap_cons, hitem]
      cases hname : nodeFieldText source n "name" with
      | none => exact ih
      | some name =>
        simp only [Option.map_some, Option.isSome_some, if_true, List.map_cons, ih, itemLabel, hitem, hname]
        rfl

theorem extractImplMethods_labels (n : Node) :
    (extractImplMethods source n).map Definition.label = (methodNodes source n).map (itemLabel source) := by
  unfold extractImplMethods methodNodes
  cases n.childByFieldName "body" with
  | none => rfl
  | some body => exact methods_labels source body.soundChildren

theorem isShallow_impl {n : Node} (hkind : n.kind = "impl_item") {rest : List Node} (hrest : rest ≠ []) :
    isShallow source (n :: rest) = ((itemName source n).isSome && isSingle (isMethod source) rest) := by
  match rest with
  | [m] => simp [isShallow, isSingle, isMethod, hkind]
  | m :: m' :: rest => simp [isShallow, isSingle]

/-- The items right in an `impl` that are methods. -/
theorem itemsIn_methods {n : Node} (hkind : n.kind = "impl_item") :
    (itemsIn n).filter (isSingle (isMethod source)) = (methodNodes source n).map ([·]) := by
  have henclosing : enclosingKinds.contains n.kind = true := by
    rw [hkind]
    decide
  rw [itemsIn_eq, if_pos henclosing, methodNodes]
  cases n.childByFieldName "body" with
  | none => rfl
  | some body =>
    have hmethod : ∀ c : Node, (itemKinds.contains c.kind && isMethod source c) = isMethod source c := by
      intro c
      cases hfunction : c.kind == "function_item" with
      | false => simp [isMethod, hfunction]
      | true =>
        rw [beq_iff_eq.mp hfunction]
        rfl
    simp only [Option.map_some, Option.getD_some, itemsAmong_filter_isSingle, hmethod]
    rfl

theorem itemsAt_impl {n : Node} (hkind : n.kind = "impl_item") : (itemsAt n).filter (isShallow source) =
    if (itemName source n).isSome then (methodNodes source n).map fun m => [n, m] else [] := by
  have hitem : itemKinds.contains n.kind = false := by
    rw [hkind]
    decide
  have hshallow : ∀ rest ∈ itemsIn n, (isShallow source ∘ (n :: ·)) rest =
      ((itemName source n).isSome && isSingle (isMethod source) rest) :=
    fun rest hrest => isShallow_impl source hkind (itemsIn_ne_nil hrest)
  rw [itemsAt, hitem, if_neg Bool.false_ne_true, List.nil_append, List.filter_map, List.filter_congr hshallow]
  cases (itemName source n).isSome with
  | false => simp
  | true =>
    simp only [Bool.true_and, itemsIn_methods source hkind, List.map_map, if_true]
    rfl

/-- Under a definition that is no item. -/
theorem labelChains_under {d : Definition} (hkind : d.kind = .impl)
    (hmethods : ∀ m ∈ d.children, m.kind = .method ∧ m.children = []) :
    labelChains [d] = d.children.map fun m => [d.label, m.label] := by
  obtain ⟨name, kind, node, place, children⟩ := d
  change kind = .impl at hkind
  subst hkind
  have hall : ∀ chain ∈ (children.map fun m => [⟨name, .impl, node, place, children⟩, m]),
      isItemDefinitions chain = true := by
    intro chain hchain
    obtain ⟨m, hm, rfl⟩ := List.mem_map.mp hchain
    show (m.kind != .impl) = true
    rw [(hmethods m hm).1]
    rfl
  rw [labelChains, chainsAll, Definition.chains, chainsAll_leaves fun m hm => (hmethods m hm).2, chainsAll, List.append_nil,
    List.map_map, List.filter_cons_of_neg Bool.false_ne_true]
  rw [show ((⟨name, .impl, node, place, children⟩ : Definition) :: ·) ∘ ([·]) =
    fun m => [⟨name, .impl, node, place, children⟩, m] from rfl, List.filter_eq_self.mpr hall, List.map_map]
  rfl

/-- An `impl` yields the functions right in it. -/
theorem labelChains_impl {n : Node} (hkind : n.kind = "impl_item") :
    labelChains ((extractImplName source n).map fun (name, place) =>
        (⟨name, .impl, n, place, extractImplMethods source n⟩ : Definition)).toList =
      ((itemsAt n).filter (isShallow source)).map (List.map (itemLabel source)) := by
  have hitem : itemName source n = (extractImplName source n).map (·.1) := if_pos hkind
  rw [itemsAt_impl source hkind, hitem]
  cases hname : extractImplName source n with
  | none => rfl
  | some name =>
    show labelChains [⟨name.1, .impl, n, name.2, extractImplMethods source n⟩] = _
    rw [labelChains_under rfl fun m hm => mem_extractImplMethods source hm]
    have hlabels := congrArg (List.map fun label => [n.label (some name.1), label]) (extractImplMethods_labels source n)
    rw [List.map_map, List.map_map] at hlabels
    simp only [Option.map_some, Option.isSome_some, if_true, List.map_map]
    refine hlabels.trans (List.map_congr_left fun m _ => ?_)
    simp [itemLabel, hitem, hname]

theorem labelChains_top (before : List Node) (n : Node) : labelChains (extractTopLevel source before n).toList =
    ((itemsAt n).filter (isShallow source)).map (List.map (itemLabel source)) := by
  unfold extractTopLevel
  split
  case h_1 hn => exact labelChains_leaf source (by split <;> decide) (by rw [hn]; decide)
  case h_2 hn => exact labelChains_leaf source (by decide) (by rw [hn]; decide)
  case h_3 hn => exact labelChains_leaf source (by decide) (by rw [hn]; decide)
  case h_4 hn => exact labelChains_leaf source (by decide) (by rw [hn]; decide)
  case h_5 hn => exact labelChains_impl source hn
  case h_6 hn => exact labelChains_leaf source (by decide) (by rw [hn]; decide)
  case h_7 hn => exact labelChains_leaf source (by decide) (by rw [hn]; decide)
  case h_8 hn => exact labelChains_leaf source (by decide) (by rw [hn]; decide)
  case h_9 hn => exact labelChains_leaf source (by decide) (by rw [hn]; decide)
  case h_10 hfunction hstruct henum htrait himpl htype hconst hstatic hmod =>
    have hnone : ((if itemKinds.contains n.kind then [[n]] else []) : List (List Node)).filter (isShallow source) = [] := by
      split <;> simp_all [isShallow, yieldedKinds]
    rw [itemsAt, List.filter_append, below_not_shallow source himpl, hnone]
    rfl

theorem labelChains_extractChildren (before ns : List Node) :
    labelChains (extractChildren source before ns) =
      ((itemsAmong ns).filter (isShallow source)).map (List.map (itemLabel source)) := by
  induction ns generalizing before with
  | nil => rfl
  | cons n ns ih =>
    rw [extractChildren, labelChains_append, ih, itemsAmong, List.filter_append, List.map_append]
    congr 1
    by_cases hskip : (n.isError || n.isMissing) = true
    · rw [if_pos hskip, if_pos hskip]
      rfl
    · rw [if_neg hskip, if_neg hskip]
      exact labelChains_top source before n

/-- The items at the top level and the functions right in an `impl` there are what is
    yielded, in their order, each with its name and range. -/
theorem chains_extractSymbols (texts : TextsOf) (file : Path) (tree : Node) :
    ((symbolChainsAll (Parse.extractSymbols texts source tree file .rust)).filter isItemChain).map (List.map symbolLabel) =
      ((itemChains tree).filter (isShallow source)).map (List.map (itemLabel source)) := by
  have hitem : ∀ chain ∈ chainsAll (extractSymbols source tree),
      (isItemChain ∘ List.map (Definition.toSymbol (texts source tree .rust) file)) chain = isItemDefinitions chain := by
    intro chain _
    show (chain.map _).getLast?.any _ = _
    rw [List.getLast?_map, isItemDefinitions]
    cases chain.getLast? with
    | none => rfl
    | some d => simp
  have hlabel : List.map symbolLabel ∘ List.map (Definition.toSymbol (texts source tree .rust) file) =
      List.map Definition.label := by
    funext chain
    simp [symbolLabel_toSymbol]
  rw [Parse.extractSymbols, extractDefinitions, symbolChainsAll_toSymbols, List.filter_map, List.filter_congr hitem,
    List.map_map, hlabel]
  exact labelChains_extractChildren source [] tree.children

/-- Every item of a file has its symbol exactly when all stand at the top level or are
    functions in an `impl` there, with names that can be read. -/
theorem symbols_complete_iff (texts : TextsOf) (file : Path) (tree : Node) :
    Complete source texts file tree ↔ ∀ chain ∈ itemChains tree, isShallow source chain = true := by
  rw [Complete, chains_extractSymbols]
  exact map_filter_eq_map_iff _ _ _

end Yield

/-! ## A function in a module -/

/-- `mod m { fn f() {} }`. -/
def modWithFunction : Node :=
  let identifier (column : Nat) : Node := .leaf "identifier" (some "name") 0 column column 1 true
  let function : Node :=
    ⟨"function_item", none, 8, 17, ⟨0, 8⟩, ⟨0, 17⟩, true, false, false,
      [.leaf "fn" none 0 8 8 2 false, identifier 11, .leaf "parameters" (some "parameters") 0 12 12 2 true,
        .leaf "block" (some "body") 0 15 15 2 true]⟩
  let body : Node :=
    ⟨"declaration_list", some "body", 6, 19, ⟨0, 6⟩, ⟨0, 19⟩, true, false, false,
      [.leaf "\x7b" none 0 6 6 1 false, function, .leaf "\x7d" none 0 18 18 1 false]⟩
  let module_ : Node :=
    ⟨"mod_item", none, 0, 19, ⟨0, 0⟩, ⟨0, 19⟩, true, false, false, [.leaf "mod" none 0 0 0 3 false, identifier 4, body]⟩
  ⟨"source_file", none, 0, 19, ⟨0, 0⟩, ⟨0, 19⟩, true, false, false, [module_]⟩

/-- The module is a symbol, the function in it is none. -/
theorem function_in_module_has_no_symbol :
    ¬ Complete (str "mod m \x7b fn f() \x7b\x7d \x7d") (fun _ _ _ _ => ⟨.private_, none, none, none⟩) [] modWithFunction := by
  unfold Complete
  decide +kernel

end CodeQuery.Parse.Rust
