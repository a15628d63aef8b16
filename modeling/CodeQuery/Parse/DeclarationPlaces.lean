/-
  CodeQuery.Parse.DeclarationPlaces — where the extractors of C# and Ruby look for
  declarations (`codequery-parse/src/languages/csharp.rs` and `ruby.rs`).

  Both go over the children of a few nodes only. C# looks in the file, in what is at its
  top and no declaration of a type, and in namespaces; below a type it looks for members,
  not for types. Ruby looks in the file and in the bodies of classes, and of the modules at
  the top. The definitions that are found, at any depth, are those of the nodes there
  (`CSharp.mem_definitions_iff`, `Ruby.mem_definitions_iff`).
-/

import CodeQuery.Parse.DefinitionNodes
import CodeQuery.Parse.RubyNesting

namespace CodeQuery.Parse

open CodeQuery.Core CodeQuery.Text

/-! ## C# -/

namespace CSharp

def typeKinds : List String := ["class_declaration", "struct_declaration", "interface_declaration", "enum_declaration"]

def memberKinds : List String := ["method_declaration", "constructor_declaration", "property_declaration"]

/-- The nodes whose children are gone over for namespaces and types. -/
inductive Searched (tree : Node) : Node → Prop where
  | file : Searched tree tree
  | wrapper {c : Node} : c ∈ tree.soundChildren → c.kind ≠ "namespace_declaration" → c.kind ∉ typeKinds → Searched tree c
  | namespace_ {n c list : Node} : Searched tree n → c ∈ n.soundChildren → c.kind = "namespace_declaration" →
      list ∈ c.children → list.kind = "declaration_list" → Searched tree list

/-- The type is among these children. -/
def ComesToType (tree t : Node) : Prop := t.kind ∈ typeKinds ∧ ∃ n, Searched tree n ∧ t ∈ n.soundChildren

/-- The member is in a type with a name, which is come to. -/
def ComesToMember (source : Str) (tree m : Node) : Prop :=
  m.kind ∈ memberKinds ∧ ∃ t, ComesToType tree t ∧ t.kind ≠ "enum_declaration" ∧ (findIdentifier source t).isSome ∧
    ∃ list ∈ t.children, list.kind = "declaration_list" ∧ m ∈ list.soundChildren

section Found

variable {source : Str} {tree : Node}

/-- The definition is of a node that is come to. -/
inductive Found (source : Str) (tree : Node) : Definition → Prop where
  | namespace_ {n c : Node} {d : Definition} : Searched tree n → c ∈ n.soundChildren → c.kind = "namespace_declaration" →
      extractNamespace source c = some d → Found source tree d
  | type {t : Node} {d : Definition} : ComesToType tree t → extractType source t = some d → Found source tree d
  | member {m : Node} {d : Definition} : ComesToMember source tree m → extractMember source m = some d → Found source tree d

theorem mem_extractFromChildren {topLevel : Bool} {cs : List Node} {d : Definition} :
    d ∈ extractFromChildren source topLevel cs ↔
      ∃ c ∈ cs.filter (fun c => !(c.isError || c.isMissing)), d ∈ extractFromChild source topLevel c := by
  induction cs with
  | nil => simp [extractFromChildren]
  | cons c cs ih =>
    rw [extractFromChildren, List.mem_append, ih, List.filter_cons]
    by_cases hskip : (c.isError || c.isMissing) = true
    · simp [hskip]
    · simp [hskip]

theorem mem_extractNamespaceBody {cs : List Node} {d : Definition} : d ∈ extractNamespaceBody source cs ↔
    ∃ list ∈ cs, list.kind = "declaration_list" ∧ d ∈ extractFromChildren source false list.children := by
  induction cs with
  | nil => simp [extractNamespaceBody]
  | cons c cs ih =>
    obtain ⟨kind, _, _, _, _, _, _, _, _, inner⟩ := c
    rw [extractNamespaceBody, List.mem_append, ih]
    by_cases hkind : kind = "declaration_list"
    · simp [hkind]
    · simp [hkind]

section Kinds

variable {topLevel : Bool} {c : Node}

theorem extractFromChild_namespace (hkind : c.kind = "namespace_declaration") :
    extractFromChild source topLevel c = (extractNamespace source c).toList ++ extractNamespaceBody source c.children := by
  obtain ⟨_, _, _, _, _, _, _, _, _, cs⟩ := c
  cases hkind
  rw [extractFromChild]

theorem extractFromChild_type (hkind : c.kind ∈ typeKinds) :
    extractFromChild source topLevel c = (extractType source c).toList := by
  obtain ⟨kind, _, _, _, _, _, _, _, _, cs⟩ := c
  simp only [typeKinds, List.mem_cons, List.not_mem_nil, or_false] at hkind
  rcases hkind with rfl | rfl | rfl | rfl <;> rw [extractFromChild]

theorem extractFromChild_other (hnamespace : c.kind ≠ "namespace_declaration") (htype : c.kind ∉ typeKinds) :
    extractFromChild source topLevel c = if topLevel then extractFromChildren source false c.children else [] := by
  obtain ⟨kind, _, _, _, _, _, _, _, _, cs⟩ := c
  simp only [typeKinds, List.mem_cons, List.not_mem_nil, or_false, not_or] at htype
  obtain ⟨hclass, hstruct, hinterface, henum⟩ := htype
  rw [extractFromChild]
  · exact fun _ h _ => hnamespace h
  · exact fun _ h _ => hclass h
  · exact fun _ h _ => hstruct h
  · exact fun _ h _ => hinterface h
  · exact fun _ h _ => henum h

end Kinds

/-- What the loop yields below a node that is gone over, the file yields. -/
theorem Searched.subset {n : Node} (h : Searched tree n) :
    ∃ topLevel, extractFromChildren source topLevel n.children ⊆ extractSymbols source tree := by
  induction h with
  | file => exact ⟨true, List.Subset.refl _⟩
  | wrapper hc hnamespace htype =>
    refine ⟨false, fun d hd => mem_extractFromChildren.mpr ⟨_, hc, ?_⟩⟩
    rw [extractFromChild_other hnamespace htype]
    exact hd
  | namespace_ _ hc hkind hlist hlistKind ih =>
    obtain ⟨topLevel, hsubset⟩ := ih
    refine ⟨false, fun d hd => hsubset (mem_extractFromChildren.mpr ⟨_, hc, ?_⟩)⟩
    rw [extractFromChild_namespace hkind]
    exact List.mem_append_right _ (mem_extractNamespaceBody.mpr ⟨_, hlist, hlistKind, hd⟩)

mutual

/-- All that a child of such a node yields is found. -/
theorem found_of_child (topLevel : Bool) : ∀ c : Node, ∀ n, Searched tree n → (topLevel = true → n = tree) →
    c ∈ n.soundChildren → ∀ d ∈ extractFromChild source topLevel c, Found source tree d
  | ⟨kind, field, startByte, endByte, startPosition, endPosition, isNamed, isError, isMissing, cs⟩, n, hn, htop, hc, d, hd => by
    have hbody := found_of_body cs
    have hchildren := found_of_children cs
    generalize hnode : (⟨kind, field, startByte, endByte, startPosition, endPosition, isNamed, isError, isMissing, cs⟩ :
      Node) = c at hc hd
    have hcs : cs = c.children := by rw [← hnode]
    rw [hcs] at hbody hchildren
    by_cases hnamespace : c.kind = "namespace_declaration"
    · rw [extractFromChild_namespace hnamespace] at hd
      rcases List.mem_append.mp hd with hd | hd
      · exact .namespace_ hn hc hnamespace (Option.mem_toList.mp hd)
      · exact hbody (fun list hlist hkind => .namespace_ hn hc hnamespace hlist hkind) d hd
    · by_cases htype : c.kind ∈ typeKinds
      · rw [extractFromChild_type htype] at hd
        exact .type ⟨htype, n, hn, hc⟩ (Option.mem_toList.mp hd)
      · rw [extractFromChild_other hnamespace htype] at hd
        cases topLevel with
        | false => cases hd
        | true =>
          rw [htop rfl] at hc
          exact hchildren c (.wrapper hc hnamespace htype) (fun _ h hsound => List.mem_filter.mpr ⟨h, hsound⟩) d hd

theorem found_of_children :
    ∀ cs : List Node, ∀ n, Searched tree n → (∀ c ∈ cs, !(c.isError || c.isMissing) → c ∈ n.soundChildren) →
    ∀ d ∈ extractFromChildren source false cs, Found source tree d
  | [], _, _, _, d, hd => by
    rw [extractFromChildren] at hd
    cases hd
  | c :: cs, n, hn, hcs, d, hd => by
    rw [extractFromChildren] at hd
    rcases List.mem_append.mp hd with hd | hd
    · split at hd
      · cases hd
      next hsound =>
        have hc := hcs c List.mem_cons_self (by simpa using hsound)
        exact found_of_child false c n hn (fun h => by cases h) hc d hd
    · exact found_of_children cs n hn (fun c hc => hcs c (List.mem_cons_of_mem _ hc)) d hd

theorem found_of_body : ∀ cs : List Node, (∀ list ∈ cs, list.kind = "declaration_list" → Searched tree list) →
    ∀ d ∈ extractNamespaceBody source cs, Found source tree d
  | [], _, d, hd => by
    rw [extractNamespaceBody] at hd
    cases hd
  | ⟨kind, field, startByte, endByte, startPosition, endPosition, isNamed, isError, isMissing, inner⟩ :: cs, hcs, d, hd => by
    rw [extractNamespaceBody] at hd
    rcases List.mem_append.mp hd with hd | hd
    · split at hd
      next hkind =>
        exact found_of_children inner _ (hcs _ List.mem_cons_self hkind)
          (fun c hc hsound => List.mem_filter.mpr ⟨hc, hsound⟩) d hd
      · cases hd
    · exact found_of_body cs (fun list hlist => hcs list (List.mem_cons_of_mem _ hlist)) d hd

end

/-! ### Members -/

theorem extractType_eq {t : Node} (hkind : t.kind ∈ typeKinds) : ∃ k, extractType source t =
    (findIdentifier source t).map fun name =>
      ⟨name.1, k, t, some name.2, if t.kind = "enum_declaration" then [] else extractClassMembers source t⟩ := by
  rw [extractType]
  simp only [typeKinds, List.mem_cons, List.not_mem_nil, or_false] at hkind
  rcases hkind with hkind | hkind | hkind | hkind
  · exact ⟨.class_, by rw [hkind]; cases findIdentifier source t <;> rfl⟩
  · exact ⟨.struct, by rw [hkind]; cases findIdentifier source t <;> rfl⟩
  · exact ⟨.interface, by rw [hkind]; cases findIdentifier source t <;> rfl⟩
  · exact ⟨.enum, by rw [hkind]; cases findIdentifier source t <;> rfl⟩

theorem extractMember_eq {m : Node} (hkind : m.kind ∈ memberKinds) :
    ∃ k, extractMember source m = (findIdentifier source m).map (.leaf k m) := by
  rw [extractMember]
  simp only [memberKinds, List.mem_cons, List.not_mem_nil, or_false] at hkind
  rcases hkind with hkind | hkind | hkind
  · exact ⟨.method, by rw [hkind]; rfl⟩
  · exact ⟨.method, by rw [hkind]; rfl⟩
  · exact ⟨.static, by rw [hkind]; rfl⟩

theorem memberKind_of_extractMember {m : Node} {d : Definition} (h : extractMember source m = some d) :
    m.kind ∈ memberKinds := by
  unfold extractMember at h
  split at h
  next hkind => simp [memberKinds, hkind]
  next hkind => simp [memberKinds, hkind]
  next hkind => simp [memberKinds, hkind]
  · cases h

theorem mem_extractClassMembers {t : Node} {d : Definition} : d ∈ extractClassMembers source t ↔
    ∃ list ∈ t.children, list.kind = "declaration_list" ∧ ∃ m ∈ list.soundChildren, extractMember source m = some d := by
  rw [extractClassMembers, List.mem_flatMap]
  constructor
  · intro h
    obtain ⟨list, hlist, hd⟩ := h
    obtain ⟨hmem, hkind⟩ := List.mem_filter.mp hlist
    exact ⟨list, hmem, eq_of_beq hkind, List.mem_filterMap.mp hd⟩
  · intro h
    obtain ⟨list, hmem, hkind, hd⟩ := h
    exact ⟨list, List.mem_filter.mpr ⟨hmem, beq_iff_eq.mpr hkind⟩, List.mem_filterMap.mpr hd⟩

/-- In a type there are members, which have nothing in them. -/
theorem Found.children {d : Definition} (h : Found source tree d) : ∀ c ∈ d.children, Found source tree c := by
  intro c hc
  cases h with
  | namespace_ _ _ _ hd =>
    obtain ⟨name, -, rfl⟩ := Option.map_eq_some_iff.mp hd
    cases hc
  | @type t _ ht hd =>
    obtain ⟨k, heq⟩ := @extractType_eq source t ht.1
    rw [heq] at hd
    obtain ⟨name, hname, rfl⟩ := Option.map_eq_some_iff.mp hd
    dsimp only at hc
    split at hc
    · cases hc
    next henum =>
      obtain ⟨list, hlist, hkind, m, hm, hmember⟩ := mem_extractClassMembers.mp hc
      have hsome : (findIdentifier source t).isSome := Option.isSome_of_mem hname
      exact .member ⟨memberKind_of_extractMember hmember, t, ht, henum, hsome, list, hlist, hkind, hm⟩ hmember
  | @member m _ hm hd =>
    obtain ⟨k, heq⟩ := @extractMember_eq source m hm.1
    rw [heq] at hd
    obtain ⟨name, -, rfl⟩ := Option.map_eq_some_iff.mp hd
    cases hc

theorem Searched.mem {n c : Node} {d : Definition} (hn : Searched tree n) (hc : c ∈ n.soundChildren)
    (hd : ∀ topLevel, d ∈ extractFromChild source topLevel c) : d ∈ preorderDefinitions (extractSymbols source tree) := by
  obtain ⟨topLevel, hsubset⟩ := @Searched.subset source tree n hn
  have hmem := hsubset (mem_extractFromChildren.mpr ⟨c, hc, hd topLevel⟩)
  exact mem_preorderDefinitions_of_mem hmem d.self_mem_preorder

theorem ComesToType.mem {t : Node} {d : Definition} (ht : ComesToType tree t) (hd : extractType source t = some d) :
    d ∈ preorderDefinitions (extractSymbols source tree) := by
  obtain ⟨hkind, n, hn, hc⟩ := ht
  refine hn.mem hc fun topLevel => ?_
  rw [extractFromChild_type hkind]
  exact Option.mem_toList.mpr hd

/-- The definitions of a file, at any depth. -/
theorem mem_definitions_iff {d : Definition} :
    d ∈ preorderDefinitions (extractSymbols source tree) ↔ Found source tree d := by
  constructor
  · intro h
    refine preorderDefinitions_closed (fun _ => Found.children) _ (fun d hd => ?_) d h
    obtain ⟨c, hc, hd⟩ := mem_extractFromChildren.mp hd
    exact found_of_child true c tree .file (fun _ => rfl) hc d hd
  · intro h
    cases h with
    | namespace_ hn hc hkind hd =>
      refine hn.mem hc fun topLevel => ?_
      rw [extractFromChild_namespace hkind]
      exact List.mem_append_left _ (Option.mem_toList.mpr hd)
    | type ht hd => exact ht.mem hd
    | @member m _ hm hd =>
      obtain ⟨-, t, ht, henum, hsome, list, hlist, hkind, hmember⟩ := hm
      obtain ⟨k, heq⟩ := @extractType_eq source t ht.1
      obtain ⟨name, hname⟩ := Option.isSome_iff_exists.mp hsome
      rw [hname, Option.map_some, if_neg henum] at heq
      refine preorderDefinitions_children _ _ (ht.mem heq) d ?_
      exact mem_extractClassMembers.mpr ⟨list, hlist, hkind, m, hmember, hd⟩

end Found

end CSharp

/-! ## Ruby -/

namespace Ruby

/-- The nodes whose children are gone over: the file, and bodies. -/
inductive Searched (source : Str) (tree : Node) : Bool → Node → Prop where
  | file : Searched source tree false tree
  | body {inBody : Bool} {n c body : Node} : Searched source tree inBody n → c ∈ n.soundChildren →
      (c.kind = "class" ∨ inBody = false ∧ c.kind = "module") → (findConstantName source c).isSome → body ∈ c.children →
      body.kind = "body_statement" → Searched source tree true body

/-- The method is among these children. -/
def ComesToMethod (source : Str) (tree m : Node) : Prop := ∃ inBody n, Searched source tree inBody n ∧ m ∈ n.soundChildren

section Found

variable {source : Str} {tree : Node}

/-- The definition is of a node that is come to. -/
inductive Found (source : Str) (tree : Node) : Definition → Prop where
  | mk {inBody : Bool} {n c : Node} {d : Definition} : Searched source tree inBody n → c ∈ n.soundChildren →
      extractedAt source inBody c = some d → Found source tree d

theorem mem_extractInBody {cs : List Node} {d : Definition} : d ∈ extractInBody source cs ↔
    ∃ c ∈ cs.filter (fun c => !(c.isError || c.isMissing)), extractedAt source true c = some d := by
  induction cs with
  | nil => simp [extractInBody]
  | cons c cs ih =>
    rw [extractInBody_cons, List.mem_append, ih, List.filter_cons]
    by_cases hskip : (c.isError || c.isMissing) = true
    · simp [hskip]
    · simp [hskip]

theorem mem_extractBodyMethods {cs : List Node} {d : Definition} : d ∈ extractBodyMethods source cs ↔
    ∃ body ∈ cs, body.kind = "body_statement" ∧ d ∈ extractInBody source body.children := by
  induction cs with
  | nil => simp [extractBodyMethods]
  | cons c cs ih =>
    obtain ⟨kind, _, _, _, _, _, _, _, _, inner⟩ := c
    rw [extractBodyMethods, List.mem_append, ih]
    by_cases hkind : kind = "body_statement"
    · simp [hkind]
    · simp [hkind]

theorem extractedAt_container {inBody : Bool} {n : Node} (h : n.kind = "class" ∨ inBody = false ∧ n.kind = "module") :
    ∃ k, extractedAt source inBody n = extractContainer source k n := by
  rcases h with h | ⟨rfl, h⟩
  · refine ⟨.class_, ?_⟩
    cases inBody
    · rw [extractedAt, if_neg Bool.false_ne_true, extractTopLevel, h]
      rfl
    · rw [extractedAt, if_pos rfl, h]
      rfl
  · refine ⟨.module_, ?_⟩
    rw [extractedAt, if_neg Bool.false_ne_true, extractTopLevel, h]
    rfl

/-- The definition is of the node and has nothing in it. -/
def IsLeafOf (n : Node) (d : Definition) : Prop := d.node = n ∧ d.children = []

theorem isLeafOf_map {n : Node} {k : SymbolKind} {o : Option (Str × Point)} {d : Definition}
    (h : o.map (.leaf k n) = some d) : IsLeafOf n d := by
  obtain ⟨name, -, rfl⟩ := Option.map_eq_some_iff.mp h
  exact ⟨rfl, rfl⟩

theorem isLeafOf_assignment {n : Node} {d : Definition} (h : extractConstantAssignment source n = some d) : IsLeafOf n d := by
  obtain ⟨left, -, h⟩ := Option.bind_eq_some_iff.mp h
  split at h
  · cases h
  · exact isLeafOf_map h

/-- Of what a node yields nothing but classes and modules has something in it. -/
theorem extractedAt_cases {inBody : Bool} {n : Node} {d : Definition} (h : extractedAt source inBody n = some d) :
    IsLeafOf n d ∨ (n.kind = "class" ∨ inBody = false ∧ n.kind = "module") ∧ ∃ k, extractContainer source k n = some d := by
  unfold extractedAt extractTopLevel at h
  split at h
  · split at h
    · exact .inl (isLeafOf_map h)
    · exact .inl (isLeafOf_map h)
    next hkind => exact .inr ⟨.inl hkind, .class_, h⟩
    · exact .inl (isLeafOf_assignment h)
    · cases h
  next hbody =>
    split at h
    · exact .inl (isLeafOf_map h)
    · exact .inl (isLeafOf_map h)
    next hkind => exact .inr ⟨.inl hkind, .class_, h⟩
    next hkind => exact .inr ⟨.inr ⟨eq_false_of_ne_true hbody, hkind⟩, .module_, h⟩
    · exact .inl (isLeafOf_assignment h)
    · cases h

theorem node_of_extractedAt {inBody : Bool} {n : Node} {d : Definition} (h : extractedAt source inBody n = some d) :
    d.node = n := by
  rcases extractedAt_cases h with hleaf | ⟨-, k, hcontainer⟩
  · exact hleaf.1
  · rw [extractContainer_eq] at hcontainer
    obtain ⟨name, -, rfl⟩ := Option.map_eq_some_iff.mp hcontainer
    rfl

theorem Found.children {d : Definition} (h : Found source tree d) : ∀ e ∈ d.children, Found source tree e := by
  intro e he
  obtain ⟨hn, hc, hd⟩ := h
  rcases extractedAt_cases hd with hleaf | ⟨hkind, k, hcontainer⟩
  · rw [hleaf.2] at he
    cases he
  · rw [extractContainer_eq] at hcontainer
    obtain ⟨name, hname, rfl⟩ := Option.map_eq_some_iff.mp hcontainer
    obtain ⟨body, hbody, hbodyKind, he⟩ := mem_extractBodyMethods.mp he
    obtain ⟨m, hm, he⟩ := mem_extractInBody.mp he
    exact .mk (.body hn hc hkind (Option.isSome_of_mem hname) hbody hbodyKind) hm he

/-- What a child of such a node yields is among the definitions. -/
theorem Searched.mem {inBody : Bool} {n : Node} (h : Searched source tree inBody n) : ∀ c ∈ n.soundChildren,
    ∀ d, extractedAt source inBody c = some d → d ∈ preorderDefinitions (extractSymbols source tree) := by
  induction h with
  | file =>
    intro c hc d hd
    exact mem_preorderDefinitions_of_mem (List.mem_filterMap.mpr ⟨c, hc, hd⟩) d.self_mem_preorder
  | body _ hc hkind hsome hbody hbodyKind ih =>
    intro m hm d hd
    obtain ⟨k, hcontainer⟩ := @extractedAt_container source _ _ hkind
    obtain ⟨name, hname⟩ := Option.isSome_iff_exists.mp hsome
    rw [extractContainer_eq, hname, Option.map_some] at hcontainer
    refine preorderDefinitions_children _ _ (ih _ hc _ hcontainer) d ?_
    exact mem_extractBodyMethods.mpr ⟨_, hbody, hbodyKind, mem_extractInBody.mpr ⟨m, hm, hd⟩⟩

/-- The definitions of a file, at any depth. -/
theorem mem_definitions_iff {d : Definition} :
    d ∈ preorderDefinitions (extractSymbols source tree) ↔ Found source tree d := by
  constructor
  · intro h
    refine preorderDefinitions_closed (fun _ => Found.children) _ (fun d hd => ?_) d h
    obtain ⟨c, hc, hd⟩ := List.mem_filterMap.mp hd
    exact .mk .file hc hd
  · intro h
    obtain ⟨hn, hc, hd⟩ := h
    exact hn.mem _ hc d hd

end Found

end Ruby

end CodeQuery.Parse
