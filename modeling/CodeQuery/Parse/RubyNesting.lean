/-
  CodeQuery.Parse.RubyNesting — the nesting of modules, classes and methods in a Ruby file.

  `nesting` is the forest of these nodes, `symbolOutlines` that of the symbols; a method's
  name is its first identifier and a module's or a class's its first constant. One match
  is for the top level and one for bodies, which has no arm for modules. So the two
  forests are one exactly when no module stands in a body and the names that are read are
  those in the field (`outlines_mirror_iff`).
-/

import CodeQuery.Parse.Extract

namespace CodeQuery.Parse.Ruby

open CodeQuery.Core CodeQuery.Text

/-! ## Outlines -/

inductive OutlineKind where
  | module_
  | class_
  | method
  deriving DecidableEq, Repr

inductive Outline where
  | mk (kind : OutlineKind) (name : Option Str) (children : List Outline)
  deriving Repr

/-- A method at the top level is a function to the extractor; a constant is no part of
    the outline. -/
def symbolKind : SymbolKind → Option OutlineKind
  | .module_ => some .module_
  | .class_ => some .class_
  | .method | .function => some .method
  | _ => none

mutual

def symbolOutline : Symbol → List Outline
  | ⟨name, kind, _, _, _, _, _, children, _, _, _⟩ =>
    let below := symbolOutlines children
    (symbolKind kind).toList.map fun k => .mk k (some name) below

def symbolOutlines : List Symbol → List Outline
  | [] => []
  | s :: ss => symbolOutline s ++ symbolOutlines ss

end

mutual

def outline : Definition → List Outline
  | ⟨name, kind, _, _, children⟩ =>
    let below := outlines children
    (symbolKind kind).toList.map fun k => .mk k (some name) below

def outlines : List Definition → List Outline
  | [] => []
  | d :: ds => outline d ++ outlines ds

end

section Symbols

variable (texts : Definition → Texts) (file : Path)

mutual

theorem symbolOutline_toSymbol : ∀ d : Definition, symbolOutline (d.toSymbol texts file) = outline d
  | ⟨name, kind, node, place, children⟩ => by
    rw [Definition.toSymbol, symbolOutline, outline, symbolOutlines_toSymbols children]

theorem symbolOutlines_toSymbols : ∀ ds : List Definition, symbolOutlines (toSymbols texts file ds) = outlines ds
  | [] => rfl
  | d :: ds => by
    rw [toSymbols, symbolOutlines, outlines, symbolOutline_toSymbol d, symbolOutlines_toSymbols ds]

end

end Symbols

theorem outlines_append (ds ds' : List Definition) : outlines (ds ++ ds') = outlines ds ++ outlines ds' := by
  induction ds with
  | nil => rfl
  | cons d ds ih => rw [List.cons_append, outlines, outlines, ih, List.append_assoc]

/-! ## The forest of nodes -/

def nodeKind : String → Option OutlineKind
  | "module" => some .module_
  | "class" => some .class_
  | "method" | "singleton_method" => some .method
  | _ => none

section Nesting

variable (source : Str)

/-- The name, from its field. -/
def fieldName (n : Node) : Option Str := (nodeFieldText source n "name").map (·.1)

mutual

def nestingAt : Node → List Outline
  | n@⟨kind, _, _, _, _, _, _, _, _, cs⟩ =>
    let below := nestingInBodies cs
    match nodeKind kind with
    | none => []
    | some .method => [.mk .method (fieldName source n) []]
    | some container => [.mk container (fieldName source n) below]

def nestingInBodies : List Node → List Outline
  | [] => []
  | ⟨kind, _, _, _, _, _, _, _, _, inner⟩ :: cs =>
    (if kind = "body_statement" then nestingAmong inner else []) ++ nestingInBodies cs

def nestingAmong : List Node → List Outline
  | [] => []
  | c :: cs => (if c.isError || c.isMissing then [] else nestingAt c) ++ nestingAmong cs

end

/-- The modules, classes and methods of a file. -/
def nesting (tree : Node) : List Outline := nestingAmong source tree.children

end Nesting

mutual

/-- The nodes of the forest, each with whether it stands in a body. -/
def nestedAt (inBody : Bool) : Node → List (Bool × Node)
  | n@⟨kind, _, _, _, _, _, _, _, _, cs⟩ =>
    let below := nestedInBodies cs
    match nodeKind kind with
    | none => []
    | some .method => [(inBody, n)]
    | some _ => (inBody, n) :: below

def nestedInBodies : List Node → List (Bool × Node)
  | [] => []
  | ⟨kind, _, _, _, _, _, _, _, _, inner⟩ :: cs =>
    (if kind = "body_statement" then nestedAmong true inner else []) ++ nestedInBodies cs

def nestedAmong (inBody : Bool) : List Node → List (Bool × Node)
  | [] => []
  | c :: cs => (if c.isError || c.isMissing then [] else nestedAt inBody c) ++ nestedAmong inBody cs

end

def nested (tree : Node) : List (Bool × Node) := nestedAmong false tree.children

section Mirrors

variable (source : Str)

/-- The name that the extractor reads. -/
def readName (n : Node) : Option Str :=
  ((if nodeKind n.kind = some .method then findIdentifier source n else findConstantName source n).map (·.1))

/-- Not a module in a body, and the name that is read is the field's. -/
structure IsMirrored (nestedNode : Bool × Node) : Prop where
  isArm : nestedNode.1 = true → nestedNode.2.kind ≠ "module"
  isNamed : (readName source nestedNode.2).isSome = true
  isFieldName : readName source nestedNode.2 = fieldName source nestedNode.2

/-- What is yielded is no longer than what is expected, and is it when all the nodes are
    mirrored. -/
structure Mirrors (yielded expected : List Outline) (nodes : List (Bool × Node)) : Prop where
  length_le : yielded.length ≤ expected.length
  eq_iff : yielded = expected ↔ ∀ nestedNode ∈ nodes, IsMirrored source nestedNode

theorem Mirrors.nil : Mirrors source [] [] [] := ⟨le_rfl, by simp⟩

variable {source}

theorem Mirrors.append {yielded yielded' expected expected' : List Outline} {nodes nodes' : List (Bool × Node)}
    (h : Mirrors source yielded expected nodes) (h' : Mirrors source yielded' expected' nodes') :
    Mirrors source (yielded ++ yielded') (expected ++ expected') (nodes ++ nodes') := by
  refine ⟨?_, ?_⟩
  · have hle := h.length_le
    have hle' := h'.length_le
    simp only [List.length_append]
    omega
  · constructor
    · intro heq
      -- neither part is longer than what is expected of it, so neither is shorter
      have hlength := congrArg List.length heq
      simp only [List.length_append] at hlength
      have hle := h.length_le
      have hle' := h'.length_le
      obtain ⟨hfirst, hsecond⟩ := List.append_inj heq (by omega)
      intro nestedNode hmem
      rcases List.mem_append.mp hmem with hmem | hmem
      · exact h.eq_iff.mp hfirst nestedNode hmem
      · exact h'.eq_iff.mp hsecond nestedNode hmem
    · intro hall
      rw [h.eq_iff.mpr fun nestedNode hmem => hall nestedNode (List.mem_append_left _ hmem),
        h'.eq_iff.mpr fun nestedNode hmem => hall nestedNode (List.mem_append_right _ hmem)]

variable (source)

/-- What the two matches make of a node. -/
def extractedAt (inBody : Bool) (n : Node) : Option Definition :=
  if inBody then
    match n.kind with
    | "method" => extractMethod source n true
    | "singleton_method" => extractSingletonMethod source n
    | "class" => extractContainer source .class_ n
    | "assignment" => extractConstantAssignment source n
    | _ => none
  else extractTopLevel source n

theorem extractInBody_cons (c : Node) (cs : List Node) : extractInBody source (c :: cs) =
    (if c.isError || c.isMissing then [] else (extractedAt source true c).toList) ++ extractInBody source cs := by
  rw [extractInBody, extractedAt, if_pos rfl]
  congr 2
  split <;> simp_all

theorem nodeKind_method {kind : String} (h : nodeKind kind = some .method) : kind = "method" ∨ kind = "singleton_method" := by
  unfold nodeKind at h
  split at h <;> simp_all

theorem nodeKind_container {kind : String} {k : OutlineKind} (h : nodeKind kind = some k) (hk : k ≠ .method) :
    kind = "module" ∧ k = .module_ ∨ kind = "class" ∧ k = .class_ := by
  unfold nodeKind at h
  split at h <;> simp_all

theorem extractedAt_method {inBody : Bool} {n : Node} (hkind : nodeKind n.kind = some .method) :
    ∃ k, symbolKind k = some .method ∧ extractedAt source inBody n = (findIdentifier source n).map (.leaf k n) := by
  rcases nodeKind_method hkind with h | h <;> cases inBody
  · exact ⟨.function, rfl, by simp [extractedAt, extractTopLevel, extractMethod, h]⟩
  · exact ⟨.method, rfl, by simp [extractedAt, extractMethod, h]⟩
  · exact ⟨.function, rfl, by simp [extractedAt, extractTopLevel, extractSingletonMethod, h]⟩
  · exact ⟨.function, rfl, by simp [extractedAt, extractSingletonMethod, h]⟩

theorem extractContainer_eq (k : SymbolKind) (n : Node) : extractContainer source k n =
    (findConstantName source n).map fun (name, place) => ⟨name, k, n, some place, extractBodyMethods source n.children⟩ := by
  obtain ⟨_, _, _, _, _, _, _, _, _, cs⟩ := n
  rw [extractContainer]

/-- One node that is expected: it is yielded, or it is not. -/
theorem mirrors_single {inBody : Bool} {n : Node} {k : OutlineKind} {yielded : Option (Str × Point)}
    {below expected : List Outline} {nodes : List (Bool × Node)}
    (hyielded : yielded.isSome = true → (inBody = true → n.kind ≠ "module") ∧ yielded.map (·.1) = readName source n)
    (hmissing : yielded = none → ¬ IsMirrored source (inBody, n)) (hbelow : Mirrors source below expected nodes) :
    Mirrors source (yielded.toList.map fun name => .mk k (some name.1) below) [.mk k (fieldName source n) expected]
      ((inBody, n) :: nodes) := by
  cases yielded with
  | none => exact ⟨by simp, by simp [hmissing rfl]⟩
  | some name =>
    obtain ⟨harm, hread⟩ := hyielded rfl
    rw [Option.map_some] at hread
    refine ⟨by simp, ?_⟩
    simp only [Option.toList_some, List.map_cons, List.map_nil, List.cons.injEq, Outline.mk.injEq, true_and, and_true,
      hbelow.eq_iff, List.forall_mem_cons]
    rw [hread]
    constructor
    · rintro ⟨hfield, hall⟩
      exact ⟨⟨harm, by rw [← hread]; rfl, hfield⟩, hall⟩
    · rintro ⟨hmirrored, hall⟩
      exact ⟨hmirrored.isFieldName, hall⟩

/-- A method, which has nothing below it. -/
theorem mirrors_method {inBody : Bool} {n : Node} (hkind : nodeKind n.kind = some .method) :
    Mirrors source (outlines (extractedAt source inBody n).toList) (nestingAt source n) (nestedAt inBody n) := by
  obtain ⟨k, hk, hextracted⟩ := @extractedAt_method source inBody n hkind
  have hread : (findIdentifier source n).map (·.1) = readName source n := by rw [readName, if_pos hkind]
  have hnesting : nestingAt source n = [.mk .method (fieldName source n) []] := by
    obtain ⟨_, _, _, _, _, _, _, _, _, cs⟩ := n
    unfold nestingAt
    rw [hkind]
  have hnested : nestedAt inBody n = [(inBody, n)] := by
    obtain ⟨_, _, _, _, _, _, _, _, _, cs⟩ := n
    unfold nestedAt
    rw [hkind]
  have houtlines : outlines (extractedAt source inBody n).toList =
      (findIdentifier source n).toList.map fun name => .mk .method (some name.1) [] := by
    rw [hextracted]
    cases findIdentifier source n with
    | none => rfl
    | some name => simp [outlines, outline, Definition.leaf, hk]
  rw [houtlines, hnesting, hnested]
  refine mirrors_single source (fun _ => ⟨fun _ h => ?_, hread⟩) (fun hnone h => ?_) (Mirrors.nil source)
  · rw [h] at hkind
    exact absurd hkind (by decide)
  · have hnamed := h.isNamed
    simp [← hread, hnone] at hnamed

/-- No other node is part of the outline. -/
theorem outlines_other {inBody : Bool} {n : Node} (hkind : nodeKind n.kind = none) :
    outlines (extractedAt source inBody n).toList = [] := by
  have hassignment : outlines (extractConstantAssignment source n).toList = [] := by
    cases h : extractConstantAssignment source n with
    | none => rfl
    | some d =>
      obtain ⟨left, _, hleft⟩ := Option.bind_eq_some_iff.mp h
      split at hleft
      · cases hleft
      · obtain ⟨name, _, rfl⟩ := Option.map_eq_some_iff.mp hleft
        rfl
  have hmodule : n.kind ≠ "module" := fun h => by simp [h, nodeKind] at hkind
  have hclass : n.kind ≠ "class" := fun h => by simp [h, nodeKind] at hkind
  have hmethod : n.kind ≠ "method" := fun h => by simp [h, nodeKind] at hkind
  have hsingleton : n.kind ≠ "singleton_method" := fun h => by simp [h, nodeKind] at hkind
  unfold extractedAt extractTopLevel
  split <;> split <;> first | contradiction | exact hassignment | rfl

theorem mirrors_other {inBody : Bool} {n : Node} (hkind : nodeKind n.kind = none) :
    Mirrors source (outlines (extractedAt source inBody n).toList) (nestingAt source n) (nestedAt inBody n) := by
  rw [outlines_other source hkind]
  obtain ⟨_, _, _, _, _, _, _, _, _, cs⟩ := n
  unfold nestingAt nestedAt
  rw [hkind]
  exact Mirrors.nil source

/-- The arms for modules and classes: the match for bodies has none for modules. -/
theorem outlines_container {inBody : Bool} {n : Node} {kind : OutlineKind} (hkind : nodeKind n.kind = some kind)
    (hcontainer : kind ≠ .method) : outlines (extractedAt source inBody n).toList =
      (if inBody = true ∧ n.kind = "module" then none else findConstantName source n).toList.map fun name =>
        .mk kind (some name.1) (outlines (extractBodyMethods source n.children)) := by
  have hextracted : ∀ k, symbolKind k = some kind → outlines (extractContainer source k n).toList =
      (findConstantName source n).toList.map fun name =>
        .mk kind (some name.1) (outlines (extractBodyMethods source n.children)) := by
    intro k hk
    rw [extractContainer_eq]
    cases findConstantName source n with
    | none => rfl
    | some name => simp [outlines, outline, hk]
  rcases nodeKind_container hkind hcontainer with ⟨h, rfl⟩ | ⟨h, rfl⟩
  · cases inBody with
    | false => simpa [extractedAt, extractTopLevel, h] using hextracted .module_ rfl
    | true => simp [extractedAt, h, outlines]
  · cases inBody with
    | false => simpa [extractedAt, extractTopLevel, h] using hextracted .class_ rfl
    | true => simpa [extractedAt, h] using hextracted .class_ rfl

theorem mirrors_container {inBody : Bool} {n : Node} {kind : OutlineKind} (hkind : nodeKind n.kind = some kind)
    (hcontainer : kind ≠ .method)
    (hbelow : Mirrors source (outlines (extractBodyMethods source n.children)) (nestingInBodies source n.children)
      (nestedInBodies n.children)) :
    Mirrors source (outlines (extractedAt source inBody n).toList) (nestingAt source n) (nestedAt inBody n) := by
  have hread : (findConstantName source n).map (·.1) = readName source n := by
    rw [readName, if_neg]
    intro h
    exact hcontainer (Option.some.inj (hkind.symm.trans h))
  have hnesting : nestingAt source n = [.mk kind (fieldName source n) (nestingInBodies source n.children)] := by
    obtain ⟨_, _, _, _, _, _, _, _, _, cs⟩ := n
    unfold nestingAt
    rw [hkind]
    cases kind <;> first | contradiction | rfl
  have hnested : nestedAt inBody n = (inBody, n) :: nestedInBodies n.children := by
    obtain ⟨_, _, _, _, _, _, _, _, _, cs⟩ := n
    unfold nestedAt
    rw [hkind]
    cases kind <;> first | contradiction | rfl
  rw [outlines_container source hkind hcontainer, hnesting, hnested]
  by_cases hmodule : inBody = true ∧ n.kind = "module"
  · rw [if_pos hmodule]
    exact mirrors_single source (fun h => by simp at h) (fun _ h => h.isArm hmodule.1 hmodule.2) hbelow
  · rw [if_neg hmodule]
    refine mirrors_single source (fun _ => ⟨fun hin h => hmodule ⟨hin, h⟩, hread⟩) (fun hnone h => ?_) hbelow
    have hnamed := h.isNamed
    simp [← hread, hnone] at hnamed

mutual

theorem mirrors_at (inBody : Bool) : ∀ n : Node,
    Mirrors source (outlines (extractedAt source inBody n).toList) (nestingAt source n) (nestedAt inBody n)
  | n@⟨kind, _, _, _, _, _, _, _, _, cs⟩ => by
    cases hkind : nodeKind kind with
    | none => exact mirrors_other source hkind
    | some k =>
      by_cases hmethod : k = .method
      · exact mirrors_method source (hkind.trans (congrArg some hmethod))
      · exact mirrors_container source hkind hmethod (mirrors_bodies cs)

theorem mirrors_bodies : ∀ cs : List Node,
    Mirrors source (outlines (extractBodyMethods source cs)) (nestingInBodies source cs) (nestedInBodies cs)
  | [] => Mirrors.nil source
  | ⟨kind, _, _, _, _, _, _, _, _, inner⟩ :: cs => by
    rw [extractBodyMethods, nestingInBodies, nestedInBodies, outlines_append]
    refine Mirrors.append ?_ (mirrors_bodies cs)
    by_cases hbody : kind = "body_statement"
    · rw [if_pos hbody, if_pos hbody, if_pos hbody]
      exact mirrors_inBody inner
    · rw [if_neg hbody, if_neg hbody, if_neg hbody]
      exact Mirrors.nil source

theorem mirrors_inBody : ∀ cs : List Node,
    Mirrors source (outlines (extractInBody source cs)) (nestingAmong source cs) (nestedAmong true cs)
  | [] => Mirrors.nil source
  | c :: cs => by
    rw [extractInBody_cons, nestingAmong, nestedAmong, outlines_append]
    refine Mirrors.append ?_ (mirrors_inBody cs)
    by_cases hskip : (c.isError || c.isMissing) = true
    · rw [if_pos hskip, if_pos hskip, if_pos hskip]
      exact Mirrors.nil source
    · rw [if_neg hskip, if_neg hskip, if_neg hskip]
      exact mirrors_at true c

end

/-- The loop over the top level. -/
theorem mirrors_top : ∀ cs : List Node,
    Mirrors source (outlines ((cs.filter fun c => !(c.isError || c.isMissing)).filterMap (extractTopLevel source)))
      (nestingAmong source cs) (nestedAmong false cs)
  | [] => Mirrors.nil source
  | c :: cs => by
    rw [nestingAmong, nestedAmong, List.filter_cons]
    by_cases hskip : (c.isError || c.isMissing) = true
    · rw [if_pos hskip, if_pos hskip, hskip, if_neg (by simp)]
      exact (Mirrors.nil source).append (mirrors_top cs)
    · rw [if_neg hskip, if_neg hskip, if_pos (by simpa using hskip), List.filterMap_cons]
      have hfirst := (mirrors_at source false c).append (mirrors_top cs)
      rw [← outlines_append] at hfirst
      have htop : extractedAt source false c = extractTopLevel source c := rfl
      rw [htop] at hfirst
      cases htop : extractTopLevel source c with
      | none => simpa [htop] using hfirst
      | some d => simpa [htop] using hfirst

/-- The symbols' forest is that of the nodes exactly when no module stands in a body and
    every name that is read is the field's. -/
theorem outlines_mirror_iff (texts : TextsOf) (file : Path) (tree : Node) :
    symbolOutlines (Parse.extractSymbols texts source tree file .ruby) = nesting source tree ↔
      ∀ nestedNode ∈ nested tree, IsMirrored source nestedNode := by
  rw [Parse.extractSymbols, extractDefinitions, symbolOutlines_toSymbols]
  exact (mirrors_top source tree.children).eq_iff

end Mirrors

/-! ## A module in a module -/

/-- `module A; module B; end; end`. -/
def moduleInModule : Node :=
  let inner : Node :=
    ⟨"module", none, 10, 23, ⟨0, 10⟩, ⟨0, 23⟩, true, false, false,
      [.leaf "module" none 0 10 10 6 false, .leaf "constant" (some "name") 0 17 17 1 true, .leaf ";" none 0 18 18 1 false,
        .leaf "end" none 0 20 20 3 false]⟩
  let body : Node :=
    ⟨"body_statement", some "body", 10, 24, ⟨0, 10⟩, ⟨0, 24⟩, true, false, false, [inner, .leaf ";" none 0 23 23 1 false]⟩
  let outer : Node :=
    ⟨"module", none, 0, 28, ⟨0, 0⟩, ⟨0, 28⟩, true, false, false,
      [.leaf "module" none 0 0 0 6 false, .leaf "constant" (some "name") 0 7 7 1 true, .leaf ";" none 0 8 8 1 false, body,
        .leaf "end" none 0 25 25 3 false]⟩
  ⟨"program", none, 0, 28, ⟨0, 0⟩, ⟨0, 28⟩, true, false, false, [outer]⟩

def moduleSource : Str := str "module A; module B; end; end"

/-- The outer module's symbol has nothing below it. -/
theorem module_in_module_has_no_symbol :
    symbolOutlines (Parse.extractSymbols (fun _ _ _ _ => ⟨.private_, none, none, none⟩) moduleSource moduleInModule [] .ruby) ≠
      nesting moduleSource moduleInModule := by
  intro h
  have hbelow := congrArg (List.map fun | .mk _ _ children => children.length) h
  revert hbelow
  decide +kernel

end CodeQuery.Parse.Ruby
