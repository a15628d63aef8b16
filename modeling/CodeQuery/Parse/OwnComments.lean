/-
  CodeQuery.Parse.OwnComments — the doc comments that a rule gives a symbol
  (`extract_doc` and `extract_preceding_comments` of
  `codequery-parse/src/extract_engine.rs`).

  The comments are looked for from the name on, up to the root. The first node on the way
  that has comments directly before it decides, whether it is the definition or something
  around it; and of its comments the nearest only is taken, unless it is the name
  (`comments_of_another_construct`). `doc_of_own_definition_iff` says when the doc is the
  definition's.
-/

import CodeQuery.Parse.ExtractEngine
import CodeQuery.Parse.Places

namespace CodeQuery.Parse.OwnComments

open CodeQuery.Core CodeQuery.Text

/-! ## The way up -/

/-- A node and its ancestors. -/
def upwardFrom : Node → List (Node × Nat) → List Spot
  | n, [] => [⟨n, []⟩]
  | n, (p, i) :: above => ⟨n, (p, i) :: above⟩ :: upwardFrom p above

def upward (s : Spot) : List Spot := upwardFrom s.node s.above

/-- What the library promises of the spot of a node: each node is the child of the next
    that the index says, and the last is the root. -/
def StandsIn (tree : Node) : Node → List (Node × Nat) → Prop
  | n, [] => n = tree
  | n, (p, i) :: above => p.children[i]? = some n ∧ StandsIn tree p above

/-- The comments directly before a node, the nearest first. -/
def comments (s : Spot) : List Node := s.before.takeWhile isComment

section Docs

variable (source : Str)

/-- Their texts, in the order of the source. -/
def run (s : Spot) : Option Str :=
  match comments s with
  | [] => none
  | cs => some ([lf].intercalate (cs.filterMap (·.utf8Text source)).reverse)

/-- The text of the nearest. -/
def nearest (s : Spot) : Option Str := (comments s).head?.bind (·.utf8Text source)

/-- What is taken at a node, which is the name or above it. -/
def taken (isName : Bool) (s : Spot) : Option Str := if isName then run source s else nearest source s

end Docs

/-- The node that a rule defines: that of the body, when the name is in it, else the
    name's parent. -/
inductive IsDefinition (rule : CompiledRule) (captures : List Capture) (name : Spot) : Spot → Prop where
  | body {b : Spot} : rule.bodyCapture.bind (captureSpot rule.query captures) = some b → b ∈ upward name →
      IsDefinition rule captures name b
  | parent {p : Spot} : (∀ b, rule.bodyCapture.bind (captureSpot rule.query captures) = some b → b ∉ upward name) →
      name.parent = some p → IsDefinition rule captures name p

/-- There are no comments on the way, or the first are before the definition, and one
    unless that is the name; or they are below it and read like those before it. -/
def OwnOrNone (source : Str) (name d : Spot) : Prop :=
  (∀ t ∈ upward name, comments t = []) ∨
    ∃ below t rest, upward name = below ++ t :: rest ∧ (∀ u ∈ below, comments u = []) ∧ comments t ≠ [] ∧
      (t = d ∧ (below = [] ∨ (comments t).length = 1) ∨ d ∈ rest ∧ taken source below.isEmpty t = run source d)

/-! ## What is found -/

section Search

variable {source : Str} {tree : Node}

theorem self_mem_upward (s : Spot) : s ∈ upward s := by
  obtain ⟨n, above⟩ := s
  cases above with
  | nil => exact List.mem_singleton_self _
  | cons p above => exact List.mem_cons_self

theorem parent_mem_upward {s p : Spot} (h : s.parent = some p) : p ∈ upward s := by
  obtain ⟨n, above⟩ := s
  cases above with
  | nil => cases h
  | cons q above =>
    cases h
    exact List.mem_cons_of_mem _ (self_mem_upward _)

theorem IsDefinition.mem_upward {rule : CompiledRule} {captures : List Capture} {name d : Spot}
    (h : IsDefinition rule captures name d) : d ∈ upward name := by
  cases h with
  | body _ hmem => exact hmem
  | parent _ hparent => exact parent_mem_upward hparent

theorem standsIn_preorder {n : Node} {above : List (Node × Nat)} (h : StandsIn tree n above) : n ∈ tree.preorder := by
  induction above generalizing n with
  | nil =>
    rw [StandsIn] at h
    rw [h]
    exact self_mem_preorder tree
  | cons q above ih =>
    obtain ⟨p, i⟩ := q
    obtain ⟨hchild, hp⟩ := h
    exact preorder_trans (ih hp) (preorder_child (List.mem_of_getElem? hchild) (self_mem_preorder n))

/-- The siblings in front are nodes of the tree. -/
theorem before_mem_preorder {s : Spot} (h : StandsIn tree s.node s.above) : ∀ c ∈ s.before, c ∈ tree.preorder := by
  obtain ⟨n, above⟩ := s
  intro c hc
  cases above with
  | nil => cases hc
  | cons q above =>
    obtain ⟨p, i⟩ := q
    have hmem : c ∈ p.children := List.mem_of_mem_take (List.mem_reverse.mp hc)
    exact preorder_trans (standsIn_preorder h.2) (preorder_child hmem (self_mem_preorder c))

/-- The sibling in front is the first of those. -/
theorem prevSibling_eq {s : Spot} (h : StandsIn tree s.node s.above) : s.prevSibling = s.before.head? := by
  obtain ⟨n, above⟩ := s
  cases above with
  | nil => rfl
  | cons q above =>
    obtain ⟨p, i⟩ := q
    cases i with
    | zero => rfl
    | succ i =>
      obtain ⟨hlt, -⟩ := List.getElem?_eq_some_iff.mp h.1
      show p.children[i]? = (p.children.take (i + 1)).reverse.head?
      rw [List.head?_reverse, List.getLast?_take, if_neg (by omega)]
      simp [List.getElem?_eq_getElem (show i < p.children.length by omega)]

/-- The sibling in front of an ancestor is read when it is a comment. -/
theorem bind_prevSibling {n : Node} {above : List (Node × Nat)} (h : StandsIn tree n above) :
    ((Spot.prevSibling ⟨n, above⟩).bind fun prev => if isComment prev then prev.utf8Text source else none) =
      nearest source ⟨n, above⟩ := by
  rw [@prevSibling_eq tree ⟨n, above⟩ h, nearest, comments]
  cases hbefore : Spot.before ⟨n, above⟩ with
  | nil => rfl
  | cons c cs =>
    rw [List.head?_cons, Option.bind_some, List.takeWhile_cons]
    split
    · rfl
    · rfl

theorem commentAbove_eq {p : Node} {i : Nat} {above : List (Node × Nat)} (h : StandsIn tree p above) :
    commentAbove source ((p, i) :: above) = (upwardFrom p above).findSome? (nearest source) := by
  induction above generalizing p i with
  | nil =>
    rw [commentAbove, bind_prevSibling h, upwardFrom, List.findSome?_cons]
    rfl
  | cons q above ih =>
    obtain ⟨r, j⟩ := q
    rw [commentAbove, bind_prevSibling h, upwardFrom, List.findSome?_cons, ih h.2]
    cases nearest source ⟨p, (r, j) :: above⟩ <;> rfl

/-- Either no node has comments, or there is a first that has. -/
theorem first_cases (levels : List Spot) : (∀ t ∈ levels, comments t = []) ∨
    ∃ below t rest, levels = below ++ t :: rest ∧ (∀ u ∈ below, comments u = []) ∧ comments t ≠ [] := by
  induction levels with
  | nil => exact .inl fun t ht => absurd ht List.not_mem_nil
  | cons u levels ih =>
    by_cases hu : comments u = []
    · rcases ih with hall | ⟨below, t, rest, rfl, hbelow, ht⟩
      · exact .inl (List.forall_mem_cons.mpr ⟨hu, hall⟩)
      · exact .inr ⟨u :: below, t, rest, rfl, List.forall_mem_cons.mpr ⟨hu, hbelow⟩, ht⟩
    · exact .inr ⟨[], u, levels, rfl, fun v hv => absurd hv List.not_mem_nil, hu⟩

theorem run_eq_none_iff {s : Spot} : run source s = none ↔ comments s = [] := by
  rw [run]
  split
  next h => exact iff_of_true rfl h
  next h => exact iff_of_false (by simp) h

theorem nearest_eq_none {s : Spot} (h : comments s = []) : nearest source s = none := by
  rw [nearest, h]
  rfl

theorem standsIn_upward {s : Spot} (h : StandsIn tree s.node s.above) : ∀ t ∈ upward s, StandsIn tree t.node t.above := by
  obtain ⟨n, above⟩ := s
  induction above generalizing n with
  | nil => exact List.forall_mem_singleton.mpr h
  | cons q above ih =>
    obtain ⟨p, i⟩ := q
    exact List.forall_mem_cons.mpr ⟨h, ih p h.2⟩

theorem length_le_intercalate (texts : List Str) (text : Str) :
    text.length ≤ ([lf].intercalate (texts ++ [text])).length := by
  induction texts with
  | nil => rw [List.nil_append, List.intercalate_singleton]
  | cons first texts ih =>
    rw [List.cons_append, List.intercalate_cons_of_ne_nil (by simp), List.length_append, List.length_append]
    omega

/-- With others in front, a text is longer than the last. -/
theorem intercalate_ne_last {texts : List Str} (hne : texts ≠ []) (text : Str) :
    [lf].intercalate (texts ++ [text]) ≠ text := by
  obtain ⟨first, rest, rfl⟩ := List.exists_cons_of_ne_nil hne
  intro heq
  have hle := length_le_intercalate rest text
  have hlength := congrArg List.length heq
  rw [List.cons_append, List.intercalate_cons_of_ne_nil (by simp), List.length_append, List.length_append,
    List.length_singleton] at hlength
  omega

section Read

variable (hread : ∀ n ∈ tree.preorder, (n.utf8Text source).isSome = true)

include hread

theorem filterMap_comments_ne_nil {s : Spot} (h : StandsIn tree s.node s.above) (hne : comments s ≠ []) :
    (comments s).filterMap (·.utf8Text source) ≠ [] := by
  obtain ⟨c, cs, hcs⟩ := List.exists_cons_of_ne_nil hne
  have hmem : c ∈ s.before := (List.takeWhile_sublist _).subset (hcs ▸ List.mem_cons_self : c ∈ comments s)
  obtain ⟨text, htext⟩ := Option.isSome_iff_exists.mp (hread c (before_mem_preorder h c hmem))
  rw [hcs, List.filterMap_cons, htext]
  simp

theorem nearest_ne_none {s : Spot} (h : StandsIn tree s.node s.above) (hne : comments s ≠ []) : nearest source s ≠ none := by
  obtain ⟨c, cs, hcs⟩ := List.exists_cons_of_ne_nil hne
  have hmem : c ∈ s.before := (List.takeWhile_sublist _).subset (hcs ▸ List.mem_cons_self : c ∈ comments s)
  obtain ⟨text, htext⟩ := Option.isSome_iff_exists.mp (hread c (before_mem_preorder h c hmem))
  rw [nearest, hcs, List.head?_cons, Option.bind_some, htext]
  simp

/-- The comments of the name, or else the nearest one of the first node above that has any. -/
theorem extractPrecedingComments_eq {s : Spot} (h : StandsIn tree s.node s.above) :
    extractPrecedingComments s source = (run source s).or ((upward s).tail.findSome? (nearest source)) := by
  obtain ⟨n, above⟩ := s
  cases above with
  | nil => rfl
  | cons q above =>
    obtain ⟨p, i⟩ := q
    have hfilter := @filterMap_comments_ne_nil source tree hread ⟨n, (p, i) :: above⟩ h
    have habove : commentAbove source ((p, i) :: above) = (upwardFrom p above).findSome? (nearest source) := commentAbove_eq h.2
    rw [extractPrecedingComments, run]
    cases hcomments : comments ⟨n, (p, i) :: above⟩ with
    | nil =>
      rw [comments] at hcomments
      dsimp only
      rw [hcomments, habove]
      rfl
    | cons c cs =>
      rw [hcomments] at hfilter
      rw [comments] at hcomments
      dsimp only
      rw [hcomments, if_neg (by simpa using hfilter (by simp))]
      rfl

theorem extract_of_none {s : Spot} (h : StandsIn tree s.node s.above) (hall : ∀ t ∈ upward s, comments t = []) :
    extractPrecedingComments s source = none := by
  rw [extractPrecedingComments_eq hread h, run_eq_none_iff.mpr (hall s (self_mem_upward s)), Option.none_or,
    List.findSome?_eq_none_iff]
  exact fun t ht => nearest_eq_none (hall t (List.mem_of_mem_tail ht))

/-- What is found is of the first node on the way that has comments. -/
theorem extract_of_first {s t : Spot} {below rest : List Spot} (h : StandsIn tree s.node s.above)
    (hupward : upward s = below ++ t :: rest) (hbelow : ∀ u ∈ below, comments u = []) (ht : comments t ≠ []) :
    extractPrecedingComments s source = taken source below.isEmpty t ∧ taken source below.isEmpty t ≠ none := by
  rw [extractPrecedingComments_eq hread h]
  have hfirst : ∃ more, upward s = s :: more := by
    obtain ⟨n, above⟩ := s
    cases above with
    | nil => exact ⟨[], rfl⟩
    | cons q above => exact ⟨_, rfl⟩
  obtain ⟨more, hmore⟩ := hfirst
  rw [hmore, List.tail_cons]
  rw [hmore] at hupward
  cases below with
  | nil =>
    rw [List.nil_append] at hupward
    injection hupward with hst hrest
    subst hst
    have hsome : run source s ≠ none := fun hnone => ht (run_eq_none_iff.mp hnone)
    obtain ⟨text, htext⟩ := Option.ne_none_iff_exists'.mp hsome
    simp [taken, htext]
  | cons u below =>
    rw [List.cons_append] at hupward
    injection hupward with hsu hrest
    subst hsu
    obtain ⟨hs, hbelow⟩ := List.forall_mem_cons.mp hbelow
    have hskip : below.findSome? (nearest source) = none :=
      List.findSome?_eq_none_iff.mpr fun v hv => nearest_eq_none (hbelow v hv)
    have hstands : StandsIn tree t.node t.above := standsIn_upward h t (by rw [hmore, hrest]; simp)
    have hsome := nearest_ne_none hread hstands ht
    obtain ⟨text, htext⟩ := Option.ne_none_iff_exists'.mp hsome
    rw [run_eq_none_iff.mpr hs, hrest, List.findSome?_append, hskip, List.findSome?_cons, htext]
    simp [taken, htext]

/-- The nearest comment is the whole run where it is alone. -/
theorem nearest_eq_run_iff {t : Spot} (h : StandsIn tree t.node t.above) (ht : comments t ≠ []) :
    nearest source t = run source t ↔ (comments t).length = 1 := by
  obtain ⟨c, cs, hcs⟩ := List.exists_cons_of_ne_nil ht
  have hmem : ∀ d ∈ comments t, d ∈ t.before := fun d hd => (List.takeWhile_sublist _).subset hd
  obtain ⟨text, htext⟩ := Option.isSome_iff_exists.mp
    (hread c (before_mem_preorder h c (hmem c (hcs ▸ List.mem_cons_self))))
  have hrun : run source t = some ([lf].intercalate ((cs.filterMap (·.utf8Text source)).reverse ++ [text])) := by
    rw [run, hcs]
    dsimp only
    rw [List.filterMap_cons, htext]
    dsimp only
    rw [List.reverse_cons]
  have hnearest : nearest source t = some text := by rw [nearest, hcs, List.head?_cons, Option.bind_some, htext]
  rw [hrun, hnearest, hcs, List.length_cons]
  cases cs with
  | nil => simp [List.intercalate_singleton]
  | cons d ds =>
    obtain ⟨other, hother⟩ := Option.isSome_iff_exists.mp
      (hread d (before_mem_preorder h d (hmem d (hcs ▸ List.mem_cons_of_mem _ List.mem_cons_self))))
    refine iff_of_false (fun heq => ?_) (by simp)
    have hothers : ((d :: ds).filterMap (·.utf8Text source)).reverse ≠ [] := by
      rw [List.filterMap_cons, hother]
      simp
    exact intercalate_ne_last hothers text (Option.some.inj heq).symm

theorem extract_eq_run_iff {name d : Spot} (h : StandsIn tree name.node name.above) (hd : d ∈ upward name) :
    extractPrecedingComments name source = run source d ↔ OwnOrNone source name d := by
  constructor
  · intro heq
    rcases first_cases (upward name) with hall | ⟨below, t, rest, hupward, hbelow, ht⟩
    · exact .inl hall
    · obtain ⟨htaken, hsome⟩ := extract_of_first hread h hupward hbelow ht
      have hstands : StandsIn tree t.node t.above := standsIn_upward h t (by rw [hupward]; simp)
      rw [htaken] at heq
      refine .inr ⟨below, t, rest, hupward, hbelow, ht, ?_⟩
      rw [hupward] at hd
      rcases List.mem_append.mp hd with hd | hd
      · -- the definition has no comments, and something was found
        rw [run_eq_none_iff.mpr (hbelow d hd)] at heq
        exact absurd heq hsome
      · rcases List.mem_cons.mp hd with rfl | hd
        · refine .inl ⟨rfl, ?_⟩
          cases below with
          | nil => exact .inl rfl
          | cons u below => exact .inr ((nearest_eq_run_iff hread hstands ht).mp heq)
        · exact .inr ⟨hd, heq⟩
  · intro hown
    rcases hown with hall | ⟨below, t, rest, hupward, hbelow, ht, hcase⟩
    · rw [extract_of_none hread h hall, run_eq_none_iff.mpr (hall d hd)]
    · rw [(extract_of_first hread h hupward hbelow ht).1]
      rcases hcase with ⟨rfl, hbelow | hone⟩ | ⟨-, heq⟩
      · rw [hbelow]
        rfl
      · have hstands : StandsIn tree t.node t.above := standsIn_upward h t (by rw [hupward]; simp)
        cases below with
        | nil => rfl
        | cons u below => exact (nearest_eq_run_iff hread hstands ht).mpr hone
      · exact heq

end Read

end Search

/-! ## The doc of a definition -/

/-- What the library promises of a query on a tree: it captures nodes where they stand. -/
def CapturesSpots (query : Query) (tree : Node) (source : Str) : Prop :=
  ∀ captures ∈ query.run tree source, ∀ c ∈ captures, StandsIn tree c.spot.node c.spot.above

theorem captureSpot_standsIn {query : Query} {tree : Node} {source : Str} (hspots : CapturesSpots query tree source)
    {captures : List Capture} (hcaptures : captures ∈ query.run tree source) {name : String} {spot : Spot}
    (h : captureSpot query captures name = some spot) : StandsIn tree spot.node spot.above := by
  simp only [captureSpot, Option.bind_eq_bind, Option.bind_eq_some_iff, Option.map_eq_some_iff] at h
  obtain ⟨idx, -, c, hc, rfl⟩ := h
  exact hspots captures hcaptures c (List.mem_of_find?_eq_some hc)

/-- For every tree, every rule that takes the comments in front and every symbol of it: the
    doc is the run of comments directly before the definition if and only if there are none
    on the way from the name, or the first are those, or read like them. -/
theorem doc_of_own_definition_iff {rule : CompiledRule} (hrule : rule.docStrategy = some "preceding_comment")
    {tree : Node} {source : Str} (hspots : CapturesSpots rule.query tree source)
    (hread : ∀ n ∈ tree.preorder, (n.utf8Text source).isSome = true) {file : Path} {s : Symbol}
    (hs : s ∈ extractWithRule rule source tree file) :
    ∃ captures ∈ rule.query.run tree source, ∃ name, matchSymbol rule source file captures = some s ∧
      captureSpot rule.query captures rule.nameCapture = some name ∧
      ∀ d, IsDefinition rule captures name d → (s.doc = run source d ↔ OwnOrNone source name d) := by
  obtain ⟨captures, hcaptures, hmatch⟩ := List.mem_filterMap.mp hs
  obtain ⟨text, htext, rfl⟩ := Option.map_eq_some_iff.mp hmatch
  obtain ⟨name, hname, -⟩ := Option.bind_eq_some_iff.mp htext
  refine ⟨captures, hcaptures, name, hmatch, hname, fun d hd => ?_⟩
  have hdoc : extractDoc rule captures source = extractPrecedingComments name source := by
    rw [extractDoc, hrule, hname]
    rfl
  show extractDoc rule captures source = run source d ↔ OwnOrNone source name d
  rw [hdoc]
  exact extract_eq_run_iff hread (captureSpot_standsIn hspots hcaptures hname) hd.mem_upward

/-! ## A class and its method -/

def docSource : Str := str "# a\n# b\nclass C \x7b f() \x7b\x7d \x7d"

def methodF : Node :=
  ⟨"method", none, 18, 24, ⟨2, 10⟩, ⟨2, 16⟩, true, false, false, [.leaf "identifier" (some "name") 2 10 18 1 true]⟩

def classC : Node :=
  ⟨"class", none, 8, 26, ⟨2, 0⟩, ⟨2, 18⟩, true, false, false,
    [.leaf "identifier" (some "name") 2 6 14 1 true, methodF]⟩

def docTree : Node :=
  ⟨"program", none, 0, 26, ⟨0, 0⟩, ⟨2, 18⟩, true, false, false,
    [.leaf "comment" none 0 0 0 3 true, .leaf "comment" none 1 0 4 3 true, classC]⟩

def classSpot : Spot := ⟨classC, [(docTree, 2)]⟩

def methodSpot : Spot := ⟨methodF, [(classC, 1), (docTree, 2)]⟩

/-- The name of the class or of the method is their first child at hand. -/
def nameOf (s : Spot) (name : Node) : Spot := ⟨name, (s.node, 0) :: s.above⟩

/-- `(_ name: (identifier) @name) @body`, matched at one node. -/
def docCaptures (name : Node) (s : Spot) : List Capture := [⟨0, nameOf s name⟩, ⟨1, s⟩]

def docRule (kind : SymbolKind) (name : Node) (s : Spot) : CompiledRule :=
  ⟨kind, ⟨["name", "body"], fun _ _ => [docCaptures name s]⟩, "name", some "body", some "preceding_comment", none⟩

def classRule : CompiledRule := docRule .class_ (.leaf "identifier" (some "name") 2 6 14 1 true) classSpot

def methodRule : CompiledRule := docRule .method (.leaf "identifier" (some "name") 2 10 18 1 true) methodSpot

theorem capturesSpots_classRule : CapturesSpots classRule.query docTree docSource := by
  intro captures hcaptures c hc
  rw [List.mem_singleton.mp hcaptures] at hc
  rcases List.mem_cons.mp hc with rfl | hc
  · exact ⟨rfl, rfl, rfl⟩
  · rw [List.mem_singleton.mp hc]
    exact ⟨rfl, rfl⟩

theorem capturesSpots_methodRule : CapturesSpots methodRule.query docTree docSource := by
  intro captures hcaptures c hc
  rw [List.mem_singleton.mp hcaptures] at hc
  rcases List.mem_cons.mp hc with rfl | hc
  · exact ⟨rfl, rfl, rfl, rfl⟩
  · rw [List.mem_singleton.mp hc]
    exact ⟨rfl, rfl, rfl⟩

theorem readable_docTree : ∀ n ∈ docTree.preorder, (n.utf8Text docSource).isSome = true :=
  List.all_eq_true.mp (by decide)

/-- A symbol of the rule has this doc, and the comments before what it defines are others. -/
def HasOtherDoc (rule : CompiledRule) (doc : Option Str) : Prop :=
  ∃ s ∈ extractWithRule rule docSource docTree [], ∃ captures ∈ rule.query.run docTree docSource, ∃ name d,
    captureSpot rule.query captures rule.nameCapture = some name ∧ IsDefinition rule captures name d ∧ s.doc = doc ∧
      run docSource d ≠ doc

theorem hasOtherDoc_docRule {kind : SymbolKind} {name : Node} {spot : Spot} {doc : Option Str}
    (hdocs : (extractWithRule (docRule kind name spot) docSource docTree []).map (·.doc) = [doc])
    (hrun : run docSource spot ≠ doc) : HasOtherDoc (docRule kind name spot) doc := by
  have hmem : doc ∈ (extractWithRule (docRule kind name spot) docSource docTree []).map (·.doc) := by
    rw [hdocs]
    exact List.mem_singleton_self doc
  obtain ⟨s, hs, hdoc⟩ := List.mem_map.mp hmem
  have hbody : (docRule kind name spot).bodyCapture.bind (captureSpot (docRule kind name spot).query (docCaptures name spot)) =
      some spot := rfl
  have hinside : spot ∈ upward (nameOf spot name) := parent_mem_upward rfl
  exact ⟨s, hs, docCaptures name spot, List.mem_singleton_self _, nameOf spot name, spot, rfl, .body hbody hinside, hdoc, hrun⟩

/-- Of the two lines in front of the class it has the last, and its method, which has none,
    has that too. -/
theorem comments_of_another_construct :
    CapturesSpots classRule.query docTree docSource ∧ CapturesSpots methodRule.query docTree docSource ∧
      HasOtherDoc classRule (some (str "# b")) ∧ run docSource classSpot = some (str "# a\n# b") ∧
      HasOtherDoc methodRule (some (str "# b")) ∧ run docSource methodSpot = none :=
  ⟨capturesSpots_classRule, capturesSpots_methodRule, hasOtherDoc_docRule rfl (by decide), rfl,
    hasOtherDoc_docRule rfl (by decide), rfl⟩

theorem doc_of_own_definition_iff_class : ∃ s ∈ extractWithRule classRule docSource docTree [],
    ∃ captures ∈ classRule.query.run docTree docSource, ∃ name, matchSymbol classRule docSource [] captures = some s ∧
      captureSpot classRule.query captures classRule.nameCapture = some name ∧
      ∀ d, IsDefinition classRule captures name d → (s.doc = run docSource d ↔ OwnOrNone docSource name d) := by
  have hother : HasOtherDoc classRule (some (str "# b")) := hasOtherDoc_docRule rfl (by decide)
  obtain ⟨s, hs, -⟩ := hother
  exact ⟨s, hs, doc_of_own_definition_iff rfl capturesSpots_classRule readable_docTree hs⟩

end CodeQuery.Parse.OwnComments
