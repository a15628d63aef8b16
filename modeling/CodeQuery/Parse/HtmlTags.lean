/-
  CodeQuery.Parse.HtmlTags — the tags of an HTML file and their symbols
  (`codequery-parse/src/languages/html.rs`).

  A tag that closes itself is a node in the node of its element, and both are taken for
  tags; a script or a style has a node of another kind, and is not
  (`tags_with_two_symbols_and_none`). What is below an error is not come to, and an id or a
  class without a value counts for nothing. Elsewhere each tag has its symbol
  (`one_symbol_per_tag_iff`).
-/

import CodeQuery.Parse.Languages.Html
import CodeQuery.Parse.Places

namespace CodeQuery.Parse.HtmlTags

open CodeQuery.Core CodeQuery.Text
open CodeQuery.Parse.Html

/-! ## Tags -/

/-- An element, whether it has a start tag or closes itself, a script or a style. -/
def isTag (n : Node) : Bool := n.kind == "element" || n.kind == "script_element" || n.kind == "style_element"

section Tags

variable (source : Str)

/-- What has the name and the attributes. -/
def tagNode (n : Node) : Node := ((findChildByKind n "start_tag").or (findChildByKind n "self_closing_tag")).getD n

/-- With a value or without. -/
def hasAttribute (attrName : String) (n : Node) : Bool :=
  (tagNode n).children.any fun c =>
    c.kind == "attribute" && (findChildByKind c "attribute_name").bind (·.utf8Text source) == some (str attrName)

def isStructural (n : Node) : Bool :=
  ((findChildByKind (tagNode n) "tag_name").bind (·.utf8Text source)).any isStructuralTag

def qualifies (n : Node) : Bool := hasAttribute source "id" n || hasAttribute source "class" n || isStructural source n

/-- The tags that should have symbols. -/
def tagsOf (tree : Node) : List Node := tree.preorder.filter fun n => isTag n && qualifies source n

/-- An id or a class counts with its value only. -/
def isShown (n : Node) : Bool :=
  (findAttributeValue source (tagNode n) "id").isSome || (findAttributeValue source (tagNode n) "class").isSome ||
    isStructural source n

end Tags

/-! ## The walk -/

mutual

/-- The nodes of a tree, each with whether the walk comes to it. -/
def reached (on : Bool) : Node → List (Bool × Node)
  | n@⟨_, _, _, _, _, _, _, _, _, cs⟩ => (on, n) :: reachedAll on cs

def reachedAll (on : Bool) : List Node → List (Bool × Node)
  | [] => []
  | c :: cs => reached (on && !(c.isError || c.isMissing)) c ++ reachedAll on cs

end

mutual

/-- How deep the deepest node is. -/
def height : Node → Nat
  | ⟨_, _, _, _, _, _, _, _, _, cs⟩ => heightAll cs

def heightAll : List Node → Nat
  | [] => 0
  | c :: cs => max (height c + 1) (heightAll cs)

end

/-- Where each tag has one symbol. -/
structure EachTagOnce (source : Str) (tree : Node) : Prop where
  selfClosing : ∀ n, (true, n) ∈ reached true tree → n.kind = "self_closing_tag" → isShown source n = false
  script : ∀ on n, (on, n) ∈ reached true tree → n.kind = "script_element" ∨ n.kind = "style_element" →
    qualifies source n = false
  errors : ∀ n, (false, n) ∈ reached true tree → n.kind = "element" → qualifies source n = false
  values : ∀ n, (true, n) ∈ reached true tree → n.kind = "element" → qualifies source n = true → isShown source n = true

/-- What the walk takes for a tag with a symbol. -/
def isTaken (source : Str) (n : Node) : Bool := (n.kind == "element" || n.kind == "self_closing_tag") && isShown source n

section Walk

mutual

/-- Nothing is left out of the list. -/
theorem reached_map (on : Bool) : ∀ n : Node, (reached on n).map Prod.snd = n.preorder
  | ⟨_, _, _, _, _, _, _, _, _, cs⟩ => by
    rw [reached, Node.preorder, List.map_cons, reachedAll_map on cs]

theorem reachedAll_map (on : Bool) : ∀ cs : List Node, (reachedAll on cs).map Prod.snd = preorderAll cs
  | [] => rfl
  | c :: cs => by
    rw [reachedAll, preorderAll, List.map_append, reached_map _ c, reachedAll_map on cs]

end

mutual

/-- Below an error all are missed. -/
theorem reached_false : ∀ (n : Node), ∀ v ∈ reached false n, v.1 = false
  | ⟨_, _, _, _, _, _, _, _, _, cs⟩ => by
    rw [reached]
    exact List.forall_mem_cons.mpr ⟨rfl, reachedAll_false cs⟩

theorem reachedAll_false : ∀ (cs : List Node), ∀ v ∈ reachedAll false cs, v.1 = false
  | [] => fun v hv => absurd hv List.not_mem_nil
  | c :: cs => by
    rw [reachedAll, Bool.false_and]
    exact List.forall_mem_append.mpr ⟨reached_false c, reachedAll_false cs⟩

end

variable {source : Str}

theorem extractElement_node {n : Node} {d : Definition} (h : extractElement source n = some d) : d.node = n := by
  unfold extractElement at h
  dsimp only at h
  split at h
  · cases h; rfl
  · cases h; rfl
  · split at h
    · cases h; rfl
    · cases h

/-- Only where the tag's name is a structural one is it made use of without an attribute. -/
theorem isStructuralTag_getD (n : Node) :
    isStructuralTag ((((findChildByKind (tagNode n) "tag_name").bind (nodeText source)).map (·.1)).getD (str "unknown")) =
      isStructural source n := by
  rw [isStructural]
  cases findChildByKind (tagNode n) "tag_name" with
  | none => rfl
  | some c =>
    rw [Option.bind_some, Option.bind_some, nodeText]
    cases c.utf8Text source with
    | none => rfl
    | some text => rfl

theorem extractElement_isSome (n : Node) : (extractElement source n).isSome = isShown source n := by
  rw [isShown, ← isStructuralTag_getD, extractElement, ← tagNode]
  cases findAttributeValue source (tagNode n) "id" with
  | some id => rfl
  | none =>
    cases findAttributeValue source (tagNode n) "class" with
    | some class_ => rfl
    | none =>
      dsimp only
      split
      next h =>
        rw [h]
        rfl
      next h =>
        rw [Bool.not_eq_true] at h
        rw [h]
        rfl

theorem extractElement_nodes (n : Node) :
    (extractElement source n).toList.map (·.node) = if isShown source n then [n] else [] := by
  rw [← extractElement_isSome]
  cases h : extractElement source n with
  | none => rfl
  | some d =>
    rw [Option.toList_some, List.map_singleton, extractElement_node h]
    rfl

mutual

/-- The walk makes its symbols of what it comes to, as long as it is not too deep. -/
theorem extractRecursive_nodes (depth : Nat) : ∀ n : Node, depth + height n ≤ maxDepth →
    (extractRecursive source depth n).map (·.node) =
      ((reached true n).filter fun v => v.1 && isTaken source v.2).map Prod.snd
  | ⟨kind, field, sb, eb, sp, ep, named, err, miss, cs⟩, h => by
    have hdepth : ¬ depth > maxDepth := by omega
    have hbelow : (extractRecursiveAll source (depth + 1) cs).map (·.node) =
        ((reachedAll true cs).filter fun v => v.1 && isTaken source v.2).map Prod.snd := by
      refine extractRecursiveAll_nodes depth cs ?_
      rw [height] at h
      exact h
    rw [extractRecursive, if_neg hdepth, List.map_append, hbelow, reached, List.filter_cons]
    by_cases hkind : kind = "element" ∨ kind = "self_closing_tag"
    · rw [if_pos hkind, extractElement_nodes]
      cases hshown : isShown source ⟨kind, field, sb, eb, sp, ep, named, err, miss, cs⟩ with
      | true => simp [isTaken, hkind, hshown]
      | false => simp [isTaken, hshown]
    · simp [isTaken, hkind]

theorem extractRecursiveAll_nodes (depth : Nat) : ∀ cs : List Node, depth + heightAll cs ≤ maxDepth →
    (extractRecursiveAll source (depth + 1) cs).map (·.node) =
      ((reachedAll true cs).filter fun v => v.1 && isTaken source v.2).map Prod.snd
  | [], _ => rfl
  | c :: cs, h => by
    rw [heightAll] at h
    rw [extractRecursiveAll, reachedAll, List.map_append, List.filter_append, List.map_append,
      extractRecursiveAll_nodes depth cs (by omega), Bool.true_and]
    congr 1
    cases hskip : c.isError || c.isMissing with
    | true =>
      have hnone : (reached false c).filter (fun v => v.1 && isTaken source v.2) = [] :=
        List.filter_eq_nil_iff.mpr fun v hv => by simp [reached_false c v hv]
      rw [Bool.not_true, hnone]
      rfl
    | false => exact extractRecursive_nodes (depth + 1) c (by omega)

end

theorem extractSymbols_nodes {tree : Node} (h : height tree ≤ maxDepth) : (extractSymbols source tree).map (·.node) =
    ((reached true tree).filter fun v => v.1 && isTaken source v.2).map Prod.snd :=
  extractRecursive_nodes 0 tree (by omega)

theorem tagsOf_eq (tree : Node) :
    tagsOf source tree = ((reached true tree).filter fun v => isTag v.2 && qualifies source v.2).map Prod.snd := by
  rw [tagsOf, ← reached_map true tree, List.filter_map]
  rfl

end Walk

/-! ## One symbol for each tag -/

section Filters

variable {α β : Type*} {p q : α → Bool}

/-- Of a list and of a part of it as much is left only where the part is all. -/
theorem filter_eq_of_length {l : List α} (himp : ∀ a ∈ l, p a = true → q a = true)
    (h : (l.filter p).length = (l.filter q).length) : ∀ a ∈ l, p a = q a := by
  induction l with
  | nil => exact fun a ha => absurd ha List.not_mem_nil
  | cons a l ih =>
    obtain ⟨ha, hl⟩ := List.forall_mem_cons.mp himp
    have hle : (l.filter p).length ≤ (l.filter q).length := by
      rw [← List.countP_eq_length_filter, ← List.countP_eq_length_filter]
      exact List.countP_mono_left hl
    rw [List.filter_cons, List.filter_cons] at h
    cases hp : p a with
    | true =>
      rw [hp, ha hp] at h
      refine List.forall_mem_cons.mpr ⟨by rw [hp, ha hp], ih hl ?_⟩
      simpa using h
    | false =>
      cases hq : q a with
      | true =>
        rw [hp, hq] at h
        simp only [Bool.false_eq_true, if_false, if_true, List.length_cons] at h
        omega
      | false =>
        rw [hp, hq] at h
        exact List.forall_mem_cons.mpr ⟨by rw [hp, hq], ih hl h⟩

end Filters

section Once

variable {source : Str}

theorem attributeValueAmong_isSome {attrName : String} {cs : List Node}
    (h : (attributeValueAmong source attrName cs).isSome = true) :
    (cs.any fun c => c.kind == "attribute" &&
      (findChildByKind c "attribute_name").bind (·.utf8Text source) == some (str attrName)) = true := by
  induction cs with
  | nil => cases h
  | cons c cs ih =>
    rw [List.any_cons]
    rw [attributeValueAmong] at h
    split at h
    next hkind =>
      cases hname : (findChildByKind c "attribute_name").bind (·.utf8Text source) with
      | none =>
        rw [hname] at h
        cases h
      | some name =>
        rw [hname, Option.bind_some] at h
        split at h
        next heq => simp [hkind, eq_of_beq heq]
        next => simp [ih h]
    next => simp [ih h]

/-- What is shown qualifies. -/
theorem qualifies_of_isShown {n : Node} (h : isShown source n = true) : qualifies source n = true := by
  rw [isShown, Bool.or_eq_true, Bool.or_eq_true] at h
  rw [qualifies, Bool.or_eq_true, Bool.or_eq_true]
  rcases h with (hid | hclass) | hstructural
  · exact .inl (.inl (attributeValueAmong_isSome hid))
  · exact .inl (.inr (attributeValueAmong_isSome hclass))
  · exact .inr hstructural

section Visits

variable {tree n : Node} {on : Bool}

theorem EachTagOnce.element (h : EachTagOnce source tree) (hv : (on, n) ∈ reached true tree) (hkind : n.kind = "element") :
    (on && isTaken source n) = (isTag n && qualifies source n) := by
  cases on with
  | false => simp [isTag, hkind, h.errors n hv hkind]
  | true =>
    have hsame : isShown source n = qualifies source n := by
      cases hqualifies : qualifies source n with
      | true => exact h.values n hv hkind hqualifies
      | false =>
        refine Bool.eq_false_iff.mpr fun hshown => ?_
        rw [qualifies_of_isShown hshown] at hqualifies
        cases hqualifies
    simp [isTaken, isTag, hkind, hsame]

theorem EachTagOnce.scriptElement (h : EachTagOnce source tree) (hv : (on, n) ∈ reached true tree)
    (hkind : n.kind = "script_element" ∨ n.kind = "style_element") :
    (on && isTaken source n) = (isTag n && qualifies source n) := by
  have hnone := h.script on n hv hkind
  rcases hkind with hkind | hkind
  · simp [isTaken, isTag, hkind, hnone]
  · simp [isTaken, isTag, hkind, hnone]

/-- A node of another kind is no tag. -/
theorem EachTagOnce.other (h : EachTagOnce source tree) (hv : (on, n) ∈ reached true tree) (htag : isTag n = false) :
    (on && isTaken source n) = (isTag n && qualifies source n) := by
  have hkinds := htag
  simp only [isTag, Bool.or_eq_false_iff, beq_eq_false_iff_ne] at hkinds
  obtain ⟨⟨helement, -⟩, -⟩ := hkinds
  by_cases hself : n.kind = "self_closing_tag"
  · cases on with
    | true => simp [isTaken, htag, h.selfClosing n hv hself]
    | false => simp [htag]
  · simp [isTaken, htag, helement, hself]

end Visits

/-- Where the walk takes exactly the tags that qualify. -/
theorem eachTagOnce_iff {tree : Node} : EachTagOnce source tree ↔
    ∀ v ∈ reached true tree, (v.1 && isTaken source v.2) = (isTag v.2 && qualifies source v.2) := by
  constructor
  · intro h v hv
    cases htag : isTag v.2 with
    | false => exact htag ▸ h.other hv htag
    | true =>
      rw [← htag]
      simp only [isTag, Bool.or_eq_true, beq_iff_eq, or_assoc] at htag
      rcases htag with helement | hscript
      · exact h.element hv helement
      · exact h.scriptElement hv hscript
  · intro h
    refine ⟨fun n hv hkind => ?_, fun on n hv hkind => ?_, fun n hv hkind => ?_, fun n hv hkind hqualifies => ?_⟩
    · simpa [isTaken, isTag, hkind] using h _ hv
    · rcases hkind with hkind | hkind
      · simpa [isTaken, isTag, hkind] using (h _ hv).symm
      · simpa [isTaken, isTag, hkind] using (h _ hv).symm
    · simpa [isTag, hkind] using (h _ hv).symm
    · simpa [isTaken, isTag, hkind, hqualifies] using h _ hv

end Once

/-- For every source and every tree that is not too deep: the symbols are those of the tags
    that have an id, a class or a structural name, if and only if no such tag closes
    itself, is a script or a style, is below an error or has that without a value. -/
theorem one_symbol_per_tag_iff {source : Str} {tree : Node} (h : height tree ≤ maxDepth) :
    (extractSymbols source tree).map (·.node) = tagsOf source tree ↔ EachTagOnce source tree := by
  rw [extractSymbols_nodes h, tagsOf_eq, eachTagOnce_iff]
  constructor
  · intro heq
    refine filter_eq_of_length (fun v hv htaken => ?_) (by simpa using congrArg List.length heq)
    obtain ⟨on, n⟩ := v
    obtain ⟨hon, hn⟩ := Bool.and_eq_true_iff.mp htaken
    obtain ⟨hkind, hshown⟩ := Bool.and_eq_true_iff.mp hn
    rcases Bool.or_eq_true_iff.mp hkind with helement | hself
    · have helement : n.kind = "element" := eq_of_beq helement
      simp [isTag, helement, qualifies_of_isShown hshown]
    · -- a tag that closes itself is none of those that should have symbols
      have hself : n.kind = "self_closing_tag" := eq_of_beq hself
      have hmem : n ∈ ((reached true tree).filter fun v => v.1 && isTaken source v.2).map Prod.snd :=
        List.mem_map.mpr ⟨(on, n), List.mem_filter.mpr ⟨hv, htaken⟩, rfl⟩
      rw [heq] at hmem
      obtain ⟨w, hw, hwn⟩ := List.mem_map.mp hmem
      have hwtag := (List.mem_filter.mp hw).2
      rw [hwn] at hwtag
      simp [isTag, hself] at hwtag
  · intro hall
    rw [List.filter_congr hall]

/-! ## A tag that closes itself, and a script -/

def brAndScript : Str := str "<br id=\"x\"/><script></script>"

def brElement : Node :=
  ⟨"element", none, 0, 12, ⟨0, 0⟩, ⟨0, 12⟩, true, false, false,
    [⟨"self_closing_tag", none, 0, 12, ⟨0, 0⟩, ⟨0, 12⟩, true, false, false,
      [.leaf "tag_name" none 0 1 1 2 true,
        ⟨"attribute", none, 4, 10, ⟨0, 4⟩, ⟨0, 10⟩, true, false, false,
          [.leaf "attribute_name" none 0 4 4 2 true, .leaf "quoted_attribute_value" none 0 7 7 3 true]⟩]⟩]⟩

def scriptElement : Node :=
  ⟨"script_element", none, 12, 29, ⟨0, 12⟩, ⟨0, 29⟩, true, false, false,
    [⟨"start_tag", none, 12, 20, ⟨0, 12⟩, ⟨0, 20⟩, true, false, false, [.leaf "tag_name" none 0 13 13 6 true]⟩,
      ⟨"end_tag", none, 20, 29, ⟨0, 20⟩, ⟨0, 29⟩, true, false, false, [.leaf "tag_name" none 0 22 22 6 true]⟩]⟩

def brAndScriptTree : Node :=
  ⟨"document", none, 0, 29, ⟨0, 0⟩, ⟨0, 29⟩, true, false, false, [brElement, scriptElement]⟩

/-- `<br id="x"/>` has two symbols, and `<script></script>` none. -/
theorem tags_with_two_symbols_and_none :
    height brAndScriptTree ≤ maxDepth ∧
      (extractSymbols brAndScript brAndScriptTree).map (fun d => (d.name, d.node.kind)) =
        [(str "br#x", "element"), (str "br#x", "self_closing_tag")] ∧
      (tagsOf brAndScript brAndScriptTree).map (·.kind) = ["element", "script_element"] ∧
      (extractSymbols brAndScript brAndScriptTree).map (·.node) ≠ tagsOf brAndScript brAndScriptTree := by
  have hsymbols : (extractSymbols brAndScript brAndScriptTree).map (fun d => (d.name, d.node.kind)) =
      [(str "br#x", "element"), (str "br#x", "self_closing_tag")] := by decide
  have htags : (tagsOf brAndScript brAndScriptTree).map (·.kind) = ["element", "script_element"] := by decide
  refine ⟨by decide, hsymbols, htags, fun h => ?_⟩
  have hkinds := congrArg (List.map Node.kind) h
  rw [htags] at hkinds
  exact absurd hkinds (by decide)

theorem one_symbol_per_tag_iff_br :
    (extractSymbols brAndScript brAndScriptTree).map (·.node) = tagsOf brAndScript brAndScriptTree ↔
      EachTagOnce brAndScript brAndScriptTree := one_symbol_per_tag_iff (by decide)

end CodeQuery.Parse.HtmlTags
