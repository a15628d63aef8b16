/-
  CodeQuery.Parse.Supertypes — when a declaration's supertypes are its relations
  (see `CodeQuery.Parse.Hierarchy`).

  What a declaration lists is said by its grammar (`listedSupertypes`), and a type's base
  name is what stands before its arguments (`baseName`). The walks read one level of
  children: the list of Java's `implements` is one name for them, the arguments after
  `extends` in TypeScript a supertype of their own, and so is a comment; the arguments of
  a Rust trait or a Python base class stay in its name. A declaration in which nothing of
  that kind is (`ReadAsListed`) has exactly one relation for each listed type, and no
  other declaration has (`each_listed_once_iff`): what a walk reads is never shorter than
  the base names, and as long only then (`Covers`).
-/

import CodeQuery.Data.Covers
import CodeQuery.Parse.Hierarchy

namespace CodeQuery.Parse

open CodeQuery.Core CodeQuery.Data CodeQuery.Text

/-! ## Types -/

/-- Where type arguments are written. -/
def isArgumentKind (kind : String) : Bool := kind == "type_arguments" || kind == "subscript"

def Node.hasTypeArguments (n : Node) : Bool := n.preorder.any fun m => isArgumentKind m.kind

/-- A type applied to arguments. -/
def isGenericKind (kind : String) : Bool := ["generic_type", "generic_type_with_turbofish", "subscript"].contains kind

/-- What is applied. -/
def Node.applied (n : Node) : Option Node := (n.childByFieldName "name").or n.namedChildren.head?

theorem applied_mem {n c : Node} (h : n.applied = some c) : c ∈ n.children := by
  rcases Option.or_eq_some_iff.mp h with h | ⟨-, h⟩
  · exact List.mem_of_find?_eq_some h
  · exact (List.mem_filter.mp (List.mem_of_mem_head? h)).1

/-- A type's name without its arguments; none when they stand inside the name. -/
def baseName (source : Str) (n : Node) : Option Str :=
  if isGenericKind n.kind then
    match _h : n.applied with
    | some c => baseName source c
    | none => none
  else if n.hasTypeArguments then none
  else n.utf8Text source
termination_by sizeOf n
decreasing_by exact sizeOf_child_lt (applied_mem (by assumption))

/-! ## Declarations -/

def isCommentKind (kind : String) : Bool := ["comment", "line_comment", "block_comment", "html_comment"].contains kind

/-- What a clause lists: its named children but for comments and arguments. -/
def isListed (n : Node) : Bool := !isCommentKind n.kind && n.kind != "type_arguments"

def Node.listed (clause : Node) : List Node := clause.namedChildren.filter isListed

/-- The base classes among a Python class's arguments. A continued line leaves a node there, as a
    comment does. -/
def isBaseClass (n : Node) : Bool :=
  !isCommentKind n.kind && !(["keyword_argument", "list_splat", "dictionary_splat", "line_continuation"].contains n.kind)

def isTsClass (kind : String) : Bool := ["class_declaration", "abstract_class_declaration", "class"].contains kind

/-- The types in the inheritance clauses of a declaration, as the grammars nest them. -/
def listedSupertypes (language : Language) (d : Node) : List Node :=
  match language with
  | .java =>
    ((d.childByFieldName "superclass").map Node.listed).getD [] ++
      ((d.childByFieldName "interfaces").map fun interfaces => interfaces.listed.flatMap Node.listed).getD []
  | .typeScript | .javaScript =>
    -- TypeScript has clauses in a class's heritage, JavaScript an expression
    ((findChildOfKind d "class_heritage").map fun heritage =>
      heritage.listed.flatMap fun clause => if isTsClause clause.kind then clause.listed else [clause]).getD []
  | .python => ((d.childByFieldName "superclasses").map fun args => args.namedChildren.filter isBaseClass).getD []
  | .rust => if d.children.any (·.kind == "!") then [] else (d.childByFieldName "trait").toList
  | _ => []

/-- The node that names the declared type. -/
def subtypeNode (language : Language) (d : Node) : Option Node :=
  match language with
  | .rust => d.childByFieldName "type"
  | _ => d.childByFieldName "name"

/-- The relation of a listed type: both base names, at the declaration. -/
def listedRelation (language : Language) (source : Str) (file : Path) (d t : Node) : Option SupertypeRelation :=
  ((subtypeNode language d).bind (baseName source)).bind fun subtype =>
    (baseName source t).map (relationAt file d subtype)

/-- What the declaration gives are the relations of its listed types, each once. -/
def EachListedOnce (language : Language) (source : Str) (file : Path) (d : Node) : Prop :=
  ((declaredRelations language source file d).map some).Perm
    ((listedSupertypes language d).map (listedRelation language source file d))

/-! ## Trees of the grammars -/

/-- The kinds of which no node is empty. -/
def isWrittenKind (kind : String) : Bool :=
  isCommentKind kind || isArgumentKind kind || [",", "list_splat", "dictionary_splat", "line_continuation"].contains kind

/-- What the grammars give in an error-free source, as far as types go. -/
structure Node.Written (source : Str) (tree : Node) : Prop where
  texts : ∀ n ∈ tree.preorder, (n.utf8Text source).isSome = true
  filled : ∀ n ∈ tree.preorder, isWrittenKind n.kind = true → n.startByte < n.endByte
  comments : ∀ n ∈ tree.preorder, isCommentKind n.kind = true → n.isNamed = true
  /-- Arguments stand behind what is applied to them. -/
  generic : ∀ n ∈ tree.preorder, isGenericKind n.kind = true →
    n.hasTypeArguments = true ∧ ∃ c, n.applied = some c ∧ c.endByte < n.endByte

/-- One type or more, with commas between. -/
inductive CommaSeparated : List Node → Prop where
  | one {t : Node} : t.isNamed = true → CommaSeparated [t]
  | more {t comma : Node} {rest : List Node} :
      t.isNamed = true → comma.kind = "," → comma.isNamed = false → CommaSeparated rest →
        CommaSeparated (t :: comma :: rest)

/-- A Java list of types, from the first on to the last. -/
structure TypeList (n : Node) : Prop where
  kind : n.kind = "type_list"
  separated : CommaSeparated (n.children.filter fun c => !isCommentKind c.kind)
  first : ∀ c, n.children.head? = some c → c.startByte = n.startByte
  last : ∀ c, n.children.getLast? = some c → c.endByte = n.endByte

/-- The declared type has a name of its own. -/
def NamedPlainly (d : Node) : Prop :=
  ∃ n, d.childByFieldName "name" = some n ∧ n.hasTypeArguments = false

/-- A declaration, with its clauses nested as in its grammar. -/
def Shaped (language : Language) (d : Node) : Prop :=
  match language with
  | .java =>
    d.kind = "class_declaration" ∧ NamedPlainly d ∧
      ∀ interfaces, d.childByFieldName "interfaces" = some interfaces →
        ∀ c ∈ interfaces.namedChildren, isCommentKind c.kind = true ∨ TypeList c
  | .typeScript | .javaScript =>
    isTsClass d.kind = true ∧ NamedPlainly d ∧
      ∀ heritage, findChildOfKind d "class_heritage" = some heritage →
        (∀ c ∈ heritage.listed, isTsClause c.kind = true ∧ c.listed ≠ []) ∨
          ∀ c ∈ heritage.namedChildren, isTsClause c.kind = false
  | .python => d.kind = "class_definition" ∧ NamedPlainly d
  | .rust => d.kind = "impl_item" ∧ (d.childByFieldName "trait").isSome ∧ (d.childByFieldName "type").isSome
  | _ => False

structure IsDeclaration (language : Language) (source : Str) (d : Node) : Prop where
  wellFormed : d.WellFormed
  written : d.Written source
  shaped : Shaped language d

/-! ## The condition -/

/-- `extract_type_name` drops one level of arguments, and there are no others. -/
def readsBaseName (n : Node) : Bool :=
  if n.kind = "generic_type" then n.applied.any (!·.hasTypeArguments) else !n.hasTypeArguments

/-- The walks find each listed type where they look, under its base name, and nothing else
    there. -/
def ReadAsListed (language : Language) (d : Node) : Prop :=
  match language with
  | .java =>
    (∀ superclass, d.childByFieldName "superclass" = some superclass →
      ∀ c ∈ superclass.namedChildren, isListed c = true ∧ readsBaseName c = true) ∧
    ∀ interfaces, d.childByFieldName "interfaces" = some interfaces →
      ∀ c ∈ interfaces.namedChildren, isCommentKind c.kind = false ∧
        ∃ t, c.namedChildren = [t] ∧ isListed t = true ∧ t.hasTypeArguments = false
  | .typeScript | .javaScript =>
    ∀ heritage, findChildOfKind d "class_heritage" = some heritage →
      ∀ c ∈ heritage.listed, d.kind = "class_declaration" ∧ isTsClause c.kind = true ∧
        ∀ t ∈ c.namedChildren, isListed t = true ∧ readsBaseName t = true
  | .python =>
    ∀ args, d.childByFieldName "superclasses" = some args →
      ∀ c ∈ args.namedChildren, c.kind = "keyword_argument" ∨ isBaseClass c = true ∧ c.hasTypeArguments = false
  | .rust =>
    (d.children.any (·.kind == "!")) = false ∧
      (∀ t, d.childByFieldName "trait" = some t → t.hasTypeArguments = false) ∧
      ∀ t, d.childByFieldName "type" = some t → t.hasTypeArguments = false
  | _ => True

/-! ## One type -/

theorem utf8Text_length {source s : Str} {n : Node} (h : n.utf8Text source = some s) :
    s.length = n.endByte - n.startByte := by
  unfold Node.utf8Text at h
  split at h
  · next hplace =>
    cases h
    rw [List.length_drop, List.length_take, Nat.min_eq_left hplace.2.1]
  · cases h

/-- How much is written of a name. -/
def nameSize (name : Option Str) : ℕ := (name.map List.length).getD 0

theorem baseName_generic {source : Str} {n c : Node} (hkind : isGenericKind n.kind = true) (happlied : n.applied = some c) :
    baseName source n = baseName source c := by
  rw [baseName, if_pos hkind]
  split
  · next c' hc' =>
    rw [happlied] at hc'
    cases hc'
    rfl
  · next hnone =>
    rw [happlied] at hnone
    cases hnone

section OneType

variable {source : Str} {d : Node} (hwf : d.WellFormed) (hwritten : d.Written source)

include hwritten

theorem text_of_mem {n : Node} (hn : n ∈ d.preorder) :
    ∃ s, n.utf8Text source = some s ∧ s.length = n.endByte - n.startByte := by
  obtain ⟨s, hs⟩ := Option.isSome_iff_exists.mp (hwritten.texts n hn)
  exact ⟨s, hs, utf8Text_length hs⟩

/-- A type without arguments is its own base name. -/
theorem baseName_plain {n : Node} (hn : n ∈ d.preorder) (hplain : n.hasTypeArguments = false) :
    baseName source n = n.utf8Text source := by
  have hkind : ¬ isGenericKind n.kind = true := by
    intro hkind
    rw [(hwritten.generic n hn hkind).1] at hplain
    cases hplain
  rw [baseName, if_neg hkind, hplain]
  rfl

include hwf

theorem nonempty_of_hasTypeArguments {n : Node} (hn : n ∈ d.preorder) (h : n.hasTypeArguments = true) :
    n.startByte < n.endByte := by
  obtain ⟨m, hm, hkind⟩ := List.any_eq_true.mp h
  have hin := within_of_nested (fun k hk => hwf.nested k (preorder_trans hn hk)) hm
  have hfilled := hwritten.filled m (preorder_trans hn hm) (by simp [isWrittenKind, hkind])
  omega

/-- A base name is never longer than its type, and as long only where there are no
    arguments. -/
theorem baseName_size {n : Node} (hn : n ∈ d.preorder) :
    nameSize (baseName source n) ≤ n.endByte - n.startByte ∧
      (nameSize (baseName source n) = n.endByte - n.startByte → n.hasTypeArguments = false) := by
  by_cases hkind : isGenericKind n.kind = true
  · obtain ⟨-, c, happlied, hend⟩ := hwritten.generic n hn hkind
    have hchild := applied_mem happlied
    have hlt := sizeOf_child_lt hchild
    have hc : c ∈ d.preorder := preorder_trans hn (preorder_child hchild (self_mem_preorder c))
    obtain ⟨hle, -⟩ := baseName_size hc
    have hnested := hwf.nested n hn c hchild
    have hbytes := hwf.bytes c hc
    rw [baseName_generic hkind happlied]
    exact ⟨by omega, fun heq => by omega⟩
  · cases hargs : n.hasTypeArguments with
    | true =>
      have hnone : baseName source n = none := by rw [baseName, if_neg hkind, hargs]; rfl
      have hlt := nonempty_of_hasTypeArguments hwf hwritten hn hargs
      rw [hnone]
      show 0 ≤ n.endByte - n.startByte ∧ (0 = n.endByte - n.startByte → true = false)
      exact ⟨Nat.zero_le _, fun heq => by omega⟩
    | false =>
      obtain ⟨s, hs, hlength⟩ := text_of_mem hwritten hn
      rw [baseName_plain hwritten hn hargs, hs]
      exact ⟨hlength.le, fun _ => rfl⟩
termination_by sizeOf n

/-- A type that is read whole. -/
theorem covers_text {n : Node} (hn : n ∈ d.preorder) :
    Covers nameSize [n.utf8Text source] [baseName source n] (n.hasTypeArguments = false) := by
  obtain ⟨s, hs, hlength⟩ := text_of_mem hwritten hn
  obtain ⟨hle, hplain⟩ := baseName_size hwf hwritten hn
  have htotal : ∀ o : Option Str, total nameSize [o] = nameSize o := fun o => by simp [total]
  have hsize : nameSize (n.utf8Text source) = n.endByte - n.startByte := by rw [hs]; exact hlength
  constructor
  case le =>
    rw [htotal, htotal, hsize]
    exact hle
  case ok_of_total =>
    rw [htotal, htotal, hsize]
    exact hplain
  case eq_of_ok =>
    intro hargs
    rw [baseName_plain hwritten hn hargs]

omit hwf in
/-- What is read and not listed. -/
theorem covers_extra {n : Node} (hn : n ∈ d.preorder) (hfilled : n.startByte < n.endByte) :
    Covers nameSize [n.utf8Text source] [] False := by
  obtain ⟨s, hs, hlength⟩ := text_of_mem hwritten hn
  refine .never ?_
  rw [hs]
  show 0 < s.length + 0
  omega

omit hwf in
/-- The node that `extract_type_name` reads. -/
theorem extractTypeName_read {n : Node} (hn : n ∈ d.preorder) :
    ∃ m ∈ d.preorder, extractTypeName source n = m.utf8Text source ∧ baseName source n = baseName source m ∧
      readsBaseName n = !m.hasTypeArguments := by
  by_cases hkind : n.kind = "generic_type"
  · have hgeneric : isGenericKind n.kind = true := by rw [hkind]; rfl
    obtain ⟨-, m, happlied, -⟩ := hwritten.generic n hn hgeneric
    have hm : m ∈ d.preorder := preorder_trans hn (preorder_child (applied_mem happlied) (self_mem_preorder m))
    refine ⟨m, hm, ?_, baseName_generic hgeneric happlied, by rw [readsBaseName, if_pos hkind, happlied]; rfl⟩
    obtain ⟨s, hs, -⟩ := text_of_mem hwritten hm
    rw [extractTypeName, if_pos hkind]
    unfold Node.applied at happlied
    rcases Option.or_eq_some_iff.mp happlied with hname | ⟨hnone, hfirst⟩
    · rw [hname, Option.bind_some, hs, Option.some_or]
    · rw [hnone, hfirst]
      rfl
  · exact ⟨n, hn, by rw [extractTypeName, if_neg hkind], rfl, by rw [readsBaseName, if_neg hkind]⟩

/-- A child of a clause, which `extract_type_name` reads whatever it is. -/
theorem covers_clauseChild {n : Node} (hn : n ∈ d.preorder) :
    Covers nameSize [extractTypeName source n] (if isListed n then [baseName source n] else [])
      (isListed n = true ∧ readsBaseName n = true) := by
  cases hlisted : isListed n with
  | true =>
    obtain ⟨m, hm, hread, hbase, hplain⟩ := extractTypeName_read hwritten hn
    rw [hread, hbase, hplain]
    exact (covers_text hwf hwritten hm).congr (by simp)
  | false =>
    -- a comment or arguments: no generic type, and not empty
    have hextra : isCommentKind n.kind = true ∨ n.kind = "type_arguments" := by
      simp only [isListed, Bool.and_eq_false_iff, Bool.not_eq_false', bne_eq_false_iff_eq] at hlisted
      exact hlisted
    have hkind : n.kind ≠ "generic_type" := by
      intro hkind
      rw [hkind] at hextra
      rcases hextra with h | h
      · exact absurd h (by decide)
      · exact absurd h (by decide)
    have hwrittenKind : isWrittenKind n.kind = true := by
      rcases hextra with h | h
      · simp [isWrittenKind, h]
      · simp [isWrittenKind, isArgumentKind, h]
    rw [extractTypeName, if_neg hkind]
    exact (covers_extra hwritten hn (hwritten.filled n hn hwrittenKind)).congr (by simp)

/-- The children of a clause, one by one. -/
theorem covers_clause {clause : Node} (hclause : clause ∈ d.preorder) :
    Covers nameSize ((clause.namedChildren.filterMap (extractTypeName source)).map some)
      (clause.listed.map (baseName source))
      (∀ c ∈ clause.namedChildren, isListed c = true ∧ readsBaseName c = true) := by
  have hmem : ∀ c ∈ clause.namedChildren, c ∈ d.preorder := fun c hc =>
    preorder_trans hclause (preorder_child (List.mem_filter.mp hc).1 (self_mem_preorder c))
  have hread : ∀ c ∈ clause.namedChildren, (extractTypeName source c).isSome = true := by
    intro c hc
    obtain ⟨m, hm, hread, -⟩ := extractTypeName_read hwritten (hmem c hc)
    rw [hread]
    exact hwritten.texts m hm
  rw [map_some_filterMap hread, Node.listed, List.map_eq_flatMap, flatMap_filter_eq_ite]
  exact Covers.flatMap fun c hc => covers_clauseChild hwf hwritten (hmem c hc)

end OneType

/-! ## A list of types -/

def Node.size (n : Node) : ℕ := n.endByte - n.startByte

theorem sizes_le {a b : ℕ} : ∀ {ns : List Node}, (∀ c ∈ ns, a ≤ c.startByte ∧ c.startByte ≤ c.endByte ∧ c.endByte ≤ b) →
    (ns.Pairwise fun c c' => c.endByte ≤ c'.startByte) → total Node.size ns ≤ b - a
  | [], _, _ => Nat.zero_le _
  | c :: ns, hin, hordered => by
    obtain ⟨hbefore, hrest⟩ := List.pairwise_cons.mp hordered
    obtain ⟨hstart, hbytes, hend⟩ := hin c List.mem_cons_self
    have hafter : total Node.size ns ≤ b - c.endByte :=
      sizes_le (fun c' hc' => ⟨hbefore c' hc', (hin c' (List.mem_cons_of_mem _ hc')).2⟩) hrest
    show c.endByte - c.startByte + total Node.size ns ≤ b - a
    omega

theorem total_filter_add (p : Node → Bool) (ns : List Node) :
    total Node.size (ns.filter p) + total Node.size (ns.filter fun c => !p c) = total Node.size ns := by
  rw [← total_append]
  exact ((List.filter_append_perm p ns).map Node.size).sum_eq

theorem total_pos {ns : List Node} {c : Node} (hc : c ∈ ns) (hfilled : c.startByte < c.endByte) :
    0 < total Node.size ns := by
  have hle : c.endByte - c.startByte ≤ total Node.size ns :=
    List.single_le_sum (by simp) _ (List.mem_map_of_mem (f := Node.size) hc)
  omega

/-- The commas of a list are among its children that are not named. -/
theorem CommaSeparated.cases {ns : List Node} (h : CommaSeparated ns) :
    (∃ t, ns = [t] ∧ t.isNamed = true) ∨ (∃ comma ∈ ns, comma.kind = "," ∧ comma.isNamed = false) ∧
      ∃ t t' rest, ns.filter (·.isNamed) = t :: t' :: rest := by
  cases h with
  | one hnamed => exact .inl ⟨_, rfl, hnamed⟩
  | @more t comma rest hnamed hcomma hunnamed hrest =>
    refine .inr ⟨⟨comma, by simp, hcomma, hunnamed⟩, t, ?_⟩
    have hfirst : ∃ t' rest', rest.filter (·.isNamed) = t' :: rest' := by
      cases hrest with
      | @one t' hnamed' => exact ⟨t', [], by simp [hnamed']⟩
      | @more t' _ _ hnamed' _ _ _ => exact ⟨t', _, by rw [List.filter_cons, if_pos hnamed']⟩
    obtain ⟨t', rest', hfirst⟩ := hfirst
    exact ⟨t', rest', by rw [List.filter_cons, if_pos hnamed, List.filter_cons, hunnamed, if_neg (by simp), hfirst]⟩

section ListOfTypes

variable {source : Str} {d : Node} (hwf : d.WellFormed) (hwritten : d.Written source)

include hwf hwritten

/-- A list is as long as its only type, or else longer than its types together. -/
theorem typeList_total {list : Node} (hlist : list ∈ d.preorder) (htypes : TypeList list) :
    total Node.size list.listed ≤ list.size ∧
      (total Node.size list.listed = list.size → ∃ t, list.children = [t] ∧ t.isNamed = true ∧ isListed t = true) := by
  have hmem : ∀ c ∈ list.children, c ∈ d.preorder := fun c hc =>
    preorder_trans hlist (preorder_child hc (self_mem_preorder c))
  have hchildren : total Node.size list.children ≤ list.size := by
    refine sizes_le (fun c hc => ?_) (hwf.ordered list hlist)
    have hnested := hwf.nested list hlist c hc
    exact ⟨hnested.1, hwf.bytes c (hmem c hc), hnested.2⟩
  have hsplit := total_filter_add (fun c => isListed c && c.isNamed) list.children
  have hlisted : list.listed = list.children.filter fun c => isListed c && c.isNamed := List.filter_filter
  rw [← hlisted] at hsplit
  refine ⟨by omega, fun heq => ?_⟩
  -- nothing but the listed types takes room
  have hnone : ∀ c ∈ list.children, c.startByte < c.endByte → isListed c = true ∧ c.isNamed = true := by
    intro c hc hfilled
    by_contra hnot
    have hpos := @total_pos (list.children.filter fun c => !(isListed c && c.isNamed)) c
      (List.mem_filter.mpr ⟨hc, by rwa [Bool.not_eq_true', ← Bool.not_eq_true, Bool.and_eq_true]⟩) hfilled
    omega
  have hcomments : ∀ c ∈ list.children, isCommentKind c.kind = false := by
    intro c hc
    rw [Bool.eq_false_iff]
    intro hcomment
    have hlisted := (hnone c hc (hwritten.filled c (hmem c hc) (by simp [isWrittenKind, hcomment]))).1
    simp [isListed, hcomment] at hlisted
  have hall : list.children.filter (fun c => !isCommentKind c.kind) = list.children :=
    List.filter_eq_self.mpr fun c hc => by rw [hcomments c hc]; rfl
  have hseparated := htypes.separated
  rw [hall] at hseparated
  rcases hseparated.cases with ⟨t, hone, hnamed⟩ | ⟨⟨comma, hcomma, hkind, hunnamed⟩, -⟩
  · refine ⟨t, hone, hnamed, ?_⟩
    have ht : t ∈ list.children := by rw [hone]; exact List.mem_singleton_self t
    by_cases harguments : t.kind = "type_arguments"
    · exact (hnone t ht (hwritten.filled t (hmem t ht) (by simp [isWrittenKind, isArgumentKind, harguments]))).1
    · simp [isListed, hcomments t ht, harguments]
  · have hnamed := (hnone comma hcomma (hwritten.filled comma (hmem comma hcomma) (by rw [hkind]; rfl))).2
    rw [hunnamed] at hnamed
    cases hnamed

omit hwf in
/-- A list whose only named child is a type is where that is. -/
theorem typeList_only {list t : Node} (hlist : list ∈ d.preorder) (htypes : TypeList list)
    (honly : list.namedChildren = [t]) (hlisted : isListed t = true) :
    list.children = [t] ∧ t.startByte = list.startByte ∧ t.endByte = list.endByte := by
  have hcomments : ∀ c ∈ list.children, isCommentKind c.kind = false := by
    intro c hc
    rw [Bool.eq_false_iff]
    intro hcomment
    have hnamed := hwritten.comments c (preorder_trans hlist (preorder_child hc (self_mem_preorder c))) hcomment
    have hmem : c ∈ list.namedChildren := List.mem_filter.mpr ⟨hc, hnamed⟩
    rw [honly] at hmem
    rw [List.mem_singleton.mp hmem] at hcomment
    simp [isListed, hcomment] at hlisted
  have hall : list.children.filter (fun c => !isCommentKind c.kind) = list.children :=
    List.filter_eq_self.mpr fun c hc => by rw [hcomments c hc]; rfl
  have hseparated := htypes.separated
  rw [hall] at hseparated
  have hone : list.children = [t] := by
    rcases hseparated.cases with ⟨t', hone, hnamed⟩ | ⟨-, t', t'', rest, htwo⟩
    · rw [Node.namedChildren, hone, List.filter_singleton, hnamed] at honly
      rw [hone]
      exact honly
    · rw [Node.namedChildren, htwo] at honly
      cases honly
  exact ⟨hone, htypes.first t (by rw [hone]; rfl), htypes.last t (by rw [hone]; rfl)⟩

/-- The base names of some types are not longer together than these. -/
theorem baseNames_total {types : List Node} (htypes : ∀ t ∈ types, t ∈ d.preorder) :
    total nameSize (types.map (baseName source)) ≤ total Node.size types ∧
      (total nameSize (types.map (baseName source)) = total Node.size types →
        ∀ t ∈ types, t.hasTypeArguments = false) := by
  induction types with
  | nil => exact ⟨le_rfl, fun _ _ ht => nomatch ht⟩
  | cons t types ih =>
    obtain ⟨hle, hplain⟩ := baseName_size hwf hwritten (htypes t List.mem_cons_self)
    obtain ⟨hrest, hrestPlain⟩ := ih fun t' ht' => htypes t' (List.mem_cons_of_mem _ ht')
    have hspec : total nameSize ((t :: types).map (baseName source)) =
        nameSize (baseName source t) + total nameSize (types.map (baseName source)) := List.sum_cons
    have hcode : total Node.size (t :: types) = (t.endByte - t.startByte) + total Node.size types := List.sum_cons
    rw [hspec, hcode]
    refine ⟨by omega, fun heq t' ht' => ?_⟩
    rcases List.mem_cons.mp ht' with rfl | ht'
    · exact hplain (by omega)
    · exact hrestPlain (by omega) t' ht'

/-- A list of types, which is read as one name. -/
theorem covers_typeList {list : Node} (hlist : list ∈ d.preorder) (htypes : TypeList list) :
    Covers nameSize [extractTypeName source list] (list.listed.map (baseName source))
      (∃ t, list.namedChildren = [t] ∧ isListed t = true ∧ t.hasTypeArguments = false) := by
  have hmem : ∀ t ∈ list.namedChildren, t ∈ d.preorder := fun t ht =>
    preorder_trans hlist (preorder_child (List.mem_filter.mp ht).1 (self_mem_preorder t))
  have hlistedMem : ∀ t ∈ list.listed, t ∈ d.preorder := fun t ht => hmem t (List.mem_filter.mp ht).1
  obtain ⟨hbases, hplain⟩ := baseNames_total hwf hwritten hlistedMem
  obtain ⟨hlisted, honly⟩ := typeList_total hwf hwritten hlist htypes
  obtain ⟨s, hs, hlength⟩ := text_of_mem hwritten hlist
  have hread : extractTypeName source list = list.utf8Text source := by
    rw [extractTypeName, htypes.kind]
    rfl
  have hcode : total nameSize [extractTypeName source list] = list.size := by
    rw [hread, hs]
    show s.length + 0 = list.endByte - list.startByte
    omega
  constructor
  case le => omega
  case ok_of_total =>
    intro heq
    obtain ⟨t, hone, hnamed, htype⟩ := honly (by omega)
    have hnamedChildren : list.namedChildren = [t] := by
      rw [Node.namedChildren, hone, List.filter_singleton, hnamed]
      rfl
    refine ⟨t, hnamedChildren, htype, hplain (by omega) t (List.mem_filter.mpr ⟨?_, htype⟩)⟩
    rw [hnamedChildren]
    exact List.mem_singleton_self t
  case eq_of_ok =>
    intro h
    obtain ⟨t, hone, htype, hargs⟩ := h
    obtain ⟨-, hstart, hend⟩ := typeList_only hwritten hlist htypes hone htype
    have ht : t ∈ d.preorder := hmem t (by rw [hone]; exact List.mem_singleton_self t)
    have htext : list.utf8Text source = t.utf8Text source := by
      unfold Node.utf8Text
      rw [hstart, hend]
    rw [hread, Node.listed, hone, List.filter_singleton, htype, htext, ← baseName_plain hwritten ht hargs]
    rfl

end ListOfTypes

/-! ## The languages -/

section Languages

variable {source : Str} {file : Path} {d : Node}

theorem childByFieldName_mem {n c : Node} {f : String} (h : n.childByFieldName f = some c) : c ∈ n.preorder :=
  preorder_child (List.mem_of_find?_eq_some h) (self_mem_preorder c)

theorem findChildOfKind_mem {n c : Node} {kind : String} (h : findChildOfKind n kind = some c) : c ∈ n.preorder :=
  preorder_child (List.mem_of_find?_eq_some h) (self_mem_preorder c)

theorem namedChild_mem {n c : Node} (hn : n ∈ d.preorder) (hc : c ∈ n.namedChildren) : c ∈ d.preorder :=
  preorder_trans hn (preorder_child (List.mem_filter.mp hc).1 (self_mem_preorder c))

/-- The name that a class is declared under is a base name. -/
theorem NamedPlainly.text (h : NamedPlainly d) (hwritten : d.Written source) :
    ∃ subtype, (d.childByFieldName "name").bind (·.utf8Text source) = some subtype ∧
      (d.childByFieldName "name").bind (baseName source) = some subtype := by
  obtain ⟨n, hname, hplain⟩ := h
  have hn := childByFieldName_mem hname
  obtain ⟨subtype, htext, -⟩ := text_of_mem hwritten hn
  rw [hname, Option.bind_some, Option.bind_some, baseName_plain hwritten hn hplain]
  exact ⟨subtype, htext, htext⟩

/-- Relations that differ by their supertypes alone are compared by these. -/
theorem eachListedOnce_iff {language : Language} {subtype : Str} {names : List Str}
    (hsubtype : (subtypeNode language d).bind (baseName source) = some subtype)
    (hdeclared : declaredRelations language source file d = names.map (relationAt file d subtype)) :
    EachListedOnce language source file d ↔
      (names.map some).Perm ((listedSupertypes language d).map (baseName source)) := by
  have hinjective : Function.Injective (Option.map (relationAt file d subtype)) := by
    refine Option.map_injective fun s t h => ?_
    exact congrArg SupertypeRelation.supertype h
  have hlisted : (listedSupertypes language d).map (listedRelation language source file d) =
      ((listedSupertypes language d).map (baseName source)).map (Option.map (relationAt file d subtype)) := by
    rw [List.map_map]
    refine List.map_congr_left fun t _ => ?_
    rw [listedRelation, hsubtype]
    rfl
  have hread : (names.map (relationAt file d subtype)).map some =
      (names.map some).map (Option.map (relationAt file d subtype)) := by
    rw [List.map_map, List.map_map]
    rfl
  rw [EachListedOnce, hdeclared, hlisted, hread]
  exact List.map_perm_map_iff hinjective

theorem collectClauseTypes_eq (clause : Node) (subtype : Str) :
    collectClauseTypes source file clause subtype d =
      (clause.namedChildren.filterMap (extractTypeName source)).map (relationAt file d subtype) :=
  List.map_filterMap.symm

/-! ### Java -/

variable (source) in
/-- The names that are read in a field of a Java class, if it has it. -/
def fieldNames (field : Option Node) : List Str :=
  (field.map fun clause => clause.namedChildren.filterMap (extractTypeName source)).getD []

theorem javaRelations_eq {subtype : Str} (hkind : d.kind = "class_declaration")
    (hname : (d.childByFieldName "name").bind (·.utf8Text source) = some subtype) :
    javaRelations source file d =
      (fieldNames source (d.childByFieldName "superclass") ++ fieldNames source (d.childByFieldName "interfaces")).map
        (relationAt file d subtype) := by
  rw [javaRelations, if_pos hkind, hname, List.map_append]
  simp only [fieldNames, collectClauseTypes_eq]
  congr 1
  · cases d.childByFieldName "superclass" with
    | none => rfl
    | some superclass => rfl
  · cases d.childByFieldName "interfaces" with
    | none => rfl
    | some interfaces => rfl

theorem covers_superclass (hwf : d.WellFormed) (hwritten : d.Written source) :
    Covers nameSize ((fieldNames source (d.childByFieldName "superclass")).map some)
      ((((d.childByFieldName "superclass").map Node.listed).getD []).map (baseName source))
      (∀ superclass, d.childByFieldName "superclass" = some superclass →
        ∀ c ∈ superclass.namedChildren, isListed c = true ∧ readsBaseName c = true) := by
  cases hfield : d.childByFieldName "superclass" with
  | none => exact Covers.nil.congr (by simp)
  | some superclass =>
    refine (covers_clause hwf hwritten (childByFieldName_mem hfield)).congr ?_
    simp

theorem covers_interfaces (hwf : d.WellFormed) (hwritten : d.Written source)
    (hshaped : ∀ interfaces, d.childByFieldName "interfaces" = some interfaces →
      ∀ c ∈ interfaces.namedChildren, isCommentKind c.kind = true ∨ TypeList c) :
    Covers nameSize ((fieldNames source (d.childByFieldName "interfaces")).map some)
      ((((d.childByFieldName "interfaces").map fun interfaces => interfaces.listed.flatMap Node.listed).getD []).map
        (baseName source))
      (∀ interfaces, d.childByFieldName "interfaces" = some interfaces →
        ∀ c ∈ interfaces.namedChildren, isCommentKind c.kind = false ∧
          ∃ t, c.namedChildren = [t] ∧ isListed t = true ∧ t.hasTypeArguments = false) := by
  cases hfield : d.childByFieldName "interfaces" with
  | none => exact Covers.nil.congr (by simp)
  | some interfaces =>
    have hmem : ∀ c ∈ interfaces.namedChildren, c ∈ d.preorder := fun c => namedChild_mem (childByFieldName_mem hfield)
    have hread : ∀ c ∈ interfaces.namedChildren, (extractTypeName source c).isSome = true := by
      intro c hc
      obtain ⟨m, hm, hread, -⟩ := extractTypeName_read hwritten (hmem c hc)
      rw [hread]
      exact hwritten.texts m hm
    have hlisted : (interfaces.listed.flatMap Node.listed).map (baseName source) =
        interfaces.namedChildren.flatMap fun c => if isListed c then c.listed.map (baseName source) else [] := by
      rw [List.map_flatMap, Node.listed, flatMap_filter_eq_ite]
    have hitems : ∀ c ∈ interfaces.namedChildren, Covers nameSize [extractTypeName source c]
        (if isListed c then c.listed.map (baseName source) else [])
        (isCommentKind c.kind = false ∧ ∃ t, c.namedChildren = [t] ∧ isListed t = true ∧ t.hasTypeArguments = false) := by
      intro c hc
      rcases hshaped interfaces hfield c hc with hcomment | hlist
      · have hextra : isListed c = false := by simp [isListed, hcomment]
        have hitem := covers_clauseChild hwf hwritten (hmem c hc)
        rw [hextra] at hitem ⊢
        exact hitem.congr (by simp [hcomment])
      · have hcomment : isCommentKind c.kind = false := by rw [hlist.kind]; rfl
        have hnamed : isListed c = true := by rw [isListed, hlist.kind]; rfl
        rw [hnamed]
        exact (covers_typeList hwf hwritten (hmem c hc) hlist).congr (by simp [hcomment])
    have hall := Covers.flatMap hitems
    rw [← map_some_filterMap hread, ← hlisted] at hall
    exact hall.congr (by simp)

theorem java_iff (h : IsDeclaration .java source d) :
    EachListedOnce .java source file d ↔ ReadAsListed .java d := by
  obtain ⟨hwf, hwritten, hkind, hnamed, hinterfaces⟩ := h
  obtain ⟨subtype, htext, hbase⟩ := hnamed.text hwritten
  rw [@eachListedOnce_iff source file d .java subtype _ hbase (javaRelations_eq hkind htext), List.map_append,
    listedSupertypes, List.map_append]
  exact ((covers_superclass hwf hwritten).append (covers_interfaces hwf hwritten hinterfaces)).perm_iff

/-! ### Python -/

variable (source) in
/-- The names that are read among a Python class's arguments. -/
def argumentNames (args : Node) : List Str :=
  args.namedChildren.filterMap fun arg => if arg.kind = "keyword_argument" then none else arg.utf8Text source

theorem pythonRelations_eq {subtype : Str} (hkind : d.kind = "class_definition")
    (hname : (d.childByFieldName "name").bind (·.utf8Text source) = some subtype) :
    pythonRelations source file d =
      (((d.childByFieldName "superclasses").map (argumentNames source)).getD []).map (relationAt file d subtype) := by
  rw [pythonRelations, if_pos hkind, hname]
  dsimp only
  cases d.childByFieldName "superclasses" with
  | none => rfl
  | some args =>
    rw [Option.map_some, Option.getD_some, argumentNames, List.map_filterMap]
    refine List.filterMap_congr fun arg _ => ?_
    split <;> rfl

/-- An argument of a Python class. -/
theorem covers_argument (hwf : d.WellFormed) (hwritten : d.Written source) {arg : Node} (harg : arg ∈ d.preorder) :
    Covers nameSize ((if arg.kind = "keyword_argument" then none else arg.utf8Text source).toList.map some)
      (if isBaseClass arg then [baseName source arg] else [])
      (arg.kind = "keyword_argument" ∨ isBaseClass arg = true ∧ arg.hasTypeArguments = false) := by
  by_cases hkeyword : arg.kind = "keyword_argument"
  · have hno : isBaseClass arg = false := by simp [isBaseClass, hkeyword]
    rw [if_pos hkeyword, hno]
    exact Covers.nil.congr (by simp [hkeyword])
  · obtain ⟨s, hs, -⟩ := text_of_mem hwritten harg
    have hread : (arg.utf8Text source).toList.map some = [arg.utf8Text source] := by rw [hs]; rfl
    rw [if_neg hkeyword, hread]
    cases hbase : isBaseClass arg with
    | true => exact (covers_text hwf hwritten harg).congr (by simp [hkeyword])
    | false =>
      have hwrittenKind : isWrittenKind arg.kind = true := by
        rw [isBaseClass, Bool.and_eq_false_iff] at hbase
        rcases hbase with hcomment | hsplat
        · simp only [Bool.not_eq_false'] at hcomment
          simp [isWrittenKind, hcomment]
        · simp only [Bool.not_eq_false', List.contains_cons, List.contains_nil, Bool.or_eq_true, beq_iff_eq, hkeyword,
            false_or, Bool.or_false] at hsplat
          rcases hsplat with hkind | hkind | hkind
          · simp [isWrittenKind, hkind]
          · simp [isWrittenKind, hkind]
          · simp [isWrittenKind, hkind]
      exact (covers_extra hwritten harg (hwritten.filled arg harg hwrittenKind)).congr (by simp [hkeyword])

theorem python_iff (h : IsDeclaration .python source d) :
    EachListedOnce .python source file d ↔ ReadAsListed .python d := by
  obtain ⟨hwf, hwritten, hkind, hnamed⟩ := h
  obtain ⟨subtype, htext, hbase⟩ := hnamed.text hwritten
  rw [@eachListedOnce_iff source file d .python subtype _ hbase (pythonRelations_eq hkind htext)]
  unfold listedSupertypes ReadAsListed
  dsimp only
  cases hfield : d.childByFieldName "superclasses" with
  | none => simp
  | some args =>
    have hitems := Covers.flatMap fun arg harg =>
      covers_argument hwf hwritten (namedChild_mem (childByFieldName_mem hfield) harg)
    rw [← List.map_flatMap, ← List.filterMap_eq_flatMap_toList, ← flatMap_filter_eq_ite, ← List.map_eq_flatMap] at hitems
    rw [Option.map_some, Option.getD_some, Option.map_some, Option.getD_some, argumentNames, hitems.perm_iff]
    simp

/-! ### TypeScript and JavaScript -/

variable (source) in
/-- The names that are read in the heritage of a class. -/
def heritageNames (heritage : Node) : List Str :=
  heritage.namedChildren.flatMap fun clause =>
    if isTsClause clause.kind then clause.namedChildren.filterMap (extractTypeName source) else []

theorem tsRelations_eq {subtype : Str} (hname : (d.childByFieldName "name").bind (·.utf8Text source) = some subtype) :
    tsRelations source file d =
      (if d.kind = "class_declaration" then ((findChildOfKind d "class_heritage").map (heritageNames source)).getD []
        else []).map (relationAt file d subtype) := by
  rw [tsRelations]
  by_cases hkind : d.kind = "class_declaration"
  · rw [if_pos hkind, if_pos hkind, hname]
    dsimp only
    cases findChildOfKind d "class_heritage" with
    | none => rfl
    | some heritage =>
      rw [Option.map_some, Option.getD_some, heritageNames, List.map_flatMap]
      refine List.flatMap_congr fun clause _ => ?_
      split
      · rw [collectClauseTypes_eq]
      · rfl
  · rw [if_neg hkind, if_neg hkind]
    rfl

/-- Where the heritage is made of clauses, they are read one after the other. -/
theorem covers_heritage (hwf : d.WellFormed) (hwritten : d.Written source) {heritage : Node} (hmem : heritage ∈ d.preorder)
    (hclauses : ∀ c ∈ heritage.listed, isTsClause c.kind = true) :
    Covers nameSize ((heritageNames source heritage).map some)
      ((heritage.listed.flatMap fun clause => if isTsClause clause.kind then clause.listed else [clause]).map
        (baseName source))
      (∀ c ∈ heritage.listed, ∀ t ∈ c.namedChildren, isListed t = true ∧ readsBaseName t = true) := by
  have hlisted : ∀ c ∈ heritage.namedChildren, isTsClause c.kind = isListed c := by
    intro c hc
    cases hl : isListed c with
    | true => exact hclauses c (List.mem_filter.mpr ⟨hc, hl⟩)
    | false =>
      rw [Bool.eq_false_iff]
      intro hclause
      simp only [isTsClause, Bool.or_eq_true, beq_iff_eq] at hclause
      rcases hclause with hkind | hkind
      · rw [isListed, hkind] at hl
        exact absurd hl (by decide)
      · rw [isListed, hkind] at hl
        exact absurd hl (by decide)
  have hcode : (heritageNames source heritage).map some = heritage.namedChildren.flatMap fun clause =>
      if isListed clause then (clause.namedChildren.filterMap (extractTypeName source)).map some else [] := by
    rw [heritageNames, List.map_flatMap]
    refine List.flatMap_congr fun c hc => ?_
    rw [hlisted c hc]
    split <;> rfl
  have hspec : (heritage.listed.flatMap fun clause => if isTsClause clause.kind then clause.listed else [clause]).map
      (baseName source) =
      heritage.namedChildren.flatMap fun clause => if isListed clause then clause.listed.map (baseName source) else [] := by
    rw [List.map_flatMap, Node.listed, flatMap_filter_eq_ite]
    refine List.flatMap_congr fun c hc => ?_
    split
    · next hl => rw [hlisted c hc, if_pos hl]
    · rfl
  have hitems : ∀ c ∈ heritage.namedChildren, Covers nameSize
      (if isListed c then (c.namedChildren.filterMap (extractTypeName source)).map some else [])
      (if isListed c then c.listed.map (baseName source) else [])
      (isListed c = true → ∀ t ∈ c.namedChildren, isListed t = true ∧ readsBaseName t = true) := by
    intro c hc
    cases hl : isListed c with
    | true => exact (covers_clause hwf hwritten (namedChild_mem hmem hc)).congr (by simp)
    | false => exact Covers.nil.congr (by simp)
  rw [hcode, hspec]
  refine (Covers.flatMap hitems).congr ?_
  simp [Node.listed]

/-- The condition of `ReadAsListed` for a heritage. -/
def HeritageRead (d heritage : Node) : Prop :=
  ∀ c ∈ heritage.listed, d.kind = "class_declaration" ∧ isTsClause c.kind = true ∧
    ∀ t ∈ c.namedChildren, isListed t = true ∧ readsBaseName t = true

theorem heritage_perm_iff (hwf : d.WellFormed) (hwritten : d.Written source) {heritage : Node}
    (hmem : heritage ∈ d.preorder)
    (hshaped : (∀ c ∈ heritage.listed, isTsClause c.kind = true ∧ c.listed ≠ []) ∨
      ∀ c ∈ heritage.namedChildren, isTsClause c.kind = false) :
    ((if d.kind = "class_declaration" then heritageNames source heritage else []).map some).Perm
      ((heritage.listed.flatMap fun clause => if isTsClause clause.kind then clause.listed else [clause]).map
        (baseName source)) ↔ HeritageRead d heritage := by
  -- a heritage of which nothing is read must have nothing in it
  have hunread : ([].map some).Perm
      ((heritage.listed.flatMap fun clause => if isTsClause clause.kind then clause.listed else [clause]).map
        (baseName source)) ↔ heritage.listed = [] := by
    rw [List.map_nil, List.nil_perm, List.map_eq_nil_iff, List.flatMap_eq_nil_iff, List.eq_nil_iff_forall_not_mem]
    refine forall₂_congr fun c hc => iff_false_intro ?_
    rcases hshaped with hclauses | hnone
    · rw [if_pos (hclauses c hc).1]
      exact (hclauses c hc).2
    · rw [hnone c (List.mem_filter.mp hc).1]
      exact List.cons_ne_nil c []
  have hempty : (¬ ∃ c ∈ heritage.listed, d.kind = "class_declaration" ∧ isTsClause c.kind = true) →
      (heritage.listed = [] ↔ HeritageRead d heritage) := by
    intro hno
    rw [List.eq_nil_iff_forall_not_mem]
    refine forall₂_congr fun c hc => iff_of_false (fun h => h) fun h => hno ⟨c, hc, h.1, h.2.1⟩
  by_cases hkind : d.kind = "class_declaration"
  · rw [if_pos hkind]
    rcases hshaped with hclauses | hnone
    · rw [(covers_heritage hwf hwritten hmem fun c hc => (hclauses c hc).1).perm_iff]
      refine forall₂_congr fun c hc => ?_
      simp only [hkind, (hclauses c hc).1, true_and]
    · have hnames : heritageNames source heritage = [] := by
        rw [heritageNames, List.flatMap_eq_nil_iff]
        intro c hc
        rw [hnone c hc]
        rfl
      rw [hnames, hunread]
      refine hempty fun ⟨c, hc, _, hclause⟩ => ?_
      rw [hnone c (List.mem_filter.mp hc).1] at hclause
      cases hclause
  · rw [if_neg hkind, hunread]
    exact hempty fun ⟨_, _, h, _⟩ => hkind h

theorem tsNames_perm_iff (hwf : d.WellFormed) (hwritten : d.Written source)
    (hshaped : ∀ heritage, findChildOfKind d "class_heritage" = some heritage →
      (∀ c ∈ heritage.listed, isTsClause c.kind = true ∧ c.listed ≠ []) ∨
        ∀ c ∈ heritage.namedChildren, isTsClause c.kind = false) :
    ((if d.kind = "class_declaration" then ((findChildOfKind d "class_heritage").map (heritageNames source)).getD []
        else []).map some).Perm
      ((((findChildOfKind d "class_heritage").map fun heritage =>
        heritage.listed.flatMap fun clause => if isTsClause clause.kind then clause.listed else [clause]).getD []).map
          (baseName source)) ↔
      ∀ heritage, findChildOfKind d "class_heritage" = some heritage → HeritageRead d heritage := by
  cases hheritage : findChildOfKind d "class_heritage" with
  | none => simp
  | some heritage =>
    have hone := heritage_perm_iff hwf hwritten (findChildOfKind_mem hheritage) (hshaped heritage hheritage)
    rw [Option.map_some, Option.getD_some, Option.map_some, Option.getD_some, hone]
    simp

theorem ts_iff {language : Language} (hlanguage : language = .typeScript ∨ language = .javaScript)
    (h : IsDeclaration language source d) : EachListedOnce language source file d ↔ ReadAsListed language d := by
  obtain ⟨hwf, hwritten, hshaped⟩ := h
  rcases hlanguage with rfl | rfl
  · obtain ⟨-, hnamed, hheritage⟩ := hshaped
    obtain ⟨subtype, htext, hbase⟩ := hnamed.text hwritten
    rw [@eachListedOnce_iff source file d .typeScript subtype _ hbase (tsRelations_eq htext)]
    exact tsNames_perm_iff hwf hwritten hheritage
  · obtain ⟨-, hnamed, hheritage⟩ := hshaped
    obtain ⟨subtype, htext, hbase⟩ := hnamed.text hwritten
    rw [@eachListedOnce_iff source file d .javaScript subtype _ hbase (tsRelations_eq htext)]
    exact tsNames_perm_iff hwf hwritten hheritage

/-! ### Rust -/

theorem rust_iff (h : IsDeclaration .rust source d) : EachListedOnce .rust source file d ↔ ReadAsListed .rust d := by
  obtain ⟨hwf, hwritten, hkind, htrait, htype⟩ := h
  obtain ⟨traitNode, htrait⟩ := Option.isSome_iff_exists.mp htrait
  obtain ⟨typeNode, htype⟩ := Option.isSome_iff_exists.mp htype
  have htraitMem := childByFieldName_mem htrait
  have htypeMem := childByFieldName_mem htype
  obtain ⟨supertype, hsupertype, hsupertypeLength⟩ := text_of_mem hwritten htraitMem
  obtain ⟨subtype, hsubtype, hsubtypeLength⟩ := text_of_mem hwritten htypeMem
  have hdeclared : rustRelations source file d = [relationAt file d subtype supertype] := by
    rw [rustRelations, if_pos hkind, htrait, htype]
    dsimp only
    rw [hsupertype, hsubtype]
  have hbase : ∀ {n : Node} {s : Str}, n ∈ d.preorder → n.utf8Text source = some s →
      (baseName source n = some s ↔ n.hasTypeArguments = false) := by
    intro n s hn hs
    have hcovers := covers_text hwf hwritten hn
    rw [← hcovers.perm_iff, hs, List.singleton_perm_singleton, eq_comm]
  have hgoal : EachListedOnce .rust source file d ↔ [some (relationAt file d subtype supertype)].Perm
      ((if d.children.any (·.kind == "!") then [] else [traitNode]).map (listedRelation .rust source file d)) := by
    rw [EachListedOnce, declaredRelations, hdeclared, listedSupertypes, htrait]
    rfl
  have hcond : ReadAsListed .rust d ↔ (d.children.any (·.kind == "!")) = false ∧
      traitNode.hasTypeArguments = false ∧ typeNode.hasTypeArguments = false := by
    unfold ReadAsListed
    rw [htrait, htype]
    simp
  rw [hgoal, hcond]
  cases hnegative : d.children.any (·.kind == "!") with
  | true => simp
  | false =>
    rw [← hbase htraitMem hsupertype, ← hbase htypeMem hsubtype]
    simp only [Bool.false_eq_true, if_false, List.map_cons, List.map_nil, List.singleton_perm_singleton, true_and]
    rw [listedRelation, subtypeNode, htype, Option.bind_some]
    cases baseName source typeNode with
    | none => simp
    | some subtype' =>
      cases baseName source traitNode with
      | none => simp
      | some supertype' => simp [relationAt, eq_comm, and_comm]

end Languages

/-- In the languages with inheritance clauses: a tree gives what its nodes say; and what a
    declaration says has each of its listed types once and nothing else, by their base
    names, if and only if they are written as the walk reads them. -/
theorem each_listed_once_iff (language : Language) (source : Str) (file : Path) (d : Node)
    (h : IsDeclaration language source d) :
    (∀ tree, extractSupertypeRelations source tree file language =
      tree.preorder.flatMap (declaredRelations language source file)) ∧
    (EachListedOnce language source file d ↔ ReadAsListed language d) := by
  refine ⟨fun tree => extractSupertypeRelations_eq source tree file language, ?_⟩
  have hshaped := h.shaped
  cases language
  case java => exact java_iff h
  case typeScript => exact ts_iff (.inl rfl) h
  case javaScript => exact ts_iff (.inr rfl) h
  case python => exact python_iff h
  case rust => exact rust_iff h
  all_goals exact hshaped.elim

/-! ## Two interfaces -/

def twoInterfacesSource : Str := str "class D implements A, B \x7b\x7d"

def twoInterfacesList : Node :=
  ⟨"type_list", none, 19, 23, ⟨0, 19⟩, ⟨0, 23⟩, true, false, false,
    [.leaf "type_identifier" none 0 19 19 1 true, .leaf "," none 0 20 20 1 false,
      .leaf "type_identifier" none 0 22 22 1 true]⟩

def twoInterfacesClass : Node :=
  ⟨"class_declaration", none, 0, 26, ⟨0, 0⟩, ⟨0, 26⟩, true, false, false,
    [.leaf "class" none 0 0 0 5 false, .leaf "identifier" (some "name") 0 6 6 1 true,
      ⟨"super_interfaces", some "interfaces", 8, 23, ⟨0, 8⟩, ⟨0, 23⟩, true, false, false,
        [.leaf "implements" none 0 8 8 10 false, twoInterfacesList]⟩,
      ⟨"class_body", some "body", 24, 26, ⟨0, 24⟩, ⟨0, 26⟩, true, false, false,
        [.leaf "\x7b" none 0 24 24 1 false, .leaf "\x7d" none 0 25 25 1 false]⟩]⟩

theorem twoInterfaces_isDeclaration : IsDeclaration .java twoInterfacesSource twoInterfacesClass where
  wellFormed :=
    { bytes := by decide
      nested := by decide
      ordered := by decide
      places := by decide
      nonempty := by decide
      tokens := by decide }
  written :=
    { texts := by decide
      filled := by decide
      comments := by decide
      generic := by
        have hnone : ∀ n ∈ twoInterfacesClass.preorder, isGenericKind n.kind = false := by decide
        intro n hn hkind
        rw [hnone n hn] at hkind
        cases hkind }
  shaped := by
    refine ⟨rfl, ⟨_, rfl, by decide⟩, fun interfaces hinterfaces c hc => .inr ?_⟩
    cases hinterfaces
    cases List.mem_singleton.mp (show c ∈ [twoInterfacesList] from hc)
    refine ⟨rfl, .more rfl rfl rfl (.one rfl), ?_, ?_⟩
    · rintro _ ⟨⟩
      rfl
    · rintro _ ⟨⟩
      rfl

/-- `D` implements `A` and `B`, and one relation says that it is a subtype of `A, B`. -/
theorem two_interfaces_are_one_supertype :
    IsDeclaration .java twoInterfacesSource twoInterfacesClass ∧
      extractSupertypeRelations twoInterfacesSource twoInterfacesClass [] .java = [⟨str "D", str "A, B", [], 1⟩] ∧
      ((listedSupertypes .java twoInterfacesClass).map (·.utf8Text twoInterfacesSource)) =
        [some (str "A"), some (str "B")] ∧
      ¬ EachListedOnce .java twoInterfacesSource [] twoInterfacesClass := by
  refine ⟨twoInterfaces_isDeclaration, by decide, by decide, fun h => ?_⟩
  exact absurd h.length_eq (by decide)

theorem each_listed_once_iff_two_interfaces :
    (∀ tree, extractSupertypeRelations twoInterfacesSource tree [] .java =
      tree.preorder.flatMap (declaredRelations .java twoInterfacesSource [])) ∧
    (EachListedOnce .java twoInterfacesSource [] twoInterfacesClass ↔ ReadAsListed .java twoInterfacesClass) :=
  each_listed_once_iff .java twoInterfacesSource [] twoInterfacesClass twoInterfaces_isDeclaration

end CodeQuery.Parse
