/-
  CodeQuery.Parse.Places — where the nodes of a tree are (see `CodeQuery.Parse.Tree`).

  `WellFormed` is what the tree-sitter library promises of a tree, and grammars of the
  tokens they give names: children lie in their parent one after the other, a place is a
  byte offset, a name is not empty and has no name in it. So the names that a walk comes
  to, which leaves out errors and what the parser put in, start one after the other
  (`names_ordered`).
-/

import CodeQuery.Parse.Tree

namespace CodeQuery.Parse

/-! ## Trees -/

/-- The kinds that grammars give names. -/
def nameKinds : List String := ["identifier", "type_identifier", "field_identifier", "property_identifier"]

def Node.isName (n : Node) : Bool := nameKinds.contains n.kind

structure Node.WellFormed (tree : Node) : Prop where
  bytes : ∀ n ∈ tree.preorder, n.startByte ≤ n.endByte
  nested : ∀ n ∈ tree.preorder, ∀ c ∈ n.children, n.startByte ≤ c.startByte ∧ c.endByte ≤ n.endByte
  ordered : ∀ n ∈ tree.preorder, n.children.Pairwise fun a b => a.endByte ≤ b.startByte
  places : ∀ n ∈ tree.preorder, ∀ m ∈ tree.preorder, n.startPosition = m.startPosition → n.startByte = m.startByte
  /-- Only a name that the parser put in is empty. -/
  nonempty : ∀ n ∈ tree.preorder, n.isName = true → n.isMissing = false → n.startByte < n.endByte
  tokens : ∀ n ∈ tree.preorder, n.isName = true → ∀ m ∈ preorderAll n.children, m.isName = false

theorem mem_preorderAll {m : Node} {ns : List Node} : m ∈ preorderAll ns ↔ ∃ c ∈ ns, m ∈ c.preorder := by
  induction ns with
  | nil => simp [preorderAll]
  | cons c cs ih =>
    rw [preorderAll, List.mem_append, ih]
    simp

theorem preorder_eq (n : Node) : n.preorder = n :: preorderAll n.children := by
  obtain ⟨_, _, _, _, _, _, _, _, _, cs⟩ := n
  rw [Node.preorder]

theorem self_mem_preorder (n : Node) : n ∈ n.preorder := by
  rw [preorder_eq]
  exact List.mem_cons_self

theorem preorder_child {n c m : Node} (hc : c ∈ n.children) (hm : m ∈ c.preorder) : m ∈ n.preorder := by
  rw [preorder_eq]
  exact List.mem_cons_of_mem _ (mem_preorderAll.mpr ⟨c, hc, hm⟩)

/-- What holds of a tree holds of each child. -/
theorem Node.WellFormed.child {n c : Node} (h : n.WellFormed) (hc : c ∈ n.children) : c.WellFormed where
  bytes m hm := h.bytes m (preorder_child hc hm)
  nested m hm := h.nested m (preorder_child hc hm)
  ordered m hm := h.ordered m (preorder_child hc hm)
  places m hm k hk := h.places m (preorder_child hc hm) k (preorder_child hc hk)
  nonempty m hm := h.nonempty m (preorder_child hc hm)
  tokens m hm := h.tokens m (preorder_child hc hm)

theorem sizeOf_child_lt {n c : Node} (h : c ∈ n.children) : sizeOf c < sizeOf n := by
  obtain ⟨_, _, _, _, _, _, _, _, _, cs⟩ := n
  have hlt : sizeOf c < sizeOf cs := List.sizeOf_lt_of_mem h
  simp only [Node.mk.sizeOf_spec]
  omega

theorem preorder_trans {n m k : Node} (hm : m ∈ n.preorder) (hk : k ∈ m.preorder) : k ∈ n.preorder := by
  rw [preorder_eq] at hm
  rcases List.mem_cons.mp hm with rfl | hm
  · exact hk
  · obtain ⟨c, hc, hm⟩ := mem_preorderAll.mp hm
    have hlt := sizeOf_child_lt hc
    exact preorder_child hc (preorder_trans hm hk)
termination_by sizeOf n

/-- A node is within the bytes of what it is below. -/
theorem within_of_nested {n m : Node}
    (h : ∀ k ∈ n.preorder, ∀ c ∈ k.children, k.startByte ≤ c.startByte ∧ c.endByte ≤ k.endByte) (hm : m ∈ n.preorder) :
    n.startByte ≤ m.startByte ∧ m.endByte ≤ n.endByte := by
  rw [preorder_eq] at hm
  rcases List.mem_cons.mp hm with rfl | hm
  · exact ⟨le_rfl, le_rfl⟩
  · obtain ⟨c, hc, hm⟩ := mem_preorderAll.mp hm
    have hlt := sizeOf_child_lt hc
    obtain ⟨hstart, hend⟩ := within_of_nested (fun k hk => h k (preorder_child hc hk)) hm
    obtain ⟨hstart', hend'⟩ := h n (self_mem_preorder n) c hc
    omega
termination_by sizeOf n

theorem Node.WellFormed.within {n m : Node} (h : n.WellFormed) (hm : m ∈ n.preorder) :
    n.startByte ≤ m.startByte ∧ m.endByte ≤ n.endByte := within_of_nested h.nested hm

/-! ## Walks -/

mutual

/-- The nodes that a walk comes to, each with its parent. -/
def Node.visited (parent : Option Node) : Node → List (Option Node × Node)
  | n@⟨_, _, _, _, _, _, _, _, _, cs⟩ => (parent, n) :: visitedAll (some n) cs

def visitedAll (parent : Option Node) : List Node → List (Option Node × Node)
  | [] => []
  | c :: cs => (if c.isError || c.isMissing then [] else c.visited parent) ++ visitedAll parent cs

end

theorem visited_eq (parent : Option Node) (n : Node) :
    n.visited parent = (parent, n) :: visitedAll (some n) n.children := by
  obtain ⟨_, _, _, _, _, _, _, _, _, cs⟩ := n
  rw [Node.visited]

theorem mem_visitedAll {parent : Option Node} {v : Option Node × Node} {ns : List Node} :
    v ∈ visitedAll parent ns ↔ ∃ c ∈ ns, (c.isError || c.isMissing) = false ∧ v ∈ c.visited parent := by
  induction ns with
  | nil => simp [visitedAll]
  | cons c cs ih =>
    rw [visitedAll, List.mem_append, ih]
    cases hskip : c.isError || c.isMissing with
    | true => simp only [hskip, if_true, List.not_mem_nil, false_or, List.mem_cons, exists_eq_or_imp,
      Bool.true_eq_false, false_and]
    | false => simp only [hskip, Bool.false_eq_true, if_false, List.mem_cons, exists_eq_or_imp, true_and]

theorem self_mem_visited (parent : Option Node) (n : Node) : (parent, n) ∈ n.visited parent := by
  rw [visited_eq]
  exact List.mem_cons_self

theorem visited_child {parent : Option Node} {n c : Node} {v : Option Node × Node} (hc : c ∈ n.children)
    (hsound : (c.isError || c.isMissing) = false) (hv : v ∈ c.visited (some n)) : v ∈ n.visited parent := by
  rw [visited_eq]
  exact List.mem_cons_of_mem _ (mem_visitedAll.mpr ⟨c, hc, hsound, hv⟩)

/-- The walk goes on below what it comes to. -/
theorem visited_below {parent q : Option Node} {n m c : Node} (hm : (q, m) ∈ n.visited parent) (hc : c ∈ m.children)
    (hsound : (c.isError || c.isMissing) = false) : (some m, c) ∈ n.visited parent := by
  rw [visited_eq] at hm
  rcases List.mem_cons.mp hm with heq | hm
  · cases heq
    exact visited_child hc hsound (self_mem_visited _ c)
  · obtain ⟨d, hd, hdsound, hm⟩ := mem_visitedAll.mp hm
    have hlt := sizeOf_child_lt hd
    exact visited_child hd hdsound (visited_below hm hc hsound)
termination_by sizeOf n

theorem visited_preorder {parent : Option Node} {n : Node} {v : Option Node × Node} (h : v ∈ n.visited parent) :
    v.2 ∈ n.preorder := by
  rw [visited_eq] at h
  rcases List.mem_cons.mp h with rfl | h
  · exact self_mem_preorder n
  · obtain ⟨c, hc, _, hv⟩ := mem_visitedAll.mp h
    have hlt := sizeOf_child_lt hc
    exact preorder_child hc (visited_preorder hv)
termination_by sizeOf n

theorem visited_not_missing {parent : Option Node} {n : Node} (hn : n.isMissing = false) {v : Option Node × Node}
    (h : v ∈ n.visited parent) : v.2.isMissing = false := by
  rw [visited_eq] at h
  rcases List.mem_cons.mp h with rfl | h
  · exact hn
  · obtain ⟨c, hc, hsound, hv⟩ := mem_visitedAll.mp h
    have hlt := sizeOf_child_lt hc
    exact visited_not_missing (Bool.or_eq_false_iff.mp hsound).2 hv
termination_by sizeOf n

def names (visits : List (Option Node × Node)) : List (Option Node × Node) := visits.filter (·.2.isName)

theorem names_cons (v : Option Node × Node) (visits : List (Option Node × Node)) :
    names (v :: visits) = if v.2.isName then v :: names visits else names visits := List.filter_cons ..

theorem names_append (visits visits' : List (Option Node × Node)) :
    names (visits ++ visits') = names visits ++ names visits' := List.filter_append ..

theorem namesAll_ordered {parent : Option Node} : ∀ {ns : List Node}, (∀ c ∈ ns, c.WellFormed) →
    (∀ c ∈ ns, (names (c.visited parent)).Pairwise fun a b => a.2.startByte < b.2.startByte) →
    (ns.Pairwise fun a b => a.endByte ≤ b.startByte) →
      (names (visitedAll parent ns)).Pairwise fun a b => a.2.startByte < b.2.startByte
  | [], _, _, _ => List.Pairwise.nil
  | c :: cs, h, hown, hordered => by
    obtain ⟨hfirst, hrest⟩ := List.pairwise_cons.mp hordered
    have hlater := namesAll_ordered (fun d hd => h d (List.mem_cons_of_mem _ hd))
      (fun d hd => hown d (List.mem_cons_of_mem _ hd)) hrest
    rw [visitedAll]
    by_cases hskip : (c.isError || c.isMissing) = true
    · rw [if_pos hskip, List.nil_append]
      exact hlater
    · rw [if_neg hskip, names_append]
      refine List.pairwise_append.mpr ⟨hown c List.mem_cons_self, hlater, fun a ha b hb => ?_⟩
      -- `a` is in `c` and not empty, `b` in a later sibling
      obtain ⟨ha, haname⟩ := List.mem_filter.mp ha
      obtain ⟨d, hd, _, hb⟩ := mem_visitedAll.mp (List.mem_filter.mp hb).1
      have hmissing : c.isMissing = false := (Bool.or_eq_false_iff.mp (by simpa using hskip)).2
      have hwf := h c List.mem_cons_self
      have hnonempty := hwf.nonempty a.2 (visited_preorder ha) haname (visited_not_missing hmissing ha)
      have hin := hwf.within (visited_preorder ha)
      have hafter := hfirst d hd
      have hin' := (h d (List.mem_cons_of_mem _ hd)).within (visited_preorder hb)
      omega

/-- The names that a walk comes to start one after the other. -/
theorem names_ordered {parent : Option Node} {n : Node} (h : n.WellFormed) :
    (names (n.visited parent)).Pairwise fun a b => a.2.startByte < b.2.startByte := by
  have hbelow : (names (visitedAll (some n) n.children)).Pairwise fun a b => a.2.startByte < b.2.startByte :=
    namesAll_ordered (fun c hc => h.child hc)
      (fun c hc => have hlt := sizeOf_child_lt hc; names_ordered (h.child hc)) (h.ordered n (self_mem_preorder n))
  rw [visited_eq]
  by_cases hname : n.isName = true
  · have hnone : names (visitedAll (some n) n.children) = [] := by
      refine List.filter_eq_nil_iff.mpr fun v hv => ?_
      obtain ⟨c, hc, _, hv⟩ := mem_visitedAll.mp hv
      rw [h.tokens n (self_mem_preorder n) hname v.2 (mem_preorderAll.mpr ⟨c, hc, visited_preorder hv⟩)]
      exact Bool.false_ne_true
    rw [names_cons, if_pos hname, hnone]
    exact List.pairwise_singleton _ _
  · rw [names_cons, if_neg hname]
    exact hbelow
termination_by sizeOf n

/-- No two names that a walk comes to start at one place. -/
theorem names_places_nodup {parent : Option Node} {n : Node} (h : n.WellFormed) :
    ((names (n.visited parent)).map fun v => v.2.startPosition).Nodup := by
  refine List.pairwise_map.mpr ((names_ordered h).imp_of_mem ?_)
  intro a b ha hb hlt heq
  have hbytes := h.places a.2 (visited_preorder (List.mem_filter.mp ha).1) b.2
    (visited_preorder (List.mem_filter.mp hb).1) heq
  omega

end CodeQuery.Parse
