/-
  CodeQuery.Data.StableSort — sorting by a key that does not tell all elements apart,
  and the order a hash map is iterated in.

  A stable sort keeps the elements of one key in the order they came
  (`filter_stableSort`), and of that order nothing else shows: two lists sort alike
  exactly when they agree under every key (`stableSort_eq_iff`). A hash map filled by
  `insert` holds, under each key, the last value inserted (`mem_indexBy`), and gives
  them in any order (`Iteration`). Two iterations agree under every key of a sort if
  and only if no two values have one (`iterations_agree_iff`).
-/

import Mathlib.Data.List.AList
import Mathlib.Data.List.Palindrome
import Mathlib.Data.List.Sort

namespace CodeQuery.Data

/-! ## Stable sorting -/

section Sorting

variable {α κ : Type} [LinearOrder κ] (key : α → κ)

def stableSort (l : List α) : List α := l.insertionSort (key · ≤ key ·)

variable {key}

theorem stableSort_perm (l : List α) : (stableSort key l).Perm l := List.perm_insertionSort _ l

@[simp] theorem mem_stableSort {l : List α} {a : α} : a ∈ stableSort key l ↔ a ∈ l := List.mem_insertionSort _

theorem stableSort_pairwise (l : List α) : (stableSort key l).Pairwise (key · ≤ key ·) :=
  List.pairwise_insertionSort (key · ≤ key ·) l

/-- The sort keeps the elements of a key in their order. -/
theorem filter_stableSort [DecidableEq κ] (l : List α) (k : κ) :
    (stableSort key l).filter (key · = k) = l.filter (key · = k) := by
  have hsorted : (l.filter (key · = k)).Pairwise (key · ≤ key ·) := by
    refine List.pairwise_of_forall_mem_list fun a ha b hb => ?_
    have hka : key a = k := by simpa using (List.mem_filter.mp ha).2
    have hkb : key b = k := by simpa using (List.mem_filter.mp hb).2
    exact le_of_eq (hka.trans hkb.symm)
  have hsub : (l.filter (key · = k)).Sublist (stableSort key l) :=
    List.sublist_insertionSort hsorted List.filter_sublist
  have hfilter : (l.filter (key · = k)).Sublist ((stableSort key l).filter (key · = k)) := by
    have := hsub.filter (key · = k)
    simpa [List.filter_filter] using this
  have hlen : (l.filter (key · = k)).length = ((stableSort key l).filter (key · = k)).length :=
    ((stableSort_perm l).filter _).length_eq.symm
  exact (hfilter.eq_of_length hlen).symm

/-- Sorted lists that agree under every key are equal. -/
theorem eq_of_filter_eq [DecidableEq κ] : ∀ {l l' : List α}, l.Pairwise (key · ≤ key ·) → l'.Pairwise (key · ≤ key ·) →
    (∀ k, l.filter (key · = k) = l'.filter (key · = k)) → l = l'
  | [], [], _, _, _ => rfl
  | [], b :: _, _, _, hf => by simpa using hf (key b)
  | a :: _, [], _, _, hf => by simpa using hf (key a)
  | a :: t, b :: t', h, h', hf => by
    obtain ⟨ha, ht⟩ := List.pairwise_cons.mp h
    obtain ⟨hb, ht'⟩ := List.pairwise_cons.mp h'
    -- each head is below the other: it is in the other list
    have hle : key b ≤ key a := by
      have hmem : a ∈ (b :: t').filter (key · = key a) := by rw [← hf (key a)]; simp
      rcases List.mem_cons.mp (List.mem_filter.mp hmem).1 with he | hm
      · exact le_of_eq (congrArg key he.symm)
      · exact hb a hm
    have hge : key a ≤ key b := by
      have hmem : b ∈ (a :: t).filter (key · = key b) := by rw [hf (key b)]; simp
      rcases List.mem_cons.mp (List.mem_filter.mp hmem).1 with he | hm
      · exact le_of_eq (congrArg key he.symm)
      · exact ha b hm
    have hkey : key a = key b := le_antisymm hge hle
    have hhead : a = b := by
      have := hf (key a)
      rw [List.filter_cons_of_pos (by simp), List.filter_cons_of_pos (by simp [hkey])] at this
      exact (List.cons.inj this).1
    subst hhead
    have htail : ∀ k, t.filter (key · = k) = t'.filter (key · = k) := by
      intro k
      have := hf k
      by_cases hk : key a = k
      · simpa [hk] using this
      · simpa [hk] using this
    rw [eq_of_filter_eq ht ht' htail]

/-- Two lists sort alike if and only if they agree under every key. -/
theorem stableSort_eq_iff [DecidableEq κ] {l l' : List α} :
    stableSort key l = stableSort key l' ↔ ∀ k, l.filter (key · = k) = l'.filter (key · = k) := by
  refine ⟨fun h k => ?_, fun h => ?_⟩
  · rw [← filter_stableSort l, h, filter_stableSort]
  · refine eq_of_filter_eq (stableSort_pairwise l) (stableSort_pairwise l') fun k => ?_
    rw [filter_stableSort, filter_stableSort, h]

/-- What sorts before a key, what has it, in its order, and what sorts behind it. -/
theorem stableSort_split [DecidableEq κ] (l : List α) (k : κ) :
    stableSort key l = stableSort key (l.filter (key · < k)) ++
      (l.filter (key · = k) ++ stableSort key (l.filter (k < key ·))) := by
  have hbefore : ∀ a ∈ stableSort key (l.filter (key · < k)), key a < k := fun a ha => by
    simpa using (List.mem_filter.mp (mem_stableSort.mp ha)).2
  have hsame : ∀ a ∈ l.filter (key · = k), key a = k := fun a ha => by simpa using (List.mem_filter.mp ha).2
  have hbehind : ∀ a ∈ stableSort key (l.filter (k < key ·)), k < key a := fun a ha => by
    simpa using (List.mem_filter.mp (mem_stableSort.mp ha)).2
  refine eq_of_filter_eq (stableSort_pairwise l) ?_ fun k' => ?_
  · refine List.pairwise_append.mpr ⟨stableSort_pairwise _, List.pairwise_append.mpr ⟨?_, stableSort_pairwise _, ?_⟩, ?_⟩
    · exact List.pairwise_of_forall_mem_list fun a ha b hb => le_of_eq ((hsame a ha).trans (hsame b hb).symm)
    · exact fun a ha b hb => le_of_lt (hsame a ha ▸ hbehind b hb)
    · intro a ha b hb
      rcases List.mem_append.mp hb with hb | hb
      · exact le_of_lt (hsame b hb ▸ hbefore a ha)
      · exact le_of_lt ((hbefore a ha).trans (hbehind b hb))
  · rw [List.filter_append, List.filter_append, filter_stableSort, filter_stableSort, filter_stableSort, List.filter_filter,
      List.filter_filter, List.filter_filter]
    -- the elements of a key are all in one of the three parts
    have hpart (q : κ → Bool) : l.filter (fun a => decide (key a = k') && q (key a)) =
        if q k' then l.filter (key · = k') else [] := by
      split
      · refine List.filter_congr fun a _ => ?_
        by_cases ha : key a = k' <;> simp_all
      · refine List.filter_eq_nil_iff.mpr fun a _ => ?_
        by_cases ha : key a = k' <;> simp_all
    rw [hpart (fun x => decide (x < k)), hpart (fun x => decide (x = k)), hpart (fun x => decide (k < x))]
    rcases lt_trichotomy k' k with h | h | h
    · simp [h, h.ne, h.not_gt]
    · simp [h]
    · simp [h, h.ne', h.not_gt]

/-- An element is among the first `n` of the sorted list if fewer than `n` come before it: those
    of a smaller key, and those of its own key that stand before it in the list. -/
theorem mem_take_stableSort [DecidableEq κ] {l : List α} {a : α} {n : Nat} :
    a ∈ (stableSort key l).take n ↔
      ∃ ahead behind, l.filter (key · = key a) = ahead ++ a :: behind ∧ (l.filter (key · < key a)).length + ahead.length < n := by
  have hlength : (stableSort key (l.filter (key · < key a))).length = (l.filter (key · < key a)).length :=
    (stableSort_perm _).length_eq
  rw [stableSort_split l (key a), List.take_append, List.take_append]
  constructor
  · intro h
    rcases List.mem_append.mp h with h | h
    · have hlt := (List.mem_filter.mp (mem_stableSort.mp (List.mem_of_mem_take h))).2
      simp at hlt
    rcases List.mem_append.mp h with h | h
    · rw [hlength] at h
      obtain ⟨ahead, behind, hsplit⟩ := List.append_of_mem h
      have hle : ahead.length + 1 ≤ n - (l.filter (key · < key a)).length := by
        have htake := List.length_take_le (n - (l.filter (key · < key a)).length) (l.filter (key · = key a))
        rw [hsplit, List.length_append, List.length_cons] at htake
        omega
      refine ⟨ahead, behind ++ (l.filter (key · = key a)).drop (n - (l.filter (key · < key a)).length), ?_, by omega⟩
      rw [← List.cons_append, ← List.append_assoc, ← hsplit, List.take_append_drop]
    · have hlt := (List.mem_filter.mp (mem_stableSort.mp (List.mem_of_mem_take h))).2
      simp at hlt
  · intro h
    obtain ⟨ahead, behind, hsplit, hlt⟩ := h
    refine List.mem_append_right _ (List.mem_append_left _ ?_)
    obtain ⟨m, hm⟩ : ∃ m, n - (stableSort key (l.filter (key · < key a))).length = ahead.length + (m + 1) :=
      ⟨n - (l.filter (key · < key a)).length - ahead.length - 1, by omega⟩
    rw [hm, hsplit, List.take_length_add_append, List.take_succ_cons]
    exact List.mem_append_right _ (List.mem_cons_self ..)

/-- What is sorted again after an addition need not have been sorted before. -/
theorem stableSort_append (l l' : List α) : stableSort key (stableSort key l ++ l') = stableSort key (l ++ l') := by
  rw [stableSort_eq_iff]
  intro k
  rw [List.filter_append, List.filter_append, filter_stableSort]

end Sorting

/-! ## Hash maps -/

section Map

variable {α κ : Type} [DecidableEq κ]

/-- A map filled by `insert(key(a), a)`: a later value replaces an earlier one. -/
def indexBy (key : α → κ) (l : List α) : AList fun _ : κ => α := l.foldl (fun m a => m.insert (key a) a) ∅

theorem foldl_insert (key : α → κ) (l : List α) : ∀ m : AList fun _ : κ => α,
    (∀ k, k ∈ l.foldl (fun m a => m.insert (key a) a) m ↔ k ∈ m ∨ ∃ a ∈ l, key a = k) ∧
      ∀ k a, (l.foldl (fun m a => m.insert (key a) a) m).lookup k = some a → m.lookup k = some a ∨ a ∈ l ∧ key a = k := by
  induction l with
  | nil => intro m; simp
  | cons b l ih =>
    intro m
    rw [List.foldl_cons]
    obtain ⟨ihmem, ihlookup⟩ := ih (m.insert (key b) b)
    refine ⟨?_, ?_⟩
    · intro k
      rw [ihmem, AList.mem_insert]
      simp only [List.mem_cons, exists_eq_or_imp]
      rw [or_comm (a := k = key b), or_assoc, eq_comm (a := k)]
    · intro k a h
      rcases ihlookup k a h with h | ⟨ha, hk⟩
      · by_cases hk : key b = k
        · subst hk
          rw [AList.lookup_insert] at h
          cases h
          exact .inr ⟨List.mem_cons_self .., rfl⟩
        · rw [AList.lookup_insert_ne (Ne.symm hk)] at h
          exact .inl h
      · exact .inr ⟨List.mem_cons_of_mem _ ha, hk⟩

theorem mem_indexBy {key : α → κ} {l : List α} {k : κ} : k ∈ indexBy key l ↔ ∃ a ∈ l, key a = k := by
  rw [indexBy, (foldl_insert key l ∅).1]
  simp

/-- A value stands under its own key. -/
theorem lookup_indexBy {key : α → κ} {l : List α} {k : κ} {a : α} (h : (indexBy key l).lookup k = some a) :
    a ∈ l ∧ key a = k := by
  rcases (foldl_insert key l ∅).2 k a h with h | h
  · simp at h
  · exact h

/-- An order the entries of a map can come in. -/
structure Iteration (m : AList fun _ : κ => α) where
  entries : List (Sigma fun _ : κ => α)
  perm : entries.Perm m.entries

namespace Iteration

variable {m : AList fun _ : κ => α}

def stored (m : AList fun _ : κ => α) : Iteration m := ⟨m.entries, .refl _⟩

def backward (m : AList fun _ : κ => α) : Iteration m := ⟨m.entries.reverse, m.entries.reverse_perm⟩

/-- The values at the keys that `p` admits, in the order they come. -/
def values (o : Iteration m) (p : κ → Bool) : List α := (o.entries.filter fun e => p e.1).map (·.2)

omit [DecidableEq κ] in
theorem values_perm (o o' : Iteration m) (p : κ → Bool) : (o.values p).Perm (o'.values p) :=
  ((o.perm.trans o'.perm.symm).filter _).map _

omit [DecidableEq κ] in
theorem values_backward (p : κ → Bool) : (backward m).values p = ((stored m).values p).reverse := by
  simp [values, backward, stored, List.filter_reverse]

theorem mem_values {o : Iteration m} {p : κ → Bool} {a : α} :
    a ∈ o.values p ↔ ∃ k, m.lookup k = some a ∧ p k = true := by
  simp only [values, List.mem_map, List.mem_filter, o.perm.mem_iff]
  refine ⟨fun h => ?_, fun h => ?_⟩
  · obtain ⟨⟨k, b⟩, ⟨he, hp⟩, rfl⟩ := h
    exact ⟨k, AList.mem_lookup_iff.mpr he, hp⟩
  · obtain ⟨k, hk, hp⟩ := h
    exact ⟨⟨k, a⟩, ⟨AList.mem_lookup_iff.mp hk, hp⟩, rfl⟩

end Iteration

/-- Of a filled map, the keys of the values are the keys of the map, each once. -/
theorem nodup_values {key : α → κ} {l : List α} (o : Iteration (indexBy key l)) (p : κ → Bool) :
    ((o.values p).map key).Nodup := by
  have hkeys : (o.values p).map key = (o.entries.filter fun e => p e.1).map (·.1) := by
    rw [Iteration.values, List.map_map]
    refine List.map_congr_left fun e he => ?_
    have hmem : e ∈ (indexBy key l).entries := o.perm.mem_iff.mp (List.mem_filter.mp he).1
    exact (lookup_indexBy (AList.mem_lookup_iff.mpr hmem)).2
  have hnodup : (o.entries.map (·.1)).Nodup := (o.perm.map _).nodup_iff.mpr (indexBy key l).keys_nodup
  rw [hkeys]
  exact hnodup.sublist (List.filter_sublist.map _)

theorem mem_values_indexBy {key : α → κ} {l : List α} {o : Iteration (indexBy key l)} {p : κ → Bool} {k : κ} :
    k ∈ (o.values p).map key ↔ (∃ a ∈ l, key a = k) ∧ p k = true := by
  have hkey : k ∈ indexBy key l ↔ ∃ a ∈ l, key a = k := mem_indexBy
  rw [List.mem_map, ← hkey]
  refine ⟨fun h => ?_, fun h => ?_⟩
  · obtain ⟨a, ha, rfl⟩ := h
    obtain ⟨k, hk, hp⟩ := Iteration.mem_values.mp ha
    rw [(lookup_indexBy hk).2]
    exact ⟨AList.lookup_isSome.mp (by rw [hk]; rfl), hp⟩
  · obtain ⟨hk, hp⟩ := h
    obtain ⟨a, ha⟩ := Option.isSome_iff_exists.mp (AList.lookup_isSome.mpr hk)
    exact ⟨a, Iteration.mem_values.mpr ⟨k, ha, hp⟩, (lookup_indexBy ha).2⟩

end Map

/-! ## What a sort hides -/

section Lists

variable {α : Type}

/-- Rearranging a list of one value leaves it. -/
theorem eq_of_perm_of_forall_eq {l l' : List α} {a : α} (hp : l.Perm l') (h : ∀ b ∈ l, b = a) : l = l' := by
  have h' : ∀ b ∈ l', b = a := fun b hb => h b (hp.mem_iff.mpr hb)
  rw [List.eq_replicate_of_mem h, List.eq_replicate_of_mem h', hp.length_eq]

/-- A `flatMap` can leave out what gives nothing. -/
theorem flatMap_filter_eq {β : Type} {f : α → List β} {p : α → Bool} : ∀ {l : List α},
    (∀ a ∈ l, ∀ b ∈ f a, p a = true) → l.flatMap f = (l.filter p).flatMap f
  | [], _ => rfl
  | a :: l, h => by
    have ih := flatMap_filter_eq fun b hb => h b (List.mem_cons_of_mem a hb)
    by_cases hp : p a = true
    · rw [List.filter_cons_of_pos hp, List.flatMap_cons, List.flatMap_cons, ih]
    · have hnil : f a = [] := List.eq_nil_iff_forall_not_mem.mpr fun b hb => hp (h a (List.mem_cons_self ..) b hb)
      rw [List.filter_cons_of_neg hp, List.flatMap_cons, hnil, ih, List.nil_append]

end Lists

section Hides

variable {α κ σ : Type} [DecidableEq κ] [DecidableEq σ] {key : α → κ} {sortKey : α → σ} {l : List α} {p : κ → Bool}

omit [DecidableEq κ] in
/-- Where no two elements have one key, rearranging leaves what is under a key. -/
theorem filter_eq_of_perm {l l' : List α} (h : l.Pairwise (sortKey · ≠ sortKey ·)) (hp : l'.Perm l) (s : σ) :
    l'.filter (sortKey · = s) = l.filter (sortKey · = s) := by
  have hperm := hp.filter (sortKey · = s)
  have hpair := h.filter (sortKey · = s)
  have hkey : ∀ a ∈ l.filter (sortKey · = s), sortKey a = s := fun a ha => by simpa using (List.mem_filter.mp ha).2
  -- there is one element at most
  match l.filter (sortKey · = s), hperm, hpair, hkey with
  | [], hperm, _, _ => exact hperm.eq_nil
  | [_], hperm, _, _ => exact List.perm_singleton.mp hperm
  | a :: b :: t, _, hpair, hkey =>
    have hab := (List.pairwise_cons.mp hpair).1 b (List.mem_cons_self ..)
    exact absurd ((hkey a (by simp)).trans (hkey b (by simp)).symm) hab

theorem length_le_one_of_palindrome {t : List α} (hp : t.reverse = t) (hn : t.Nodup) : t.length ≤ 1 := by
  cases List.Palindrome.of_reverse_eq hp with
  | nil => simp
  | singleton a => simp
  | cons_concat a _ => simp at hn

/-- All iterations agree under every key of the sort if and only if no two of the values
    have one. -/
theorem iterations_agree_iff :
    (∀ (o o' : Iteration (indexBy key l)) (s : σ),
      (o.values p).filter (sortKey · = s) = (o'.values p).filter (sortKey · = s)) ↔
    ∀ a ∈ (Iteration.stored (indexBy key l)).values p, ∀ b ∈ (Iteration.stored (indexBy key l)).values p,
      sortKey a = sortKey b → a = b := by
  have hnodup : ((Iteration.stored (indexBy key l)).values p).Nodup := (nodup_values (Iteration.stored _) p).of_map
  constructor
  · intro h a ha b hb he
    -- forward and backward agree, so what shares a key is a palindrome
    have hpal := h (.backward _) (.stored _) (sortKey a)
    rw [Iteration.values_backward, List.filter_reverse] at hpal
    have hlen := length_le_one_of_palindrome hpal (hnodup.filter _)
    have hmem : ∀ x, x ∈ (Iteration.stored (indexBy key l)).values p → sortKey x = sortKey a →
        x ∈ ((Iteration.stored (indexBy key l)).values p).filter (sortKey · = sortKey a) :=
      fun x hx hk => List.mem_filter.mpr ⟨hx, by simpa using hk⟩
    have hax := hmem a ha rfl
    have hbx := hmem b hb he.symm
    match ((Iteration.stored (indexBy key l)).values p).filter (sortKey · = sortKey a), hlen, hax, hbx with
    | [x], _, hax, hbx => exact (List.mem_singleton.mp hax).trans (List.mem_singleton.mp hbx).symm
  · intro h o o' s
    have hpair : ((Iteration.stored (indexBy key l)).values p).Pairwise (sortKey · ≠ sortKey ·) :=
      hnodup.pairwise_of_forall_ne fun a ha b hb hne he => hne (h a ha b hb he)
    rw [filter_eq_of_perm hpair (o.values_perm (.stored _) p), filter_eq_of_perm hpair (o'.values_perm (.stored _) p)]

end Hides

end CodeQuery.Data
