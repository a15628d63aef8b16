/-
  CodeQuery.Data.Groups — values pushed under keys, and secondary indices made of them.

  A hash map of vectors filled by `entry(key).or_default().push(value)` is an
  association list with distinct keys, whose order says nothing. `groupBy` fills one
  from a list: under each key stand the values of that key, in the list's order
  (`get_groupBy`). A `Postings` holds positions in a vector under a key of its
  elements; it cannot be built with a position that is missing or out of range, so
  looking a key up is filtering the vector (`lookup_eq`).
-/

import Mathlib.Data.List.AList

namespace CodeQuery.Data

variable {κ α : Type} [DecidableEq κ]

abbrev Groups (κ α : Type) := AList fun _ : κ => List α

namespace Groups

def get (g : Groups κ α) (k : κ) : List α := (g.lookup k).getD []

/-- `entry(k).or_default().push(a)`. -/
def push (g : Groups κ α) (k : κ) (a : α) : Groups κ α := g.insert k (g.get k ++ [a])

theorem get_push (g : Groups κ α) (k k' : κ) (a : α) :
    (g.push k a).get k' = if k = k' then g.get k' ++ [a] else g.get k' := by
  by_cases h : k = k'
  · subst h
    simp [get, push]
  · simp only [get, push, AList.lookup_insert_ne (Ne.symm h), h, if_false]

theorem mem_push {g : Groups κ α} {k k' : κ} {a : α} : k' ∈ g.push k a ↔ k' = k ∨ k' ∈ g := by
  simp [push]

def groupBy (key : α → κ) (l : List α) : Groups κ α := l.foldl (fun g a => g.push (key a) a) ∅

theorem get_foldl_push (key : α → κ) (k : κ) (l : List α) (g : Groups κ α) :
    (l.foldl (fun g a => g.push (key a) a) g).get k = g.get k ++ l.filter (key · = k) := by
  induction l generalizing g with
  | nil => simp
  | cons a l ih =>
    rw [List.foldl_cons, ih, get_push]
    by_cases h : key a = k <;> simp [h]

/-- Under each key stand the values of that key, in order. -/
theorem get_groupBy (key : α → κ) (l : List α) (k : κ) : (groupBy key l).get k = l.filter (key · = k) := by
  rw [groupBy, get_foldl_push]
  simp [get]

theorem mem_foldl_push (key : α → κ) (k : κ) (l : List α) (g : Groups κ α) :
    k ∈ l.foldl (fun g a => g.push (key a) a) g ↔ k ∈ g ∨ ∃ a ∈ l, key a = k := by
  induction l generalizing g with
  | nil => simp
  | cons a l ih =>
    rw [List.foldl_cons, ih, mem_push]
    constructor
    · intro hall
      rcases hall with (h | h) | ⟨b, hb, h⟩
      · exact Or.inr ⟨a, List.mem_cons_self .., h.symm⟩
      · exact Or.inl h
      · exact Or.inr ⟨b, List.mem_cons_of_mem _ hb, h⟩
    · intro hall
      rcases hall with h | ⟨b, hb, h⟩
      · exact Or.inl (Or.inr h)
      · rcases List.mem_cons.mp hb with rfl | hb
        · exact Or.inl (Or.inl h.symm)
        · exact Or.inr ⟨b, hb, h⟩

theorem mem_groupBy {key : α → κ} {l : List α} {k : κ} : k ∈ groupBy key l ↔ ∃ a ∈ l, key a = k := by
  rw [groupBy, mem_foldl_push]
  simp

/-- An entry of the grouping: a key of the list, with all its values. -/
theorem mem_entries_groupBy {key : α → κ} {l : List α} {e : Sigma fun _ : κ => List α} :
    e ∈ (groupBy key l).entries ↔ (∃ a ∈ l, key a = e.1) ∧ e.2 = l.filter (key · = e.1) := by
  obtain ⟨k, as⟩ := e
  rw [← get_groupBy, ← mem_groupBy]
  constructor
  · intro h
    have hl : (groupBy key l).lookup k = some as := AList.mem_lookup_iff.mpr h
    exact ⟨AList.lookup_isSome.mp (by simp [hl]), by simp [get, hl]⟩
  · intro h
    obtain ⟨hk, he⟩ := h
    obtain ⟨bs, hbs⟩ := Option.isSome_iff_exists.mp (AList.lookup_isSome.mpr hk)
    have : as = bs := by simpa [get, hbs] using he
    subst this
    exact AList.mem_lookup_iff.mp hbs

end Groups

/-! ## Secondary indices -/

/-- The positions of the elements of `l`, under their keys. -/
structure Postings (key : α → κ) (l : List α) where
  positions : Groups κ Nat
  get_positions : ∀ k, positions.get k = l.findIdxs (key · = k)

namespace Postings

variable {key : α → κ} {l : List α}

def empty (key : α → κ) : Postings key [] := ⟨∅, fun _ => rfl⟩

/-- An element pushed on the vector, and its position under its key. -/
def push (p : Postings key l) (a : α) : Postings key (l ++ [a]) where
  positions := p.positions.push (key a) l.length
  get_positions k := by
    rw [Groups.get_push, p.get_positions, List.findIdxs_append]
    by_cases h : key a = k <;> simp [h]

theorem lt_of_mem (p : Postings key l) {k : κ} {i : Nat} (h : i ∈ p.positions.get k) : i < l.length := by
  rw [p.get_positions] at h
  simpa using List.lt_add_of_mem_findIdxs i h

def lookup (p : Postings key l) (k : κ) : List α :=
  (p.positions.get k).attach.map fun i => l.get ⟨i.1, p.lt_of_mem i.2⟩

theorem filterMap_findIdxs (q : α → Bool) (l : List α) (s : Nat) :
    (l.findIdxs q s).filterMap (fun i => l[i - s]?) = l.filter q := by
  induction l generalizing s with
  | nil => rfl
  | cons a l ih =>
    have hshift : (l.findIdxs q (s + 1)).filterMap (fun i => (a :: l)[i - s]?) =
        (l.findIdxs q (s + 1)).filterMap (fun i => l[i - (s + 1)]?) := by
      refine List.filterMap_congr fun i hi => ?_
      have hle : s + 1 ≤ i := List.ge_of_mem_findIdxs i hi
      rw [show i - s = (i - (s + 1)) + 1 by omega, List.getElem?_cons_succ]
    rw [List.findIdxs_cons]
    by_cases h : q a = true
    · rw [if_pos h, List.filterMap_cons, Nat.sub_self, List.getElem?_cons_zero, hshift, ih, List.filter_cons_of_pos h]
    · rw [if_neg h, hshift, ih, List.filter_cons_of_neg h]

/-- Looking a key up is filtering the vector. -/
theorem lookup_eq (p : Postings key l) (k : κ) : p.lookup k = l.filter (key · = k) := by
  have h : p.lookup k = (p.positions.get k).filterMap (l[·]?) := by
    conv => rhs; rw [← List.attach_map_subtype_val (p.positions.get k), List.filterMap_map]
    rw [lookup, ← List.filterMap_eq_map]
    refine List.filterMap_congr fun i _ => ?_
    simp [p.lt_of_mem i.2]
  rw [h, p.get_positions]
  simpa using filterMap_findIdxs (key · = k) l 0

end Postings

end CodeQuery.Data
