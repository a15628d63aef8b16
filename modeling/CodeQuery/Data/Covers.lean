/-
  CodeQuery.Data.Covers — lists told apart by the sizes of their elements.

  `Covers` compares what is written with what is meant, piece by piece: the one is never
  smaller in total, it is as small only under a condition, and under the condition the two
  are equal. Pieces add up (`append`, `flatMap`), and for the whole it comes to the same
  whether the two lists are permutations or the condition holds of every piece
  (`perm_iff`): pieces that fail cannot make up for each other.
-/

import Mathlib.Algebra.BigOperators.Group.List.Basic
import Mathlib.Algebra.GroupWithZero.Nat
import Mathlib.Algebra.Order.BigOperators.Group.List

namespace CodeQuery.Data

variable {α ι : Type} {size : α → ℕ}

variable (size) in
def total (l : List α) : ℕ := (l.map size).sum

theorem total_append (l l' : List α) : total size (l ++ l') = total size l + total size l' := by
  simp [total]

variable (size) in
/-- The first list covers the second, and is it under the condition. -/
structure Covers (l l' : List α) (ok : Prop) : Prop where
  le : total size l' ≤ total size l
  ok_of_total : total size l' = total size l → ok
  eq_of_ok : ok → l = l'

namespace Covers

theorem nil : Covers size [] [] True := ⟨le_rfl, fun _ => trivial, fun _ => rfl⟩

/-- One that is larger and never equal. -/
theorem never {l l' : List α} (h : total size l' < total size l) : Covers size l l' False :=
  ⟨h.le, fun heq => absurd heq h.ne, False.elim⟩

theorem congr {l l' : List α} {ok ok' : Prop} (h : Covers size l l' ok) (hok : ok ↔ ok') : Covers size l l' ok' :=
  propext hok ▸ h

theorem append {l l' m m' : List α} {ok ok' : Prop} (h : Covers size l l' ok) (h' : Covers size m m' ok') :
    Covers size (l ++ m) (l' ++ m') (ok ∧ ok') where
  le := by
    rw [total_append, total_append]
    exact Nat.add_le_add h.le h'.le
  ok_of_total heq := by
    rw [total_append, total_append] at heq
    have hle := h.le
    have hle' := h'.le
    exact ⟨h.ok_of_total (by omega), h'.ok_of_total (by omega)⟩
  eq_of_ok hboth := by rw [h.eq_of_ok hboth.1, h'.eq_of_ok hboth.2]

theorem flatMap {items : List ι} {f g : ι → List α} {ok : ι → Prop}
    (h : ∀ a ∈ items, Covers size (f a) (g a) (ok a)) :
    Covers size (items.flatMap f) (items.flatMap g) (∀ a ∈ items, ok a) := by
  induction items with
  | nil => exact nil.congr (by simp)
  | cons a items ih =>
    have hrest := ih fun b hb => h b (List.mem_cons_of_mem _ hb)
    rw [List.flatMap_cons, List.flatMap_cons]
    exact ((h a List.mem_cons_self).append hrest).congr (by simp)

theorem perm_iff {l l' : List α} {ok : Prop} (h : Covers size l l' ok) : l.Perm l' ↔ ok := by
  constructor
  · intro hperm
    exact h.ok_of_total (hperm.map size).sum_eq.symm
  · intro hok
    rw [h.eq_of_ok hok]

end Covers

/-! ## Lists item by item -/

theorem flatMap_filter_eq_ite {p : ι → Bool} {f : ι → List α} (items : List ι) :
    (items.filter p).flatMap f = items.flatMap fun a => if p a then f a else [] := by
  induction items with
  | nil => rfl
  | cons a items ih =>
    rw [List.filter_cons, List.flatMap_cons, ← ih]
    split <;> rfl

theorem map_some_filterMap {f : ι → Option α} {items : List ι} (h : ∀ a ∈ items, (f a).isSome = true) :
    (items.filterMap f).map some = items.flatMap fun a => [f a] := by
  induction items with
  | nil => rfl
  | cons a items ih =>
    obtain ⟨b, hb⟩ := Option.isSome_iff_exists.mp (h a List.mem_cons_self)
    rw [List.filterMap_cons_some hb, List.map_cons, List.flatMap_cons, hb,
      ih fun c hc => h c (List.mem_cons_of_mem _ hc)]
    rfl

end CodeQuery.Data
