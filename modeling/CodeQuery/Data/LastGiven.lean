/-
  CodeQuery.Data.LastGiven — partial records merged one after the other.

  A record gives a field or leaves it; of several the last that gives it counts. The
  order of the records does not matter where those that give the field give the same
  (`lastGiven_perm`).
-/

import Mathlib.Data.List.Induction

namespace CodeQuery.Data

section LastGiven

variable {ο α : Type*} (field : ο → Option α)

/-- The field of the last record that gives it. -/
def lastGiven (os : List ο) : Option α := (os.filterMap field).getLast?

/-- All records that give the field give the same. -/
def Agree (os : List ο) : Prop := ∀ o ∈ os, ∀ o' ∈ os, ∀ x x', field o = some x → field o' = some x' → x = x'

variable {field}

@[simp] theorem lastGiven_nil : lastGiven field [] = none := rfl

theorem lastGiven_append (os os' : List ο) :
    lastGiven field (os ++ os') = (lastGiven field os').or (lastGiven field os) := by
  rw [lastGiven, List.filterMap_append, List.getLast?_append]
  rfl

theorem lastGiven_singleton (o : ο) : lastGiven field [o] = field o := by
  cases h : field o <;> simp [lastGiven, h]

theorem lastGiven_eq_none_iff {os : List ο} : lastGiven field os = none ↔ ∀ o ∈ os, field o = none := by
  simp [lastGiven]

theorem mem_of_lastGiven {os : List ο} {x : α} (h : lastGiven field os = some x) : ∃ o ∈ os, field o = some x :=
  List.mem_filterMap.mp (List.mem_of_getLast? h)

/-- The record that counts, with those behind it that leave the field. -/
theorem lastGiven_eq_some_iff {os : List ο} {x : α} :
    lastGiven field os = some x ↔
      ∃ before o behind, os = before ++ o :: behind ∧ field o = some x ∧ ∀ o' ∈ behind, field o' = none := by
  constructor
  · intro h
    induction os using List.reverseRecOn with
    | nil => cases h
    | append_singleton os o ih =>
      rw [lastGiven_append, lastGiven_singleton] at h
      cases ho : field o with
      | some y =>
        rw [ho] at h
        exact ⟨os, o, [], rfl, ho.trans h, fun _ hmem => absurd hmem List.not_mem_nil⟩
      | none =>
        rw [ho, Option.none_or] at h
        obtain ⟨before, o', behind, rfl, ho', hbehind⟩ := ih h
        refine ⟨before, o', behind ++ [o], by rw [List.append_assoc, List.cons_append], ho', fun p hp => ?_⟩
        rcases List.mem_append.mp hp with hp | hp
        · exact hbehind p hp
        · rw [List.mem_singleton.mp hp, ho]
  · intro h
    obtain ⟨before, o, behind, rfl, ho, hbehind⟩ := h
    have hnone : lastGiven field behind = none := lastGiven_eq_none_iff.mpr hbehind
    rw [List.append_cons, lastGiven_append, hnone, Option.none_or, lastGiven_append, lastGiven_singleton, ho,
      Option.some_or]

/-- The last of records that agree is any that gives the field. -/
theorem Agree.lastGiven_eq {os : List ο} (h : Agree field os) {o : ο} {x : α} (ho : o ∈ os) (hx : field o = some x) :
    lastGiven field os = some x := by
  cases hlast : lastGiven field os with
  | none =>
    rw [lastGiven_eq_none_iff.mp hlast o ho] at hx
    cases hx
  | some y =>
    obtain ⟨o', ho', hy⟩ := mem_of_lastGiven hlast
    rw [h o' ho' o ho y x hy hx]

theorem Agree.perm {os os' : List ο} (h : Agree field os) (hperm : os'.Perm os) : Agree field os' :=
  fun o ho o' ho' => h o (hperm.subset ho) o' (hperm.subset ho')

theorem lastGiven_perm {os os' : List ο} (h : Agree field os) (hperm : os'.Perm os) :
    lastGiven field os' = lastGiven field os := by
  cases hlast : lastGiven field os with
  | none =>
    rw [lastGiven_eq_none_iff] at hlast ⊢
    intro o ho
    exact hlast o (hperm.subset ho)
  | some x =>
    obtain ⟨o, ho, hx⟩ := mem_of_lastGiven hlast
    exact (h.perm hperm).lastGiven_eq (hperm.symm.subset ho) hx

/-- Any record may come last. -/
theorem exists_perm_concat {os : List ο} {o : ο} (h : o ∈ os) : ∃ rest, (rest ++ [o]).Perm os := by
  obtain ⟨before, behind, rfl⟩ := List.append_of_mem h
  refine ⟨before ++ behind, ?_⟩
  rw [List.append_assoc]
  exact (List.perm_append_singleton o behind).append_left before

end LastGiven

end CodeQuery.Data
