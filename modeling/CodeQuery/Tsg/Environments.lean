/-
  CodeQuery.Tsg.Environments — nested environments that agree.

  Two executions of the same rules hold different things in the same variables: values, lazy
  values, what the checker knows. Their environments agree when they define the same names
  at the same depth, with the same ones mutable, and with related contents (`Agree`).

  Proved: a variable is found in both or in neither, and what can be declared or assigned in
  one can be in the other, after which they agree again (`Agree.get`, `Agree.add_ok`,
  `Agree.set_ok`).
-/

import Mathlib.Data.List.Forall2
import CodeQuery.Data.Results
import CodeQuery.Tsg.Ast

namespace CodeQuery.Tsg

open Data

namespace Scopes

variable {A B C : Type} {R : A → B → Prop}

/-- The same variable in two environments. -/
inductive SameVariable (R : A → B → Prop) : Option (A × Bool) → Option (B × Bool) → Prop
  | none : SameVariable R none none
  | some {a : A} {b : B} (isMutable : Bool) (h : R a b) : SameVariable R (some (a, isMutable)) (some (b, isMutable))

def Agree (R : A → B → Prop) : Scopes A → Scopes B → Prop :=
  List.Forall₂ fun m m' => ∀ name, SameVariable R (m name) (m' name)

variable {s : Scopes A} {t : Scopes B}

theorem agree_new : Agree R new new := .cons (fun _ => .none) .nil

theorem agree_nested (h : Agree R s t) : Agree R s.nested t.nested := .cons (fun _ => .none) h

theorem Agree.tail (h : Agree R s t) : Agree R s.tail t.tail := by
  cases h with
  | nil => exact .nil
  | cons _ h => exact h

theorem Agree.mono {R' : A → B → Prop} (h : Agree R s t) (hR : ∀ a b, R a b → R' a b) : Agree R' s t := by
  refine List.Forall₂.imp (fun m m' hm name => ?_) h
  have hname := hm name
  generalize m name = o at hname ⊢
  generalize m' name = o' at hname ⊢
  cases hname with
  | none => exact .none
  | some isMutable hab => exact .some isMutable (hR _ _ hab)

/-- Environments that agree with the same environments agree. -/
theorem Agree.comp {R' : B → C → Prop} {R'' : A → C → Prop} {u : Scopes C} (h : Agree R s t) (h' : Agree R' t u)
    (hR : ∀ a b c, R a b → R' b c → R'' a c) : Agree R'' s u := by
  induction h generalizing u with
  | nil =>
    cases h'
    exact .nil
  | @cons m m' s t hm _ ih =>
    cases h' with
    | @cons _ m'' _ u hm' ht =>
      refine .cons (fun name => ?_) (ih ht)
      have h₁ := hm name
      have h₂ := hm' name
      generalize m name = o at h₁ ⊢
      generalize m' name = o' at h₁ h₂
      generalize m'' name = o'' at h₂ ⊢
      cases h₁ with
      | none =>
        cases h₂
        exact .none
      | some isMutable hab =>
        cases h₂ with
        | some _ hbc => exact .some isMutable (hR _ _ _ hab hbc)

theorem Agree.symm (h : Agree R s t) : Agree (fun b a => R a b) t s := by
  refine List.Forall₂.flip (List.Forall₂.imp (fun m m' hm name => ?_) h)
  have hname := hm name
  generalize m name = o at hname ⊢
  generalize m' name = o' at hname ⊢
  cases hname with
  | none => exact .none
  | some isMutable hab => exact .some isMutable hab

/-- A variable is found in both, with related contents, or in neither. -/
theorem Agree.get (h : Agree R s t) (name : Identifier) :
    (s.get name = none ∧ t.get name = none) ∨ ∃ a b, s.get name = some a ∧ t.get name = some b ∧ R a b := by
  induction h with
  | nil => exact .inl ⟨rfl, rfl⟩
  | @cons m m' s t hm _ ih =>
    have hname := hm name
    rw [Scopes.get, Scopes.get]
    generalize m name = o at hname ⊢
    generalize m' name = o' at hname ⊢
    cases hname with
    | none => exact ih
    | some isMutable hab => exact .inr ⟨_, _, rfl, rfl, hab⟩

theorem agree_update {m : VariableMap A} {m' : VariableMap B} (hm : ∀ name, SameVariable R (m name) (m' name))
    (name : Identifier) {a : A} {b : B} (isMutable : Bool) (hab : R a b) (other : Identifier) :
    SameVariable R (Function.update m name (some (a, isMutable)) other)
      (Function.update m' name (some (b, isMutable)) other) := by
  by_cases h : other = name
  · subst h
    rw [Function.update_self, Function.update_self]
    exact .some isMutable hab
  · rw [Function.update_of_ne h, Function.update_of_ne h]
    exact hm other

theorem Agree.add_ok (h : Agree R s t) {name : Identifier} {a : A} {b : B} {isMutable : Bool} (hab : R a b) {s' : Scopes A}
    (hs : s.add name a isMutable = .ok s') : ∃ t', t.add name b isMutable = .ok t' ∧ Agree R s' t' := by
  cases h with
  | nil => exact absurd hs nofun
  | @cons m m' s t hm hst =>
    have hname := hm name
    rw [Scopes.add] at hs ⊢
    cases hmn : m name with
    | some r => simp [hmn] at hs
    | none =>
      simp only [hmn, Except.ok.injEq] at hs
      subst hs
      rw [hmn] at hname
      cases hm'n : m' name with
      | some r =>
        rw [hm'n] at hname
        cases hname
      | none => exact ⟨_, rfl, .cons (agree_update hm name isMutable hab) hst⟩

theorem Agree.set_ok (h : Agree R s t) {name : Identifier} {a : A} {b : B} (hab : R a b) {s' : Scopes A}
    (hs : s.set name a = .ok s') : ∃ t', t.set name b = .ok t' ∧ Agree R s' t' := by
  induction h generalizing s' with
  | nil => exact absurd hs nofun
  | @cons m m' s t hm hst ih =>
    have hname := hm name
    rw [Scopes.set] at hs ⊢
    cases hmn : m name with
    | none =>
      rw [hmn] at hname
      cases hm'n : m' name with
      | some r =>
        rw [hm'n] at hname
        cases hname
      | none =>
        simp only [hmn] at hs
        cases hset : Scopes.set s name a with
        | error e => simp [hset] at hs
        | ok s₁ =>
          simp only [hset, Except.ok.injEq] at hs
          subst hs
          obtain ⟨t₁, ht₁, hagree⟩ := ih hset
          exact ⟨m' :: t₁, by simp only [ht₁], .cons hm hagree⟩
    | some r =>
      obtain ⟨a₀, isMutable⟩ := r
      rw [hmn] at hname
      cases hm'n : m' name with
      | none =>
        rw [hm'n] at hname
        cases hname
      | some r' =>
        rw [hm'n] at hname
        cases hname with
        | some _ _ =>
          cases isMutable with
          | false => simp [hmn] at hs
          | true =>
            simp only [hmn, Except.ok.injEq] at hs
            subst hs
            exact ⟨_, rfl, .cons (agree_update hm name true hab) hst⟩

end Scopes

namespace Config

variable {A B : Type} {R : A → B → Prop} {config : Config} {name : Identifier}

theorem addLocal_eq_ok {s s' : Scopes A} {a : A} {isMutable : Bool} :
    config.addLocal s name a isMutable = .ok s' ↔ config.globals name = none ∧ s.add name a isMutable = .ok s' := by
  unfold addLocal
  cases config.globals name with
  | some v => simp
  | none => cases s.add name a isMutable <;> simp

theorem setLocal_eq_ok {s s' : Scopes A} {a : A} :
    config.setLocal s name a = .ok s' ↔ config.globals name = none ∧ s.set name a = .ok s' := by
  unfold setLocal
  cases config.globals name with
  | some v => simp
  | none => cases s.set name a <;> simp

theorem addLocal_agree {s s' : Scopes A} {t : Scopes B} (h : s.Agree R t) {a : A} {b : B} {isMutable : Bool} (hab : R a b)
    (hs : config.addLocal s name a isMutable = .ok s') : ∃ t', config.addLocal t name b isMutable = .ok t' ∧ s'.Agree R t' := by
  obtain ⟨hg, hadd⟩ := addLocal_eq_ok.mp hs
  obtain ⟨t', ht', hagree⟩ := h.add_ok hab hadd
  exact ⟨t', addLocal_eq_ok.mpr ⟨hg, ht'⟩, hagree⟩

theorem setLocal_agree {s s' : Scopes A} {t : Scopes B} (h : s.Agree R t) {a : A} {b : B} (hab : R a b)
    (hs : config.setLocal s name a = .ok s') : ∃ t', config.setLocal t name b = .ok t' ∧ s'.Agree R t' := by
  obtain ⟨hg, hset⟩ := setLocal_eq_ok.mp hs
  obtain ⟨t', ht', hagree⟩ := h.set_ok hab hset
  exact ⟨t', setLocal_eq_ok.mpr ⟨hg, ht'⟩, hagree⟩

end Config

end CodeQuery.Tsg
