/-
  CodeQuery.Data.Worlds — what steps over a state lead to, in worlds that only grow.

  A world stands for what is known of a state beyond the state itself. A step leads to a
  condition when, if it succeeds, the condition holds of its result and its state in some
  world at or above the present one, and if it fails, its error is an allowed one (`Leads`).
  With no error allowed, it succeeds (`leads_total`). What holds in a world goes on to hold
  above it, so the rules put steps together one after another (`leads_bind`, `leads_each`).
-/

import Mathlib.Data.List.Forall2
import Mathlib.Order.Basic
import CodeQuery.Data.Results

namespace CodeQuery.Data

variable {W σ ε α β γ : Type} [Preorder W] {E : ε → Prop} {w : W} {s : σ}

def Leads (E : ε → Prop) (w : W) (s : σ) (x : StateT σ (Except ε) α) (Q : α → W → σ → Prop) : Prop :=
  (∀ a s', x s = .ok (a, s') → ∃ w', w ≤ w' ∧ Q a w' s') ∧ ∀ e, x s = .error e → E e

variable {x : StateT σ (Except ε) α} {f : α → StateT σ (Except ε) β} {P : α → W → σ → Prop} {Q : β → W → σ → Prop}

theorem leads_of_ok {a : α} {s' : σ} (h : x s = .ok (a, s')) {w' : W} (hw : w ≤ w') (hP : P a w' s') : Leads E w s x P := by
  constructor
  · intro b t ht
    rw [h] at ht
    obtain ⟨rfl, rfl⟩ := Prod.mk.inj (Except.ok.inj ht)
    exact ⟨w', hw, hP⟩
  · intro e he
    rw [h] at he
    exact absurd he nofun

theorem leads_of_error {e : ε} (h : x s = .error e) (he : E e) : Leads E w s x P := by
  constructor
  · intro b t ht
    rw [h] at ht
    exact absurd ht nofun
  · intro e' he'
    rw [h] at he'
    exact Except.error.inj he' ▸ he

theorem leads_pure {a : α} (h : P a w s) : Leads E w s (pure a) P := leads_of_ok rfl le_rfl h

theorem leads_throw {e : ε} (he : E e) : Leads E w s (throw e) P := leads_of_error rfl he

theorem leads_liftM {y : Except ε α} (hok : ∀ a, y = .ok a → P a w s) (herr : ∀ e, y = .error e → E e) :
    Leads E w s (liftM y) P := by
  cases hy : y with
  | error e => exact leads_of_error rfl (herr e hy)
  | ok a => exact leads_of_ok rfl le_rfl (hok a hy)

/-- A step that leaves the state alone, and then another. -/
theorem leads_bind_liftM {y : Except ε α} (hok : ∀ a, y = .ok a → Leads E w s (f a) Q) (herr : ∀ e, y = .error e → E e) :
    Leads E w s (liftM y >>= f) Q := by
  cases hy : y with
  | error e => exact leads_of_error (bind_of_error rfl) (herr e hy)
  | ok a =>
    have h : (liftM (Except.ok a : Except ε α) >>= f : StateT σ (Except ε) β) s = f a s := bind_of_ok rfl
    unfold Leads
    rw [h]
    exact hok a hy

theorem leads_get {P : σ → W → σ → Prop} (h : P s w s) : Leads E w s get P := leads_of_ok rfl le_rfl h

theorem leads_bind (hx : Leads E w s x P) (hf : ∀ a w' s', w ≤ w' → P a w' s' → Leads E w' s' (f a) Q) :
    Leads E w s (x >>= f) Q := by
  constructor
  · intro b t ht
    obtain ⟨a, s₁, ha, hb⟩ := bind_eq_ok.mp ht
    obtain ⟨w₁, hw₁, hP⟩ := hx.1 a s₁ ha
    obtain ⟨w₂, hw₂, hQ⟩ := (hf a w₁ s₁ hw₁ hP).1 b t hb
    exact ⟨w₂, hw₁.trans hw₂, hQ⟩
  · intro e he
    cases hxs : x s with
    | error e' =>
      rw [bind_of_error hxs] at he
      exact Except.error.inj he ▸ hx.2 e' hxs
    | ok r =>
      rw [bind_of_ok hxs] at he
      obtain ⟨w₁, hw₁, hP⟩ := hx.1 r.1 r.2 hxs
      exact (hf r.1 w₁ r.2 hw₁ hP).2 e he

theorem leads_conseq {P' : α → W → σ → Prop} (hx : Leads E w s x P) (h : ∀ a w' s', w ≤ w' → P a w' s' → P' a w' s') :
    Leads E w s x P' := by
  refine ⟨fun a s' ha => ?_, hx.2⟩
  obtain ⟨w', hw, hP⟩ := hx.1 a s' ha
  exact ⟨w', hw, h a w' s' hw hP⟩

theorem leads_weaken {E' : ε → Prop} (hx : Leads E w s x P) (h : ∀ e, E e → E' e) : Leads E' w s x P :=
  ⟨hx.1, fun e he => h e (hx.2 e he)⟩

/-- With no error allowed, a step succeeds. -/
theorem leads_total {x : StateT σ (Except ε) α} (hx : Leads (fun _ => False) w s x P) :
    ∃ a s' w', x s = .ok (a, s') ∧ w ≤ w' ∧ P a w' s' := by
  cases hxs : x s with
  | error e => exact (hx.2 e hxs).elim
  | ok r =>
    obtain ⟨w', hw, hP⟩ := hx.1 r.1 r.2 hxs
    exact ⟨r.1, r.2, w', rfl, hw, hP⟩

/-- The same step for each item, in states that keep an invariant: the results are right one by one. -/
theorem leads_each {f : α → StateT σ (Except ε) β} {I : W → σ → Prop} {R : α → β → W → Prop} {items : List α}
    (hmono : ∀ a b w w', w ≤ w' → R a b w → R a b w')
    (hstep : ∀ a ∈ items, ∀ w' s', w ≤ w' → I w' s' → Leads E w' s' (f a) fun b w'' s'' => I w'' s'' ∧ R a b w'') (hI : I w s) :
    Leads E w s (items.mapM f) fun bs w' s' => I w' s' ∧ List.Forall₂ (fun a b => R a b w') items bs := by
  induction items generalizing w s with
  | nil => exact leads_pure ⟨hI, .nil⟩
  | cons a items ih =>
    rw [List.mapM_cons]
    refine leads_bind (hstep a List.mem_cons_self w s le_rfl hI) fun b w₁ s₁ hw₁ hb => ?_
    have hrest : ∀ a' ∈ items, ∀ w' s', w₁ ≤ w' → I w' s' → Leads E w' s' (f a') fun b w'' s'' => I w'' s'' ∧ R a' b w'' :=
      fun a' ha' w' s' hw' => hstep a' (List.mem_cons_of_mem _ ha') w' s' (hw₁.trans hw')
    refine leads_bind (ih hrest hb.1) fun bs w₂ s₂ hw₂ hbs => ?_
    exact leads_pure ⟨hbs.1, .cons (hmono a b w₁ w₂ hw₂ hb.2) hbs.2⟩

end CodeQuery.Data
