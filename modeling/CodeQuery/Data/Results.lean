/-
  CodeQuery.Data.Results — steps that fail, and steps over a state that fail.

  A sequence of steps succeeds iff its first step does and the rest does on what it gave.
-/

import Mathlib.Logic.Basic

namespace CodeQuery.Data

variable {σ ε α β : Type}

theorem except_bind_eq_ok {x : Except ε α} {f : α → Except ε β} {b : β} :
    (x >>= f) = .ok b ↔ ∃ a, x = .ok a ∧ f a = .ok b := by
  cases x with
  | error e => exact ⟨nofun, fun ⟨_, h, _⟩ => absurd h nofun⟩
  | ok a =>
    constructor
    · exact fun h => ⟨a, rfl, h⟩
    · rintro ⟨a', h, hf⟩
      obtain rfl := Except.ok.inj h
      exact hf

theorem except_bind_eq_error {x : Except ε α} {f : α → Except ε β} {e : ε} (h : (x >>= f) = .error e) :
    x = .error e ∨ ∃ a, x = .ok a ∧ f a = .error e := by
  cases x with
  | error e' => exact .inl (congrArg Except.error (Except.error.inj h))
  | ok a => exact .inr ⟨a, rfl, h⟩

theorem except_bind_ok {x : Except ε α} {f : α → Except ε β} {a : α} (h : x = .ok a) : (x >>= f) = f a := by rw [h]; rfl

theorem except_map_eq_ok {x : Except ε α} {f : α → β} {b : β} : x.map f = .ok b ↔ ∃ a, x = .ok a ∧ f a = b := by
  cases x with
  | error e => exact ⟨nofun, fun ⟨_, h, _⟩ => absurd h nofun⟩
  | ok a =>
    constructor
    · exact fun h => ⟨a, rfl, Except.ok.inj h⟩
    · rintro ⟨a', h, hf⟩
      obtain rfl := Except.ok.inj h
      exact congrArg _ hf

variable {x : StateT σ (Except ε) α} {f : α → StateT σ (Except ε) β} {s s₁ : σ} {a : α}

theorem bind_of_ok (h : x s = .ok (a, s₁)) : (x >>= f) s = f a s₁ := by
  show (x s >>= fun r => f r.1 r.2) = f a s₁
  rw [h]
  rfl

theorem bind_of_error {e : ε} (h : x s = .error e) : (x >>= f) s = .error e := by
  show (x s >>= fun r => f r.1 r.2) = .error e
  rw [h]
  rfl

theorem bind_eq_ok {r : β × σ} : (x >>= f) s = .ok r ↔ ∃ a s₁, x s = .ok (a, s₁) ∧ f a s₁ = .ok r := by
  show (x s >>= fun r => f r.1 r.2) = .ok r ↔ _
  rw [except_bind_eq_ok]
  exact ⟨fun ⟨r', h, hf⟩ => ⟨r'.1, r'.2, h, hf⟩, fun ⟨a, s₁, h, hf⟩ => ⟨(a, s₁), h, hf⟩⟩

@[simp] theorem pure_apply (a : α) (s : σ) : (pure a : StateT σ (Except ε) α) s = .ok (a, s) := rfl

@[simp] theorem throw_apply (e : ε) (s : σ) : (throw e : StateT σ (Except ε) α) s = .error e := rfl

@[simp] theorem get_apply (s : σ) : (get : StateT σ (Except ε) σ) s = .ok (s, s) := rfl

@[simp] theorem liftM_ok (a : α) (s : σ) : (liftM (Except.ok a : Except ε α) : StateT σ (Except ε) α) s = .ok (a, s) := rfl

@[simp] theorem liftM_error (e : ε) (s : σ) : (liftM (Except.error e : Except ε α) : StateT σ (Except ε) α) s = .error e := rfl

theorem liftM_eq_ok {y : Except ε α} : (liftM y : StateT σ (Except ε) α) s = .ok (a, s₁) ↔ y = .ok a ∧ s₁ = s := by
  cases y with
  | error e => exact ⟨nofun, fun h => absurd h.1 nofun⟩
  | ok b =>
    rw [liftM_ok, Except.ok.injEq, Except.ok.injEq, Prod.mk.injEq]
    exact ⟨fun ⟨h, h'⟩ => ⟨h, h'.symm⟩, fun ⟨h, h'⟩ => ⟨h, h'.symm⟩⟩

/-- A step on each element succeeds iff it does on the first and then on the rest. -/
theorem mapM_cons_eq_ok {γ : Type} {f : γ → Except ε β} {c : γ} {l : List γ} {bs : List β} :
    (c :: l).mapM f = .ok bs ↔ ∃ b bs', f c = .ok b ∧ l.mapM f = .ok bs' ∧ bs = b :: bs' := by
  rw [List.mapM_cons, except_bind_eq_ok]
  constructor
  · rintro ⟨b, hb, h⟩
    obtain ⟨bs', hbs', h⟩ := except_bind_eq_ok.mp h
    exact ⟨b, bs', hb, hbs', (Except.ok.inj h).symm⟩
  · rintro ⟨b, bs', hb, hbs', rfl⟩
    exact ⟨b, hb, except_bind_eq_ok.mpr ⟨bs', hbs', rfl⟩⟩

/-! ## What steps keep -/

/-- A step keeps a property of the state, when it succeeds. -/
def Keeps (P : σ → Prop) (x : StateT σ (Except ε) α) : Prop := ∀ s a s', P s → x s = .ok (a, s') → P s'

variable {P : σ → Prop}

theorem keeps_pure (a : α) : Keeps P (pure a : StateT σ (Except ε) α) := by
  intro s b s' hs h
  simp only [pure_apply, Except.ok.injEq, Prod.mk.injEq] at h
  exact h.2 ▸ hs

theorem keeps_throw (e : ε) : Keeps P (throw e : StateT σ (Except ε) α) := fun _ _ _ _ h => absurd h nofun

theorem keeps_get : Keeps P (get : StateT σ (Except ε) σ) := by
  intro s b s' hs h
  simp only [get_apply, Except.ok.injEq, Prod.mk.injEq] at h
  exact h.2 ▸ hs

theorem keeps_liftM (y : Except ε α) : Keeps P (liftM y : StateT σ (Except ε) α) := by
  intro s b s' hs h
  exact (liftM_eq_ok.mp h).2 ▸ hs

theorem keeps_bind (hx : Keeps P x) (hf : ∀ a, Keeps P (f a)) : Keeps P (x >>= f) := by
  intro s b s' hs h
  obtain ⟨a, s₁, ha, hb⟩ := bind_eq_ok.mp h
  exact hf a s₁ b s' (hx s a s₁ hs ha) hb

theorem keeps_mapM {γ : Type} {f : γ → StateT σ (Except ε) β} (hf : ∀ c, Keeps P (f c)) (l : List γ) : Keeps P (l.mapM f) := by
  induction l with
  | nil => exact keeps_pure []
  | cons c l ih =>
    rw [List.mapM_cons]
    exact keeps_bind (hf c) fun b => keeps_bind ih fun bs => keeps_pure _

end CodeQuery.Data
