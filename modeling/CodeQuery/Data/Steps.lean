/-
  CodeQuery.Data.Steps — steps on a state that may fail, one after another.

  A step swaps with a later one when they can be taken the other way round, with the same
  result, whenever they succeed in order (`Swaps`). So a step that swaps with each step of a
  run can be taken before the run (`steps_swap`), a run with a run (`swaps_steps`), and a run
  whose steps all swap with each other can be taken in any order (`steps_perm`).
-/

import Mathlib.Data.List.Perm.Basic

namespace CodeQuery.Data

variable {σ ε : Type}

/-- Take steps one after another. -/
def steps : List (σ → Except ε σ) → σ → Except ε σ
  | [], s => .ok s
  | f :: fs, s =>
    match f s with
    | .error e => .error e
    | .ok s' => steps fs s'

/-- What `f` and then `g` reach, `g` and then `f` reach. -/
def Swaps (f g : σ → Except ε σ) : Prop :=
  ∀ s s₁ s₂, f s = .ok s₁ → g s₁ = .ok s₂ → ∃ s₁', g s = .ok s₁' ∧ f s₁' = .ok s₂

variable {f g : σ → Except ε σ} {fs gs : List (σ → Except ε σ)} {s s' : σ}

theorem steps_cons_eq_ok : steps (f :: fs) s = .ok s' ↔ ∃ s₁, f s = .ok s₁ ∧ steps fs s₁ = .ok s' := by
  rw [steps]
  cases f s with
  | error e => exact ⟨nofun, fun ⟨_, h, _⟩ => absurd h nofun⟩
  | ok s₁ =>
    constructor
    · exact fun h => ⟨s₁, rfl, h⟩
    · rintro ⟨s₁', h, hfs⟩
      exact Except.ok.inj h ▸ hfs

theorem steps_append_eq_ok : steps (fs ++ gs) s = .ok s' ↔ ∃ s₁, steps fs s = .ok s₁ ∧ steps gs s₁ = .ok s' := by
  induction fs generalizing s with
  | nil =>
    constructor
    · exact fun h => ⟨s, rfl, h⟩
    · rintro ⟨s₁, h, hgs⟩
      exact Except.ok.inj h ▸ hgs
  | cons f fs ih =>
    rw [List.cons_append, steps_cons_eq_ok]
    simp only [ih, steps_cons_eq_ok]
    constructor
    · rintro ⟨s₁, hf, s₂, hfs, hgs⟩
      exact ⟨s₂, ⟨s₁, hf, hfs⟩, hgs⟩
    · rintro ⟨s₂, ⟨s₁, hf, hfs⟩, hgs⟩
      exact ⟨s₁, hf, s₂, hfs, hgs⟩

theorem steps_singleton : steps [f] s = f s := by
  rw [steps]
  cases f s <;> rfl

/-- Runs are taken as the steps that they are made of. -/
theorem steps_flatten {runs : List (List (σ → Except ε σ))} :
    steps (runs.map steps) s = .ok s' ↔ steps runs.flatten s = .ok s' := by
  induction runs generalizing s with
  | nil => rfl
  | cons run runs ih =>
    rw [List.map_cons, steps_cons_eq_ok, List.flatten_cons, steps_append_eq_ok]
    exact exists_congr fun _ => and_congr_right fun _ => ih

/-- Steps that change nothing. -/
theorem steps_of_nothing (h : ∀ f ∈ fs, ∀ s, f s = .ok s) : steps fs s = .ok s := by
  induction fs with
  | nil => rfl
  | cons f fs ih =>
    exact steps_cons_eq_ok.mpr ⟨s, h f List.mem_cons_self s, ih fun g hg => h g (List.mem_cons_of_mem _ hg)⟩

/-- A step that swaps with two swaps with the one after the other. -/
theorem swaps_bind {h : σ → Except ε σ} (hg : Swaps f g) (hh : Swaps f h) : Swaps f (fun s => (g s).bind h) := by
  intro s s₁ s₂ hf (hgh : (g s₁).bind h = .ok s₂)
  cases hg₁ : g s₁ with
  | error e => rw [hg₁] at hgh; exact absurd hgh nofun
  | ok t =>
    rw [hg₁] at hgh
    obtain ⟨t', hgs, hft⟩ := hg s s₁ t hf hg₁
    obtain ⟨t'', hht, hft'⟩ := hh t' t s₂ hft hgh
    exact ⟨t'', (congrArg (Except.bind · h) hgs).trans hht, hft'⟩

/-- A step at the end of a run can be taken first. -/
theorem steps_swap (h : ∀ f ∈ fs, Swaps f g) {s₁ : σ} (hfs : steps fs s = .ok s₁) (hg : g s₁ = .ok s') :
    ∃ s₁', g s = .ok s₁' ∧ steps fs s₁' = .ok s' := by
  induction fs generalizing s with
  | nil =>
    obtain rfl := Except.ok.inj hfs
    exact ⟨s', hg, rfl⟩
  | cons f fs ih =>
    obtain ⟨s₂, hf, hrest⟩ := steps_cons_eq_ok.mp hfs
    obtain ⟨s₂', hg', hrest'⟩ := ih (fun f' hf' => h f' (List.mem_cons_of_mem _ hf')) hrest
    obtain ⟨s₃, hgs, hfs₃⟩ := h f List.mem_cons_self s s₂ s₂' hf hg'
    exact ⟨s₃, hgs, steps_cons_eq_ok.mpr ⟨s₂', hfs₃, hrest'⟩⟩

/-- Runs swap whose steps swap. -/
theorem swaps_steps (h : ∀ f ∈ fs, ∀ g ∈ gs, Swaps f g) : Swaps (steps fs) (steps gs) := by
  intro s s₁ s₂ hfs hgs
  induction gs generalizing s s₁ with
  | nil =>
    obtain rfl := Except.ok.inj hgs
    exact ⟨s, rfl, hfs⟩
  | cons g gs ih =>
    obtain ⟨t, hg, hrest⟩ := steps_cons_eq_ok.mp hgs
    obtain ⟨t', hg', hfs'⟩ := steps_swap (fun f hf => h f hf g List.mem_cons_self) hfs hg
    obtain ⟨t'', hgs', hfs''⟩ := ih (fun f hf g' hg' => h f hf g' (List.mem_cons_of_mem _ hg')) t' t hfs' hrest
    exact ⟨t'', steps_cons_eq_ok.mpr ⟨t', hg', hgs'⟩, hfs''⟩

/-- Steps that swap with each other reach the same in any order. -/
theorem steps_perm (hperm : fs.Perm gs) (h : ∀ f ∈ fs, ∀ g ∈ fs, Swaps f g) (hfs : steps fs s = .ok s') :
    steps gs s = .ok s' := by
  induction hperm generalizing s with
  | nil => exact hfs
  | cons f _ ih =>
    obtain ⟨s₁, hf, hrest⟩ := steps_cons_eq_ok.mp hfs
    exact steps_cons_eq_ok.mpr
      ⟨s₁, hf, ih (fun a ha b hb => h a (List.mem_cons_of_mem _ ha) b (List.mem_cons_of_mem _ hb)) hrest⟩
  | swap f g l =>
    obtain ⟨s₁, hg, hrest⟩ := steps_cons_eq_ok.mp hfs
    obtain ⟨s₂, hf, hl⟩ := steps_cons_eq_ok.mp hrest
    obtain ⟨s₁', hf', hg'⟩ := h g List.mem_cons_self f (List.mem_cons_of_mem _ List.mem_cons_self) s s₁ s₂ hg hf
    exact steps_cons_eq_ok.mpr ⟨s₁', hf', steps_cons_eq_ok.mpr ⟨s₂, hg', hl⟩⟩
  | trans hp _ ih ih' =>
    exact ih' (fun a ha b hb => h a (hp.symm.subset ha) b (hp.symm.subset hb)) (ih h hfs)

end CodeQuery.Data
