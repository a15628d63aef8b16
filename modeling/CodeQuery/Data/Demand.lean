/-
  CodeQuery.Data.Demand — answers computed on demand and remembered.

  Each key has an equation, whose right side is a computation (`Comp`) that may ask for the
  answers of other keys. The plain evaluation computes an answer anew whenever it is asked
  for (`answer n`, with n nested questions at most); a key has the answer a when some n
  gives it (`Answers`). The memoised evaluation keeps a cell for each key, which is marked
  while the key is being computed; to meet a marked cell is an error (`force`).

  Proved:
  (1) The memoised evaluation is sound: what it gives is the plain answer, and the cells it
      has filled hold plain answers (`force_sound`).
  (2) It is complete: it gives every plain answer, whatever cells are filled already, so no
      marked cell stands in the way of an answer that exists (`force_complete`).
  (3) It ends: with more fuel than there are cells to fill it never runs out
      (`force_ne_outOfFuel`, `run_ne_outOfFuel`).
  (4) So, between evaluations, a key is forced with an answer iff that is its plain answer, and a
      computation runs to what it plainly yields (`force_iff`, `run_iff`).
  (5) What is filled rests on filled cells (`force_supported`), so it stays right when
      equations are added or those of keys not filled change (`Supported.congr`).
  (6) Where equations ask only for keys of lower rank, a computation within the keys of a rank
      touches no cell but theirs, meets no marked cell, and fails only as they do (`run_framed`).
-/

import Mathlib.Data.Finset.Card
import Mathlib.Data.Finset.Filter
import Mathlib.Order.Basic

namespace CodeQuery.Data.Demand

/-- A computation that may ask for answers. -/
inductive Comp (κ : Type) (ν : κ → Type) (ε β : Type) where
  | done (b : β)
  | fail (e : ε)
  | ask (k : κ) (next : ν k → Comp κ ν ε β)

variable {κ : Type} {ν : κ → Type} {ε β γ : Type}

namespace Comp

def bind : Comp κ ν ε β → (β → Comp κ ν ε γ) → Comp κ ν ε γ
  | .done b, f => f b
  | .fail e, _ => .fail e
  | .ask k next, f => .ask k fun a => (next a).bind f

/-- The result under given answers, when every answer that is asked for is there. -/
def under (ans : (k : κ) → Option (ν k)) : Comp κ ν ε β → Option β
  | .done b => some b
  | .fail _ => none
  | .ask k next =>
    match ans k with
    | none => none
    | some a => (next a).under ans

@[simp] theorem under_done (ans : (k : κ) → Option (ν k)) (b : β) : (Comp.done b : Comp κ ν ε β).under ans = some b := rfl

@[simp] theorem under_fail (ans : (k : κ) → Option (ν k)) (e : ε) : (Comp.fail e : Comp κ ν ε β).under ans = none := rfl

@[simp] theorem under_ask (ans : (k : κ) → Option (ν k)) (k : κ) (next : ν k → Comp κ ν ε β) :
    (Comp.ask k next).under ans = (ans k).bind fun a => (next a).under ans := by
  rw [under]
  cases ans k <;> rfl

@[simp] theorem under_bind (ans : (k : κ) → Option (ν k)) (c : Comp κ ν ε β) (f : β → Comp κ ν ε γ) :
    (c.bind f).under ans = (c.under ans).bind fun b => (f b).under ans := by
  induction c with
  | done b => rfl
  | fail e => rfl
  | ask k next ih =>
    rw [bind, under_ask, under_ask]
    cases ans k with
    | none => rfl
    | some a => exact ih a

/-- It fails only with such errors, whatever it is answered. -/
def FailsOnly (P : ε → Prop) : Comp κ ν ε β → Prop
  | .done _ => True
  | .fail e => P e
  | .ask _ next => ∀ a, (next a).FailsOnly P

theorem failsOnly_bind {P : ε → Prop} {c : Comp κ ν ε β} {f : β → Comp κ ν ε γ} (hc : c.FailsOnly P)
    (hf : ∀ b, (f b).FailsOnly P) : (c.bind f).FailsOnly P := by
  induction c with
  | done b => exact hf b
  | fail e => exact hc
  | ask k next ih => exact fun a => ih a (hc a)

/-- It asks only for such keys, and fails only with such errors. -/
def Within (P : κ → Prop) (Q : ε → Prop) : Comp κ ν ε β → Prop
  | .done _ => True
  | .fail e => Q e
  | .ask k next => P k ∧ ∀ a, (next a).Within P Q

theorem within_bind {P : κ → Prop} {Q : ε → Prop} {c : Comp κ ν ε β} {f : β → Comp κ ν ε γ} (hc : c.Within P Q)
    (hf : ∀ b, (f b).Within P Q) : (c.bind f).Within P Q := by
  induction c with
  | done b => exact hf b
  | fail e => exact hc
  | ask k next ih => exact ⟨hc.1, fun a => ih a (hc.2 a)⟩

/-- More answers keep a result. -/
theorem under_mono {ans ans' : (k : κ) → Option (ν k)} (hle : ∀ k a, ans k = some a → ans' k = some a) (c : Comp κ ν ε β)
    {b : β} (h : c.under ans = some b) : c.under ans' = some b := by
  induction c with
  | done _ => exact h
  | fail _ => exact absurd h nofun
  | ask k next ih =>
    rw [under_ask] at h ⊢
    obtain ⟨a, ha, hnext⟩ := Option.bind_eq_some_iff.mp h
    rw [hle k a ha]
    exact ih a hnext

end Comp

/-! ## The plain evaluation -/

section Plain

variable (rhs : (k : κ) → Comp κ ν ε (ν k))

/-- The answer to a key, by at most `n` nested questions. -/
def answer : Nat → (k : κ) → Option (ν k)
  | 0, _ => none
  | n + 1, k => (rhs k).under (answer n)

def Answers (k : κ) (a : ν k) : Prop := ∃ n, answer rhs n k = some a

/-- What a computation yields when every answer is the plain one. -/
def Yields (c : Comp κ ν ε β) (b : β) : Prop := ∃ n, c.under (answer rhs n) = some b

variable {rhs}

theorem answer_succ {n : Nat} {k : κ} {a : ν k} (h : answer rhs n k = some a) : answer rhs (n + 1) k = some a := by
  induction n generalizing k with
  | zero => exact absurd h nofun
  | succ n ih => exact (rhs k).under_mono (fun _ _ => ih) h

theorem answer_mono {n m : Nat} (hle : n ≤ m) {k : κ} {a : ν k} (h : answer rhs n k = some a) : answer rhs m k = some a := by
  induction hle with
  | refl => exact h
  | step _ ih => exact answer_succ ih

theorem Answers.unique {k : κ} {a a' : ν k} (h : Answers rhs k a) (h' : Answers rhs k a') : a = a' := by
  obtain ⟨n, hn⟩ := h
  obtain ⟨m, hm⟩ := h'
  have hn' := answer_mono (Nat.le_max_left n m) hn
  rw [answer_mono (Nat.le_max_right n m) hm] at hn'
  exact (Option.some.inj hn').symm

theorem Yields.unique {c : Comp κ ν ε β} {b b' : β} (h : Yields rhs c b) (h' : Yields rhs c b') : b = b' := by
  obtain ⟨n, hn⟩ := h
  obtain ⟨m, hm⟩ := h'
  have hn' := c.under_mono (fun _ _ => answer_mono (Nat.le_max_left n m)) hn
  rw [c.under_mono (fun _ _ => answer_mono (Nat.le_max_right n m)) hm] at hn'
  exact (Option.some.inj hn').symm

/-- A key has the answer that its right side yields. -/
theorem answers_iff {k : κ} {a : ν k} : Answers rhs k a ↔ Yields rhs (rhs k) a := by
  constructor
  · rintro ⟨n, h⟩
    cases n with
    | zero => exact absurd h nofun
    | succ n => exact ⟨n, h⟩
  · rintro ⟨n, h⟩
    exact ⟨n + 1, h⟩

@[simp] theorem yields_done {b b' : β} : Yields rhs (.done b) b' ↔ b = b' :=
  ⟨fun ⟨_, h⟩ => Option.some.inj h, fun h => ⟨0, congrArg some h⟩⟩

@[simp] theorem yields_fail {e : ε} {b : β} : ¬ Yields rhs (.fail e) b := fun ⟨_, h⟩ => absurd h nofun

theorem yields_bind {c : Comp κ ν ε β} {f : β → Comp κ ν ε γ} {d : γ} :
    Yields rhs (c.bind f) d ↔ ∃ b, Yields rhs c b ∧ Yields rhs (f b) d := by
  constructor
  · rintro ⟨n, h⟩
    rw [Comp.under_bind] at h
    obtain ⟨b, hb, hd⟩ := Option.bind_eq_some_iff.mp h
    exact ⟨b, ⟨n, hb⟩, ⟨n, hd⟩⟩
  · rintro ⟨b, ⟨n, hb⟩, ⟨m, hd⟩⟩
    refine ⟨max n m, ?_⟩
    rw [Comp.under_bind, c.under_mono (fun _ _ => answer_mono (Nat.le_max_left n m)) hb]
    exact (f b).under_mono (fun _ _ => answer_mono (Nat.le_max_right n m)) hd

theorem yields_ask {k : κ} {next : ν k → Comp κ ν ε β} {b : β} :
    Yields rhs (.ask k next) b ↔ ∃ a, Answers rhs k a ∧ Yields rhs (next a) b := by
  constructor
  · rintro ⟨n, h⟩
    rw [Comp.under_ask] at h
    obtain ⟨a, ha, hb⟩ := Option.bind_eq_some_iff.mp h
    exact ⟨a, ⟨n, ha⟩, ⟨n, hb⟩⟩
  · rintro ⟨a, ⟨n, ha⟩, ⟨m, hb⟩⟩
    refine ⟨max n m, ?_⟩
    rw [Comp.under_ask, answer_mono (Nat.le_max_left n m) ha]
    exact (next a).under_mono (fun _ _ => answer_mono (Nat.le_max_right n m)) hb

end Plain

/-! ## The memoised evaluation -/

/-- What is known of a key's answer. -/
inductive Cell (α : Type) where
  | unforced
  | forcing
  | forced (a : α)

namespace Cell

def isUnforced {α : Type} : Cell α → Bool
  | .unforced => true
  | _ => false

theorem isUnforced_iff {α : Type} {c : Cell α} : c.isUnforced = true ↔ c = .unforced := by
  cases c <;> simp [isUnforced]

end Cell

inductive Err (κ ε : Type) where
  | failed (e : ε)
  | recursive (k : κ)
  | outOfFuel

abbrev Memo (κ : Type) (ν : κ → Type) : Type := (k : κ) → Cell (ν k)

/-- Run a computation, each question put to `ask`. -/
def run (ask : (k : κ) → Memo κ ν → Except (Err κ ε) (ν k × Memo κ ν)) :
    Comp κ ν ε β → Memo κ ν → Except (Err κ ε) (β × Memo κ ν)
  | .done b, m => .ok (b, m)
  | .fail e, _ => .error (.failed e)
  | .ask k next, m =>
    match ask k m with
    | .error e => .error e
    | .ok (a, m') => run ask (next a) m'

/-- A computation that goes on with the result of another runs after it. -/
theorem run_bind (ask : (k : κ) → Memo κ ν → Except (Err κ ε) (ν k × Memo κ ν)) (c : Comp κ ν ε β) (f : β → Comp κ ν ε γ)
    (m : Memo κ ν) : run ask (c.bind f) m =
      match run ask c m with
      | .error e => .error e
      | .ok (b, m') => run ask (f b) m' := by
  induction c generalizing m with
  | done b => rfl
  | fail e => rfl
  | ask k next ih =>
    rw [Comp.bind, run, run]
    cases ask k m with
    | error e => rfl
    | ok r => exact ih r.1 r.2

variable [DecidableEq κ] (rhs : (k : κ) → Comp κ ν ε (ν k))

/-- The answer to a key from its cell, or by its right side, the cell marked in the meantime. -/
def force : Nat → (k : κ) → Memo κ ν → Except (Err κ ε) (ν k × Memo κ ν)
  | 0, _, _ => .error .outOfFuel
  | fuel + 1, k, m =>
    match m k with
    | .forced a => .ok (a, m)
    | .forcing => .error (.recursive k)
    | .unforced =>
      match run (force fuel) (rhs k) (Function.update m k .forcing) with
      | .error e => .error e
      | .ok (a, m') => .ok (a, Function.update m' k (.forced a))

variable {rhs}

omit [DecidableEq κ] in
/-- A run of a computation that asks goes by the answer. -/
theorem run_ask_ok {ask : (k : κ) → Memo κ ν → Except (Err κ ε) (ν k × Memo κ ν)} {k : κ} {next : ν k → Comp κ ν ε β}
    {m m' : Memo κ ν} {b : β} (h : run ask (.ask k next) m = .ok (b, m')) :
    ∃ a m₁, ask k m = .ok (a, m₁) ∧ run ask (next a) m₁ = .ok (b, m') := by
  rw [run] at h
  cases hask : ask k m with
  | error e => rw [hask] at h; exact absurd h nofun
  | ok r => rw [hask] at h; exact ⟨r.1, r.2, rfl, h⟩

/-- What it is for a key to be forced: its cell was filled, or it is filled now. -/
theorem force_ok {fuel : Nat} {k : κ} {m m' : Memo κ ν} {a : ν k} (h : force rhs (fuel + 1) k m = .ok (a, m')) :
    (m k = .forced a ∧ m' = m) ∨
      ∃ m₁, m k = .unforced ∧ run (force rhs fuel) (rhs k) (Function.update m k .forcing) = .ok (a, m₁) ∧
        m' = Function.update m₁ k (.forced a) := by
  rw [force] at h
  cases hk : m k with
  | forced a' =>
    simp only [hk, Except.ok.injEq, Prod.mk.injEq] at h
    obtain ⟨rfl, rfl⟩ := h
    exact .inl ⟨rfl, rfl⟩
  | forcing => simp [hk] at h
  | unforced =>
    cases hrun : run (force rhs fuel) (rhs k) (Function.update m k .forcing) with
    | error e => simp [hk, hrun] at h
    | ok r =>
      simp only [hk, hrun, Except.ok.injEq, Prod.mk.injEq] at h
      obtain ⟨rfl, rfl⟩ := h
      exact .inr ⟨r.2, rfl, rfl, rfl⟩

/-! ### Soundness -/

/-- Every filled cell holds the key's answer. -/
def Sound (rhs : (k : κ) → Comp κ ν ε (ν k)) (m : Memo κ ν) : Prop := ∀ k a, m k = .forced a → Answers rhs k a

/-- What an evaluation leaves: the same cells marked, and every filled cell as it was. -/
structure Extends (m m' : Memo κ ν) : Prop where
  forcing : ∀ k, m' k = .forcing ↔ m k = .forcing
  forced : ∀ k a, m k = .forced a → m' k = .forced a

omit [DecidableEq κ] in
theorem Extends.refl (m : Memo κ ν) : Extends m m := ⟨fun _ => Iff.rfl, fun _ _ => id⟩

omit [DecidableEq κ] in
theorem Extends.trans {m m₁ m₂ : Memo κ ν} (h : Extends m m₁) (h' : Extends m₁ m₂) : Extends m m₂ :=
  ⟨fun k => (h'.forcing k).trans (h.forcing k), fun k a hk => h'.forced k a (h.forced k a hk)⟩

omit [DecidableEq κ] in
/-- A cell that is left to fill was left to fill before. -/
theorem Extends.unforced {m m' : Memo κ ν} (h : Extends m m') {k : κ} (hk : m' k = .unforced) : m k = .unforced := by
  cases hm : m k with
  | unforced => rfl
  | forcing => rw [(h.forcing k).mpr hm] at hk; exact absurd hk nofun
  | forced a => rw [h.forced k a hm] at hk; exact absurd hk nofun

theorem sound_mark {m : Memo κ ν} (h : Sound rhs m) (k : κ) : Sound rhs (Function.update m k .forcing) := by
  intro k' a hk'
  by_cases e : k' = k
  · subst e; simp at hk'
  · rw [Function.update_of_ne e] at hk'
    exact h k' a hk'

theorem sound_fill {m : Memo κ ν} (h : Sound rhs m) {k : κ} {a : ν k} (ha : Answers rhs k a) :
    Sound rhs (Function.update m k (.forced a)) := by
  intro k' a' hk'
  by_cases e : k' = k
  · subst e
    rw [Function.update_self, Cell.forced.injEq] at hk'
    exact hk' ▸ ha
  · rw [Function.update_of_ne e] at hk'
    exact h k' a' hk'

/-- A key marked, worked on and filled. -/
theorem extends_fill {m m₁ : Memo κ ν} {k : κ} (hk : m k = .unforced) (h : Extends (Function.update m k .forcing) m₁) (a : ν k) :
    Extends m (Function.update m₁ k (.forced a)) := by
  constructor
  · intro k'
    by_cases e : k' = k
    · subst e; simp [hk]
    · have := h.forcing k'
      rw [Function.update_of_ne e] at this ⊢
      exact this
  · intro k' a' hk'
    by_cases e : k' = k
    · subst e; rw [hk] at hk'; exact absurd hk' nofun
    · rw [Function.update_of_ne e]
      exact h.forced k' a' (by rw [Function.update_of_ne e]; exact hk')

omit [DecidableEq κ] in
/-- A run is sound when what it asks is. -/
theorem run_sound_of {ask : (k : κ) → Memo κ ν → Except (Err κ ε) (ν k × Memo κ ν)}
    (hask : ∀ k m a m', Sound rhs m → ask k m = .ok (a, m') → Answers rhs k a ∧ Sound rhs m' ∧ Extends m m')
    (c : Comp κ ν ε β) {m m' : Memo κ ν} {b : β} (hm : Sound rhs m) (h : run ask c m = .ok (b, m')) :
    Yields rhs c b ∧ Sound rhs m' ∧ Extends m m' := by
  induction c generalizing m with
  | done b' =>
    simp only [run, Except.ok.injEq, Prod.mk.injEq] at h
    obtain ⟨rfl, rfl⟩ := h
    exact ⟨yields_done.mpr rfl, hm, .refl m⟩
  | fail e => exact absurd h nofun
  | ask k next ih =>
    obtain ⟨a, m₁, ha, hnext⟩ := run_ask_ok h
    obtain ⟨hans, hm₁, hext⟩ := hask k m a m₁ hm ha
    obtain ⟨hb, hm', hext'⟩ := ih a hm₁ hnext
    exact ⟨yields_ask.mpr ⟨a, hans, hb⟩, hm', hext.trans hext'⟩

theorem force_sound (fuel : Nat) {k : κ} {m m' : Memo κ ν} {a : ν k} (hm : Sound rhs m)
    (h : force rhs fuel k m = .ok (a, m')) : Answers rhs k a ∧ Sound rhs m' ∧ Extends m m' := by
  induction fuel generalizing k m m' with
  | zero => exact absurd h nofun
  | succ fuel ih =>
    rcases force_ok h with ⟨hk, rfl⟩ | ⟨m₁, hk, hrun, rfl⟩
    · exact ⟨hm k a hk, hm, .refl m'⟩
    · obtain ⟨hb, hm₁, hext⟩ := run_sound_of (fun _ _ _ _ => ih) (rhs k) (sound_mark hm k) hrun
      have ha := answers_iff.mpr hb
      exact ⟨ha, sound_fill hm₁ ha, extends_fill hk hext a⟩

/-! ### Completeness -/

/-- No marked key has an answer within `n` questions: each waits for an answer of more. -/
def Clear (rhs : (k : κ) → Comp κ ν ε (ν k)) (n : Nat) (m : Memo κ ν) : Prop :=
  ∀ k, m k = .forcing → answer rhs n k = none

omit [DecidableEq κ] in
theorem Clear.of_extends {n : Nat} {m m' : Memo κ ν} (h : Clear rhs n m) (hext : Extends m m') : Clear rhs n m' :=
  fun k hk => h k ((hext.forcing k).mp hk)

omit [DecidableEq κ] in
theorem Clear.of_le {n i : Nat} {m : Memo κ ν} (h : Clear rhs n m) (hle : i ≤ n) : Clear rhs i m := by
  intro k hk
  cases ha : answer rhs i k with
  | none => rfl
  | some a =>
    have := h k hk
    rw [answer_mono hle ha] at this
    exact absurd this nofun

omit [DecidableEq κ] in
/-- The least number of questions that gives an answer, and one less. -/
theorem exists_least {n : Nat} {k : κ} {a : ν k} (h : answer rhs n k = some a) :
    ∃ i < n, answer rhs (i + 1) k = some a ∧ answer rhs i k = none := by
  induction n with
  | zero => exact absurd h nofun
  | succ n ih =>
    cases hn : answer rhs n k with
    | none => exact ⟨n, Nat.lt_succ_self n, h, hn⟩
    | some a' =>
      have : a' = a := by
        have := answer_succ hn
        rw [h] at this
        exact (Option.some.inj this).symm
      subst this
      obtain ⟨i, hi, hsucc, hnone⟩ := ih hn
      exact ⟨i, hi.trans (Nat.lt_succ_self n), hsucc, hnone⟩

omit [DecidableEq κ] in
/-- A run finds what the answers within `n` give, when what it asks does. -/
theorem run_complete_of {ask : (k : κ) → Memo κ ν → Except (Err κ ε) (ν k × Memo κ ν)} {n : Nat}
    (hsound : ∀ k m a m', Sound rhs m → ask k m = .ok (a, m') → Answers rhs k a ∧ Sound rhs m' ∧ Extends m m')
    (hask : ∀ k m a, Sound rhs m → Clear rhs n m → answer rhs n k = some a → ∃ m', ask k m = .ok (a, m'))
    (c : Comp κ ν ε β) {m : Memo κ ν} {b : β} (hm : Sound rhs m) (hclear : Clear rhs n m)
    (h : c.under (answer rhs n) = some b) : ∃ m', run ask c m = .ok (b, m') := by
  induction c generalizing m with
  | done b' => exact ⟨m, by rw [run, Option.some.inj h]⟩
  | fail e => exact absurd h nofun
  | ask k next ih =>
    rw [Comp.under_ask] at h
    obtain ⟨a, ha, hb⟩ := Option.bind_eq_some_iff.mp h
    obtain ⟨m₁, hm₁⟩ := hask k m a hm hclear ha
    obtain ⟨-, hsound₁, hext⟩ := hsound k m a m₁ hm hm₁
    obtain ⟨m', hm'⟩ := ih a hsound₁ (hclear.of_extends hext) hb
    exact ⟨m', by rw [run, hm₁]; exact hm'⟩

/-- Within enough fuel for its questions, an answer that exists is found. -/
theorem force_complete (fuel : Nat) {n : Nat} (hn : n ≤ fuel) {k : κ} {m : Memo κ ν} {a : ν k} (hm : Sound rhs m)
    (hclear : Clear rhs n m) (h : answer rhs n k = some a) : ∃ m', force rhs fuel k m = .ok (a, m') := by
  induction fuel generalizing n k m with
  | zero =>
    rw [Nat.le_zero.mp hn] at h
    exact absurd h nofun
  | succ fuel ih =>
    rw [force]
    cases hk : m k with
    | forced a' =>
      have : a' = a := (hm k a' hk).unique ⟨n, h⟩
      exact ⟨m, by rw [this]⟩
    | forcing =>
      have := hclear k hk
      rw [h] at this
      exact absurd this nofun
    | unforced =>
      -- the key is marked below its least number of questions, which keeps the marked keys clear
      obtain ⟨i, hi, hsucc, hnone⟩ := exists_least h
      have hclear' : Clear rhs i (Function.update m k .forcing) := by
        intro k' hk'
        by_cases e : k' = k
        · subst e; exact hnone
        · rw [Function.update_of_ne e] at hk'
          exact hclear.of_le (Nat.le_of_lt hi) k' hk'
      obtain ⟨m₁, hrun⟩ := run_complete_of (fun _ _ _ _ => force_sound fuel)
        (fun _ _ _ hm' hc ha => ih (by omega) hm' hc ha) (rhs k) (sound_mark hm k) hclear' hsucc
      exact ⟨Function.update m₁ k (.forced a), by rw [hrun]⟩

/-! ### Termination -/

/-- The keys of `s` whose cells are left to fill. -/
def left (s : Finset κ) (m : Memo κ ν) : Nat := (s.filter fun k => (m k).isUnforced = true).card

omit [DecidableEq κ] in
theorem left_le_of_extends {s : Finset κ} {m m' : Memo κ ν} (h : Extends m m') : left s m' ≤ left s m := by
  refine Finset.card_le_card fun k hk => ?_
  rw [Finset.mem_filter, Cell.isUnforced_iff] at hk ⊢
  exact ⟨hk.1, h.unforced hk.2⟩

theorem left_mark_lt {s : Finset κ} {m : Memo κ ν} {k : κ} (hs : k ∈ s) (hk : m k = .unforced) :
    left s (Function.update m k .forcing) < left s m := by
  refine Finset.card_lt_card ⟨fun k' hk' => ?_, fun hsub => ?_⟩
  · rw [Finset.mem_filter, Cell.isUnforced_iff] at hk' ⊢
    refine ⟨hk'.1, ?_⟩
    by_cases e : k' = k
    · rw [e, hk]
    · rw [← hk'.2, Function.update_of_ne e]
  · have hmem := hsub (Finset.mem_filter.mpr ⟨hs, Cell.isUnforced_iff.mpr hk⟩)
    rw [Finset.mem_filter, Function.update_self] at hmem
    exact absurd hmem.2 nofun

omit [DecidableEq κ] in
/-- What is left of a memo after an evaluation, whether sound or not. -/
theorem run_extends_of {ask : (k : κ) → Memo κ ν → Except (Err κ ε) (ν k × Memo κ ν)}
    (hask : ∀ k m a m', ask k m = .ok (a, m') → Extends m m') (c : Comp κ ν ε β) {m m' : Memo κ ν} {b : β}
    (h : run ask c m = .ok (b, m')) : Extends m m' := by
  induction c generalizing m with
  | done b' =>
    simp only [run, Except.ok.injEq, Prod.mk.injEq] at h
    exact h.2 ▸ .refl m
  | fail e => exact absurd h nofun
  | ask k next ih =>
    obtain ⟨a, m₁, ha, hnext⟩ := run_ask_ok h
    exact (hask k m a m₁ ha).trans (ih a hnext)

theorem force_extends (fuel : Nat) {k : κ} {m m' : Memo κ ν} {a : ν k} (h : force rhs fuel k m = .ok (a, m')) :
    Extends m m' := by
  induction fuel generalizing k m m' with
  | zero => exact absurd h nofun
  | succ fuel ih =>
    rcases force_ok h with ⟨-, rfl⟩ | ⟨m₁, hk, hrun, rfl⟩
    · exact .refl m'
    · exact extends_fill hk (run_extends_of (fun _ _ _ _ => ih) (rhs k) hrun) a

/-- A run does not run out of fuel when none of its questions does, in a memo with at most `d` cells left. -/
theorem run_ne_outOfFuel_of {fuel d : Nat} {s : Finset κ}
    (hask : ∀ k (m : Memo κ ν), left s m ≤ d → force rhs fuel k m ≠ .error .outOfFuel)
    (c : Comp κ ν ε β) {m : Memo κ ν} (hm : left s m ≤ d) : run (force rhs fuel) c m ≠ .error .outOfFuel := by
  induction c generalizing m with
  | done b => exact nofun
  | fail e => exact nofun
  | ask k next ih =>
    rw [run]
    cases hk : force rhs fuel k m with
    | error e =>
      intro he
      rw [Except.error.injEq] at he
      exact hask k m hm (hk.trans (congrArg _ he))
    | ok r => exact ih r.1 ((left_le_of_extends (force_extends fuel hk)).trans hm)

/-- With more fuel than there are cells left to fill, forcing ends. The keys outside `s` fail at once. -/
theorem force_ne_outOfFuel {s : Finset κ} (hout : ∀ k ∉ s, ∃ e, rhs k = .fail e) (fuel : Nat) (k : κ) {m : Memo κ ν}
    (hm : left s m < fuel) : force rhs fuel k m ≠ .error .outOfFuel := by
  induction fuel generalizing k m with
  | zero => exact absurd hm (Nat.not_lt_zero _)
  | succ fuel ih =>
    rw [force]
    cases hk : m k with
    | forced a => exact nofun
    | forcing => exact nofun
    | unforced =>
      have hrun : run (force rhs fuel) (rhs k) (Function.update m k .forcing) ≠ .error .outOfFuel := by
        by_cases hs : k ∈ s
        · have hlt := left_mark_lt hs hk
          exact run_ne_outOfFuel_of (fun k' m' hm' => ih k' (Nat.lt_of_le_of_lt hm' (by omega))) (rhs k) (Nat.le_refl _)
        · obtain ⟨e, he⟩ := hout k hs
          rw [he]
          exact nofun
      cases hres : run (force rhs fuel) (rhs k) (Function.update m k .forcing) with
      | error e =>
        intro he
        rw [Except.error.injEq] at he
        exact hrun (hres.trans (congrArg _ he))
      | ok r => exact nofun

theorem run_ne_outOfFuel {s : Finset κ} (hout : ∀ k ∉ s, ∃ e, rhs k = .fail e) {fuel : Nat} {c : Comp κ ν ε β}
    {m : Memo κ ν} (hm : left s m < fuel) : run (force rhs fuel) c m ≠ .error .outOfFuel :=
  run_ne_outOfFuel_of (fun k _ hm' => force_ne_outOfFuel hout fuel k (Nat.lt_of_le_of_lt hm' hm)) c (Nat.le_refl _)

omit [DecidableEq κ] in
theorem run_failed_of {P : ε → Prop} {ask : (k : κ) → Memo κ ν → Except (Err κ ε) (ν k × Memo κ ν)}
    (hask : ∀ k m e, ask k m = .error (.failed e) → P e) {c : Comp κ ν ε β} (hc : c.FailsOnly P) {m : Memo κ ν} {e : ε}
    (h : run ask c m = .error (.failed e)) : P e := by
  induction c generalizing m with
  | done b => exact absurd h nofun
  | fail e' =>
    simp only [run, Except.error.injEq, Err.failed.injEq] at h
    exact h ▸ hc
  | ask k next ih =>
    rw [run] at h
    cases hk : ask k m with
    | error e' =>
      simp only [hk, Except.error.injEq] at h
      exact hask k m e (hk.trans (congrArg _ h))
    | ok r =>
      rw [hk] at h
      exact ih r.1 (hc r.1) h

theorem force_failed {P : ε → Prop} (hrhs : ∀ k, (rhs k).FailsOnly P) (fuel : Nat) (k : κ) (m : Memo κ ν) (e : ε)
    (h : force rhs fuel k m = .error (.failed e)) : P e := by
  induction fuel generalizing k m e with
  | zero => exact absurd h nofun
  | succ fuel ih =>
    rw [force] at h
    cases hk : m k with
    | forced a => simp [hk] at h
    | forcing => simp [hk] at h
    | unforced =>
      cases hrun : run (force rhs fuel) (rhs k) (Function.update m k .forcing) with
      | error e' =>
        simp only [hk, hrun] at h
        exact run_failed_of ih (hrhs k) (hrun.trans h)
      | ok r => simp [hk, hrun] at h

/-- An evaluation fails only as the equations do. -/
theorem run_failed {P : ε → Prop} (hrhs : ∀ k, (rhs k).FailsOnly P) {fuel : Nat} {c : Comp κ ν ε β} (hc : c.FailsOnly P)
    {m : Memo κ ν} {e : ε} (h : run (force rhs fuel) c m = .error (.failed e)) : P e :=
  run_failed_of (force_failed hrhs fuel) hc h

/-- What does not run out of fuel is the same with more. -/
theorem run_mono_of {fuel : Nat}
    (hask : ∀ k (m : Memo κ ν), force rhs fuel k m ≠ .error .outOfFuel → force rhs (fuel + 1) k m = force rhs fuel k m)
    (c : Comp κ ν ε β) {m : Memo κ ν} (h : run (force rhs fuel) c m ≠ .error .outOfFuel) :
    run (force rhs (fuel + 1)) c m = run (force rhs fuel) c m := by
  induction c generalizing m with
  | done b => rfl
  | fail e => rfl
  | ask k next ih =>
    rw [run] at h
    have hk : force rhs fuel k m ≠ .error .outOfFuel := by
      intro he
      rw [he] at h
      exact h rfl
    rw [run, run, hask k m hk]
    cases hres : force rhs fuel k m with
    | error e => rfl
    | ok r =>
      rw [hres] at h
      exact ih r.1 h

theorem force_mono {fuel : Nat} {k : κ} {m : Memo κ ν} (h : force rhs fuel k m ≠ .error .outOfFuel) :
    force rhs (fuel + 1) k m = force rhs fuel k m := by
  induction fuel generalizing k m with
  | zero => exact absurd rfl h
  | succ fuel ih =>
    rw [force] at h
    rw [force, force]
    cases hk : m k with
    | forced a => rfl
    | forcing => rfl
    | unforced =>
      have hrun : run (force rhs fuel) (rhs k) (Function.update m k .forcing) ≠ .error .outOfFuel := by
        intro he
        simp only [hk, he] at h
        exact h rfl
      simp only [run_mono_of (fun _ _ => ih) (rhs k) hrun]

theorem force_of_le {fuel fuel' : Nat} (hle : fuel ≤ fuel') {k : κ} {m : Memo κ ν} (h : force rhs fuel k m ≠ .error .outOfFuel) :
    force rhs fuel' k m = force rhs fuel k m := by
  induction hle with
  | refl => rfl
  | step _ ih => rw [force_mono (by rw [ih]; exact h), ih]

/-! ### Frames -/

section Frames

variable {P : Nat → κ → Prop} {Q : ε → Prop}

/-- Of the keys of a rank, each has an equation within keys of some rank that it is not itself of. -/
def Ranked (rhs : (k : κ) → Comp κ ν ε (ν k)) (P : Nat → κ → Prop) (Q : ε → Prop) : Prop :=
  ∀ n k, P n k → ∃ r, (∀ k', P r k' → P n k' ∧ k' ≠ k) ∧ (rhs k).Within (P r) Q

/-- An error of an equation, or too little fuel; no marked cell was met. -/
def Err.Plain (Q : ε → Prop) : Err κ ε → Prop
  | .failed e => Q e
  | .recursive _ => False
  | .outOfFuel => True

/-- An evaluation that changes no cell but those of such keys, and fails as they do. -/
def Framed (P : κ → Prop) (Q : ε → Prop) (m : Memo κ ν) : Except (Err κ ε) (β × Memo κ ν) → Prop
  | .ok (_, m') => ∀ k, ¬ P k → m' k = m k
  | .error e => e.Plain Q

theorem run_framed_of {P : κ → Prop} {fuel : Nat} {c : Comp κ ν ε β} (hc : c.Within P Q) {m : Memo κ ν}
    (hask : ∀ k (m : Memo κ ν), P k → (∀ k', P k' → m k' ≠ .forcing) → Framed P Q m (force rhs fuel k m))
    (hclear : ∀ k, P k → m k ≠ .forcing) : Framed P Q m (run (force rhs fuel) c m) := by
  induction c generalizing m with
  | done b => exact fun _ _ => rfl
  | fail e => exact hc
  | ask k next ih =>
    have hk := hask k m hc.1 hclear
    rw [run]
    cases ha : force rhs fuel k m with
    | error e =>
      rw [ha] at hk
      exact hk
    | ok r =>
      rw [ha] at hk
      have hclear' : ∀ k', P k' → r.2 k' ≠ .forcing := fun k' hk' h => hclear k' hk' (((force_extends fuel ha).forcing k').mp h)
      have hnext := ih r.1 (hc.2 r.1) hclear'
      simp only
      cases hr : run (force rhs fuel) (next r.1) r.2 with
      | error e =>
        rw [hr] at hnext
        exact hnext
      | ok r' =>
        rw [hr] at hnext
        exact fun k' hk' => (hnext k' hk').trans (hk k' hk')

theorem force_framed (hP : Ranked rhs P Q) (fuel n : Nat) (k : κ) (m : Memo κ ν) (hk : P n k)
    (hclear : ∀ k', P n k' → m k' ≠ .forcing) :
    Framed (P n) Q m (force rhs fuel k m) := by
  induction fuel generalizing n k m with
  | zero => trivial
  | succ fuel ih =>
    rw [force]
    cases hm : m k with
    | forced a => exact fun _ _ => rfl
    | forcing => exact absurd hm (hclear k hk)
    | unforced =>
      obtain ⟨r, hr, hrhs⟩ := hP n k hk
      have hclear' : ∀ k', P r k' → Function.update m k .forcing k' ≠ .forcing := by
        intro k' hk'
        rw [Function.update_of_ne (hr k' hk').2]
        exact hclear k' (hr k' hk').1
      have hrun := run_framed_of hrhs (fun k' m' hk' hc => ih r k' m' hk' hc) hclear'
      simp only
      cases he : run (force rhs fuel) (rhs k) (Function.update m k .forcing) with
      | error e =>
        rw [he] at hrun
        exact hrun
      | ok res =>
        rw [he] at hrun
        intro k' hk'
        have hne : k' ≠ k := fun h => hk' (h ▸ hk)
        rw [Function.update_of_ne hne, hrun k' fun h => hk' (hr k' h).1, Function.update_of_ne hne]

/-- A computation within the keys of a rank, none of which is marked, changes no other cell, and meets
    no marked cell. -/
theorem run_framed (hP : Ranked rhs P Q) (fuel : Nat) {n : Nat} {c : Comp κ ν ε β} (hc : c.Within (P n) Q) {m : Memo κ ν}
    (hclear : ∀ k, P n k → m k ≠ .forcing) : Framed (P n) Q m (run (force rhs fuel) c m) :=
  run_framed_of hc (fun k m hk hclear => force_framed hP fuel n k m hk hclear) hclear

end Frames

/-! ### Support

What has been filled rests on filled cells only. So equations may be added, and those of
keys whose cells are left to fill may be changed, and what was filled stays right. -/

/-- The equations of the keys in `P`; the others fail. -/
def within (rhs : (k : κ) → Comp κ ν ε (ν k)) (e : ε) (P : κ → Bool) (k : κ) : Comp κ ν ε (ν k) :=
  if P k = true then rhs k else .fail e

def filled (m : Memo κ ν) (k : κ) : Bool :=
  match m k with
  | .forced _ => true
  | _ => false

omit [DecidableEq κ] in
theorem filled_of_eq {m : Memo κ ν} {k : κ} {a : ν k} (h : m k = .forced a) : filled m k = true := by simp [filled, h]

omit [DecidableEq κ] in
/-- Equations that are there, or failed before, keep the answers. -/
theorem answer_of_le {rhs rhs' : (k : κ) → Comp κ ν ε (ν k)} (hle : ∀ k, rhs' k = rhs k ∨ ∃ e, rhs k = .fail e) {n : Nat} {k : κ}
    {a : ν k} (h : answer rhs n k = some a) : answer rhs' n k = some a := by
  induction n generalizing k with
  | zero => exact absurd h nofun
  | succ n ih =>
    rcases hle k with heq | ⟨e, he⟩
    · rw [answer] at h
      rw [answer, heq]
      exact (rhs k).under_mono (fun _ _ => ih) h
    · rw [answer, he] at h
      exact absurd h nofun

omit [DecidableEq κ] in
theorem Answers.of_le {rhs rhs' : (k : κ) → Comp κ ν ε (ν k)} (hle : ∀ k, rhs' k = rhs k ∨ ∃ e, rhs k = .fail e) {k : κ} {a : ν k}
    (h : Answers rhs k a) : Answers rhs' k a := h.imp fun _ => answer_of_le hle

omit [DecidableEq κ] in
theorem Yields.of_le {rhs rhs' : (k : κ) → Comp κ ν ε (ν k)} (hle : ∀ k, rhs' k = rhs k ∨ ∃ e, rhs k = .fail e) {c : Comp κ ν ε β}
    {b : β} (h : Yields rhs c b) : Yields rhs' c b :=
  h.imp fun _ hn => c.under_mono (fun _ _ => answer_of_le hle) hn

omit [DecidableEq κ] in
theorem within_le {e : ε} {P Q : κ → Bool} (hPQ : ∀ k, P k = true → Q k = true) (k : κ) :
    within rhs e Q k = within rhs e P k ∨ ∃ e', within rhs e P k = .fail e' := by
  unfold within
  by_cases hP : P k = true
  · exact .inl (by rw [if_pos hP, if_pos (hPQ k hP)])
  · exact .inr ⟨e, if_neg hP⟩

omit [DecidableEq κ] in
theorem le_within {e : ε} {P : κ → Bool} (k : κ) : rhs k = within rhs e P k ∨ ∃ e', within rhs e P k = .fail e' := by
  unfold within
  by_cases hP : P k = true
  · exact .inl (if_pos hP).symm
  · exact .inr ⟨e, if_neg hP⟩

/-- Every filled cell holds an answer that rests on filled cells. -/
def Supported (rhs : (k : κ) → Comp κ ν ε (ν k)) (e : ε) (m : Memo κ ν) : Prop :=
  ∀ k a, m k = .forced a → Answers (within rhs e (filled m)) k a

omit [DecidableEq κ] in
theorem Supported.sound {e : ε} {m : Memo κ ν} (h : Supported rhs e m) : Sound rhs m :=
  fun k a hk => (h k a hk).of_le le_within

omit [DecidableEq κ] in
theorem Extends.filled {m m' : Memo κ ν} (h : Extends m m') (k : κ) (hk : filled m k = true) : Demand.filled m' k = true := by
  unfold Demand.filled at hk
  split at hk
  next a ha => exact filled_of_eq (h.forced k a ha)
  · exact absurd hk nofun

omit [DecidableEq κ] in
theorem run_supported_of {e : ε} {ask : (k : κ) → Memo κ ν → Except (Err κ ε) (ν k × Memo κ ν)}
    (hask : ∀ k m a m', Supported rhs e m → ask k m = .ok (a, m') →
      Answers (within rhs e (filled m')) k a ∧ Supported rhs e m' ∧ Extends m m')
    (c : Comp κ ν ε β) {m m' : Memo κ ν} {b : β} (hm : Supported rhs e m) (h : run ask c m = .ok (b, m')) :
    Yields (within rhs e (filled m')) c b ∧ Supported rhs e m' ∧ Extends m m' := by
  induction c generalizing m with
  | done b' =>
    simp only [run, Except.ok.injEq, Prod.mk.injEq] at h
    obtain ⟨rfl, rfl⟩ := h
    exact ⟨yields_done.mpr rfl, hm, .refl m⟩
  | fail e' => exact absurd h nofun
  | ask k next ih =>
    obtain ⟨a, m₁, ha, hnext⟩ := run_ask_ok h
    obtain ⟨hans, hm₁, hext⟩ := hask k m a m₁ hm ha
    obtain ⟨hb, hm', hext'⟩ := ih a hm₁ hnext
    exact ⟨yields_ask.mpr ⟨a, hans.of_le (within_le hext'.filled), hb⟩, hm', hext.trans hext'⟩

theorem filled_mark {m : Memo κ ν} {k : κ} (hk : m k = .unforced) : filled (Function.update m k .forcing) = filled m := by
  funext k'
  by_cases e : k' = k
  · subst e
    simp [filled, hk]
  · simp [filled, Function.update_of_ne e]

theorem supported_mark {e : ε} {m : Memo κ ν} {k : κ} (hk : m k = .unforced) (h : Supported rhs e m) :
    Supported rhs e (Function.update m k .forcing) := by
  intro k' a hk'
  rw [filled_mark hk]
  by_cases he : k' = k
  · subst he
    simp at hk'
  · rw [Function.update_of_ne he] at hk'
    exact h k' a hk'

theorem filled_le_fill {m : Memo κ ν} {k : κ} (a : ν k) (k' : κ) (h : filled m k' = true) :
    filled (Function.update m k (.forced a)) k' = true := by
  by_cases e : k' = k
  · subst e
    simp [filled]
  · rw [filled, Function.update_of_ne e]
    exact h

/-- The memoised evaluation keeps what is filled supported, and its result is. -/
theorem force_supported {e : ε} (fuel : Nat) {k : κ} {m m' : Memo κ ν} {a : ν k} (hm : Supported rhs e m)
    (h : force rhs fuel k m = .ok (a, m')) : Answers (within rhs e (filled m')) k a ∧ Supported rhs e m' ∧ Extends m m' := by
  induction fuel generalizing k m m' with
  | zero => exact absurd h nofun
  | succ fuel ih =>
    rcases force_ok h with ⟨hk, rfl⟩ | ⟨m₁, hk, hrun, rfl⟩
    · exact ⟨hm k a hk, hm, .refl m'⟩
    · obtain ⟨hb, hm₁, hext⟩ := run_supported_of (fun _ _ _ _ => ih) (rhs k) (supported_mark hk hm) hrun
      have hle : ∀ k', within rhs e (filled (Function.update m₁ k (.forced a))) k' = within rhs e (filled m₁) k' ∨
          ∃ e', within rhs e (filled m₁) k' = .fail e' := within_le (filled_le_fill a)
      have ha : Answers (within rhs e (filled (Function.update m₁ k (.forced a)))) k a := by
        refine answers_iff.mpr ?_
        rw [within, if_pos (filled_of_eq (Function.update_self k (.forced a) m₁))]
        exact hb.of_le hle
      refine ⟨ha, fun k' a' hk' => ?_, extends_fill hk hext a⟩
      by_cases he : k' = k
      · subst he
        rw [Function.update_self, Cell.forced.injEq] at hk'
        exact hk' ▸ ha
      · rw [Function.update_of_ne he] at hk'
        exact (hm₁ k' a' hk').of_le hle

theorem run_supported {e : ε} (fuel : Nat) {c : Comp κ ν ε β} {m m' : Memo κ ν} {b : β} (hm : Supported rhs e m)
    (h : run (force rhs fuel) c m = .ok (b, m')) : Yields (within rhs e (filled m')) c b ∧ Supported rhs e m' ∧ Extends m m' :=
  run_supported_of (fun _ _ _ _ => force_supported fuel) c hm h

omit [DecidableEq κ] in
/-- Other equations for keys that are left to fill do not matter. -/
theorem Supported.congr {rhs' : (k : κ) → Comp κ ν ε (ν k)} {e : ε} {m : Memo κ ν} (h : Supported rhs e m)
    (heq : ∀ k, filled m k = true → rhs' k = rhs k) : Supported rhs' e m := by
  have hsame : within rhs' e (filled m) = within rhs e (filled m) := by
    funext k
    unfold within
    by_cases hk : filled m k = true
    · rw [if_pos hk, if_pos hk, heq k hk]
    · rw [if_neg hk, if_neg hk]
  intro k a hk
  rw [hsame]
  exact h k a hk

/-! ### At rest -/

/-- A memo between evaluations: nothing is marked, and what is filled is filled with answers. -/
structure Rest (rhs : (k : κ) → Comp κ ν ε (ν k)) (e : ε) (m : Memo κ ν) : Prop where
  supported : Supported rhs e m
  clear : ∀ k, m k ≠ .forcing

omit [DecidableEq κ] in
theorem Rest.sound {e : ε} {m : Memo κ ν} (h : Rest rhs e m) : Sound rhs m := h.supported.sound

omit [DecidableEq κ] in
theorem Rest.of_extends {e : ε} {m m' : Memo κ ν} (h : Rest rhs e m) (hm' : Supported rhs e m') (hext : Extends m m') :
    Rest rhs e m' :=
  ⟨hm', fun k hk => h.clear k ((hext.forcing k).mp hk)⟩

variable {s : Finset κ} {e₀ : ε}

/-- With enough fuel, the memoised evaluation gives a key's plain answer, and gives none when there is none. -/
theorem force_iff (hout : ∀ k ∉ s, ∃ e, rhs k = .fail e) {fuel : Nat} {m : Memo κ ν} (hfuel : left s m < fuel)
    (hm : Rest rhs e₀ m) (k : κ) (a : ν k) : (∃ m', force rhs fuel k m = .ok (a, m')) ↔ Answers rhs k a := by
  constructor
  · rintro ⟨m', h⟩
    exact (force_sound fuel hm.sound h).1
  · rintro ⟨n, h⟩
    have hclear : Clear rhs n m := fun k hk => absurd hk (hm.clear k)
    obtain ⟨m', hm'⟩ := force_complete (max fuel n) (Nat.le_max_right _ _) hm.sound hclear h
    rw [force_of_le (Nat.le_max_left _ _) (force_ne_outOfFuel hout fuel k hfuel)] at hm'
    exact ⟨m', hm'⟩

/-- The same of a computation. -/
theorem run_iff (hout : ∀ k ∉ s, ∃ e, rhs k = .fail e) {fuel : Nat} {m : Memo κ ν} (hfuel : left s m < fuel)
    (hm : Rest rhs e₀ m) (c : Comp κ ν ε β) (b : β) : (∃ m', run (force rhs fuel) c m = .ok (b, m')) ↔ Yields rhs c b := by
  induction c generalizing m with
  | done b' =>
    rw [yields_done]
    exact ⟨fun ⟨_, h⟩ => congrArg Prod.fst (Except.ok.inj h), fun h => ⟨m, by rw [h]; rfl⟩⟩
  | fail e => exact ⟨fun ⟨_, h⟩ => absurd h nofun, fun h => absurd h yields_fail⟩
  | ask k next ih =>
    have step : ∀ {a m₁}, force rhs fuel k m = .ok (a, m₁) → left s m₁ < fuel ∧ Rest rhs e₀ m₁ := by
      intro a m₁ ha
      obtain ⟨-, hsupp, hext⟩ := force_supported fuel hm.supported ha
      exact ⟨Nat.lt_of_le_of_lt (left_le_of_extends hext) hfuel, hm.of_extends hsupp hext⟩
    rw [yields_ask]
    constructor
    · rintro ⟨m', h⟩
      obtain ⟨a, m₁, ha, hnext⟩ := run_ask_ok h
      obtain ⟨hfuel₁, hm₁⟩ := step ha
      exact ⟨a, (force_iff hout hfuel hm k a).mp ⟨m₁, ha⟩, (ih a hfuel₁ hm₁).mp ⟨m', hnext⟩⟩
    · rintro ⟨a, ha, hb⟩
      obtain ⟨m₁, ha⟩ := (force_iff hout hfuel hm k a).mpr ha
      obtain ⟨hfuel₁, hm₁⟩ := step ha
      obtain ⟨m', hm'⟩ := (ih a hfuel₁ hm₁).mpr hb
      exact ⟨m', by rw [run, ha]; exact hm'⟩

end CodeQuery.Data.Demand
