/-
  CodeQuery.Data.Firsts — the first element under each key.

  A loop over a list keeps the keys that it has seen, and takes an element when its key is
  new. What it takes is a sublist (`firsts_sublist`), one element under each key that
  occurs (`firsts_nodup`, `exists_firsts`), and none with the key comes before it
  (`firsts_first`). So where the list is sorted the keys come in the order in which they
  first occur (`firsts_sorted`).
-/

import Mathlib.Data.List.Nodup
import Mathlib.Order.Basic

namespace CodeQuery.Data

variable {α κ : Type*} [DecidableEq κ]

/-- The elements under a key that was not seen before, each with its key. -/
def firsts (key : α → Option κ) : List κ → List α → List (κ × α)
  | _, [] => []
  | seen, a :: l =>
    match key a with
    | none => firsts key seen l
    | some k => if k ∈ seen then firsts key seen l else (k, a) :: firsts key (k :: seen) l

variable {key : α → Option κ}

/-- An element is skipped, as one without a key or with one that was seen, or it is taken. -/
theorem firsts_cons (key : α → Option κ) (seen : List κ) (a : α) (l : List α) :
    ((∀ k, key a = some k → k ∈ seen) ∧ firsts key seen (a :: l) = firsts key seen l) ∨
      ∃ k, key a = some k ∧ k ∉ seen ∧ firsts key seen (a :: l) = (k, a) :: firsts key (k :: seen) l := by
  rw [firsts]
  cases hkey : key a with
  | none => exact .inl ⟨nofun, rfl⟩
  | some k =>
    by_cases hseen : k ∈ seen
    · refine .inl ⟨?_, if_pos hseen⟩
      rintro _ ⟨⟩
      exact hseen
    · exact .inr ⟨k, rfl, hseen, if_neg hseen⟩

theorem firsts_sublist (key : α → Option κ) (seen : List κ) (l : List α) : ((firsts key seen l).map Prod.snd).Sublist l := by
  induction l generalizing seen with
  | nil => exact List.Sublist.refl []
  | cons a l ih =>
    rcases firsts_cons key seen a l with ⟨-, h⟩ | ⟨k, -, -, h⟩
    · rw [h]
      exact (ih seen).cons a
    · rw [h]
      exact (ih (k :: seen)).cons_cons a

theorem firsts_key {seen : List κ} {l : List α} : ∀ e ∈ firsts key seen l, key e.2 = some e.1 ∧ e.1 ∉ seen := by
  induction l generalizing seen with
  | nil => exact fun e he => absurd he List.not_mem_nil
  | cons a l ih =>
    intro e he
    rcases firsts_cons key seen a l with ⟨-, h⟩ | ⟨k, hkey, hseen, h⟩
    · rw [h] at he
      exact ih e he
    · rw [h] at he
      rcases List.mem_cons.mp he with rfl | he
      · exact ⟨hkey, hseen⟩
      · obtain ⟨hown, hnot⟩ := ih e he
        exact ⟨hown, fun hmem => hnot (List.mem_cons_of_mem _ hmem)⟩

theorem firsts_nodup (seen : List κ) (l : List α) : ((firsts key seen l).map Prod.fst).Nodup := by
  induction l generalizing seen with
  | nil => exact List.nodup_nil
  | cons a l ih =>
    rcases firsts_cons key seen a l with ⟨-, h⟩ | ⟨k, -, -, h⟩
    · rw [h]
      exact ih seen
    · rw [h, List.map_cons, List.nodup_cons]
      refine ⟨?_, ih (k :: seen)⟩
      intro hmem
      obtain ⟨e, he, hk⟩ := List.mem_map.mp hmem
      exact (firsts_key e he).2 (hk ▸ List.mem_cons_self)

/-- Every key that occurs and was not seen is among them. -/
theorem exists_firsts {seen : List κ} {l : List α} {a : α} {k : κ} (ha : a ∈ l) (hkey : key a = some k)
    (hseen : k ∉ seen) : ∃ b, (k, b) ∈ firsts key seen l := by
  induction l generalizing seen with
  | nil => exact absurd ha List.not_mem_nil
  | cons c l ih =>
    rcases firsts_cons key seen c l with ⟨hskip, h⟩ | ⟨j, hj, -, h⟩
    · rw [h]
      rcases List.mem_cons.mp ha with rfl | ha
      · exact absurd (hskip k hkey) hseen
      · exact ih ha hseen
    · rw [h]
      by_cases hk : k = j
      · subst hk
        exact ⟨c, List.mem_cons_self⟩
      · rcases List.mem_cons.mp ha with rfl | ha
        · rw [hkey, Option.some.injEq] at hj
          exact absurd hj hk
        · obtain ⟨b, hb⟩ := @ih (j :: seen) ha (by simp [hk, hseen])
          exact ⟨b, List.mem_cons_of_mem _ hb⟩

/-- No element with the key comes before the one that is taken. -/
theorem firsts_first {seen : List κ} {l : List α} {k : κ} {a : α} (h : (k, a) ∈ firsts key seen l) :
    ∃ before after, l = before ++ a :: after ∧ ∀ b ∈ before, key b ≠ some k := by
  induction l generalizing seen with
  | nil => exact absurd h List.not_mem_nil
  | cons c l ih =>
    -- behind an element with another key
    have hbehind : ∀ {seen}, (k, a) ∈ firsts key seen l → key c ≠ some k →
        ∃ before after, c :: l = before ++ a :: after ∧ ∀ b ∈ before, key b ≠ some k := by
      intro seen h hne
      obtain ⟨before, after, rfl, hnone⟩ := ih h
      refine ⟨c :: before, after, rfl, ?_⟩
      intro b hb
      rcases List.mem_cons.mp hb with rfl | hb
      · exact hne
      · exact hnone b hb
    rcases firsts_cons key seen c l with ⟨hskip, heq⟩ | ⟨j, hj, -, heq⟩
    · rw [heq] at h
      exact hbehind h fun hc => (firsts_key _ h).2 (hskip k hc)
    · rw [heq] at h
      rcases List.mem_cons.mp h with hhead | h
      · cases hhead
        exact ⟨[], l, rfl, fun b hb => absurd hb List.not_mem_nil⟩
      · refine hbehind h fun hc => (firsts_key _ h).2 ?_
        rw [hc, Option.some.injEq] at hj
        rw [hj]
        exact List.mem_cons_self

/-- The place of the first element under each of two keys: the one comes before every
    element under the other. -/
theorem firsts_sorted {β : Type*} [Preorder β] {place : α → β} {seen : List κ} {l : List α}
    (h : l.Pairwise fun a b => place a < place b) :
    (firsts key seen l).Pairwise fun e f => ∀ b ∈ l, key b = some f.1 → place e.2 < place b := by
  have hsub := List.pairwise_map.mp (h.sublist (firsts_sublist key seen l))
  refine hsub.imp_of_mem ?_
  intro e f he hf hlt b hb hkey
  -- the element under the other key's first comes before all of that key
  obtain ⟨before, after, hl, hnone⟩ := firsts_first (show (f.1, f.2) ∈ firsts key seen l from hf)
  rw [hl] at hb h
  rcases List.mem_append.mp hb with hb | hb
  · exact absurd hkey (hnone b hb)
  · rcases List.mem_cons.mp hb with rfl | hb
    · exact hlt
    · exact hlt.trans ((List.pairwise_cons.mp (List.pairwise_append.mp h).2.1).1 b hb)

end CodeQuery.Data
