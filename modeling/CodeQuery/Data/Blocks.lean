/-
  CodeQuery.Data.Blocks — blocks put together with a separator between them.

  A reader that knows the head of a block by its look cuts at each separator that stands
  directly before a head. It gets back the blocks that were put together (`cut_join`) when
  each starts with a head and has no such place within it; so what is put together from
  other blocks is another text (`join_inj`).
-/

import Mathlib.Data.List.Basic

namespace CodeQuery.Data.Blocks

section Cut

variable {α : Type*} [DecidableEq α] (isHead : α → Prop) [DecidablePred isHead] (sep : α)

/-- The list goes on with a head. -/
def AtHead (l : List α) : Prop := ∃ x ∈ l.head?, isHead x

instance (l : List α) : Decidable (AtHead isHead l) :=
  match l with
  | [] => .isFalse fun ⟨_, hx, _⟩ => by cases hx
  | x :: _ => decidable_of_iff (isHead x) ⟨fun h => ⟨x, rfl, h⟩, fun ⟨_, hx, h⟩ => by cases hx; exact h⟩

/-- The blocks of a list, cut at each separator before a head. -/
def cut : List α → List (List α)
  | [] => [[]]
  | x :: t => if x = sep ∧ AtHead isHead t then [] :: cut t else (cut t).modifyHead (x :: ·)

/-- A block starts with a head, and has no separator directly before a head. -/
structure IsBlock (b : List α) : Prop where
  head : AtHead isHead b
  uncut : ∀ before t, b = before ++ sep :: t → ¬AtHead isHead t

variable {isHead sep}

/-- Up to the first place to cut. -/
theorem cut_append {b t : List α} (huncut : ∀ before rest, b = before ++ sep :: rest → ¬AtHead isHead rest)
    (hsep : ¬isHead sep) (ht : AtHead isHead t) : cut isHead sep (b ++ sep :: t) = b :: cut isHead sep t := by
  induction b with
  | nil => rw [List.nil_append, cut, if_pos ⟨rfl, ht⟩]
  | cons x b ih =>
    have hnot : ¬(x = sep ∧ AtHead isHead (b ++ sep :: t)) := by
      rintro ⟨rfl, y, hy, hhead⟩
      cases b with
      | nil =>
        cases hy
        exact hsep hhead
      | cons z b => exact huncut [] (z :: b) rfl ⟨y, hy, hhead⟩
    rw [List.cons_append, cut, if_neg hnot, ih fun before rest h => huncut (x :: before) rest (by rw [h]; rfl)]
    rfl

theorem cut_self {b : List α} (huncut : ∀ before rest, b = before ++ sep :: rest → ¬AtHead isHead rest) :
    cut isHead sep b = [b] := by
  induction b with
  | nil => rfl
  | cons x b ih =>
    have hnot : ¬(x = sep ∧ AtHead isHead b) := fun h => huncut [] b (by rw [h.1]; rfl) h.2
    rw [cut, if_neg hnot, ih fun before rest h => huncut (x :: before) rest (by rw [h]; rfl)]
    rfl

omit [DecidableEq α] [DecidablePred isHead] in
theorem atHead_intercalate {b : List α} {bs : List (List α)} (h : AtHead isHead b) :
    AtHead isHead ([sep].intercalate (b :: bs)) := by
  obtain ⟨x, hx, hhead⟩ := h
  refine ⟨x, ?_, hhead⟩
  cases b with
  | nil => cases hx
  | cons y b => cases bs <;> exact hx

/-- The blocks put together are read back. -/
theorem cut_join (hsep : ¬isHead sep) {bs : List (List α)} (hne : bs ≠ []) (h : ∀ b ∈ bs, IsBlock isHead sep b) :
    cut isHead sep ([sep].intercalate bs) = bs := by
  induction bs with
  | nil => exact absurd rfl hne
  | cons b bs ih =>
    have hb := h b List.mem_cons_self
    cases bs with
    | nil => rw [List.intercalate_singleton, cut_self hb.uncut]
    | cons c bs =>
      have hbs : ∀ x ∈ c :: bs, IsBlock isHead sep x := fun x hx => h x (List.mem_cons_of_mem _ hx)
      have hjoin : [sep].intercalate (b :: c :: bs) = b ++ sep :: [sep].intercalate (c :: bs) := by
        rw [List.intercalate_cons_cons, List.append_assoc]
        rfl
      rw [hjoin, cut_append hb.uncut hsep (atHead_intercalate (hbs c List.mem_cons_self).head),
        ih (List.cons_ne_nil c bs) hbs]

end Cut

/-- Blocks are told from what is put together from them. -/
theorem join_inj {α : Type*} {isHead : α → Prop} {sep : α} (hsep : ¬isHead sep) {bs bs' : List (List α)}
    (hne : bs ≠ []) (hne' : bs' ≠ []) (h : ∀ b ∈ bs, IsBlock isHead sep b) (h' : ∀ b ∈ bs', IsBlock isHead sep b)
    (heq : [sep].intercalate bs = [sep].intercalate bs') : bs = bs' := by
  classical
  rw [← cut_join hsep hne h, heq, cut_join hsep hne' h']

end CodeQuery.Data.Blocks
