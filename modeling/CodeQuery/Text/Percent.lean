/-
  CodeQuery.Text.Percent — texts in the path of a URI.

  A character is written as it is, when the syntax of a path allows it, or as the escapes
  of its UTF-8 bytes, in digits of either case; a slash between two names is not escaped.
  `Encodes` is any such way of writing a text. An escape only makes a text longer, so what
  is as long as the text is the text (`Encodes.eq_of_length`), and the names of a path
  show it (`Encodes.segments`).
-/

import Mathlib.Algebra.GroupWithZero.Nat
import Mathlib.Data.List.Basic
import Mathlib.Data.List.Forall2

namespace CodeQuery.Text.Percent

/-! ## Escapes -/

/-- What a path may have unescaped: unreserved characters, sub-delimiters, `:`, `@` and
    the slash. -/
def isPathChar (c : Char) : Bool := c.isAlphanum || "-._~!$&'()*+,;=:@/".toList.contains c

def hexValue (c : Char) : Option Nat :=
  if c.isDigit then some (c.toNat - 48)
  else if 'a' ≤ c ∧ c ≤ 'f' then some (c.toNat - 87)
  else if 'A' ≤ c ∧ c ≤ 'F' then some (c.toNat - 55)
  else none

/-- The escapes of bytes, one after the other. -/
inductive Escapes : List UInt8 → List Char → Prop
  | nil : Escapes [] []
  | cons {b : UInt8} {high low : Char} {bs : List UInt8} {cs : List Char} : hexValue high = some (b.toNat / 16) →
      hexValue low = some (b.toNat % 16) → Escapes bs cs → Escapes (b :: bs) ('%' :: high :: low :: cs)

/-- `written` is the text with any of its characters escaped, and all that have to be. -/
inductive Encodes : List Char → List Char → Prop
  | nil : Encodes [] []
  | plain {c : Char} {text written : List Char} : isPathChar c = true → Encodes text written →
      Encodes (c :: text) (c :: written)
  | escaped {c : Char} {text escapes written : List Char} : c ≠ '/' → Escapes (String.utf8EncodeChar c) escapes →
      Encodes text written → Encodes (c :: text) (escapes ++ written)

theorem Escapes.length {bs : List UInt8} {cs : List Char} (h : Escapes bs cs) : cs.length = 3 * bs.length := by
  induction h with
  | nil => rfl
  | cons _ _ _ ih =>
    simp only [List.length_cons, ih]
    omega

theorem Escapes.no_slash {bs : List UInt8} {cs : List Char} (h : Escapes bs cs) : '/' ∉ cs := by
  have hslash : hexValue '/' = none := by decide
  induction h with
  | nil => exact List.not_mem_nil
  | cons hhigh hlow _ ih =>
    intro hmem
    rcases List.mem_cons.mp hmem with h | hmem
    · exact absurd h (by decide)
    rcases List.mem_cons.mp hmem with h | hmem
    · rw [← h, hslash] at hhigh
      cases hhigh
    rcases List.mem_cons.mp hmem with h | hmem
    · rw [← h, hslash] at hlow
      cases hlow
    · exact ih hmem

theorem Escapes.length_char {c : Char} {cs : List Char} (h : Escapes (String.utf8EncodeChar c) cs) : 3 ≤ cs.length := by
  have hpos := c.utf8Size_pos
  rw [h.length, String.length_utf8EncodeChar]
  omega

/-! ## Lengths -/

/-- An escape takes two characters more, and only a text of path characters is written as
    it is. -/
theorem Encodes.eq_or_longer {text written : List Char} (h : Encodes text written) :
    (text = written ∧ ∀ c ∈ text, isPathChar c = true) ∨ text.length + 2 ≤ written.length := by
  induction h with
  | nil => exact Or.inl ⟨rfl, fun c hc => absurd hc List.not_mem_nil⟩
  | plain hc _ ih =>
    rcases ih with ⟨rfl, hplain⟩ | ih
    · exact Or.inl ⟨rfl, List.forall_mem_cons.mpr ⟨hc, hplain⟩⟩
    · simp only [List.length_cons]
      omega
  | escaped _ hescapes _ ih =>
    have hthree := hescapes.length_char
    refine Or.inr ?_
    rw [List.length_append, List.length_cons]
    rcases ih with ⟨rfl, _⟩ | ih <;> omega

theorem Encodes.eq_of_length {text written : List Char} (h : Encodes text written) (hlen : text.length = written.length) :
    text = written ∧ ∀ c ∈ text, isPathChar c = true := by
  rcases h.eq_or_longer with h | h
  · exact h
  · omega

theorem encodes_self {text : List Char} : Encodes text text ↔ ∀ c ∈ text, isPathChar c = true := by
  refine ⟨fun h => (h.eq_of_length rfl).2, fun h => ?_⟩
  induction text with
  | nil => exact .nil
  | cons c text ih =>
    rw [List.forall_mem_cons] at h
    exact .plain h.1 (ih h.2)

/-- What is written without an escape is the text. -/
theorem Encodes.eq_of_plain {text written : List Char} (h : Encodes text written) (hplain : '%' ∉ written) :
    text = written := by
  induction h with
  | nil => rfl
  | plain _ _ ih => rw [ih fun hmem => hplain (List.mem_cons_of_mem _ hmem)]
  | escaped _ hescapes _ _ =>
    have hthree := hescapes.length_char
    generalize String.utf8EncodeChar _ = bytes at hescapes
    cases hescapes with
    | nil => exact absurd hthree (by decide)
    | cons _ _ _ => exact absurd List.mem_cons_self hplain

/-! ## Names between slashes -/

theorem splitOn_append_no_slash {before after : List Char} (h : '/' ∉ before) :
    (before ++ after).splitOn '/' = (after.splitOn '/').modifyHead (before ++ ·) := by
  induction before with
  | nil => cases hsplit : after.splitOn '/' <;> simp [hsplit]
  | cons c before ih =>
    rw [List.mem_cons, not_or] at h
    have hne : (c == '/') = false := by simpa using Ne.symm h.1
    rw [List.cons_append, List.splitOn_cons_eq_if_modifyHead, hne, ih h.2]
    cases after.splitOn '/' <;> rfl

theorem forall₂_modifyHead {α β : Type*} {R : α → β → Prop} {as : List α} {bs : List β} {f : α → α} {g : β → β}
    (h : List.Forall₂ R as bs) (hfg : ∀ a b, R a b → R (f a) (g b)) :
    List.Forall₂ R (as.modifyHead f) (bs.modifyHead g) := by
  cases h with
  | nil => exact .nil
  | cons h ht => exact .cons (hfg _ _ h) ht

/-- Name by name, what is written encodes the text. -/
theorem Encodes.segments {text written : List Char} (h : Encodes text written) :
    List.Forall₂ Encodes (text.splitOn '/') (written.splitOn '/') := by
  induction h with
  | nil => exact .cons .nil .nil
  | plain hc _ ih =>
    rw [List.splitOn_cons_eq_if_modifyHead, List.splitOn_cons_eq_if_modifyHead]
    split
    · exact .cons .nil ih
    · exact forall₂_modifyHead ih fun _ _ h => .plain hc h
  | @escaped c text escapes written hne hescapes _ ih =>
    have hslash : (c == '/') = false := by simpa using hne
    rw [List.splitOn_cons_eq_if_modifyHead, hslash, splitOn_append_no_slash hescapes.no_slash]
    exact forall₂_modifyHead ih fun _ _ h => .escaped hne hescapes h

/-- The length of a name, but for the empty name and `.`, which name nothing. -/
def nameLength (name : List Char) : Nat := if name = [] ∨ name = ['.'] then 0 else name.length

theorem Encodes.nameLength_le {name written : List Char} (h : Encodes name written) :
    nameLength name ≤ nameLength written ∧ (nameLength name = nameLength written → name = written) := by
  rcases h.eq_or_longer with ⟨rfl, _⟩ | hlonger
  · exact ⟨Nat.le_refl _, fun _ => rfl⟩
  · have hwritten : nameLength written = written.length := by
      refine if_neg fun h => ?_
      rcases h with rfl | rfl <;> simp at hlonger
    have hname : nameLength name ≤ name.length := by
      unfold nameLength
      split <;> omega
    omega

/-- Names as long, all together, as what is written for them are written as they are. -/
theorem forall₂_nameLength {names written : List (List Char)} (h : List.Forall₂ Encodes names written) :
    (names.map nameLength).sum ≤ (written.map nameLength).sum ∧
      ((names.map nameLength).sum = (written.map nameLength).sum → names = written) := by
  induction h with
  | nil => exact ⟨Nat.le_refl _, fun _ => rfl⟩
  | cons h _ ih =>
    obtain ⟨hle, heq⟩ := h.nameLength_le
    obtain ⟨hle', heq'⟩ := ih
    simp only [List.map_cons, List.sum_cons]
    refine ⟨by omega, fun hsum => ?_⟩
    rw [heq (by omega), heq' (by omega)]

theorem Encodes.eq_of_nameLength {text written : List Char} (h : Encodes text written)
    (hsum : ((text.splitOn '/').map nameLength).sum = ((written.splitOn '/').map nameLength).sum) : text = written := by
  have hnames := congrArg (['/'].intercalate ·) ((forall₂_nameLength h.segments).2 hsum)
  simpa only [List.intercalate_splitOn] using hnames

end CodeQuery.Text.Percent
