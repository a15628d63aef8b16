/-
  CodeQuery.Text.Words — words by character and by byte.

  A word character is one byte, and no byte of a longer character is a word byte: the
  run of word bytes of a text is the run of its ASCII word characters
  (`takeWhile_isWordByte_str`).
-/

import CodeQuery.Text.Utf8
import Mathlib.Data.List.TakeWhile

namespace CodeQuery.Text

/-- An ASCII letter or digit, or an underscore. -/
def isWordChar (c : Char) : Bool := c.isAlphanum || c == '_'

theorem isWordChar_ranges (c : Char) : isWordChar c =
    (((decide (c.val ≥ 'A'.val ∧ c.val ≤ 'Z'.val) || (c.val ≥ 'a'.val && c.val ≤ 'z'.val)) ||
      (c.val ≥ '0'.val && c.val ≤ '9'.val)) || c == '_') := rfl

theorem isWordChar_lt {c : Char} (h : isWordChar c = true) : c.val.toNat < 128 := by
  simp only [isWordChar_ranges, Bool.or_eq_true, Bool.and_eq_true, decide_eq_true_eq, beq_iff_eq,
    UInt32.le_iff_toNat_le, ge_iff_le] at h
  rcases h with h | rfl
  · have hZ : 'Z'.val.toNat = 90 := rfl
    have hz : 'z'.val.toNat = 122 := rfl
    have h9 : '9'.val.toNat = 57 := rfl
    omega
  · decide

theorem ascii_encoded : ∀ n, n < 128 →
    String.utf8EncodeChar (Char.ofNat n) = [UInt8.ofNat n] ∧
      isWordByte (UInt8.ofNat n) = isWordChar (Char.ofNat n) := by
  decide +kernel

theorem utf8EncodeChar_ascii {c : Char} (h : c.val.toNat < 128) :
    String.utf8EncodeChar c = [UInt8.ofNat c.val.toNat] ∧ isWordByte (UInt8.ofNat c.val.toNat) = isWordChar c := by
  have hc : Char.ofNat c.val.toNat = c := Char.ofNat_toNat c
  have henc := ascii_encoded c.val.toNat h
  rwa [hc] at henc

theorem isWordByte_lt {b : UInt8} (h : isWordByte b = true) : b.toNat < 128 := by
  simp only [isWordByte, Bool.or_eq_true, Bool.and_eq_true, decide_eq_true_eq, beq_iff_eq, UInt8.le_iff_toNat_le] at h
  rcases h with h | rfl
  · have h9 : (57 : UInt8).toNat = 57 := rfl
    have hZ : (90 : UInt8).toNat = 90 := rfl
    have hz : (122 : UInt8).toNat = 122 := rfl
    omega
  · decide

/-- No byte of a character is a word byte but of a word character. -/
theorem utf8EncodeChar_no_word {c : Char} (h : isWordChar c = false) :
    ∀ b ∈ String.utf8EncodeChar c, isWordByte b = false := by
  intro b hb
  by_cases hc : c.val.toNat < 128
  · obtain ⟨henc, hword⟩ := utf8EncodeChar_ascii hc
    rw [henc] at hb
    rw [List.mem_singleton.mp hb, hword, h]
  · have hbyte : ¬ b.toNat < 128 := by
      rcases utf8EncodeChar_bytes c b hb with heq | hge <;> omega
    rw [Bool.eq_false_iff]
    exact fun hw => hbyte (isWordByte_lt hw)

/-- The bytes of a character begin with a word byte only if it is a word character. -/
theorem utf8EncodeChar_not_word {c : Char} (h : isWordChar c = false) :
    (String.utf8EncodeChar c).head?.all (!isWordByte ·) = true := by
  rw [Option.all_eq_true]
  intro b hb
  rw [utf8EncodeChar_no_word h b (List.mem_of_mem_head? hb)]
  rfl

/-- What is taken from the front of a list: up to where the next does not fit, or the end. -/
theorem takeWhile_eq_iff {α : Type*} {p : α → Bool} {l t : List α} :
    l.takeWhile p = t ↔ (∀ a ∈ t, p a = true) ∧ ∃ rest, l = t ++ rest ∧ ∀ a, rest.head? = some a → p a = false := by
  constructor
  · rintro rfl
    refine ⟨fun a ha => List.mem_takeWhile_imp ha, l.dropWhile p, (List.takeWhile_append_dropWhile).symm, fun a ha => ?_⟩
    have hhead := List.head?_dropWhile_not p l
    rw [ha] at hhead
    simpa using hhead
  · rintro ⟨hall, rest, rfl, hrest⟩
    rw [List.takeWhile_append_of_pos hall]
    cases rest with
    | nil => simp
    | cons a rest => rw [List.takeWhile_cons_of_neg (by simp [hrest a rfl]), List.append_nil]

theorem takeWhile_isWordByte_flatMap (cs : List Char) :
    (cs.flatMap String.utf8EncodeChar).takeWhile isWordByte =
      (cs.takeWhile isWordChar).flatMap String.utf8EncodeChar := by
  induction cs with
  | nil => rfl
  | cons c cs ih =>
    rw [List.flatMap_cons]
    cases hc : isWordChar c with
    | true =>
      obtain ⟨henc, hword⟩ := utf8EncodeChar_ascii (isWordChar_lt hc)
      rw [List.takeWhile_cons_of_pos hc, List.flatMap_cons, henc, List.singleton_append,
        List.takeWhile_cons_of_pos (hword.trans hc), ih, List.singleton_append]
    | false =>
      rw [List.takeWhile_cons_of_neg (by simp [hc]), List.flatMap_nil]
      have hhead := utf8EncodeChar_not_word hc
      cases henc : String.utf8EncodeChar c with
      | nil => exact absurd henc String.utf8EncodeChar_ne_nil
      | cons b bs =>
        rw [henc] at hhead
        rw [List.cons_append, List.takeWhile_cons_of_neg (by simpa using hhead)]

/-- The run of word bytes a text begins with is its run of word characters. -/
theorem takeWhile_isWordByte_str (s : String) :
    (str s).takeWhile isWordByte = str (String.ofList (s.toList.takeWhile isWordChar)) := by
  rw [str_eq_flatMap s, takeWhile_isWordByte_flatMap, str_eq_flatMap, String.toList_ofList]

theorem str_injective : Function.Injective str := by
  intro s t h
  have hs := fromUtf8_str s
  rw [h, fromUtf8_str t] at hs
  exact (Option.some.inj hs).symm

theorem toString_nat_inj {m n : Nat} (h : toString m = toString n) : m = n := by
  have hrepr : (Nat.repr m).toList = (Nat.repr n).toList := congrArg String.toList h
  rw [Nat.toList_repr, Nat.toList_repr] at hrepr
  have hdigits := congrArg (Nat.ofDigitChars 10 · 0) hrepr
  simpa using hdigits

theorem str_eq_nil {s : String} : str s = [] ↔ s = "" := by
  rw [show ([] : Str) = str "" by decide]
  exact str_injective.eq_iff

end CodeQuery.Text
