/-
  CodeQuery.Text.Utf8 — the texts among the byte strings.
-/

import CodeQuery.Text.Bytes

namespace CodeQuery.Text

/-- `String::from_utf8`. -/
def fromUtf8 (b : Str) : Option String := String.fromUTF8? ⟨b.toArray⟩

@[simp] theorem fromUtf8_str (s : String) : fromUtf8 (str s) = some s := by
  have h : (⟨(str s).toArray⟩ : ByteArray) = s.toByteArray := by simp [str]
  simp only [fromUtf8, h, String.fromUTF8?, s.isValidUTF8, dif_pos]
  rfl

theorem str_of_fromUtf8 {b : Str} {s : String} (h : fromUtf8 b = some s) : str s = b := by
  simp only [fromUtf8, String.fromUTF8?] at h
  split at h
  · cases h
    rfl
  · cases h

@[simp] theorem str_append (s t : String) : str (s ++ t) = str s ++ str t := by simp [str]

/-- The bytes of a text are those of its characters, one after the other. -/
theorem str_eq_flatMap (s : String) : str s = s.toList.flatMap String.utf8EncodeChar := by
  have h := String.toByteArray_ofList (l := s.toList)
  rw [String.ofList_toList] at h
  simp [str, String.toUTF8, h, List.utf8Encode]

theorem char_lt (c : Char) : c.val.toNat < 0x110000 := by
  have := c.valid
  simp only [UInt32.isValidChar, Nat.isValidChar] at this
  omega

/-- The first byte of a character is no continuation byte. -/
theorem utf8EncodeChar_head (c : Char) {b : UInt8} (h : (String.utf8EncodeChar c).head? = some b) :
    isContinuation b = false := by
  have hlt : c.val.toNat < 0x110000 := char_lt c
  have key : ∀ n : Nat, n < 256 → (n < 128 ∨ 192 ≤ n) → isContinuation (UInt8.ofNat n) = false := by
    intro n hn hc
    have hto : (UInt8.ofNat n).toNat = n := UInt8.toNat_ofNat_of_lt' hn
    simp only [isContinuation, Bool.and_eq_false_iff, decide_eq_false_iff_not, UInt8.le_iff_toNat_le,
      UInt8.lt_iff_toNat_lt, hto]
    rcases hc with hc | hc
    · left; show ¬ 128 ≤ n; omega
    · right; show ¬ n < 192; omega
  simp only [String.utf8EncodeChar] at h
  split at h
  · cases h; exact key _ (by omega) (by omega)
  · split at h
    · cases h; exact key _ (by omega) (by omega)
    · split at h
      · cases h; exact key _ (by omega) (by omega)
      · cases h; exact key _ (by omega) (by omega)

theorem str_head {s : String} {b : UInt8} (h : (str s).head? = some b) : isContinuation b = false := by
  rw [str_eq_flatMap] at h
  cases hl : s.toList with
  | nil => simp [hl] at h
  | cons c cs =>
    rw [hl, List.flatMap_cons, List.head?_append_of_ne_nil _ String.utf8EncodeChar_ne_nil] at h
    exact utf8EncodeChar_head c h

/-- A character is one byte of its own, or all its bytes are 128 and more. -/
theorem utf8EncodeChar_bytes (c : Char) :
    ∀ b ∈ String.utf8EncodeChar c, b.toNat = c.val.toNat ∨ 128 ≤ b.toNat := by
  have hlt : c.val.toNat < 0x110000 := char_lt c
  simp only [String.utf8EncodeChar]
  split
  · simp only [List.mem_singleton, forall_eq, UInt8.toNat_ofNat']
    omega
  · -- a lead byte from 192 on, then continuation bytes
    repeat' split
    all_goals
      simp only [List.mem_cons, List.not_mem_nil, or_false, forall_eq_or_imp, forall_eq, UInt8.toNat_ofNat']
      omega

theorem ascii_mem_utf8EncodeChar {c : Char} {b : UInt8} (hb : b.toNat < 128) (h : b ∈ String.utf8EncodeChar c) :
    c.val.toNat = b.toNat := by
  rcases utf8EncodeChar_bytes c b h with heq | hge
  · exact heq.symm
  · omega

/-- An ASCII byte in a text is one of its characters. -/
theorem ascii_mem_str {s : String} {c : Char} {b : UInt8} (hb : b.toNat < 128) (hc : c.val.toNat = b.toNat)
    (h : b ∈ str s) : c ∈ s.toList := by
  rw [str_eq_flatMap] at h
  obtain ⟨d, hd, hmem⟩ := List.mem_flatMap.mp h
  have hval : d.val.toNat = c.val.toNat := (ascii_mem_utf8EncodeChar hb hmem).trans hc.symm
  have heq : d = c := Char.ext (UInt32.toNat_inj.mp hval)
  rwa [← heq]

theorem lf_mem_str {s : String} (h : lf ∈ str s) : '\n' ∈ s.toList := ascii_mem_str (by decide) (by decide) h

/-- A line of text is the first piece of what it begins. -/
theorem splitInclusive_str {t : String} (h : '\n' ∉ t.toList) (s : Str) :
    splitInclusive (str (t ++ "\n") ++ s) = str (t ++ "\n") :: splitInclusive s := by
  have hs := splitInclusive_line (fun hm => h (lf_mem_str hm) : lf ∉ str t) s
  have hlf : str "\n" = [lf] := by decide
  rw [str_append, hlf, List.append_assoc]
  exact hs

end CodeQuery.Text
