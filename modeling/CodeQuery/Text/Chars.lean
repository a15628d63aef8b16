/-
  CodeQuery.Text.Chars — the standard library's `trim`, `strip_prefix` and `parse::<usize>`,
  on the characters of a text.

  A number in decimal is read back from its digits (`parseUsize_toDigits`), and only
  digits, or a plus sign and digits, are one (`parseUsize_chars`); blanks behind a text
  that does not end in one are trimmed off (`trimEnd_blanks`). A text is cut at the last
  place of a character (`rfind_append`).
-/

import Mathlib.Algebra.Group.Nat.Defs
import Mathlib.Data.List.Basic
import Mathlib.Data.List.TakeWhile

namespace CodeQuery.Text

/-- `char::is_whitespace`: Unicode White_Space. -/
def isWhitespace (c : Char) : Bool :=
  let n := c.toNat
  (9 ≤ n && n ≤ 13) || n == 0x20 || n == 0x85 || n == 0xA0 || n == 0x1680 || (0x2000 ≤ n && n ≤ 0x200A) ||
    n == 0x2028 || n == 0x2029 || n == 0x202F || n == 0x205F || n == 0x3000

def trimStart (cs : List Char) : List Char := cs.dropWhile isWhitespace

def trimEnd (cs : List Char) : List Char := (cs.reverse.dropWhile isWhitespace).reverse

def trim (cs : List Char) : List Char := trimEnd (trimStart cs)

def stripPrefix (pre cs : List Char) : Option (List Char) :=
  if pre.isPrefixOf cs then some (cs.drop pre.length) else none

theorem stripPrefix_eq_some_iff {pre cs rest : List Char} : stripPrefix pre cs = some rest ↔ cs = pre ++ rest := by
  unfold stripPrefix
  split
  next h =>
    obtain ⟨t, rfl⟩ := List.isPrefixOf_iff_prefix.mp h
    simp [eq_comm]
  next h =>
    refine iff_of_false (by simp) fun hcs => h (List.isPrefixOf_iff_prefix.mpr ?_)
    rw [hcs]
    exact List.prefix_append pre rest

theorem trimStart_head {c : Char} {cs : List Char} (h : isWhitespace c = false) : trimStart (c :: cs) = c :: cs := by
  simp [trimStart, h]

/-- A character that is no blank survives trimming the end, with all before it. -/
theorem trimEnd_append_cons {c : Char} (cs ws : List Char) (h : isWhitespace c = false) :
    trimEnd (cs ++ c :: ws) = cs ++ c :: trimEnd ws := by
  have hrev : (cs ++ c :: ws).reverse = ws.reverse ++ c :: cs.reverse := by simp
  rw [trimEnd, hrev, List.dropWhile_append]
  split
  · rename_i he
    have hnil : ws.reverse.dropWhile isWhitespace = [] := by simpa using he
    simp [trimEnd, hnil, h]
  · simp [trimEnd]

theorem trimEnd_blanks {c : Char} {cs ws : List Char} (h : isWhitespace c = false)
    (hws : ∀ w ∈ ws, isWhitespace w = true) : trimEnd (cs ++ c :: ws) = cs ++ [c] := by
  have hrev : (cs ++ c :: ws).reverse = ws.reverse ++ c :: cs.reverse := by simp
  rw [trimEnd, hrev, List.dropWhile_append_of_pos (fun w hw => hws w (List.mem_reverse.mp hw))]
  simp [h]

/-! ## Numbers -/

inductive ParseIntError where
  | empty
  | invalidDigit
  | posOverflow
  deriving DecidableEq, Repr

/-- One digit after the other, both steps of each checked for overflow. -/
def parseDigits : Nat → List Char → Except ParseIntError Nat
  | acc, [] => .ok acc
  | acc, c :: cs =>
    if c.isDigit then
      if acc * 10 < 2 ^ 64 ∧ acc * 10 + (c.toNat - '0'.toNat) < 2 ^ 64 then
        parseDigits (acc * 10 + (c.toNat - '0'.toNat)) cs
      else .error .posOverflow
    else .error .invalidDigit

/-- `str::parse::<usize>` with 64 bits: a plus sign may stand in front. -/
def parseUsize (cs : List Char) : Except ParseIntError Nat :=
  match cs with
  | [] => .error .empty
  | ['+'] => .error .invalidDigit
  | '+' :: t => parseDigits 0 t
  | _ => parseDigits 0 cs

theorem le_ofDigitChars : ∀ (cs : List Char) (acc : Nat), acc ≤ Nat.ofDigitChars 10 cs acc
  | [], acc => by simp
  | c :: cs, acc => by
    have := le_ofDigitChars cs (10 * acc + (c.toNat - '0'.toNat))
    rw [Nat.ofDigitChars_cons]
    omega

theorem parseDigits_ok : ∀ (cs : List Char) (acc : Nat), (∀ c ∈ cs, c.isDigit = true) →
    Nat.ofDigitChars 10 cs acc < 2 ^ 64 → parseDigits acc cs = .ok (Nat.ofDigitChars 10 cs acc)
  | [], acc, _, _ => by simp [parseDigits]
  | c :: cs, acc, hd, hlt => by
    rw [Nat.ofDigitChars_cons] at hlt
    have hle := le_ofDigitChars cs (10 * acc + (c.toNat - '0'.toNat))
    have hb : acc * 10 < 2 ^ 64 ∧ acc * 10 + (c.toNat - '0'.toNat) < 2 ^ 64 := by
      constructor <;> omega
    have ih := parseDigits_ok cs (10 * acc + (c.toNat - '0'.toNat)) (fun x hx => hd x (List.mem_cons_of_mem _ hx)) hlt
    rw [parseDigits, if_pos (hd c (List.mem_cons_self ..)), if_pos hb, Nat.mul_comm acc 10, ih, Nat.ofDigitChars_cons]

/-- A number that fits is read back from its digits. -/
theorem parseUsize_toDigits {n : Nat} (h : n < 2 ^ 64) : parseUsize (Nat.toDigits 10 n) = .ok n := by
  have hdigit : ∀ c ∈ Nat.toDigits 10 n, c.isDigit = true :=
    fun c hc => Nat.isDigit_of_mem_toDigits (by decide) (by decide) hc
  have hok : parseDigits 0 (Nat.toDigits 10 n) = .ok n := by
    have := parseDigits_ok (Nat.toDigits 10 n) 0 hdigit (by simpa using h)
    simpa using this
  have hplus : '+' ∉ Nat.toDigits 10 n := fun hm => absurd (hdigit _ hm) (by decide)
  unfold parseUsize
  split
  · rename_i he; exact absurd he Nat.toDigits_ne_nil
  · rename_i he; rw [he] at hplus; simp at hplus
  · rename_i he; rw [he] at hplus; simp at hplus
  · exact hok

theorem parseDigits_chars : ∀ {cs : List Char} {acc n : Nat}, parseDigits acc cs = .ok n → ∀ c ∈ cs, c.isDigit = true
  | [], _, _, _ => fun _ hc => absurd hc List.not_mem_nil
  | c :: cs, acc, n, h => by
    rw [parseDigits] at h
    split at h
    · rename_i hdigit
      split at h
      · intro d hd
        rcases List.mem_cons.mp hd with rfl | hd
        · exact hdigit
        · exact parseDigits_chars h d hd
      · cases h
    · cases h

/-- What is read as a number is of digits, but for a plus sign in front. -/
theorem parseUsize_chars {cs : List Char} {n : Nat} (h : parseUsize cs = .ok n) : ∀ c ∈ cs, c = '+' ∨ c.isDigit = true := by
  unfold parseUsize at h
  split at h
  · cases h
  · cases h
  · intro c hc
    rcases List.mem_cons.mp hc with rfl | hc
    · exact .inl rfl
    · exact .inr (parseDigits_chars h c hc)
  · exact fun c hc => .inr (parseDigits_chars h c hc)

/-- A digit is no blank. -/
theorem isWhitespace_of_isDigit {c : Char} (h : c.isDigit = true) : isWhitespace c = false := by
  have h' : 48 ≤ c.toNat ∧ c.toNat ≤ 57 := by
    simp only [Char.isDigit, Bool.and_eq_true, decide_eq_true_eq, ge_iff_le, UInt32.le_iff_toNat_le] at h
    exact h
  simp only [isWhitespace, Bool.or_eq_false_iff, Bool.and_eq_false_iff, decide_eq_false_iff_not, beq_eq_false_iff_ne]
  omega

/-! ## The last place of a character -/

/-- `str::rfind` of a character. -/
def rfind (c : Char) : List Char → Option Nat
  | [] => none
  | d :: cs =>
    match rfind c cs with
    | some i => some (i + 1)
    | none => if d = c then some 0 else none

theorem rfind_eq_none_iff {c : Char} {cs : List Char} : rfind c cs = none ↔ c ∉ cs := by
  induction cs with
  | nil => simp [rfind]
  | cons d cs ih =>
    rw [rfind, List.mem_cons, not_or, ← ih]
    cases rfind c cs with
    | none => simp [eq_comm]
    | some i => simp

theorem rfind_append {c : Char} (pre : List Char) {post : List Char} (h : c ∉ post) :
    rfind c (pre ++ c :: post) = some pre.length := by
  induction pre with
  | nil => rw [List.nil_append, rfind, rfind_eq_none_iff.mpr h, if_pos rfl, List.length_nil]
  | cons d pre ih => rw [List.cons_append, rfind, ih, List.length_cons]

/-- What is behind the last place does not contain the character. -/
theorem rfind_eq_some {c : Char} {cs : List Char} {i : Nat} (h : rfind c cs = some i) :
    ∃ pre post, cs = pre ++ c :: post ∧ pre.length = i ∧ c ∉ post := by
  induction cs generalizing i with
  | nil => cases h
  | cons d cs ih =>
    rw [rfind] at h
    split at h
    · rename_i j hj
      obtain ⟨pre, post, rfl, rfl, hpost⟩ := ih hj
      cases h
      exact ⟨d :: pre, post, rfl, rfl, hpost⟩
    · rename_i hnone
      split at h
      · rename_i hd
        cases h
        exact ⟨[], cs, by rw [hd, List.nil_append], rfl, rfind_eq_none_iff.mp hnone⟩
      · cases h

end CodeQuery.Text
