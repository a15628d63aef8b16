/-
  CodeQuery.Text.Bytes — byte strings, and the standard library's operations on them.

  A text is its UTF-8 bytes, since every length and column of the code is a byte
  count. `find`, `split_inclusive` and the `lines` built on it are given by
  recursion on the bytes; a line is kept with its terminator (`segments`), so that
  nothing of the text is lost (`segments_flatten`) until a caller drops it.
-/

import Mathlib.Data.List.Infix

namespace CodeQuery.Text

abbrev Str := List UInt8

/-- The bytes of a string. -/
def str (s : String) : Str := s.toUTF8.data.toList

def lf : UInt8 := 10
def cr : UInt8 := 13

/-! ## Characters -/

/-- `is_ascii_alphanumeric() || b'_'`. -/
def isWordByte (b : UInt8) : Bool :=
  (48 ≤ b && b ≤ 57) || (65 ≤ b && b ≤ 90) || (97 ≤ b && b ≤ 122) || b == 95

/-- A UTF-8 continuation byte, `10xxxxxx`. -/
def isContinuation (b : UInt8) : Bool := 128 ≤ b && b < 192

/-- `str::is_char_boundary`. -/
def isCharBoundary (s : Str) (i : Nat) : Bool :=
  i == 0 || i == s.length || (s[i]?).any (!isContinuation ·)

/-! ## Search -/

def findFrom (pat : Str) : Nat → Str → Option Nat
  | i, [] => if pat.isEmpty then some i else none
  | i, b :: t => if pat.isPrefixOf (b :: t) then some i else findFrom pat (i + 1) t

/-- `str::find`: where `pat` first occurs in `s`. -/
def find (pat s : Str) : Option Nat := findFrom pat 0 s

/-! ## Lines -/

/-- `split_inclusive('\n')`: the pieces of `s`, each up to and with its line feed. -/
def splitInclusive : Str → List Str
  | [] => []
  | b :: t =>
    if b = lf then [b] :: splitInclusive t
    else
      match splitInclusive t with
      | [] => [[b]]
      | l :: r => (b :: l) :: r

/-- A line and what ended it: a line feed, a carriage return and a line feed, or,
    for the last line only, nothing. -/
structure Segment where
  line : Str
  ending : Str
  deriving DecidableEq, Repr

/-- `strip_suffix('\n')`, then `strip_suffix('\r')`. -/
def Segment.ofPiece (p : Str) : Segment :=
  if p.getLast? = some lf then
    if p.dropLast.getLast? = some cr then ⟨p.dropLast.dropLast, [cr, lf]⟩ else ⟨p.dropLast, [lf]⟩
  else ⟨p, []⟩

def segments (s : Str) : List Segment := (splitInclusive s).map Segment.ofPiece

/-- `str::lines`. -/
def lines (s : Str) : List Str := (segments s).map Segment.line

def Segment.text (g : Segment) : Str := g.line ++ g.ending

theorem splitInclusive_flatten (s : Str) : (splitInclusive s).flatten = s := by
  induction s with
  | nil => rfl
  | cons b t ih =>
    simp only [splitInclusive]
    split
    · simp [ih]
    · split
      · rename_i h
        rw [h] at ih
        simpa using ih
      · rename_i l r h
        rw [h] at ih
        simpa using ih

theorem Segment.ofPiece_text (p : Str) : (Segment.ofPiece p).text = p := by
  unfold Segment.ofPiece Segment.text
  split
  · rename_i h
    split
    · rename_i h'
      calc p.dropLast.dropLast ++ [cr, lf] = (p.dropLast.dropLast ++ [cr]) ++ [lf] := by simp
        _ = p.dropLast ++ [lf] := by rw [List.dropLast_append_getLast? cr h']
        _ = p := List.dropLast_append_getLast? lf h
    · exact List.dropLast_append_getLast? lf h
  · simp

/-- The lines with their endings are the whole text. -/
theorem segments_flatten (s : Str) : ((segments s).map Segment.text).flatten = s := by
  have : (segments s).map Segment.text = splitInclusive s := by
    simp [segments, Function.comp_def, Segment.ofPiece_text]
  rw [this, splitInclusive_flatten]

/-- A piece before the last ends in a line feed. -/
theorem splitInclusive_ends (s : Str) :
    ∀ l p r, splitInclusive s = l ++ p :: r → r ≠ [] → p.getLast? = some lf := by
  induction s with
  | nil => intro l p r h; simp [splitInclusive] at h
  | cons b t ih =>
    intro l p r h hr
    simp only [splitInclusive] at h
    split at h
    · rename_i hb
      cases l with
      | nil => cases h; simp [hb]
      | cons x l => exact ih l p r (List.cons.inj h).2 hr
    · split at h
      · cases l with
        | nil => cases h; contradiction
        | cons x l => simp at h
      · rename_i q qs h'
        cases l with
        | nil =>
          cases h
          have := ih [] q r h' hr
          cases q with
          | nil => simp at this
          | cons x q => simpa using this
        | cons x l =>
          exact ih (q :: l) p r (by rw [h', (List.cons.inj h).2]; rfl) hr

/-- A line with its line feed is the first piece. -/
theorem splitInclusive_line {l : Str} (h : lf ∉ l) (s : Str) :
    splitInclusive (l ++ lf :: s) = (l ++ [lf]) :: splitInclusive s := by
  induction l with
  | nil => simp [splitInclusive]
  | cons b l ih =>
    have hb : b ≠ lf := fun he => h (he ▸ List.mem_cons_self ..)
    have ih' := ih fun hm => h (List.mem_cons_of_mem _ hm)
    simp only [List.cons_append, splitInclusive, hb, if_false, ih']

theorem splitInclusive_ne_nil (s : Str) : ∀ p ∈ splitInclusive s, p ≠ [] := by
  induction s with
  | nil => intro p hp; simp [splitInclusive] at hp
  | cons b t ih =>
    intro p hp
    simp only [splitInclusive] at hp
    split at hp
    · rcases List.mem_cons.mp hp with rfl | hp
      · simp
      · exact ih p hp
    · split at hp
      · simp at hp; simp [hp]
      · rename_i l r h
        rcases List.mem_cons.mp hp with rfl | hp
        · simp
        · exact ih p (by rw [h]; exact List.mem_cons_of_mem _ hp)

end CodeQuery.Text
