/-
  CodeQuery.Index.Grep — the text pre-filter (`codequery-index/src/grep.rs`).

  The search goes from one occurrence to the next, one byte on from each that is inside
  a longer word. `find` stands for the finder of the memmem crate, by its documented
  result: the first occurrence, if there is one. The search ends, reads no byte out of
  bounds, and is true exactly when a word that is not empty stands in the data by itself
  (`dataContainsWord_iff`). The empty word is never found, though it stands in any data
  without word bytes (`the_empty_word_is_not_found`).
-/

import CodeQuery.Index.Scanner
import CodeQuery.Text.Search

namespace CodeQuery.Index

open CodeQuery.Core CodeQuery.Text

/-! ## The search -/

/-- `is_word_boundary`; `none` is an index out of bounds. -/
def isWordBoundary (data : Str) (pos len : Nat) : Option Bool := do
  let wordBefore ← if 0 < pos then (data[pos - 1]?).map isWordByte else some false
  if wordBefore then
    some false
  else
    let stop := pos + len
    let wordAfter ← if stop < data.length then (data[stop]?).map isWordByte else some false
    some (!wordAfter)

/-- `&data[start..]`. -/
def sliceFrom (data : Str) (start : Nat) : Option Str := if start ≤ data.length then some (data.drop start) else none

/-- The loop of `data_contains_word`. -/
def searchFrom (needle data : Str) (start : Nat) : Option Bool :=
  if start ≤ data.length then
    match sliceFrom data start with
    | none => none
    | some rest =>
      match find needle rest with
      | none => some false
      | some pos =>
        match isWordBoundary data (start + pos) needle.length with
        | none => none
        | some true => some true
        | some false => searchFrom needle data (start + pos + 1)
  else some false
termination_by data.length + 1 - start

def dataContainsWord (data needle : Str) : Option Bool := if needle.isEmpty then some false else searchFrom needle data 0

/-- `file_contains_word`: a file is read, or mapped when it is long; `none` is an error. -/
def fileContainsWord (d : Disk) (p : Path) (word : Str) : Option Bool :=
  (d.file p).bind fun f => if f.content.length = 0 then some false else dataContainsWord f.content word

def filterFiles (d : Disk) (root : Path) (word : Str) (files : List Path) : List Path :=
  files.filter fun f => (fileContainsWord d (root.join f) word).getD false

/-! ## What it finds -/

/-- On an occurrence, the boundary check is in bounds and says whether the word stands
    there by itself. -/
theorem isWordBoundary_spec {word data : Str} {pos : Nat} (hle : pos ≤ data.length) (hhere : word <+: data.drop pos) :
    ∃ boundary, isWordBoundary data pos word.length = some boundary ∧ (boundary = true ↔ StandsAt word data pos) := by
  rw [standsAt_iff, getLast?_take hle, isWordBoundary]
  simp only [hle, hhere, true_and]
  by_cases hpos : 0 < pos
  · rw [if_pos hpos, if_pos hpos, List.getElem?_eq_getElem (show pos - 1 < data.length by omega)]
    cases hword : isWordByte data[pos - 1] with
    | true => exact ⟨false, by simp [hword], by simp [hword]⟩
    | false =>
      by_cases hstop : pos + word.length < data.length
      · exact ⟨!isWordByte data[pos + word.length], by simp [hword, hstop], by simp [hword, hstop]⟩
      · exact ⟨true, by simp [hword, hstop], by simp [hword, List.getElem?_eq_none (Nat.le_of_not_lt hstop)]⟩
  · rw [if_neg hpos, if_neg hpos]
    by_cases hstop : pos + word.length < data.length
    · exact ⟨!isWordByte data[pos + word.length], by simp [hstop], by simp [hstop]⟩
    · exact ⟨true, by simp [hstop], by simp [List.getElem?_eq_none (Nat.le_of_not_lt hstop)]⟩

/-- From a start on, the loop finds the word where it stands from there on. -/
theorem searchFrom_spec {needle : Str} (hne : needle ≠ []) (data : Str) (start : Nat) :
    ∃ found, searchFrom needle data start = some found ∧ (found = true ↔ ∃ pos, start ≤ pos ∧ StandsAt needle data pos) := by
  rw [searchFrom]
  by_cases hstart : start ≤ data.length
  · rw [if_pos hstart, sliceFrom, if_pos hstart]
    cases hfind : find needle (data.drop start) with
    | none =>
      simp only [hfind]
      refine ⟨false, rfl, iff_of_false Bool.false_ne_true ?_⟩
      intro h
      obtain ⟨pos, hle, hstands⟩ := h
      obtain ⟨-, hhere, -⟩ := standsAt_iff.mp hstands
      obtain ⟨offset, hfound, -⟩ := find_drop_le hhere hle
      rw [hfind] at hfound
      cases hfound
    | some pos =>
      obtain ⟨hlength, hhere, -⟩ := find_eq_some_iff.mp hfind
      rw [List.length_drop] at hlength
      rw [List.drop_drop] at hhere
      obtain ⟨boundary, hboundary, hstands⟩ := isWordBoundary_spec (by omega) hhere
      -- nothing stands between the start and the occurrence
      have hskip : ∀ q, start ≤ q → StandsAt needle data q → start + pos ≤ q := by
        intro q hle hq
        obtain ⟨-, hplace, -⟩ := standsAt_iff.mp hq
        obtain ⟨offset, hfound, hoffset⟩ := find_drop_le hplace hle
        rw [hfind] at hfound
        cases hfound
        exact hoffset
      simp only [hfind, hboundary]
      cases boundary with
      | true => exact ⟨true, rfl, iff_of_true rfl ⟨start + pos, by omega, hstands.mp rfl⟩⟩
      | false =>
        obtain ⟨found, hfound, hiff⟩ := searchFrom_spec hne data (start + pos + 1)
        refine ⟨found, hfound, hiff.trans ?_⟩
        constructor
        · intro h
          obtain ⟨q, hle, hq⟩ := h
          exact ⟨q, by omega, hq⟩
        · intro h
          obtain ⟨q, hle, hq⟩ := h
          have hge := hskip q hle hq
          have hnot : q ≠ start + pos := by
            rintro rfl
            exact Bool.false_ne_true (hstands.mpr hq)
          exact ⟨q, by omega, hq⟩
  · refine ⟨false, by rw [if_neg hstart], iff_of_false Bool.false_ne_true ?_⟩
    intro h
    obtain ⟨pos, hle, hstands⟩ := h
    obtain ⟨hin, -⟩ := standsAt_iff.mp hstands
    omega
termination_by data.length + 1 - start

/-- For every data and word, the search gives an answer without reading out of bounds, and
    it is true exactly when the word is not empty and stands in the data by itself. -/
theorem dataContainsWord_iff (data word : Str) :
    ∃ found, dataContainsWord data word = some found ∧
      (found = true ↔ word ≠ [] ∧ ∃ pos, StandsAt word data pos) := by
  unfold dataContainsWord
  by_cases hempty : word = []
  · exact ⟨false, by simp [hempty], by simp [hempty]⟩
  · obtain ⟨found, hfound, hiff⟩ := searchFrom_spec hempty data 0
    refine ⟨found, by simpa [hempty] using hfound, ?_⟩
    rw [hiff]
    simp [hempty]

/-- The empty word stands in the empty data, and is not found there. -/
theorem the_empty_word_is_not_found : dataContainsWord [] [] = some false ∧ StandsAt [] [] 0 :=
  ⟨rfl, [], [], rfl, rfl, rfl, rfl⟩

end CodeQuery.Index
