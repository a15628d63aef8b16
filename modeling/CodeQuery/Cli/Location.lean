/-
  CodeQuery.Cli.Location — the place that hover is asked about
  (`parse_location` of `codequery-cli/src/commands/hover.rs`).

  The text is cut at its last colon, and what is before that once more: with a number
  behind both, it is a file, a line and a column; with a number behind the last only, a
  file and a line. A path may have colons, also in front of numbers.

  Proved of every path, line and column (`parseLocation_printed`): what is printed with a
  column is read back. Without one it is read back exactly when the path does not end
  in a colon and a number of its own, which would be read as the line.
-/

import CodeQuery.Text.Chars

namespace CodeQuery.Cli.Hover

open CodeQuery.Text

/-- The file and the line, when a number is behind the last colon and something before it. -/
def fileAndLine (rest : List Char) : Option (List Char × Nat) :=
  match rfind ':' rest with
  | none => none
  | some secondColon =>
    if 0 < secondColon then
      match parseUsize (rest.drop (secondColon + 1)) with
      | .ok line => some (rest.take secondColon, line)
      | .error _ => none
    else none

def parseLocation (location : List Char) : Option (List Char × Nat × Nat) :=
  match rfind ':' location with
  | none => none
  | some lastColon =>
    if lastColon = 0 then none
    else
      match parseUsize (location.drop (lastColon + 1)) with
      | .error _ => none
      | .ok lastNum =>
        let rest := location.take lastColon
        match fileAndLine rest with
        | some (filePart, line) => if line = 0 then none else if filePart.isEmpty then none else some (filePart, line, lastNum)
        | none => if lastNum = 0 then none else if rest.isEmpty then none else some (rest, lastNum, 0)

/-- `{file}:{line}`. -/
def printLine (file : List Char) (line : Nat) : List Char := file ++ ':' :: Nat.toDigits 10 line

/-- `{file}:{line}:{col}`. -/
def printLocation (file : List Char) (line column : Nat) : List Char := printLine (printLine file line) column

/-- The path ends in a colon and a number, with something before these. -/
def EndsInNumber (file : List Char) : Prop :=
  ∃ dir number n, dir ≠ [] ∧ file = dir ++ ':' :: number ∧ parseUsize number = .ok n

theorem colon_not_mem_number {number : List Char} {n : Nat} (h : parseUsize number = .ok n) : ':' ∉ number := by
  intro hmem
  rcases parseUsize_chars h ':' hmem with hplus | hdigit
  · exact absurd hplus (by decide)
  · exact absurd hdigit (by decide)

/-- With a number behind its last colon, a text is read by what is before that. -/
theorem parseLocation_number {file number : List Char} {n : Nat} (hfile : file ≠ []) (h : parseUsize number = .ok n) :
    parseLocation (file ++ ':' :: number) =
      match fileAndLine file with
      | some (filePart, line) => if line = 0 then none else if filePart.isEmpty then none else some (filePart, line, n)
      | none => if n = 0 then none else some (file, n, 0) := by
  have hlength : file.length ≠ 0 := fun hzero => hfile (List.eq_nil_of_length_eq_zero hzero)
  have hempty : file.isEmpty = false := List.isEmpty_eq_false_iff.mpr hfile
  have hdrop : (file ++ ':' :: number).drop (file.length + 1) = number := List.drop_length_add_append 1
  have htake : (file ++ ':' :: number).take file.length = file := List.take_left
  rw [parseLocation, rfind_append file (colon_not_mem_number h)]
  simp only [hdrop, htake, h, if_neg hlength, hempty, Bool.false_eq_true, if_false]

theorem fileAndLine_number {dir number : List Char} {n : Nat} (hdir : dir ≠ []) (h : parseUsize number = .ok n) :
    fileAndLine (dir ++ ':' :: number) = some (dir, n) := by
  have hpos : 0 < dir.length := List.length_pos_iff.mpr hdir
  have hdrop : (dir ++ ':' :: number).drop (dir.length + 1) = number := List.drop_length_add_append 1
  rw [fileAndLine, rfind_append dir (colon_not_mem_number h)]
  simp only [hdrop, h, if_pos hpos, List.take_left]

theorem fileAndLine_eq_none_iff {file : List Char} : fileAndLine file = none ↔ ¬ EndsInNumber file := by
  constructor
  · intro hnone hends
    obtain ⟨dir, number, n, hdir, rfl, hnumber⟩ := hends
    rw [fileAndLine_number hdir hnumber] at hnone
    cases hnone
  · intro hends
    unfold fileAndLine
    split
    · rfl
    · rename_i secondColon hcolon
      obtain ⟨dir, number, rfl, rfl, -⟩ := rfind_eq_some hcolon
      split
      · rename_i hpos
        split
        · rename_i n hnumber
          refine absurd ⟨dir, number, n, List.length_pos_iff.mp hpos, rfl, ?_⟩ hends
          rwa [List.drop_length_add_append] at hnumber
        · rfl
      · rfl

/-- For every path, and every line and column that a text can name: with the column, all
    three are read back; without it the path and the line are, exactly when the path
    does not itself end in a colon and a number. -/
theorem parseLocation_printed {file : List Char} {line column : Nat} (hfile : file ≠ []) (hpos : 1 ≤ line)
    (hline : line < 2 ^ 64) (hcolumn : column < 2 ^ 64) :
    parseLocation (printLocation file line column) = some (file, line, column) ∧
      (parseLocation (printLine file line) = some (file, line, 0) ↔ ¬ EndsInNumber file) := by
  have hlineNumber : parseUsize (Nat.toDigits 10 line) = .ok line := parseUsize_toDigits hline
  have hempty : file.isEmpty = false := List.isEmpty_eq_false_iff.mpr hfile
  have hnonzero : line ≠ 0 := by omega
  constructor
  · have hprinted : printLine file line ≠ [] := List.append_ne_nil_of_left_ne_nil hfile _
    rw [printLocation, printLine, parseLocation_number hprinted (parseUsize_toDigits hcolumn), printLine,
      fileAndLine_number hfile hlineNumber]
    simp only [if_neg hnonzero, hempty, Bool.false_eq_true, if_false]
  · rw [← fileAndLine_eq_none_iff, printLine, parseLocation_number hfile hlineNumber]
    constructor
    · intro hread
      cases hpair : fileAndLine file with
      | none => rfl
      | some pair =>
        -- the number of the path would be the line, and the path be cut
        obtain ⟨filePart, pathLine⟩ := pair
        have hends : EndsInNumber file := by
          by_contra hends
          rw [fileAndLine_eq_none_iff.mpr hends] at hpair
          cases hpair
        obtain ⟨dir, number, n, hdir, rfl, hnumber⟩ := hends
        rw [fileAndLine_number hdir hnumber] at hread
        dsimp only at hread
        split at hread
        · cases hread
        · split at hread
          · cases hread
          · have hcut := congrArg (fun r => r.map fun parts => parts.1.length) hread
            simp at hcut
    · intro hnone
      rw [hnone]
      exact if_neg hnonzero

theorem parseLocation_printed_drive :
    parseLocation (printLocation "C:/src/main.rs".toList 10 4) = some ("C:/src/main.rs".toList, 10, 4) ∧
      (parseLocation (printLine "C:/src/main.rs".toList 10) = some ("C:/src/main.rs".toList, 10, 0) ↔
        ¬ EndsInNumber "C:/src/main.rs".toList) :=
  parseLocation_printed (by decide) (by decide) (by decide) (by decide)

end CodeQuery.Cli.Hover
