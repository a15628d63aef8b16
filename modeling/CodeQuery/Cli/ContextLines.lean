/-
  CodeQuery.Cli.ContextLines — the lines around a reference
  (`get_context_lines` of `codequery-cli/src/commands/refs.rs`).

  The window ends at a sum of the place and the size asked for, which is added before it
  is cut to the text: a sum that does not fit is a panic or is taken modulo 2^64, by the
  way the program is built. A size of 0 asks for no lines, the line itself included.

  - `getContextLines_window`: of a size from 1 on whose sum fits, the lines are those
    from `max(1, l - c)` to `min(n, l + c)`.
  - `no_lines_for_no_context`: with 0 there is none.
-/

import Mathlib.Algebra.Group.Nat.Defs
import CodeQuery.Text.Bytes

namespace CodeQuery.Cli.Refs

open CodeQuery.Text

/-- Whether sums are checked for overflow. -/
inductive Build where
  | debug
  | release
  deriving DecidableEq, Repr

/-- `a + b` of `usize` with 64 bits; `none` is a panic. -/
def addUsize (build : Build) (a b : Nat) : Option Nat :=
  if a + b < 2 ^ 64 then some (a + b)
  else
    match build with
    | .debug => none
    | .release => some ((a + b) % 2 ^ 64)

/-- `lines[start..end]`. -/
def slice (lines : List Str) (start stop : Nat) : Option (List Str) :=
  if start ≤ stop ∧ stop ≤ lines.length then some ((lines.take stop).drop start) else none

def getContextLines (build : Build) (source : Str) (refLine context : Nat) : Option (List Str) :=
  if context = 0 then some []
  else
    let total := (lines source).length
    if refLine = 0 ∨ refLine > total then some []
    else do
      let idx := refLine - 1
      let start := idx - context
      let reach ← addUsize build idx context
      let stop ← addUsize build reach 1
      slice (lines source) start (min stop total)

/-- The lines with the numbers from the first to the last. -/
def linesFromTo (source : Str) (first last : Nat) : List Str := ((lines source).take last).drop (first - 1)

theorem addUsize_of_lt {a b : Nat} (build : Build) (h : a + b < 2 ^ 64) : addUsize build a b = some (a + b) := if_pos h

/-- However the program is built, for every text and every line of it: no context is no
    lines, and else, as long as the last line asked for has a number, the lines are
    exactly those of the window. -/
theorem getContextLines_window (build : Build) (source : Str) (l c : Nat) (hl : 1 ≤ l) (hn : l ≤ (lines source).length) :
    (c = 0 → getContextLines build source l c = some []) ∧
      (1 ≤ c → l + c < 2 ^ 64 → getContextLines build source l c =
        some (linesFromTo source (max 1 (l - c)) (min (lines source).length (l + c)))) := by
  constructor
  · intro hc
    rw [getContextLines, if_pos hc]
  · intro hc hfits
    have hzero : c ≠ 0 := by omega
    have hinside : ¬ (l = 0 ∨ l > (lines source).length) := by omega
    have hreach : l - 1 + c + 1 = l + c := by omega
    have hstart : max 1 (l - c) - 1 = l - 1 - c := by omega
    have hbounds : l - 1 - c ≤ min (l + c) (lines source).length ∧ min (l + c) (lines source).length ≤ (lines source).length := by
      omega
    rw [getContextLines, if_neg hzero]
    dsimp only
    rw [if_neg hinside, addUsize_of_lt build (by omega)]
    simp only [Option.bind_eq_bind, Option.bind_some]
    rw [addUsize_of_lt build (by omega), Option.bind_some, hreach, slice, if_pos hbounds, linesFromTo, hstart, Nat.min_comm]

/-! ## No context -/

def threeLines : Str := str "a\nb\nc"

/-- One line is the window of 0 around it. -/
theorem no_lines_for_no_context :
    getContextLines .release threeLines 2 0 = some [] ∧
      linesFromTo threeLines (max 1 (2 - 0)) (min (lines threeLines).length (2 + 0)) = [str "b"] ∧
      getContextLines .release threeLines 2 0 ≠
        some (linesFromTo threeLines (max 1 (2 - 0)) (min (lines threeLines).length (2 + 0))) := by
  decide

theorem getContextLines_window_middle :
    (0 = 0 → getContextLines .debug threeLines 2 0 = some []) ∧
      (1 ≤ 1 → 2 + 1 < 2 ^ 64 → getContextLines .debug threeLines 2 1 =
        some (linesFromTo threeLines (max 1 (2 - 1)) (min (lines threeLines).length (2 + 1)))) :=
  ⟨(getContextLines_window .debug threeLines 2 0 (by decide) (by decide)).1,
    (getContextLines_window .debug threeLines 2 1 (by decide) (by decide)).2⟩

end CodeQuery.Cli.Refs
