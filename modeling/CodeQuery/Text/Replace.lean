/-
  CodeQuery.Text.Replace — the standard library's `matches`, `replace` and `replacen` with
  a text as the pattern.

  Matches do not overlap; the empty pattern is at every character boundary.
-/

import CodeQuery.Text.Bytes

namespace CodeQuery.Text

/-- The pattern is at the start of `b :: t`, which is a character boundary. -/
def matchesHere (pat : Str) (b : UInt8) (t : Str) : Bool :=
  pat.isPrefixOf (b :: t) && (!pat.isEmpty || !isContinuation b)

/-- The number of matches; the first argument is the bytes still to be left out. -/
def countFrom (pat : Str) : Nat → Str → Nat
  | 0, [] => if pat.isEmpty then 1 else 0
  | _ + 1, [] => 0
  | 0, b :: t => if matchesHere pat b t then countFrom pat (pat.length - 1) t + 1 else countFrom pat 0 t
  | k + 1, _ :: t => countFrom pat k t

/-- `s.matches(pat).count()`. -/
def countMatches (pat s : Str) : Nat := countFrom pat 0 s

/-- Up to `limit` matches with `new` in their place. -/
def replaceFrom (pat new : Str) : Nat → Nat → Str → Str
  | limit, 0, [] => if pat.isEmpty && 0 < limit then new else []
  | _, _ + 1, [] => []
  | limit, 0, b :: t =>
    if 0 < limit && matchesHere pat b t then
      new ++ (if pat.isEmpty then b :: replaceFrom pat new (limit - 1) 0 t
        else replaceFrom pat new (limit - 1) (pat.length - 1) t)
    else b :: replaceFrom pat new limit 0 t
  | limit, k + 1, _ :: t => replaceFrom pat new limit k t

/-- `s.replacen(pat, new, limit)`. -/
def replacen (pat new s : Str) (limit : Nat) : Str := replaceFrom pat new limit 0 s

/-- `s.replace(pat, new)`. -/
def replace (pat new s : Str) : Str := replacen pat new s (countMatches pat s)

example : countMatches (str "aa") (str "aaaa b") = 2 ∧ replace (str "aa") (str "x") (str "aaaa b") = str "xx b" := by decide

end CodeQuery.Text
