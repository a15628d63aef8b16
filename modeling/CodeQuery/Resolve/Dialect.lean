/-
  CodeQuery.Resolve.Dialect — the rules of one dialect in a rule file
  (`preprocess_dialect` of `codequery-resolve/src/plugin_rules.rs`).

  A line that begins with `#dialect` or `#end` behind blanks and semicolons is a marker
  (`IsMarker`). The lines are read with a filter, which is at each of them what the
  nearest marker in front says (`step_filterAfter`, `keptLines_getElem?`). So a line is
  written where that marker lets it, and a blank line is in its place otherwise.

  - `preprocess_keeps_lines`: as many lines as before, each at its number.
  - `a_carriage_return_is_lost`: a line is written with a line feed of its own behind it,
    so a carriage return at its end is no longer part of it.
-/

import CodeQuery.Data.LastGiven
import CodeQuery.Text.Blanks
import CodeQuery.Text.Rows
import CodeQuery.Text.Utf8

namespace CodeQuery.Resolve

open CodeQuery.Data CodeQuery.Text

/-! ## Preprocessing -/

def lineChars (line : Str) : List Char := ((fromUtf8 line).map String.toList).getD []

/-- `|c| c.is_whitespace() || c == ';'`. -/
def isLead (c : Char) : Bool := isWhitespace c || c == ';'

/-- `trim_start_matches`, then `trim`. -/
def trimmedLine (line : Str) : List Char := trim ((lineChars line).dropWhile isLead)

def dialectTag : List Char := "#dialect".toList
def endTag : List Char := "#end".toList

/-- The loop's body: the filter behind the line, and what is written of the line. -/
def preprocessLine (dialect : String) (filter : Option Bool) (line : Str) : Option Bool × Str :=
  match stripPrefix dialectTag (trimmedLine line) with
  | some rest => (some (String.ofList (trim rest) == dialect), [])
  | none =>
    if endTag.isPrefixOf (trimmedLine line) then (none, [])
    else if filter.getD true then (filter, line)
    else (filter, [])

def preprocessLines (dialect : String) : Option Bool → List Str → Str
  | _, [] => []
  | filter, line :: rest =>
    (preprocessLine dialect filter line).2 ++ [lf] ++ preprocessLines dialect (preprocessLine dialect filter line).1 rest

/-- `preprocess_dialect`. -/
def preprocessDialect (source : Str) (dialect : String) : Str := preprocessLines dialect none (lines source)

/-! ## Markers -/

inductive Marker where
  | dialect (name : String)
  | ending
  deriving DecidableEq, Repr

/-- Behind blanks and semicolons stands the tag, and behind that the rest. -/
def BeginsWith (tag : List Char) (line : Str) (rest : List Char) : Prop :=
  ∃ lead, (∀ c ∈ lead, isLead c = true) ∧ lineChars line = lead ++ tag ++ rest

inductive IsMarker (line : Str) : Marker → Prop
  | dialect {rest : List Char} : BeginsWith dialectTag line rest → IsMarker line (.dialect (String.ofList (trim rest)))
  | ending {rest : List Char} : BeginsWith endTag line rest → IsMarker line .ending

/-- The marker as the loop finds it. -/
def markerOf (line : Str) : Option Marker :=
  match stripPrefix dialectTag (trimmedLine line) with
  | some rest => some (.dialect (String.ofList (trim rest)))
  | none => if endTag.isPrefixOf (trimmedLine line) then some .ending else none

section Tags

variable {tag rest : List Char} {line : Str}

/-- No trimming reaches into the tag. -/
def IsTag (tag : List Char) : Prop := ∃ mid last, tag = '#' :: mid ++ [last] ∧ isWhitespace last = false

theorem isTag_dialect : IsTag dialectTag := ⟨"dialec".toList, 't', by decide, by decide⟩

theorem isTag_end : IsTag endTag := ⟨"en".toList, 'd', by decide, by decide⟩

theorem BeginsWith.trimmedLine_eq (htag : IsTag tag) (h : BeginsWith tag line rest) :
    trimmedLine line = tag ++ trimEnd rest := by
  obtain ⟨mid, last, rfl, hlast⟩ := htag
  obtain ⟨lead, hlead, hline⟩ := h
  have hdrop : (lineChars line).dropWhile isLead = '#' :: mid ++ last :: rest := by
    rw [hline, List.append_assoc, List.dropWhile_append_of_pos hlead]
    simp [isLead, isWhitespace]
  rw [trimmedLine, hdrop, trim, List.cons_append, trimStart_head (by decide), ← List.cons_append,
    trimEnd_append_cons _ _ hlast, List.append_assoc, List.singleton_append]

/-- What is left in front of a tag, and behind it, was trimmed. -/
theorem beginsWith_of_trimmedLine (h : trimmedLine line = tag ++ rest) :
    ∃ blanks, Blank blanks ∧ BeginsWith tag line (rest ++ blanks) := by
  have hstart : trimStart ((lineChars line).dropWhile isLead) = (lineChars line).dropWhile isLead := by
    have hfirst := List.head?_dropWhile_not isLead (lineChars line)
    cases hcs : (lineChars line).dropWhile isLead with
    | nil => rfl
    | cons c cs =>
      rw [hcs] at hfirst
      have hlead : isWhitespace c = false ∧ (c == ';') = false := Bool.or_eq_false_iff.mp hfirst
      exact trimStart_head hlead.1
  obtain ⟨blanks, hblank, hend⟩ := trimEnd_append_blanks ((lineChars line).dropWhile isLead)
  rw [trimmedLine, trim, hstart] at h
  refine ⟨blanks, hblank, (lineChars line).takeWhile isLead, fun c hc => List.mem_takeWhile_imp hc, ?_⟩
  rw [List.append_assoc, ← List.append_assoc tag, ← h, ← hend, List.takeWhile_append_dropWhile]

end Tags

theorem isMarker_of_markerOf {line : Str} {m : Marker} (h : markerOf line = some m) : IsMarker line m := by
  unfold markerOf at h
  split at h
  next rest hstrip =>
    obtain ⟨blanks, hblank, hbegins⟩ := beginsWith_of_trimmedLine (stripPrefix_eq_some_iff.mp hstrip)
    rw [← Option.some.inj h, ← trim_append_blank hblank]
    exact .dialect hbegins
  next =>
    split at h
    next hend =>
      obtain ⟨t, ht⟩ := List.isPrefixOf_iff_prefix.mp hend
      obtain ⟨blanks, -, hbegins⟩ := beginsWith_of_trimmedLine ht.symm
      rw [← Option.some.inj h]
      exact .ending hbegins
    next => cases h

theorem markerOf_of_isMarker {line : Str} {m : Marker} (h : IsMarker line m) : markerOf line = some m := by
  cases h with
  | @dialect rest h =>
    obtain ⟨blanks, hblank, hrest⟩ := trimEnd_append_blanks rest
    have hstrip : stripPrefix dialectTag (trimmedLine line) = some (trimEnd rest) :=
      stripPrefix_eq_some_iff.mpr (h.trimmedLine_eq isTag_dialect)
    have hname : trim rest = trim (trimEnd rest) := by
      conv => lhs; rw [hrest]
      exact trim_append_blank hblank _
    simp only [markerOf, hstrip, hname]
  | @ending rest h =>
    have hline : trimmedLine line = endTag ++ trimEnd rest := h.trimmedLine_eq isTag_end
    have hother : stripPrefix dialectTag (trimmedLine line) = none := by
      rw [hline]
      rfl
    have hend : endTag.isPrefixOf (trimmedLine line) = true := by
      rw [hline]
      exact List.isPrefixOf_iff_prefix.mpr (List.prefix_append _ _)
    simp only [markerOf, hother, hend, if_true]

theorem markerOf_eq_some_iff {line : Str} {m : Marker} : markerOf line = some m ↔ IsMarker line m :=
  ⟨isMarker_of_markerOf, markerOf_of_isMarker⟩

theorem markerOf_eq_none_iff {line : Str} : markerOf line = none ↔ ∀ m, ¬ IsMarker line m := by
  rw [Option.eq_none_iff_forall_ne_some]
  exact forall_congr' fun m => not_congr markerOf_eq_some_iff

/-! ## The filter -/

/-- What a marker makes of the filter. -/
def Marker.filter (dialect : String) : Marker → Option Bool
  | .dialect name => some (name == dialect)
  | .ending => none

/-- The filter behind the lines: the nearest marker's. -/
def filterAfter (dialect : String) (seen : List Str) : Option Bool :=
  (lastGiven markerOf seen).bind (Marker.filter dialect)

theorem preprocessLine_eq (dialect : String) (filter : Option Bool) (line : Str) :
    preprocessLine dialect filter line =
      match markerOf line with
      | some m => (m.filter dialect, [])
      | none => (filter, if filter.getD true then line else []) := by
  unfold preprocessLine markerOf
  split
  · rfl
  · split
    · rfl
    · dsimp only
      split <;> rfl

/-- The line's step: the filter stays that of the nearest marker. -/
theorem step_filterAfter (dialect : String) (seen : List Str) (line : Str) :
    (preprocessLine dialect (filterAfter dialect seen) line).1 = filterAfter dialect (seen ++ [line]) := by
  rw [preprocessLine_eq]
  unfold filterAfter
  rw [lastGiven_append, lastGiven_singleton]
  cases markerOf line <;> rfl

/-- What is written of each line. -/
def keptLines (dialect : String) : Option Bool → List Str → List Str
  | _, [] => []
  | filter, line :: rest =>
    (preprocessLine dialect filter line).2 :: keptLines dialect (preprocessLine dialect filter line).1 rest

theorem preprocessLines_eq (dialect : String) (filter : Option Bool) (ls : List Str) :
    preprocessLines dialect filter ls = ((keptLines dialect filter ls).map (· ++ [lf])).flatten := by
  induction ls generalizing filter with
  | nil => rfl
  | cons line rest ih => rw [preprocessLines, keptLines, List.map_cons, List.flatten_cons, ih]

/-- The run: what is written of a line is told by the markers in front of it. -/
theorem keptLines_getElem? (dialect : String) (seen ls : List Str) (n : Nat) :
    (keptLines dialect (filterAfter dialect seen) ls)[n]? =
      ls[n]?.map fun line => (preprocessLine dialect (filterAfter dialect (seen ++ ls.take n)) line).2 := by
  induction ls generalizing seen n with
  | nil => simp [keptLines]
  | cons line rest ih =>
    rw [keptLines, step_filterAfter]
    cases n with
    | zero => simp
    | succ n => rw [List.getElem?_cons_succ, List.getElem?_cons_succ, ih, List.take_succ_cons, List.append_assoc,
        List.singleton_append]

/-! ## The lines -/

/-- The marker is the nearest in front. -/
def NearestMarker (front : List Str) (m : Marker) : Prop :=
  ∃ far line near, front = far ++ line :: near ∧ IsMarker line m ∧ ∀ l ∈ near, ∀ m', ¬ IsMarker l m'

/-- The line is of the dialect: no marker itself, and the nearest in front, if there is
    one, ends a part or names the dialect. -/
def IsKept (dialect : String) (front : List Str) (line : Str) : Prop :=
  (∀ m, ¬ IsMarker line m) ∧ ∀ m, NearestMarker front m → m = .ending ∨ m = .dialect dialect

theorem nearestMarker_iff {front : List Str} {m : Marker} : NearestMarker front m ↔ lastGiven markerOf front = some m := by
  simp only [lastGiven_eq_some_iff, markerOf_eq_some_iff, markerOf_eq_none_iff, NearestMarker]

theorem isKept_iff {dialect : String} {front : List Str} {line : Str} :
    IsKept dialect front line ↔ markerOf line = none ∧ (filterAfter dialect front).getD true = true := by
  unfold IsKept filterAfter
  rw [markerOf_eq_none_iff]
  refine and_congr_right fun _ => ?_
  simp only [nearestMarker_iff]
  cases lastGiven markerOf front with
  | none => simp
  | some m => cases m <;> simp [Marker.filter]

/-- What is written of the line behind the others. -/
theorem written_eq (dialect : String) (front : List Str) (line : Str) :
    (IsKept dialect front line → (preprocessLine dialect (filterAfter dialect front) line).2 = line) ∧
    (¬ IsKept dialect front line → (preprocessLine dialect (filterAfter dialect front) line).2 = []) := by
  rw [isKept_iff, preprocessLine_eq]
  cases markerOf line with
  | some m => simp
  | none => simp +contextual

/-- The lines keep their numbers; one of the dialect is shown as it was, and any other is
    empty. -/
def KeepsLines (shown : Str → Str) (source : Str) (dialect : String) : Prop :=
  (lines (preprocessDialect source dialect)).length = (lines source).length ∧
  ∀ n line, (lines source)[n]? = some line → ∃ out, (lines (preprocessDialect source dialect))[n]? = some out ∧
    (IsKept dialect ((lines source).take n) line → out = shown line) ∧
    (¬ IsKept dialect ((lines source).take n) line → out = [])

theorem written_mem {dialect : String} {filter : Option Bool} {ls : List Str} {written : Str}
    (h : written ∈ keptLines dialect filter ls) : written = [] ∨ written ∈ ls := by
  induction ls generalizing filter with
  | nil => cases h
  | cons line rest ih =>
    rcases List.mem_cons.mp h with rfl | hrest
    · rw [preprocessLine_eq]
      cases markerOf line with
      | some m => exact .inl rfl
      | none =>
        dsimp only
        split
        · exact .inr List.mem_cons_self
        · exact .inl rfl
    · exact (ih hrest).imp_right (List.mem_cons_of_mem line)

theorem length_keptLines (dialect : String) (filter : Option Bool) (ls : List Str) :
    (keptLines dialect filter ls).length = ls.length := by
  induction ls generalizing filter with
  | nil => rfl
  | cons line rest ih => rw [keptLines, List.length_cons, List.length_cons, ih]

/-- The lines of the output are those written, as they are read again. -/
theorem lines_preprocessDialect (source : Str) (dialect : String) :
    lines (preprocessDialect source dialect) = (keptLines dialect none (lines source)).map withoutCr := by
  rw [preprocessDialect, preprocessLines_eq]
  refine lines_terminated fun written h => ?_
  rcases written_mem h with rfl | hline
  · exact List.not_mem_nil
  · exact lf_not_mem_line hline

theorem preprocess_keeps_lines (source : Str) (dialect : String) : KeepsLines withoutCr source dialect := by
  rw [KeepsLines, lines_preprocessDialect]
  refine ⟨by rw [List.length_map, length_keptLines], fun n line hline => ?_⟩
  have hwritten := keptLines_getElem? dialect [] (lines source) n
  rw [hline, Option.map_some, List.nil_append] at hwritten
  obtain ⟨hkept, hdropped⟩ := written_eq dialect ((lines source).take n) line
  have hout : ((keptLines dialect none (lines source)).map withoutCr)[n]? =
      some (withoutCr (preprocessLine dialect (filterAfter dialect ((lines source).take n)) line).2) := by
    rw [List.getElem?_map]
    exact congrArg (Option.map withoutCr) hwritten
  refine ⟨_, hout, fun h => ?_, fun h => ?_⟩
  · rw [hkept h]
  · rw [hdropped h]
    rfl

/-- The line's carriage return is read as part of the line feed put behind it. -/
theorem a_carriage_return_is_lost :
    lines (str "a\r") = [str "a\r"] ∧ lines (preprocessDialect (str "a\r") "typescript") = [str "a"] ∧
    ¬ KeepsLines id (str "a\r") "typescript" := by
  have hsource : lines (str "a\r") = [str "a\r"] := by decide
  have hplain : markerOf (str "a\r") = none := by
    simp only [markerOf, trimmedLine, lineChars, fromUtf8_str]
    decide
  have hout : lines (preprocessDialect (str "a\r") "typescript") = [str "a"] := by
    rw [lines_preprocessDialect, hsource, keptLines, preprocessLine_eq, hplain]
    decide
  have hkept : IsKept "typescript" [] (str "a\r") := isKept_iff.mpr ⟨hplain, rfl⟩
  refine ⟨hsource, hout, fun h => ?_⟩
  obtain ⟨out, hline, hsame, -⟩ := h.2 0 (str "a\r") (by rw [hsource]; rfl)
  rw [hout, hsource] at *
  rw [hsame hkept] at hline
  exact absurd hline (by decide)

end CodeQuery.Resolve
