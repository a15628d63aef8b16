/-
  CodeQuery.Mcp.Edit — what `cq_edit` replaces, and the line it names
  (`run_edit` of `codequery-mcp/src/tools.rs`).

  The edit counts matches, which do not overlap, where it means to check that the text is
  in the file once; and it takes the lines in front of the first match, of which the last
  may be the match's own, for those above it. So it does what it says exactly where the
  text is not in the file, is refused for two places apart, or begins a line and has no
  other place that counts (`replaces_exactly_iff`).
-/

import CodeQuery.Mcp.Gate
import CodeQuery.Text.Occurrences
import CodeQuery.Text.Rows
import CodeQuery.Text.Words

namespace CodeQuery.Mcp

open CodeQuery.Lsp (Json)
open CodeQuery.Text

/-- The arguments of an edit. -/
structure EditArguments (args : Json) (filePath oldString newString : String) (replaceAll : Bool) : Prop where
  path : getString "file_path" args = some filePath
  old : getString "old_string" args = some oldString
  new : getString "new_string" args = some newString
  all : replacesAll args = replaceAll

/-- The text of an edit that went through. -/
def editReport (filePath : String) (count line : Nat) : String :=
  "Edited " ++ filePath ++ ": replaced " ++ toString count ++ " occurrence(s) starting at line " ++ toString line

theorem editReport_line_inj {filePath : String} {count line line' : Nat}
    (h : editReport filePath count line = editReport filePath count line') : line = line' :=
  toString_nat_inj (String.append_right_inj _ |>.mp h)

/-! ## What the edit is to do -/

section Run

variable {σ : Type} (sys : System σ) (w : σ) (args : Json) (filePath : String) (old new content : Str) (replaceAll : Bool)

/-- Without the flag only a text with one place is replaced, and there alone; a check that
    fails changes nothing; and the line reported is that of the first place. -/
structure ReplacesExactly : Prop where
  once : replaceAll = false → ∀ output, (runEdit sys args w).1 = .ok output → ∃ i, OccursOnlyAt old content i ∧
    sys.write w filePath (content.take i ++ new ++ content.drop (i + old.length)) = (.ok (), (runEdit sys args w).2)
  checked : ∀ e, plannedEdit filePath old new content replaceAll = .error e → runEdit sys args w = (.error e, w)
  line : ∀ output, (runEdit sys args w).1 = .ok output → ∃ i, FirstOccursAt old content i ∧
    output = editReport filePath (countMatches old content) (1 + (content.take i).count lf)

end Run

/-- The text is not in the file, is found twice without overlap, or begins a line and has
    no other place unless all are meant. -/
def EditsAsTold (old content : Str) (replaceAll : Bool) : Prop :=
  (∀ i, ¬ OccursAt old content i) ∨
    (replaceAll = false ∧ ∃ i j, OccursAt old content i ∧ OccursAt old content j ∧ i + old.length ≤ j) ∨
    ∃ i, FirstOccursAt old content i ∧ (i = 0 ∨ content[i - 1]? = some lf) ∧
      (replaceAll = true ∨ OccursOnlyAt old content i)

/-! ## The plan -/

section Plan

variable {filePath : String} {old new content : Str} {replaceAll : Bool}

/-- The reported line is one too large unless the place begins a line. -/
theorem line_number_iff {i : Nat} (hle : i ≤ content.length) :
    (lines (content.take i)).length + 1 = 1 + (content.take i).count lf ↔ i = 0 ∨ content[i - 1]? = some lf := by
  have hmin := count_le_lines (content.take i)
  have hmore := @count_lt_lines_iff (content.take i)
  have heq : (lines (content.take i)).length + 1 = 1 + (content.take i).count lf ↔
      ¬ (content.take i).count lf < (lines (content.take i)).length := by omega
  rw [heq, hmore, getLast?_take hle]
  by_cases hi : i = 0
  · simp [hi]
  · have hne : content.take i ≠ [] := by
      intro hnil
      have hlen := congrArg List.length hnil
      rw [List.length_take_of_le hle, List.length_nil] at hlen
      exact hi hlen
    rw [if_pos (by omega)]
    simp [hi, hne]

variable (hne : old ≠ [])

include hne

/-- The plan of an edit at its first place, and when there is none. -/
theorem plannedEdit_ok {i : Nat} (hfirst : FirstOccursAt old content i)
    (hone : replaceAll = true ∨ ¬ 2 ≤ countMatches old content) :
    plannedEdit filePath old new content replaceAll =
      .ok (editedText old new content replaceAll, countMatches old content, (lines (content.take i)).length + 1) := by
  have hpos : ¬ countMatches old content = 0 := by
    rw [countMatches_eq_zero_iff hne]
    intro hnone
    exact hnone i hfirst.1
  have hmany : ¬ (1 < countMatches old content && !replaceAll) = true := by
    rcases hone with rfl | hone
    · simp
    · simp only [Bool.and_eq_true, decide_eq_true_eq]
      omega
  rw [plannedEdit, (find_eq_some_iff_first hne).mpr hfirst]
  dsimp only
  rw [if_neg hpos, if_neg hmany]
  rfl

theorem plannedEdit_error (h : (∀ i, ¬ OccursAt old content i) ∨ replaceAll = false ∧ 2 ≤ countMatches old content) :
    ∃ e, plannedEdit filePath old new content replaceAll = .error e := by
  rw [plannedEdit]
  dsimp only
  rcases h with hnone | ⟨rfl, hmany⟩
  · rw [if_pos ((countMatches_eq_zero_iff hne).mpr hnone)]
    exact ⟨_, rfl⟩
  · rw [if_neg (by omega), if_pos (by simp; omega)]
    exact ⟨_, rfl⟩

/-- A plan is refused, or has a first place. -/
theorem edit_cases : ((∀ i, ¬ OccursAt old content i) ∨ replaceAll = false ∧ 2 ≤ countMatches old content) ∨
    ∃ i, FirstOccursAt old content i ∧ (replaceAll = true ∨ ¬ 2 ≤ countMatches old content) := by
  cases hfind : find old content with
  | none => exact .inl (.inl (find_eq_none_iff.mp hfind))
  | some i =>
    have hfirst := (find_eq_some_iff_first hne).mp hfind
    by_cases hmany : 2 ≤ countMatches old content
    · cases replaceAll with
      | false => exact .inl (.inr ⟨rfl, hmany⟩)
      | true => exact .inr ⟨i, hfirst, .inl rfl⟩
    · exact .inr ⟨i, hfirst, .inr hmany⟩

theorem editsAsTold_first {i : Nat} (hfirst : FirstOccursAt old content i)
    (hone : replaceAll = true ∨ ¬ 2 ≤ countMatches old content) : EditsAsTold old content replaceAll ↔
      (i = 0 ∨ content[i - 1]? = some lf) ∧ (replaceAll = true ∨ OccursOnlyAt old content i) := by
  constructor
  · intro h
    rcases h with hnone | ⟨hall, htwo⟩ | ⟨j, hj, hline, honly⟩
    · exact absurd hfirst.1 (hnone i)
    · rcases hone with hall' | hone
      · rw [hall] at hall'
        cases hall'
      · exact absurd ((two_le_countMatches_iff hne).mpr htwo) hone
    · cases hfirst.unique hj
      exact ⟨hline, honly⟩
  · intro h
    exact .inr (.inr ⟨i, hfirst, h.1, h.2⟩)

end Plan

/-! ## The edit -/

section Edit

variable {σ : Type} {sys : System σ} {w : σ} {args : Json} {filePath oldString newString : String} {content : Str}
  {replaceAll : Bool}

theorem runEdit_error (h : EditArguments args filePath oldString newString replaceAll)
    (hread : sys.readToString w filePath = .ok content) {e : String}
    (hplan : plannedEdit filePath (str oldString) (str newString) content replaceAll = .error e) :
    runEdit sys args w = (.error e, w) := by
  have hall : ((get "replace_all" args).bind asBool).getD false = replaceAll := h.all
  simp only [runEdit, h.path, h.old, h.new, hread, hall, hplan]

theorem runEdit_ok (h : EditArguments args filePath oldString newString replaceAll)
    (hread : sys.readToString w filePath = .ok content) {newContent : Str} {count line : Nat}
    (hplan : plannedEdit filePath (str oldString) (str newString) content replaceAll = .ok (newContent, count, line)) :
    (∃ e w', sys.write w filePath newContent = (.error e, w') ∧
        runEdit sys args w = (.error ("Failed to write " ++ filePath ++ ": " ++ e), w')) ∨
      ∃ w', sys.write w filePath newContent = (.ok (), w') ∧
        runEdit sys args w = (.ok (editReport filePath count line), w') := by
  have hall : ((get "replace_all" args).bind asBool).getD false = replaceAll := h.all
  simp only [runEdit, h.path, h.old, h.new, hread, hall, hplan]
  rcases hwrite : sys.write w filePath newContent with ⟨_ | ⟨⟩, w'⟩
  · exact .inl ⟨_, _, rfl, rfl⟩
  · exact .inr ⟨_, rfl, rfl⟩

def editArguments (filePath oldString newString : String) (replaceAll : Bool) : Json :=
  .obj [("file_path", .str filePath), ("old_string", .str oldString), ("new_string", .str newString),
    ("replace_all", .bool replaceAll)]

theorem editArguments_spec (filePath oldString newString : String) (replaceAll : Bool) :
    EditArguments (editArguments filePath oldString newString replaceAll) filePath oldString newString replaceAll :=
  ⟨rfl, rfl, rfl, rfl⟩

/-- An edit that is told right does what it says, whatever the write answers. -/
theorem replacesExactly_of_told (hne : str oldString ≠ []) (h : EditArguments args filePath oldString newString replaceAll)
    (hread : sys.readToString w filePath = .ok content) (htold : EditsAsTold (str oldString) content replaceAll) :
    ReplacesExactly sys w args filePath (str oldString) (str newString) content replaceAll := by
  rcases @edit_cases (str oldString) content replaceAll hne with hrefused | ⟨i, hfirst, hone⟩
  · obtain ⟨e, hplan⟩ := @plannedEdit_error filePath (str oldString) (str newString) content replaceAll hne hrefused
    have hrun := runEdit_error h hread hplan
    refine ⟨fun _ output hok => ?_, fun e' he' => runEdit_error h hread he', fun output hok => ?_⟩
    · rw [hrun] at hok
      cases hok
    · rw [hrun] at hok
      cases hok
  · obtain ⟨hline, honly⟩ := (editsAsTold_first hne hfirst hone).mp htold
    have hplan := @plannedEdit_ok filePath (str oldString) (str newString) content replaceAll hne i hfirst hone
    have hle : i ≤ content.length := Nat.le_trans (Nat.le_add_right i _) (hfirst.1.lt hne)
    rw [(line_number_iff hle).mpr hline] at hplan
    rcases runEdit_ok h hread hplan with ⟨e, w', hwrite, hrun⟩ | ⟨w', hwrite, hrun⟩
    · refine ⟨fun _ output hok => ?_, fun e' he' => runEdit_error h hread he', fun output hok => ?_⟩
      · rw [hrun] at hok
        cases hok
      · rw [hrun] at hok
        cases hok
    · refine ⟨fun hall output hok => ⟨i, honly.resolve_left (by simp [hall]), ?_⟩,
        fun e' he' => runEdit_error h hread he', fun output hok => ⟨i, hfirst, ?_⟩⟩
      · rw [hrun, ← hwrite, hall, editedText, if_neg (by simp),
          replacen_one hne ((find_eq_some_iff_first hne).mpr hfirst)]
      · rw [hrun] at hok
        exact (Except.ok.inj hok).symm

/-- An edit of a file of its own is told right when it does what it says. -/
theorem told_of_replacesExactly (hne : str oldString ≠ []) (h : EditArguments args filePath oldString newString replaceAll)
    (hexact : ReplacesExactly oneFile content args filePath (str oldString) (str newString) content replaceAll) :
    EditsAsTold (str oldString) content replaceAll := by
  rcases @edit_cases (str oldString) content replaceAll hne with hrefused | ⟨i, hfirst, hone⟩
  · rcases hrefused with hnone | ⟨hall, hmany⟩
    · exact .inl hnone
    · exact .inr (.inl ⟨hall, (two_le_countMatches_iff hne).mp hmany⟩)
  · have hplan := @plannedEdit_ok filePath (str oldString) (str newString) content replaceAll hne i hfirst hone
    have hle : i ≤ content.length := Nat.le_trans (Nat.le_add_right i _) (hfirst.1.lt hne)
    rcases @runEdit_ok Str oneFile content args filePath oldString newString content replaceAll h rfl _ _ _ hplan with
      ⟨e, w', hwrite, -⟩ | ⟨w', -, hrun⟩
    · cases hwrite
    · have hok := congrArg Prod.fst hrun
      refine (editsAsTold_first hne hfirst hone).mpr ⟨?_, ?_⟩
      · obtain ⟨j, hj, hreport⟩ := hexact.line _ hok
        cases hfirst.unique hj
        exact (line_number_iff hle).mp (editReport_line_inj hreport)
      · by_cases hall : replaceAll = true
        · exact .inl hall
        · obtain ⟨j, hj, -⟩ := hexact.once (by simpa using hall) _ hok
          cases hj.2 i hfirst.1
          exact .inr hj

end Edit

/-- The edit does what it says, in every file system, exactly for the texts that it is told
    right for. -/
theorem replaces_exactly_iff (filePath oldString newString : String) (content : Str) (replaceAll : Bool)
    (hne : oldString ≠ "") :
    (∀ (σ : Type) (sys : System σ) (w : σ) (args : Json), EditArguments args filePath oldString newString replaceAll →
        sys.readToString w filePath = .ok content →
        ReplacesExactly sys w args filePath (str oldString) (str newString) content replaceAll) ↔
      EditsAsTold (str oldString) content replaceAll := by
  have hstr : str oldString ≠ [] := mt str_eq_nil.mp hne
  constructor
  · intro h
    have hargs := editArguments_spec filePath oldString newString replaceAll
    exact told_of_replacesExactly hstr hargs (h Str oneFile content _ hargs rfl)
  · intro htold σ sys w args hargs hread
    exact replacesExactly_of_told hstr hargs hread htold

theorem replaces_exactly_iff_line :
    (∀ (σ : Type) (sys : System σ) (w : σ) (args : Json), EditArguments args "/f" "d" "e" false →
        sys.readToString w "/f" = .ok (str "ab\ncd") →
        ReplacesExactly sys w args "/f" (str "d") (str "e") (str "ab\ncd") false) ↔
      EditsAsTold (str "d") (str "ab\ncd") false :=
  replaces_exactly_iff "/f" "d" "e" (str "ab\ncd") false (by decide)

/-- One of two places that overlap is replaced as the only one, and a place in the second
    line is reported to be in the third. -/
theorem an_overlap_is_missed_and_a_line_is_wrong :
    runEdit oneFile (editArguments "/f" "aa" "b" false) (str "aaa") =
        (.ok "Edited /f: replaced 1 occurrence(s) starting at line 1", str "ba") ∧
      ¬ ReplacesExactly oneFile (str "aaa") (editArguments "/f" "aa" "b" false) "/f" (str "aa") (str "b") (str "aaa") false ∧
      runEdit oneFile (editArguments "/f" "d" "e" false) (str "ab\ncd") =
        (.ok "Edited /f: replaced 1 occurrence(s) starting at line 3", str "ab\nce") ∧
      ¬ ReplacesExactly oneFile (str "ab\ncd") (editArguments "/f" "d" "e" false) "/f" (str "d") (str "e") (str "ab\ncd")
        false := by
  have hoverlap : runEdit oneFile (editArguments "/f" "aa" "b" false) (str "aaa") =
      (.ok "Edited /f: replaced 1 occurrence(s) starting at line 1", str "ba") := by decide
  have hline : runEdit oneFile (editArguments "/f" "d" "e" false) (str "ab\ncd") =
      (.ok "Edited /f: replaced 1 occurrence(s) starting at line 3", str "ab\nce") := by decide
  refine ⟨hoverlap, ?_, hline, ?_⟩
  · intro h
    obtain ⟨i, hi, -⟩ := h.once rfl _ (congrArg Prod.fst hoverlap)
    have hfirst : OccursAt (str "aa") (str "aaa") 0 := by decide
    have hsecond : OccursAt (str "aa") (str "aaa") 1 := by decide
    have h0 := hi.2 0 hfirst
    have h1 := hi.2 1 hsecond
    omega
  · intro h
    obtain ⟨i, hi, hreport⟩ := h.line _ (congrArg Prod.fst hline)
    have hplace : FirstOccursAt (str "d") (str "ab\ncd") 4 := by decide
    cases hplace.unique hi
    exact absurd hreport (by decide)

end CodeQuery.Mcp
