/-
  CodeQuery.Mcp.Gate — which tools a client can run (see `CodeQuery.Mcp.Tools`).

  The list leaves `cq_edit` out unless the environment has it in; the dispatch looks at
  the name alone. So a tool that is not listed has no effect unless it is an edit that
  goes through (`gated_iff`), and `an_edit_goes_through_unlisted` is one.
-/

import CodeQuery.Mcp.Server

namespace CodeQuery.Mcp

open CodeQuery.Lsp (Json)
open CodeQuery.Text

/-- A tool of the name is listed. -/
def Listed (env : Environment) (name : String) : Prop := name ∈ (allTools env).map (·.name)

theorem listed_iff (env : Environment) (name : String) :
    Listed env name ↔ name ∈ queryTools.map (·.name) ∨ env "CQ_MCP_EDIT" = some "1" ∧ name = "cq_edit" := by
  unfold Listed allTools
  by_cases hedit : env "CQ_MCP_EDIT" = some "1"
  · simp [hedit, editTool, tool]
  · simp [hedit]

theorem edit_not_listed : "cq_edit" ∉ queryTools.map (·.name) := by decide

section Calls

variable {σ : Type}

/-- A request for a tool; others may change the state before it. -/
structure Turn (σ : Type) where
  meanwhile : σ → σ
  name : String
  arguments : Json

/-- A request that was answered. -/
structure Call (σ : Type) where
  name : String
  arguments : Json
  before : σ
  result : ToolCallResult
  after : σ

variable (sys : System σ) (env : Environment)

/-- The calls of a run of requests. -/
def calls : List (Turn σ) → σ → List (Call σ)
  | [], _ => []
  | t :: ts, w =>
    let before := t.meanwhile w
    let (result, after) := executeTool sys env t.name t.arguments before
    ⟨t.name, t.arguments, before, result, after⟩ :: calls ts after

/-- More than an error was returned. -/
def Call.HasEffect (c : Call σ) : Prop := c.result.isError = false ∨ c.after ≠ c.before

/-- Only what is listed has an effect, and only the variable lets edits change anything. -/
structure Gated (c : Call σ) : Prop where
  listed : c.HasEffect → Listed env c.name
  edits : c.name = "cq_edit" → c.after ≠ c.before → env "CQ_MCP_EDIT" = some "1"

/-- The flag of `cq_edit`. -/
def replacesAll (args : Json) : Bool := ((get "replace_all" args).bind asBool).getD false

/-- The text of a file with the replacements made. -/
def editedText (oldString newString content : Str) (replaceAll : Bool) : Str :=
  if replaceAll then replace oldString newString content else replacen oldString newString content 1

/-- The text is in the file, once or with all places meant. -/
def IsEditable (oldString content : Str) (replaceAll : Bool) : Prop :=
  countMatches oldString content = 1 ∨ 1 < countMatches oldString content ∧ replaceAll = true

/-- The write succeeds or leaves something behind. -/
def WriteTakes (w : σ) (filePath : String) (newContent : Str) : Prop :=
  (sys.write w filePath newContent).1 = .ok () ∨ (sys.write w filePath newContent).2 ≠ w

/-- The arguments are there, the file can be read and has the text, and the write takes. -/
def EditApplies (w : σ) (args : Json) : Prop :=
  ∃ filePath oldString newString content,
    getString "file_path" args = some filePath ∧ getString "old_string" args = some oldString ∧
      getString "new_string" args = some newString ∧ sys.readToString w filePath = .ok content ∧
        IsEditable (str oldString) content (replacesAll args) ∧
          WriteTakes sys w filePath (editedText (str oldString) (str newString) content (replacesAll args))

/-- An edit that goes through though the variable does not let it. -/
def EditsUnlisted (c : Call σ) : Prop :=
  c.name = "cq_edit" ∧ env "CQ_MCP_EDIT" ≠ some "1" ∧ EditApplies sys c.before c.arguments

/-! ## The dispatch -/

/-- A name is in the list of all environments, is that of the edit, or has no arm. -/
theorem dispatch_cases (name : String) (args : Json) (w : σ) :
    name ∈ queryTools.map (·.name) ∨ name = "cq_edit" ∨
      dispatch sys env name args w = (.error ("Unknown tool: " ++ name), w) := by
  by_cases hlisted : name ∈ queryTools.map (·.name)
  · exact .inl hlisted
  · by_cases hedit : name = "cq_edit"
    · exact .inr (.inl hedit)
    · refine .inr (.inr ?_)
      unfold dispatch
      split
      all_goals first | rfl | exact absurd rfl hedit | exact absurd (by decide) hlisted

/-! ## The edit -/

theorem plannedEdit_cases (filePath : String) (oldString newString content : Str) (replaceAll : Bool) :
    IsEditable oldString content replaceAll ∧ (∃ count line, plannedEdit filePath oldString newString content replaceAll =
        .ok (editedText oldString newString content replaceAll, count, line)) ∨
      ¬ IsEditable oldString content replaceAll ∧
        ∃ e, plannedEdit filePath oldString newString content replaceAll = .error e := by
  unfold plannedEdit IsEditable
  by_cases hzero : countMatches oldString content = 0
  · refine .inr ⟨by omega, ?_⟩
    simp only [hzero, if_true]
    exact ⟨_, rfl⟩
  · by_cases hmany : 1 < countMatches oldString content
    · cases replaceAll with
      | false =>
        refine .inr ⟨by simp; omega, ?_⟩
        simp only [hzero, hmany, if_false, decide_true, Bool.not_false, Bool.and_self, if_true]
        exact ⟨_, rfl⟩
      | true =>
        refine .inl ⟨by simp; omega, ?_⟩
        simp only [hzero, if_false, Bool.not_true, Bool.and_false, Bool.false_eq_true]
        exact ⟨_, _, rfl⟩
    · refine .inl ⟨by omega, ?_⟩
      simp only [hzero, hmany, if_false, decide_false, Bool.false_and, Bool.false_eq_true]
      exact ⟨_, _, rfl⟩

theorem editApplies_iff {args : Json} {w : σ} {filePath oldString newString : String} {content : Str}
    (hpath : getString "file_path" args = some filePath) (hold : getString "old_string" args = some oldString)
    (hnew : getString "new_string" args = some newString) (hread : sys.readToString w filePath = .ok content) :
    EditApplies sys w args ↔ IsEditable (str oldString) content (replacesAll args) ∧
      WriteTakes sys w filePath (editedText (str oldString) (str newString) content (replacesAll args)) := by
  constructor
  · rintro ⟨_, _, _, _, hpath', hold', hnew', hread', happlies⟩
    cases hpath.symm.trans hpath'
    cases hold.symm.trans hold'
    cases hnew.symm.trans hnew'
    cases hread.symm.trans hread'
    exact happlies
  · intro happlies
    exact ⟨_, _, _, _, hpath, hold, hnew, hread, happlies⟩

/-- An edit has an effect exactly when it applies. -/
theorem runEdit_effect_iff (args : Json) (w : σ) :
    ((∃ output, (runEdit sys args w).1 = .ok output) ∨ (runEdit sys args w).2 ≠ w) ↔ EditApplies sys w args := by
  have hall : ((get "replace_all" args).bind asBool).getD false = replacesAll args := rfl
  unfold runEdit
  cases hpath : getString "file_path" args with
  | none => simp [missing, EditApplies, hpath]
  | some filePath =>
    cases hold : getString "old_string" args with
    | none => simp [missing, EditApplies, hold]
    | some oldString =>
      cases hnew : getString "new_string" args with
      | none => simp [missing, EditApplies, hnew]
      | some newString =>
        cases hread : sys.readToString w filePath with
        | error e => simp [EditApplies, hpath, hread]
        | ok content =>
          rw [editApplies_iff sys hpath hold hnew hread]
          rcases plannedEdit_cases filePath (str oldString) (str newString) content (replacesAll args) with
            ⟨heditable, count, line, hplanned⟩ | ⟨heditable, e, hplanned⟩
          · simp only [hread, hall, hplanned, heditable, true_and, WriteTakes]
            rcases sys.write w filePath (editedText (str oldString) (str newString) content (replacesAll args)) with
              ⟨_ | _, w'⟩ <;> simp
          · simp [hread, hall, hplanned, heditable]

/-! ## Runs -/

theorem executeTool_edit_effect (args : Json) (w : σ) :
    ((executeTool sys env "cq_edit" args w).1.isError = false ∨ (executeTool sys env "cq_edit" args w).2 ≠ w) ↔
      EditApplies sys w args := by
  rw [← runEdit_effect_iff]
  have hdispatch : dispatch sys env "cq_edit" args w = runEdit sys args w := rfl
  rw [executeTool, hdispatch]
  rcases runEdit sys args w with ⟨_ | _, w'⟩ <;> simp

/-- A call that was made in a state. -/
def callOf (t : Turn σ) (w : σ) : Call σ :=
  let before := t.meanwhile w
  ⟨t.name, t.arguments, before, (executeTool sys env t.name t.arguments before).1,
    (executeTool sys env t.name t.arguments before).2⟩

theorem calls_cons (t : Turn σ) (ts : List (Turn σ)) (w : σ) :
    calls sys env (t :: ts) w = callOf sys env t w :: calls sys env ts (callOf sys env t w).after := rfl

/-- A tool but the edit has an effect only when it is listed. -/
theorem callOf_gated {t : Turn σ} (hname : t.name ≠ "cq_edit") (w : σ) : Gated env (callOf sys env t w) := by
  refine ⟨fun heffect => ?_, fun h => absurd h hname⟩
  rcases dispatch_cases sys env t.name t.arguments (t.meanwhile w) with hlisted | hedit | hunknown
  · exact (listed_iff env _).mpr (.inl hlisted)
  · exact absurd hedit hname
  · simp [Call.HasEffect, callOf, executeTool, hunknown] at heffect

/-- One call keeps to the list unless it is an edit that goes through unlisted. -/
theorem callOf_gated_iff (t : Turn σ) (w : σ) :
    Gated env (callOf sys env t w) ↔ ¬ EditsUnlisted sys env (callOf sys env t w) := by
  by_cases hedit : t.name = "cq_edit"
  · have heffect : (callOf sys env t w).HasEffect ↔ EditApplies sys (t.meanwhile w) t.arguments := by
      rw [← executeTool_edit_effect sys env, ← hedit]
      rfl
    have hname : (callOf sys env t w).name = "cq_edit" := hedit
    by_cases hset : env "CQ_MCP_EDIT" = some "1"
    · exact iff_of_true ⟨fun _ => (listed_iff env _).mpr (.inr ⟨hset, hname⟩), fun _ _ => hset⟩ fun h => h.2.1 hset
    · constructor
      · rintro hgated ⟨-, -, happlies⟩
        rcases (listed_iff env _).mp (hgated.listed (heffect.mpr happlies)) with hlisted | ⟨hset', -⟩
        · exact edit_not_listed (hname ▸ hlisted)
        · exact hset hset'
      · intro hnot
        have hquiet : ¬ (callOf sys env t w).HasEffect := fun h => hnot ⟨hname, hset, heffect.mp h⟩
        exact ⟨fun h => absurd h hquiet, fun _ h => absurd (.inr h) hquiet⟩
  · exact iff_of_true (callOf_gated sys env hedit w) fun h => hedit h.1

/-- In a run of requests every tool that has an effect is listed, and edits change files
    only when the variable is set, exactly when no edit goes through unlisted. -/
theorem gated_iff (turns : List (Turn σ)) (w : σ) :
    (∀ c ∈ calls sys env turns w, Gated env c) ↔ ∀ c ∈ calls sys env turns w, ¬ EditsUnlisted sys env c := by
  induction turns generalizing w with
  | nil => simp [calls]
  | cons t ts ih =>
    rw [calls_cons, List.forall_mem_cons, List.forall_mem_cons, callOf_gated_iff, ih]

end Calls

/-! ## An edit that is not listed -/

/-- A system with one file. -/
def oneFile : System Str :=
  ⟨fun content _ => .ok content, fun _ _ newContent => (.ok (), newContent),
    fun w _ _ => (.error "No such file or directory (os error 2)", w)⟩

def editCall : Turn Str :=
  ⟨id, "cq_edit", .obj [("file_path", .str "/f"), ("old_string", .str "a"), ("new_string", .str "b")]⟩

/-- The variable is not set, the tool is not listed, and the file is changed. -/
theorem an_edit_goes_through_unlisted :
    ¬ ∀ c ∈ calls oneFile (fun _ => none) [editCall] (str "a"), Gated (fun _ => none) c := by
  intro h
  have hchanged : (callOf oneFile (fun _ => none) editCall (str "a")).after ≠ str "a" := by decide
  exact absurd ((h _ List.mem_cons_self).edits rfl hchanged) (by decide)

end CodeQuery.Mcp
