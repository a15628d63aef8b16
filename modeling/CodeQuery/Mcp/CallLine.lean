/-
  CodeQuery.Mcp.CallLine — how `cq` reads the command line of a tool call
  (`call_cq` and the command builders of `codequery-mcp/src/tools.rs`, the options of
  `codequery-cli/src/args.rs`).

  Texts of the arguments go into the line as they are, with no two hyphens in front. So
  `cq` reads the line as it is meant exactly when none of them looks like an option
  (`means_itself_iff`); `a_path_is_read_as_an_option` is one that does.
-/

import CodeQuery.Data.CommandLine
import CodeQuery.Mcp.Tools

namespace CodeQuery.Mcp

open CodeQuery.Lsp (Json)
open CodeQuery.Text CodeQuery.Data

/-! ## The lines -/

/-- A system that keeps the command it was last given. -/
def recorder : System (Option (String × List String)) where
  readToString _ _ := .error "not read"
  write w _ _ := (.error "not written", w)
  command _ bin line := (.error "not run", some (bin, line))

/-- The arguments that a tool call gives to the binary, if it runs it. -/
def commandLine (env : Environment) (name : String) (args : Json) : Option (List String) :=
  (dispatch recorder env name args none).2.map Prod.snd

/-- The options that the binary knows behind a subcommand, those of all subcommands and
    the subcommand's own. -/
def cqOption (subcommand a : String) : Option Arity :=
  if a ∈ ["--json", "--raw", "--pretty", "--semantic", "--no-semantic", "--cache", "--no-cache", "--help", "-h"] then
    some .flag
  else if a ∈ ["--project", "--in", "--kind", "--lang", "--context", "--depth", "--limit"] then some .value
  else if subcommand = "rename" ∧ a ∈ ["--apply", "--dry-run"] then some .flag
  else none

/-! ## What a call is to say -/

/-- What a tool asks the binary for. -/
structure Request where
  subcommand : String
  kind : Option String
  arguments : List String
  /-- The option of `rename`. -/
  mode : Option String
  depth : Option Int64

namespace Request

/-- A request for a subcommand with arguments and nothing else. -/
def plain (subcommand : String) (arguments : List String) : Request := ⟨subcommand, none, arguments, none, none⟩

def required (subcommand name : String) (args : Json) : Option Request :=
  (getString name args).map fun value => plain subcommand [value]

def withKind (subcommand : String) (args : Json) : Request := ⟨subcommand, getString "kind" args, [], none, none⟩

def rename (args : Json) : Option Request :=
  match getString "old" args, getString "new" args with
  | some old, some new =>
    some ⟨"rename", none, [old, new],
      if ((get "apply" args).bind asBool).getD false then some "--apply"
      else if ((get "dry_run" args).bind asBool).getD false then some "--dry-run" else none, none⟩
  | _, _ => none

def callchain (args : Json) : Option Request :=
  (getString "symbol" args).map fun symbol => ⟨"callchain", none, [symbol], none, (get "depth" args).bind Json.asI64⟩

end Request

/-- What each tool is to ask for with its arguments; nothing when a required one is
    missing, and for the tools that do not run the binary. -/
def requestOf (name : String) (args : Json) : Option Request :=
  match name with
  | "cq_def" => Request.required "def" "symbol" args
  | "cq_body" => Request.required "body" "symbol" args
  | "cq_sig" => Request.required "sig" "symbol" args
  | "cq_refs" => Request.required "refs" "symbol" args
  | "cq_callers" => Request.required "callers" "symbol" args
  | "cq_deps" => Request.required "deps" "symbol" args
  | "cq_outline" => Request.required "outline" "file" args
  | "cq_imports" => Request.required "imports" "file" args
  | "cq_symbols" => some (Request.withKind "symbols" args)
  | "cq_search" => Request.required "search" "pattern" args
  | "cq_context" => Request.required "context" "location" args
  | "cq_tree" => some (Request.plain "tree" (getString "path" args).toList)
  | "cq_hover" => Request.required "hover" "location" args
  | "cq_diagnostics" => some (Request.plain "diagnostics" (getString "file" args).toList)
  | "cq_rename" => Request.rename args
  | "cq_dead" => some (Request.withKind "dead" args)
  | "cq_callchain" => Request.callchain args
  | "cq_hierarchy" => Request.required "hierarchy" "symbol" args
  | _ => none

namespace Request

def given (option : String) (value : Option String) : List (String × String) := value.toList.map (option, ·)

/-- The options with texts of the arguments for values. -/
def valued (r : Request) (args : Json) : List (String × String) :=
  given "--project" (getString "project" args) ++ given "--in" (getString "scope" args) ++
    given "--lang" (getString "lang" args) ++ given "--kind" r.kind

/-- The options behind the arguments. -/
def behind (r : Request) : List (String × Option String) :=
  r.mode.toList.map (·, none) ++ r.depth.toList.map fun d => ("--depth", some (toString d))

def cacheOption (env : Environment) : List String := if env "CQ_CACHE" = some "1" then [] else ["--no-cache"]

/-- How the line is to be read: the tool's own options, and the arguments as they are. -/
def meaning (r : Request) (env : Environment) (args : Json) : CommandLine where
  options := (cacheOption env).map (·, none) ++ (r.valued args).map (fun o => (o.1, some o.2)) ++ r.behind
  arguments := r.subcommand :: r.arguments

/-- The texts of the arguments that go into the line. -/
def texts (r : Request) (args : Json) : List String := (r.valued args).map (·.2) ++ r.arguments

end Request

/-- `cq` reads what the call is to say. -/
def MeansItself (env : Environment) (name : String) (args : Json) : Prop :=
  match requestOf name args with
  | none => commandLine env name args = none
  | some r => ∃ line, commandLine env name args = some line ∧ parse (cqOption r.subcommand) line = some (r.meaning env args)

/-- No text of the arguments looks like an option, and no depth is below zero. -/
def NoOptionAmong (name : String) (args : Json) : Prop :=
  ∀ r ∈ requestOf name args, (∀ s ∈ r.texts args, looksLikeOption s = false) ∧ ∀ d ∈ r.depth, 0 ≤ d

/-! ## The lines of the requests -/

namespace Request

def behindTokens (r : Request) : List String :=
  r.mode.toList ++ r.depth.toList.flatMap fun d => ["--depth", toString d]

/-- What is in the line behind the options of all tools. -/
def tokens (r : Request) : List String :=
  optionTokens (given "--kind" r.kind) ++ r.subcommand :: r.arguments ++ r.behindTokens

def line (r : Request) (env : Environment) (args : Json) : List String :=
  cacheOption env ++ (optionTokens (r.valued args) ++ (r.subcommand :: (r.arguments ++ r.behindTokens)))

theorem optionTokens_given (option name : String) (args : Json) :
    optionTokens (given option (getString name args)) = optional option name args := by
  unfold optional given
  cases getString name args <;> rfl

theorem callCq_recorder (r : Request) (env : Environment) (args : Json) :
    (callCq recorder env r.tokens args none).2.map Prod.snd = some (r.line env args) := by
  have htokens : r.line env args = cacheOption env ++ optional "--project" "project" args ++
      optional "--in" "scope" args ++ optional "--lang" "lang" args ++ r.tokens := by
    rw [line, tokens, valued, ← optionTokens_given, ← optionTokens_given, ← optionTokens_given]
    simp [optionTokens, List.append_assoc]
  rw [htokens]
  rfl

end Request

section Dispatch

variable {σ : Type} (sys : System σ) (env : Environment) (args : Json) (w : σ)

/-- A request makes a call of the binary, and nothing else does. -/
def Asks (result : Except String String × σ) (request : Option Request) : Prop :=
  match request with
  | none => ∃ e, result = (.error e, w)
  | some r => result = callCq sys env r.tokens args w

theorem runPositional_asks (subcommand name : String) :
    Asks sys env args w (runPositional sys env subcommand name args w) (Request.required subcommand name args) := by
  unfold runPositional Request.required Asks
  cases getString name args with
  | none => exact ⟨_, rfl⟩
  | some value => rfl

theorem runKindCommand_asks (subcommand : String) :
    Asks sys env args w (runKindCommand sys env subcommand args w) (some (Request.withKind subcommand args)) := by
  unfold runKindCommand
  rw [← Request.optionTokens_given]
  simp [Asks, Request.tokens, Request.withKind, Request.behindTokens]

theorem runOptional_asks (subcommand name : String) :
    Asks sys env args w (runOptional sys env subcommand name args w)
      (some (Request.plain subcommand (getString name args).toList)) := by
  simp [Asks, Request.tokens, Request.plain, Request.behindTokens, Request.given, optionTokens, runOptional]

theorem runRenameCommand_asks : Asks sys env args w (runRenameCommand sys env args w) (Request.rename args) := by
  unfold runRenameCommand Request.rename
  cases getString "old" args with
  | none => exact ⟨_, rfl⟩
  | some old =>
    cases getString "new" args with
    | none => exact ⟨_, rfl⟩
    | some new =>
      dsimp only [Asks, Request.tokens, Request.behindTokens]
      cases ((get "apply" args).bind asBool).getD false with
      | true => rfl
      | false => cases ((get "dry_run" args).bind asBool).getD false <;> rfl

theorem runCallchainCommand_asks : Asks sys env args w (runCallchainCommand sys env args w) (Request.callchain args) := by
  unfold runCallchainCommand Request.callchain
  cases getString "symbol" args with
  | none => exact ⟨_, rfl⟩
  | some symbol =>
    dsimp only [Asks, Request.tokens, Request.behindTokens, Option.map_some]
    cases (get "depth" args).bind Json.asI64 <;> rfl

theorem dispatch_asks (name : String) (hedit : name ≠ "cq_edit") :
    Asks sys env args w (dispatch sys env name args w) (requestOf name args) := by
  unfold dispatch
  split
  case h_1 | h_2 | h_3 | h_4 | h_5 | h_6 | h_18 => exact runPositional_asks sys env args w _ "symbol"
  case h_7 | h_8 => exact runPositional_asks sys env args w _ "file"
  case h_9 | h_16 => exact runKindCommand_asks sys env args w _
  case h_10 => exact runPositional_asks sys env args w "search" "pattern"
  case h_11 | h_13 => exact runPositional_asks sys env args w _ "location"
  case h_12 => exact runOptional_asks sys env args w "tree" "path"
  case h_14 => exact runOptional_asks sys env args w "diagnostics" "file"
  case h_15 => exact runRenameCommand_asks sys env args w
  case h_17 => exact runCallchainCommand_asks sys env args w
  case h_19 => exact absurd rfl hedit
  case h_20 =>
    have hnone : requestOf name args = none := by
      unfold requestOf
      split
      case h_19 => rfl
      all_goals contradiction
    rw [hnone]
    exact ⟨_, rfl⟩

end Dispatch

/-- The line of a call is that of its request. -/
theorem commandLine_eq (env : Environment) (name : String) (args : Json) :
    commandLine env name args = (requestOf name args).map fun r => r.line env args := by
  by_cases hedit : name = "cq_edit"
  · subst hedit
    have hrun : dispatch recorder env "cq_edit" args none = runEdit recorder args none := rfl
    rw [commandLine, hrun]
    unfold runEdit
    cases getString "file_path" args with
    | none => rfl
    | some filePath =>
      cases getString "old_string" args with
      | none => rfl
      | some oldString => cases getString "new_string" args <;> rfl
  · have hasks := dispatch_asks recorder env args none name hedit
    unfold commandLine
    cases hrequest : requestOf name args with
    | none =>
      rw [hrequest] at hasks
      obtain ⟨e, he⟩ := hasks
      rw [he]
      rfl
    | some r =>
      rw [hrequest] at hasks
      rw [hasks]
      exact Request.callCq_recorder r env args

/-! ## Reading a line -/

/-- The forms of a request: arguments alone, with the option of `rename`, or one with a
    depth. -/
inductive Shape : Request → Prop
  | arguments (subcommand : String) (kind : Option String) (xs : List String) (_ : looksLikeOption subcommand = false) :
      Shape ⟨subcommand, kind, xs, none, none⟩
  | mode (xs : List String) (f : String) (_ : f ∈ ["--apply", "--dry-run"]) : Shape ⟨"rename", none, xs, some f, none⟩
  | depth (x : String) (d : Int64) : Shape ⟨"callchain", none, [x], none, some d⟩

theorem shape_required {subcommand name : String} {args : Json} (h : looksLikeOption subcommand = false) :
    ∀ r ∈ Request.required subcommand name args, Shape r := by
  intro r hr
  obtain ⟨value, -, rfl⟩ := Option.map_eq_some_iff.mp hr
  exact .arguments subcommand none [value] h

theorem shape_rename {args : Json} : ∀ r ∈ Request.rename args, Shape r := by
  intro r hr
  unfold Request.rename at hr
  split at hr
  · cases hr
    split
    · exact .mode _ _ (by simp)
    · split
      · exact .mode _ _ (by simp)
      · exact .arguments _ _ _ (by decide)
  · cases hr

theorem shape_callchain {args : Json} : ∀ r ∈ Request.callchain args, Shape r := by
  intro r hr
  obtain ⟨symbol, -, rfl⟩ := Option.map_eq_some_iff.mp hr
  cases (get "depth" args).bind Json.asI64 with
  | none => exact .arguments _ _ _ (by decide)
  | some d => exact .depth symbol d

theorem requestOf_shape {name : String} {args : Json} : ∀ r ∈ requestOf name args, Shape r := by
  intro r hr
  unfold requestOf at hr
  split at hr
  case h_9 | h_12 | h_14 | h_16 =>
    cases hr
    exact .arguments _ _ _ (by decide)
  case h_15 => exact shape_rename r hr
  case h_17 => exact shape_callchain r hr
  case h_19 => cases hr
  all_goals exact shape_required (by decide) r hr

theorem looksLikeOption_eq_false {a : String} (h : a.toList.head? ≠ some '-') : looksLikeOption a = false := by
  simp [looksLikeOption, h]

theorem looksLikeOption_toString (d : Int64) : looksLikeOption (toString d) = false ↔ 0 ≤ d := by
  have hle : 0 ≤ d ↔ 0 ≤ d.toInt := Int64.le_iff_toInt_le
  have htext : toString d = toString d.toInt := rfl
  rw [hle, htext]
  cases d.toInt with
  | ofNat n =>
    refine iff_of_true (looksLikeOption_eq_false ?_) (Int.natCast_nonneg n)
    have hdigits : (toString (Int.ofNat n)).toList = Nat.toDigits 10 n := Nat.toList_repr
    rw [hdigits]
    intro h
    have hdigit := Nat.isDigit_of_mem_toDigits (by decide) (by decide) (List.mem_of_mem_head? h)
    exact absurd hdigit (by decide)
  | negSucc n =>
    refine iff_of_false ?_ (by simp)
    have htokens : (toString (Int.negSucc n)).toList = '-' :: Nat.toDigits 10 (n + 1) := by
      have happend : toString (Int.negSucc n) = "-" ++ Nat.repr (n + 1) := rfl
      rw [happend, String.toList_append, Nat.toList_repr]
      rfl
    have hne : toString (Int.negSucc n) ≠ "-" := by
      intro h
      rw [h] at htokens
      exact Nat.toDigits_ne_nil (List.cons.inj htokens).2.symm
    rw [looksLikeOption, htokens]
    simpa using hne

section Line

variable {env : Environment} {args : Json} {r : Request}

theorem parse_cacheOption_iff (subcommand : String) {rest xs : List String} {options : List (String × Option String)} :
    parse (cqOption subcommand) (Request.cacheOption env ++ rest) =
        some ⟨(Request.cacheOption env).map (·, none) ++ options, xs⟩ ↔
      parse (cqOption subcommand) rest = some ⟨options, xs⟩ := by
  unfold Request.cacheOption
  split
  · rfl
  · exact parse_flag_iff (by decide) (by decide) rfl

theorem valued_options (subcommand : String) : ∀ o ∈ r.valued args,
    looksLikeOption o.1 = true ∧ o.1 ≠ "--" ∧ cqOption subcommand o.1 = some .value := by
  intro o ho
  simp only [Request.valued, Request.given, List.mem_append, List.mem_map] at ho
  have hname : o.1 ∈ ["--project", "--in", "--lang", "--kind"] := by
    rcases ho with ((h | h) | h) | h
    all_goals
      obtain ⟨value, -, rfl⟩ := h
      simp
  have hall : ∀ n ∈ ["--project", "--in", "--lang", "--kind"], looksLikeOption n = true ∧ n ≠ "--" := by decide
  refine ⟨(hall o.1 hname).1, (hall o.1 hname).2, ?_⟩
  rcases ho with ((h | h) | h) | h
  all_goals
    obtain ⟨value, -, rfl⟩ := h
    rfl

theorem parse_behind_iff (hs : Shape r) :
    parse (cqOption r.subcommand) (r.arguments ++ r.behindTokens) = some ⟨r.behind, r.arguments⟩ ↔
      (∀ x ∈ r.arguments, looksLikeOption x = false) ∧ ∀ d ∈ r.depth, 0 ≤ d := by
  cases hs with
  | arguments subcommand kind xs hsub => simp [Request.behindTokens, Request.behind, parse_arguments_iff]
  | mode xs f hf =>
    have hflag : looksLikeOption f = true ∧ f ≠ "--" ∧ cqOption "rename" f = some .flag := by
      rcases List.mem_pair.mp hf with rfl | rfl
      · exact ⟨by decide, by decide, rfl⟩
      · exact ⟨by decide, by decide, rfl⟩
    have hparse := @parse_arguments_flag_iff (cqOption "rename") f hflag.1 hflag.2.1 hflag.2.2 xs
    simpa [Request.behindTokens, Request.behind] using hparse
  | depth x d =>
    have hparse := @parse_argument_value_iff (cqOption "callchain") "--depth" x (toString d) (by decide) (by decide) rfl
    rw [looksLikeOption_toString] at hparse
    simpa [Request.behindTokens, Request.behind] using hparse

theorem shape_subcommand (hs : Shape r) : looksLikeOption r.subcommand = false := by
  cases hs with
  | arguments subcommand kind xs hsub => exact hsub
  | mode xs f hf =>
    show looksLikeOption "rename" = false
    decide
  | depth x d =>
    show looksLikeOption "callchain" = false
    decide

theorem parse_line_iff (hs : Shape r) :
    parse (cqOption r.subcommand) (r.line env args) = some (r.meaning env args) ↔
      (∀ s ∈ r.texts args, looksLikeOption s = false) ∧ ∀ d ∈ r.depth, 0 ≤ d := by
  rw [Request.line, Request.meaning, List.append_assoc, parse_cacheOption_iff]
  have hoptions := @parse_options_iff (cqOption r.subcommand) (r.valued args) (valued_options r.subcommand)
    (r.subcommand :: (r.arguments ++ r.behindTokens)) ⟨r.behind, r.subcommand :: r.arguments⟩
  rw [hoptions, parse_plain_iff (shape_subcommand hs), parse_behind_iff hs, Request.texts, List.forall_mem_append,
    List.forall_mem_map,
    and_assoc]

end Line

/-- A call says what it is to say exactly when nothing among its arguments looks like an
    option. -/
theorem means_itself_iff (env : Environment) (name : String) (args : Json) :
    MeansItself env name args ↔ NoOptionAmong name args := by
  unfold MeansItself NoOptionAmong
  rw [commandLine_eq]
  cases hrequest : requestOf name args with
  | none => simp
  | some r => simpa using parse_line_iff (requestOf_shape r hrequest)

/-- The tree of a directory whose name is that of an option: the option is read, and no
    directory. -/
theorem a_path_is_read_as_an_option :
    let args := Json.obj [("path", .str "--json")]
    commandLine (fun _ => none) "cq_tree" args = some ["--no-cache", "tree", "--json"] ∧
      parse (cqOption "tree") ["--no-cache", "tree", "--json"] =
        some ⟨[("--no-cache", none), ("--json", none)], ["tree"]⟩ ∧
      ¬ MeansItself (fun _ => none) "cq_tree" args := by
  have hline : commandLine (fun _ => none) "cq_tree" (.obj [("path", .str "--json")]) =
      some ["--no-cache", "tree", "--json"] := by
    decide
  refine ⟨hline, by decide, ?_⟩
  intro h
  obtain ⟨line, hline', hparse⟩ : ∃ line, _ ∧ _ := h
  rw [hline] at hline'
  cases hline'
  exact absurd hparse (by decide)

end CodeQuery.Mcp
