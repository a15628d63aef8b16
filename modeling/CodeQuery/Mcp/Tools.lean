/-
  CodeQuery.Mcp.Tools — the tools of the MCP server (`codequery-mcp/src/tools.rs`).

  One table lists the tools and another runs them. A tool is the `cq` binary with
  arguments, or an edit of a file; what the operating system answers is given from
  outside (`System`), as is the environment.
-/

import CodeQuery.Mcp.Protocol
import CodeQuery.Text.Replace

namespace CodeQuery.Mcp

open CodeQuery.Lsp (Json)
open CodeQuery.Text

/-- The environment's variables, as `std::env::var(name).ok()` reads them. -/
abbrev Environment := String → Option String

/-! ## The list -/

/-- A property of a tool's arguments. -/
def property (name type description : String) : String × Json :=
  (name, .obj [("type", .str type), ("description", .str description)])

def text (name description : String) : String × Json := property name "string" description

def project : String × Json := text "project" "Project root directory (defaults to cwd)"
def scope : String × Json := text "scope" "Restrict search to a subdirectory or file"
def lang : String × Json := text "lang" "Filter by language (e.g. rust, python, typescript)"

/-- A definition with its schema; without required arguments, the schema has no such
    member. -/
def tool (name description : String) (required : List String) (properties : List (String × Json)) : ToolDefinition :=
  ⟨name, description,
    .obj ([("type", .str "object"), ("properties", .obj properties)] ++
      if required.isEmpty then [] else [("required", .arr (required.map .str))])⟩

/-- The tools of every environment. -/
def queryTools : List ToolDefinition := [
  tool "cq_def" "Find where a symbol is defined across the project" ["symbol"]
    [text "symbol" "Symbol name to find (supports qualified names like Struct::method)",
      text "scope" "Restrict search to a subdirectory or file (e.g. 'src/lib')", lang, project],
  tool "cq_body" "Extract the full source body of a symbol definition" ["symbol"]
    [text "symbol" "Symbol name to extract (supports qualified names)", scope, lang, project],
  tool "cq_sig" "Extract the type signature of a symbol (without body)" ["symbol"]
    [text "symbol" "Symbol name to extract signature for", scope, lang, project],
  tool "cq_refs" "Find all references to a symbol across the project" ["symbol"]
    [text "symbol" "Symbol name to find references for", scope, project],
  tool "cq_callers" "Find all call sites of a function across the project" ["symbol"]
    [text "symbol" "Function name to find callers for", scope, project],
  tool "cq_outline" "List all symbols in a file with their kinds and nesting" ["file"]
    [text "file" "File path to outline (relative or absolute)", project],
  tool "cq_symbols" "List all symbols in the project" []
    [text "kind" "Filter by symbol kind (function, struct, class, etc.)",
      text "scope" "Restrict to a subdirectory or file (e.g. 'crates/codequery-core')", project],
  tool "cq_imports" "List imports and use statements in a file" ["file"]
    [text "file" "File path to list imports for", project],
  tool "cq_search" "Structural search using tree-sitter S-expression queries. Use cq_tree to explore node types for a language."
    ["pattern"]
    [text "pattern" "Tree-sitter S-expression query (e.g. '(function_item name: (identifier) @name)')", scope, lang,
      project],
  tool "cq_context" "Show the enclosing symbol context around a file location" ["location"]
    [text "location" "Location as file:line (e.g. src/main.rs:42)", project],
  tool "cq_tree" "Show project file and directory structure" []
    [text "path" "Root path to display (defaults to project root)", text "scope" "Restrict to a subdirectory", project],
  tool "cq_deps" "Show dependency relationships for a symbol" ["symbol"]
    [text "symbol" "Symbol name to show dependencies for", scope, lang, project],
  tool "cq_hover" "Show type info, docs, and signature at a source location" ["location"]
    [text "location" "Location as file:line[:column]", project],
  tool "cq_diagnostics" "Show syntax errors and language server diagnostics for a file or project" []
    [text "file" "File to check (omit for whole project)", scope, project],
  tool "cq_rename" "Rename a symbol across the project. Dry-run at syntactic precision, applies at semantic/resolved."
    ["old", "new"]
    [text "old" "Current symbol name", text "new" "New symbol name",
      property "apply" "boolean" "Force apply changes regardless of precision tier",
      property "dry_run" "boolean" "Force preview mode without applying", scope, lang, project],
  tool "cq_dead" "Find unreferenced (dead) symbols in the project" []
    [text "kind" "Filter by symbol kind", scope, project],
  tool "cq_callchain" "Trace multi-level call hierarchy for a symbol" ["symbol"]
    [text "symbol" "Symbol name to trace", property "depth" "integer" "Maximum depth, default 3", scope, project],
  tool "cq_hierarchy" "Show type hierarchy — supertypes and subtypes" ["symbol"]
    [text "symbol" "Type name to show hierarchy for", scope, lang, project]]

def editTool : ToolDefinition :=
  tool "cq_edit" ("Edit a file by replacing an exact string match. Does not require " ++
      "reading the file first — use after cq_body to make surgical edits.")
    ["file_path", "old_string", "new_string"]
    [text "file_path" "Absolute path to the file to edit",
      text "old_string" "Exact string to find and replace (must be unique in file unless replace_all is true)",
      text "new_string" "Replacement string",
      property "replace_all" "boolean" "Replace all occurrences (default: false)"]

/-- The tool that edits files is listed when the variable says so. -/
def allTools (env : Environment) : List ToolDefinition :=
  queryTools ++ if env "CQ_MCP_EDIT" = some "1" then [editTool] else []

/-! ## The operating system -/

/-- What a process left behind; its texts as `from_utf8_lossy` reads them. -/
structure Output where
  code : Option Int
  status : String
  stdout : String
  stderr : String

/-- What the operating system answers in a state, and the state it leaves; the texts are
    those of its errors. -/
structure System (σ : Type) where
  readToString : σ → String → Except String Str
  write : σ → String → Str → Except String Unit × σ
  command : σ → String → List String → Except String Output × σ

/-! ## The dispatch -/

section Dispatch

variable {σ : Type} (sys : System σ) (env : Environment)

/-- An option of the binary, when the tool's arguments have a text for it. -/
def optional (option name : String) (args : Json) : List String :=
  match getString name args with
  | some value => [option, value]
  | none => []

def missing (name : String) : Except String String := .error ("Missing required argument: " ++ name)

/-- The result of a process; a code of zero is no error. -/
def commandResult (output : Output) : Except String String :=
  if output.code.getD (-1) = 0 then .ok output.stdout
  else .error (if output.stderr.isEmpty then
      if output.stdout.isEmpty then "cq exited with status " ++ output.status else output.stdout
    else output.stderr)

def callCq (cmdArgs : List String) (toolArgs : Json) (w : σ) : Except String String × σ :=
  let args := (if env "CQ_CACHE" = some "1" then [] else ["--no-cache"]) ++ optional "--project" "project" toolArgs ++
    optional "--in" "scope" toolArgs ++ optional "--lang" "lang" toolArgs ++ cmdArgs
  let cqBin := (env "CQ_BIN").getD "cq"
  match sys.command w cqBin args with
  | (.error e, w') => (.error ("Failed to execute " ++ cqBin ++ ": " ++ e), w')
  | (.ok output, w') => (commandResult output, w')

/-- A command with one required argument behind its name. -/
def runPositional (subcommand name : String) (args : Json) (w : σ) : Except String String × σ :=
  match getString name args with
  | none => (missing name, w)
  | some value => callCq sys env [subcommand, value] args w

def runSymbolCommand (subcommand : String) : Json → σ → Except String String × σ := runPositional sys env subcommand "symbol"

def runFileCommand (subcommand : String) : Json → σ → Except String String × σ := runPositional sys env subcommand "file"

def runSearchCommand : Json → σ → Except String String × σ := runPositional sys env "search" "pattern"

def runContextCommand : Json → σ → Except String String × σ := runPositional sys env "context" "location"

def runHoverCommand : Json → σ → Except String String × σ := runPositional sys env "hover" "location"

/-- A command behind an optional filter by kind. -/
def runKindCommand (subcommand : String) (args : Json) (w : σ) : Except String String × σ :=
  callCq sys env (optional "--kind" "kind" args ++ [subcommand]) args w

def runSymbolsCommand : Json → σ → Except String String × σ := runKindCommand sys env "symbols"

def runDeadCommand : Json → σ → Except String String × σ := runKindCommand sys env "dead"

/-- A command with one optional argument behind its name. -/
def runOptional (subcommand name : String) (args : Json) (w : σ) : Except String String × σ :=
  callCq sys env (subcommand :: (getString name args).toList) args w

def runTreeCommand : Json → σ → Except String String × σ := runOptional sys env "tree" "path"

def runDiagnosticsCommand : Json → σ → Except String String × σ := runOptional sys env "diagnostics" "file"

def runRenameCommand (args : Json) (w : σ) : Except String String × σ :=
  match getString "old" args with
  | none => (missing "old", w)
  | some old =>
    match getString "new" args with
    | none => (missing "new", w)
    | some new =>
      let mode := if ((get "apply" args).bind asBool).getD false then ["--apply"]
        else if ((get "dry_run" args).bind asBool).getD false then ["--dry-run"] else []
      callCq sys env (["rename", old, new] ++ mode) args w

def runCallchainCommand (args : Json) (w : σ) : Except String String × σ :=
  match getString "symbol" args with
  | none => (missing "symbol", w)
  | some symbol =>
    let depth := match (get "depth" args).bind Json.asI64 with
      | some depth => ["--depth", toString depth]
      | none => []
    callCq sys env (["callchain", symbol] ++ depth) args w

/-- `run_edit` behind its arguments: the text to write, and the line of the first match. -/
def plannedEdit (filePath : String) (oldString newString content : Str) (replaceAll : Bool) : Except String (Str × Nat × Nat) :=
  let count := countMatches oldString content
  if count = 0 then .error ("old_string not found in " ++ filePath)
  else if 1 < count && !replaceAll then
    .error ("old_string found " ++ toString count ++ " times in " ++ filePath ++ ". " ++
      "Provide more context to make it unique, or set replace_all: true")
  else
    let firstOffset := (find oldString content).getD 0
    let lineNumber := (lines (content.take firstOffset)).length + 1
    .ok (if replaceAll then replace oldString newString content else replacen oldString newString content 1, count, lineNumber)

def runEdit (args : Json) (w : σ) : Except String String × σ :=
  match getString "file_path" args with
  | none => (missing "file_path", w)
  | some filePath =>
    match getString "old_string" args with
    | none => (missing "old_string", w)
    | some oldString =>
      match getString "new_string" args with
      | none => (missing "new_string", w)
      | some newString =>
        let replaceAll := ((get "replace_all" args).bind asBool).getD false
        match sys.readToString w filePath with
        | .error e => (.error ("Failed to read " ++ filePath ++ ": " ++ e), w)
        | .ok content =>
          match plannedEdit filePath (str oldString) (str newString) content replaceAll with
          | .error e => (.error e, w)
          | .ok (newContent, count, lineNumber) =>
            match sys.write w filePath newContent with
            | (.error e, w') => (.error ("Failed to write " ++ filePath ++ ": " ++ e), w')
            | (.ok _, w') =>
              (.ok ("Edited " ++ filePath ++ ": replaced " ++ toString count ++ " occurrence(s) starting at line " ++
                toString lineNumber), w')

/-- The match of `execute_tool`. -/
def dispatch (name : String) (args : Json) (w : σ) : Except String String × σ :=
  match name with
  | "cq_def" => runSymbolCommand sys env "def" args w
  | "cq_body" => runSymbolCommand sys env "body" args w
  | "cq_sig" => runSymbolCommand sys env "sig" args w
  | "cq_refs" => runSymbolCommand sys env "refs" args w
  | "cq_callers" => runSymbolCommand sys env "callers" args w
  | "cq_deps" => runSymbolCommand sys env "deps" args w
  | "cq_outline" => runFileCommand sys env "outline" args w
  | "cq_imports" => runFileCommand sys env "imports" args w
  | "cq_symbols" => runSymbolsCommand sys env args w
  | "cq_search" => runSearchCommand sys env args w
  | "cq_context" => runContextCommand sys env args w
  | "cq_tree" => runTreeCommand sys env args w
  | "cq_hover" => runHoverCommand sys env args w
  | "cq_diagnostics" => runDiagnosticsCommand sys env args w
  | "cq_rename" => runRenameCommand sys env args w
  | "cq_dead" => runDeadCommand sys env args w
  | "cq_callchain" => runCallchainCommand sys env args w
  | "cq_hierarchy" => runSymbolCommand sys env "hierarchy" args w
  | "cq_edit" => runEdit sys args w
  | _ => (.error ("Unknown tool: " ++ name), w)

def executeTool (name : String) (args : Json) (w : σ) : ToolCallResult × σ :=
  match dispatch sys env name args w with
  | (.ok output, w') => (⟨output, false⟩, w')
  | (.error err, w') => (⟨err, true⟩, w')

end Dispatch

end CodeQuery.Mcp
