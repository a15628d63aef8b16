/-
  CodeQuery.Mcp.Server — the loop of the MCP server (`codequery-mcp/src/main.rs`).

  `serve` gives for each line that is read what is written for it. `serde_json` turns the
  text of a line into a syntax tree; a response is written on one line.
-/

import CodeQuery.Mcp.Tools
import CodeQuery.Text.Utf8

namespace CodeQuery.Mcp

open CodeQuery.Lsp (Json)
open CodeQuery.Text

/-- What `serde_json` makes of a text, and its errors on what is no request or no
    parameters of a tool call. -/
structure Serde where
  fromStr : String → Option Json
  requestError : String → String
  paramsError : Json → String
  fromStr_empty : fromStr "" = none

section Server

variable {σ : Type} (serde : Serde) (sys : System σ) (env : Environment)

def handleInitialize (id : Option Json) : JsonRpcResponse := .success id initializeResult

def handleToolsList (id : Option Json) : JsonRpcResponse :=
  .success id (.obj [("tools", .arr ((allTools env).map ToolDefinition.toJson))])

def handleToolsCall (id : Option Json) (params : Json) (w : σ) : JsonRpcResponse × σ :=
  match ToolCallParams.ofJson params with
  | none => (.ofError id invalidParams ("Invalid tool call params: " ++ serde.paramsError params), w)
  | some callParams =>
    let (result, w') := executeTool sys env callParams.name callParams.arguments w
    (.success id result.toJson, w')

/-- The match of `handle_message`. -/
def route (request : JsonRpcRequest) (w : σ) : JsonRpcResponse × σ :=
  match request.method with
  | "initialize" => (handleInitialize request.id, w)
  | "tools/list" => (handleToolsList env request.id, w)
  | "tools/call" => handleToolsCall serde sys env request.id request.params w
  | "ping" => (.success request.id (.obj []), w)
  | method => (.ofError request.id methodNotFound ("Unknown method: " ++ method), w)

def handleMessage (raw : String) (w : σ) : Option JsonRpcResponse × σ :=
  match (serde.fromStr raw).bind JsonRpcRequest.ofJson with
  | none => (some (.ofError none parseError ("Invalid JSON: " ++ serde.requestError raw)), w)
  | some request =>
    if request.id.isNone then (none, w)
    else
      let (response, w') := route serde sys env request w
      (some response, w')

/-- The text of a line without its blanks; `lines()` takes off the line's ending, which is
    blank. -/
def trimmed (line : Str) : Option String := (fromUtf8 line).map fun text => .ofList (trim text.toList)

/-- The loop of `main`: an error of `lines()`, which text that is not UTF-8 gives, ends it. -/
def serve : List Str → σ → List (Option JsonRpcResponse)
  | [], _ => []
  | line :: rest, w =>
    match trimmed line with
    | none => []
    | some raw =>
      if raw.isEmpty then none :: serve rest w
      else
        let (response, w') := handleMessage serde sys env raw w
        response :: serve rest w'

/-- What is written for the line at a place: nothing when it is not read. -/
def answerAt (lines : List Str) (w : σ) (i : Nat) : Option JsonRpcResponse := ((serve serde sys env lines w)[i]?).join

end Server

end CodeQuery.Mcp
