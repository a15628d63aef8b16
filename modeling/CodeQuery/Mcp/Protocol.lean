/-
  CodeQuery.Mcp.Protocol — the messages of the MCP server (`codequery-mcp/src/protocol.rs`).

  A request is read as the derived `Deserialize` reads it (see `CodeQuery.Lsp.Protocol`):
  `params` may be absent; in an array it may be left out at the end.
-/

import CodeQuery.Lsp.Protocol

namespace CodeQuery.Mcp

open CodeQuery.Lsp (Json Number requiredField optionField optionValue)

/-! ## Values -/

/-- `Value::get` of an object: the member given last. -/
def get (name : String) : Json → Option Json
  | .obj members => (Json.membersOf name members).getLast?
  | _ => none

def asBool : Json → Option Bool
  | .bool b => some b
  | _ => none

/-- `args.get(name).and_then(Value::as_str)`. -/
def getString (name : String) (args : Json) : Option String := (get name args).bind Json.asString

def int (i : Int64) : Json := .num (if 0 ≤ i then .posInt i.toUInt64 else .negInt i)

/-- `#[serde(default)]`: absent is null. -/
def defaultField (name : String) (members : List (String × Json)) : Option Json :=
  match Json.membersOf name members with
  | [] => some .null
  | [j] => some j
  | _ => none

/-! ## JSON-RPC -/

structure JsonRpcRequest where
  jsonrpc : String
  id : Option Json
  method : String
  params : Json
  deriving Repr

def JsonRpcRequest.ofJson : Json → Option JsonRpcRequest
  | .obj members => do
    let jsonrpc ← requiredField Json.asString "jsonrpc" members
    let id ← optionField some "id" members
    let method ← requiredField Json.asString "method" members
    let params ← defaultField "params" members
    some ⟨jsonrpc, id, method, params⟩
  | .arr [jsonrpc, id, method] => do some ⟨← jsonrpc.asString, ← optionValue some id, ← method.asString, .null⟩
  | .arr [jsonrpc, id, method, params] => do some ⟨← jsonrpc.asString, ← optionValue some id, ← method.asString, params⟩
  | _ => none

structure JsonRpcError where
  code : Int64
  message : String
  data : Option Json
  deriving Repr

/-- `Serialize`: absent members are skipped. -/
def JsonRpcError.toJson (e : JsonRpcError) : Json :=
  .obj ([("code", int e.code), ("message", .str e.message)] ++ (e.data.map ("data", ·)).toList)

structure JsonRpcResponse where
  jsonrpc : String
  id : Option Json
  result : Option Json
  error : Option JsonRpcError
  deriving Repr

namespace JsonRpcResponse

def success (id : Option Json) (result : Json) : JsonRpcResponse := ⟨"2.0", id, some result, none⟩

/-- The constructor `error`. -/
def ofError (id : Option Json) (code : Int64) (message : String) : JsonRpcResponse :=
  ⟨"2.0", id, none, some ⟨code, message, none⟩⟩

def toJson (r : JsonRpcResponse) : Json :=
  .obj ([("jsonrpc", .str r.jsonrpc)] ++ (r.id.map ("id", ·)).toList ++ (r.result.map ("result", ·)).toList ++
    (r.error.map ("error", ·.toJson)).toList)

@[simp] theorem success_id (id : Option Json) (result : Json) : (success id result).id = id := rfl

@[simp] theorem ofError_id (id : Option Json) (code : Int64) (message : String) : (ofError id code message).id = id := rfl

end JsonRpcResponse

def methodNotFound : Int64 := -32601
def invalidParams : Int64 := -32602
def parseError : Int64 := -32700

/-! ## MCP -/

/-- `InitializeResult`, as it is serialized. -/
def initializeResult : Json :=
  .obj [("protocolVersion", .str "2024-11-05"),
    ("capabilities", .obj [("tools", .obj [("listChanged", .bool false)])]),
    ("serverInfo", .obj [("name", .str "cq-mcp"), ("version", .str "1.0.0")])]

structure ToolDefinition where
  name : String
  description : String
  inputSchema : Json
  deriving Repr

def ToolDefinition.toJson (t : ToolDefinition) : Json :=
  .obj [("name", .str t.name), ("description", .str t.description), ("inputSchema", t.inputSchema)]

/-- The result of a tool call: one text, and whether it is an error. -/
structure ToolCallResult where
  text : String
  isError : Bool
  deriving DecidableEq, Repr

/-- An `is_error` of none is skipped. -/
def ToolCallResult.toJson (r : ToolCallResult) : Json :=
  .obj (("content", .arr [.obj [("type", .str "text"), ("text", .str r.text)]]) ::
    if r.isError then [("isError", .bool true)] else [])

structure ToolCallParams where
  name : String
  arguments : Json
  deriving Repr

/-- Read from a value, which has each member once. -/
def ToolCallParams.ofJson : Json → Option ToolCallParams
  | j@(.obj _) => do some ⟨← getString "name" j, (get "arguments" j).getD .null⟩
  | .arr [name] => do some ⟨← name.asString, .null⟩
  | .arr [name, arguments] => do some ⟨← name.asString, arguments⟩
  | _ => none

end CodeQuery.Mcp
