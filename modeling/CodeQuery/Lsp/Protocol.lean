/-
  CodeQuery.Lsp.Protocol — errors, JSON, and the JSON-RPC messages
  (`codequery-lsp/src/error.rs`, `protocol.rs`).

  `serde_json` is what turns a text into a syntax tree and back; what the derived
  `Deserialize` makes of a tree is written out here. A struct is read from an object,
  with unknown members skipped, a member given twice refused, and an `Option` member
  absent or null read as none; it is also read from an array of its fields in order.
-/

import CodeQuery.Text.Chars

namespace CodeQuery.Lsp

open CodeQuery.Text

/-! ## Errors -/

inductive IoError where
  | unexpectedEof
  | invalidData
  | other
  deriving DecidableEq, Repr

/-- The texts of `LspError::ConnectionFailed`. -/
inductive ConnectionError where
  /-- `unexpected end of stream while reading headers`. -/
  | endOfHeaders
  /-- `invalid Content-Length: {e}`. -/
  | invalidContentLength (e : ParseIntError)
  /-- `missing Content-Length header`. -/
  | missingContentLength
  /-- `invalid UTF-8 in response body: {e}`. -/
  | invalidUtf8
  /-- `connection closed`. -/
  | closed
  /-- `message too large: {len} bytes (max {MAX_MESSAGE_SIZE})`. -/
  | tooLarge (len : Nat)
  /-- `failed to connect to daemon at 127.0.0.1:{port}: {e}`. -/
  | connect (port : Nat)
  /-- `daemon authentication failed: {msg}`. -/
  | authentication (msg : String)
  /-- `unexpected response during authentication`. -/
  | unexpectedAuthentication
  /-- `daemon query error: {msg}`. -/
  | query (msg : String)
  /-- `unexpected daemon response: {other:?}`. -/
  | unexpectedResponse
  /-- A text passed on as it is. -/
  | message (msg : String)
  deriving DecidableEq, Repr

inductive LspError where
  | serverNotFound (binary : String)
  | requestFailed (method message : String)
  | timeout
  | daemonNotRunning
  | connectionFailed (e : ConnectionError)
  | io (e : IoError)
  | json
  /-- No error of the code: a buffer of more than `isize::MAX` bytes panics. -/
  | capacityOverflow
  deriving DecidableEq, Repr

/-! ## JSON -/

/-- A number as `serde_json` keeps it. -/
inductive Number where
  | posInt (n : UInt64)
  | negInt (i : Int64)
  | float (literal : String)
  deriving DecidableEq, Repr

/-- A syntax tree; an object keeps its members in order, repeated ones too. -/
inductive Json where
  | null
  | bool (b : Bool)
  | num (n : Number)
  | str (s : String)
  | arr (items : List Json)
  | obj (members : List (String × Json))
  deriving Repr

namespace Json

def isNull : Json → Bool
  | null => true
  | _ => false

def asString : Json → Option String
  | str s => some s
  | _ => none

def asU64 : Json → Option UInt64
  | num (.posInt n) => some n
  | _ => none

def asI64 : Json → Option Int64
  | num (.posInt n) => if n.toNat < 2 ^ 63 then some (.ofNat n.toNat) else none
  | num (.negInt i) => some i
  | _ => none

/-- The values of the members of a name. -/
def membersOf (name : String) (members : List (String × Json)) : List Json :=
  (members.filter (·.1 == name)).map (·.2)

end Json

section Derive

variable {α : Type} (conv : Json → Option α)

/-- `Option<T>`: null is none. -/
def optionValue (j : Json) : Option (Option α) := if j.isNull then some none else (conv j).map some

def requiredField (name : String) (members : List (String × Json)) : Option α :=
  match Json.membersOf name members with
  | [j] => conv j
  | _ => none

def optionField (name : String) (members : List (String × Json)) : Option (Option α) :=
  match Json.membersOf name members with
  | [] => some none
  | [j] => optionValue conv j
  | _ => none

end Derive

/-! ## Messages -/

structure JsonRpcError where
  code : Int64
  message : String
  data : Option Json
  deriving Repr

def JsonRpcError.ofJson : Json → Option JsonRpcError
  | .obj members => do
    let code ← requiredField Json.asI64 "code" members
    let message ← requiredField Json.asString "message" members
    let data ← optionField some "data" members
    some ⟨code, message, data⟩
  | .arr [code, message, data] => do
    some ⟨← code.asI64, ← message.asString, ← optionValue some data⟩
  | _ => none

structure JsonRpcResponse where
  jsonrpc : String
  id : UInt64
  result : Option Json
  error : Option JsonRpcError
  deriving Repr

def JsonRpcResponse.ofJson : Json → Option JsonRpcResponse
  | .obj members => do
    let jsonrpc ← requiredField Json.asString "jsonrpc" members
    let id ← requiredField Json.asU64 "id" members
    let result ← optionField some "result" members
    let error ← optionField JsonRpcError.ofJson "error" members
    some ⟨jsonrpc, id, result, error⟩
  | .arr [jsonrpc, id, result, error] => do
    some ⟨← jsonrpc.asString, ← id.asU64, ← optionValue some result, ← optionValue JsonRpcError.ofJson error⟩
  | _ => none

structure JsonRpcRequest where
  jsonrpc : String
  id : UInt64
  method : String
  params : Option Json
  deriving Repr

/-- `Serialize`: absent parameters are skipped. -/
def JsonRpcRequest.toJson (r : JsonRpcRequest) : Json :=
  .obj ([("jsonrpc", .str r.jsonrpc), ("id", .num (.posInt r.id)), ("method", .str r.method)] ++
    (r.params.map ("params", ·)).toList)

/-- `next_request_id`: the id, and the counter behind it. -/
def nextRequestId (counter : UInt64) : UInt64 × UInt64 := (counter, counter + 1)

end CodeQuery.Lsp
