/-
  CodeQuery.Lsp.Transport — the stdio transport to a language server
  (`codequery-lsp/src/transport.rs`).

  A stream is the bytes still to be read; a reader returns its value or error and the
  stream it leaves. `read_line` takes the stream apart at its line feeds, so the header
  loop goes over the pieces. The deadline of a request is the number of turns its loop
  still gets; a server that sends nothing more has closed the stream.
-/

import CodeQuery.Data.Frames
import CodeQuery.Lsp.Protocol
import CodeQuery.Text.Utf8

namespace CodeQuery.Lsp

open CodeQuery.Text CodeQuery.Data.Frames

/-! ## Framing -/

def writeMessage (json : String) : Str :=
  str ("Content-Length: " ++ toString (str json).length ++ "\r\n\r\n") ++ str json

/-- The lines of a header up to the blank one, and the pieces behind it. -/
def headerLoop : Option Nat → List Str → Except LspError Nat × List Str
  | _, [] => (.error (.connectionFailed .endOfHeaders), [])
  | contentLength, line :: rest =>
    match fromUtf8 line with
    | none => (.error (.io .invalidData), rest)
    | some line =>
      let trimmed := trim line.toList
      if trimmed.isEmpty then
        match contentLength with
        | some n => (.ok n, rest)
        | none => (.error (.connectionFailed .missingContentLength), rest)
      else
        match stripPrefix "Content-Length:".toList trimmed with
        | some value =>
          match parseUsize (trim value) with
          | .ok n => headerLoop (some n) rest
          | .error e => (.error (.connectionFailed (.invalidContentLength e)), rest)
        | none => headerLoop contentLength rest

def readHeaders (s : Str) : Except LspError Nat × Str :=
  let (r, rest) := headerLoop none (splitInclusive s)
  (r, rest.flatten)

def isizeMax : Nat := 2 ^ 63 - 1

def readExact (n : Nat) (s : Str) : Except LspError Str × Str :=
  if n ≤ s.length then (.ok (s.take n), s.drop n) else (.error (.io .unexpectedEof), [])

def readMessage : Read UInt8 String LspError := fun s =>
  match readHeaders s with
  | (.error e, rest) => (.error e, rest)
  | (.ok contentLength, rest) =>
    if isizeMax < contentLength then (.error .capacityOverflow, rest)
    else
      match readExact contentLength rest with
      | (.error e, rest) => (.error e, rest)
      | (.ok body, rest) =>
        match fromUtf8 body with
        | some text => (.ok text, rest)
        | none => (.error (.connectionFailed .invalidUtf8), rest)

/-! ## Requests -/

structure StdioTransport where
  /-- What was written to the server. -/
  stdin : Str
  /-- What is still to be read from it. -/
  stdout : Str

section Request

variable (parse : String → Option Json) (render : Json → String)

/-- The loop of `send_request`: the first message that reads as a response with the id,
    and that response. -/
def awaitResponse (id : UInt64) : Nat → Str → Except LspError (String × JsonRpcResponse) × Str
  | 0, s => (.error .timeout, s)
  | turns + 1, s =>
    match readMessage s with
    | (.error e, rest) => (.error e, rest)
    | (.ok msg, rest) =>
      match (parse msg).bind JsonRpcResponse.ofJson with
      | some response => if response.id = id then (.ok (msg, response), rest) else awaitResponse id turns rest
      | none => awaitResponse id turns rest

/-- What a call returns of the response it waited for. -/
def resultOf (method : String) : Except LspError (String × JsonRpcResponse) → Except LspError Json
  | .error e => .error e
  | .ok (_, response) =>
    match response.error with
    | some err => .error (.requestFailed method err.message)
    | none => .ok (response.result.getD .null)

/-- `send_request`, with the id it takes from the counter; `writes` says whether the
    request can be written. -/
def sendRequest (method : String) (params : Json) (writes : Bool) (turns : Nat) (counter : UInt64)
    (t : StdioTransport) : Except LspError Json × UInt64 × StdioTransport :=
  let (id, counter') := nextRequestId counter
  let request : JsonRpcRequest := ⟨"2.0", id, method, some params⟩
  if writes then
    let (response, rest) := awaitResponse parse id turns t.stdout
    (resultOf method response, counter', ⟨t.stdin ++ writeMessage (render request.toJson), rest⟩)
  else (.error (.io .other), counter', t)

end Request

end CodeQuery.Lsp
