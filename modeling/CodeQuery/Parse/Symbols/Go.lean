/-
  CodeQuery.Parse.Symbols.Go — the signatures of a Go file's symbols
  (`codequery-parse/src/languages/go.rs`).
-/

import CodeQuery.Parse.SymbolText

namespace CodeQuery.Parse.Symbols.Go

open CodeQuery.Core CodeQuery.Text

/-- Up to the first brace, wherever that is. -/
def extractFnSignature (body : Str) : Str := beforeBrace (body.findIdx? (· == braceOpen)) body (trimText body)

def extractSignature (source : Str) (node : Node) (kind : SymbolKind) : Str :=
  let bodyText := nodeSource source node
  match kind with
  | .function | .method | .test => extractFnSignature bodyText
  | .type | .const | .static => trimText (firstLine bodyText)
  | _ => bodyText

end CodeQuery.Parse.Symbols.Go
