/-
  CodeQuery.Parse.Parser — parsers and extractors by language
  (`codequery-parse/src/parser.rs`, `extract.rs`).

  Every grammar is an installed package, found by its language's name: a built-in
  language has a variant of `Language`, a runtime language its name alone.
-/

import CodeQuery.Core.Language
import CodeQuery.Core.Symbol
import CodeQuery.Parse.Tree

namespace CodeQuery.Parse

open CodeQuery.Core CodeQuery.Text

/-- `Parser::parse(source).ok()` of a parser with its grammar loaded. -/
abbrev Grammar := Str → Option Node

structure Grammars where
  /-- `from_runtime_or_wasm(name, _)`; an error is its message. -/
  load : String → Except String Grammar
  /-- The compiled-in extractors. -/
  extractSymbols : Str → Node → Path → Language → List Symbol
  /-- The rules of a package's `extract.toml`. -/
  extractRuntime : Str → Node → Path → String → List Symbol

namespace Grammars

variable (G : Grammars)

def forLanguage (language : Language) : Except String Grammar := G.load language.name

def forName (name : String) : Except String Grammar :=
  match Language.fromName name with
  | some language => G.forLanguage language
  | none => G.load name

def extractSymbolsByName (source : Str) (tree : Node) (file : Path) (name : String) : List Symbol :=
  match Language.fromName name with
  | some language => G.extractSymbols source tree file language
  | none => G.extractRuntime source tree file name

end Grammars

end CodeQuery.Parse
