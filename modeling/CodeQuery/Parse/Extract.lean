/-
  CodeQuery.Parse.Extract — the extractor of each language (`codequery-parse/src/extract.rs`).

  `extractDefinitions` is what the extractor of a language makes of a tree; the symbols
  are these definitions with their texts.
-/

import CodeQuery.Core.Language
import CodeQuery.Parse.Languages.Bash
import CodeQuery.Parse.Languages.C
import CodeQuery.Parse.Languages.CSharp
import CodeQuery.Parse.Languages.Cpp
import CodeQuery.Parse.Languages.Css
import CodeQuery.Parse.Languages.Go
import CodeQuery.Parse.Languages.Html
import CodeQuery.Parse.Languages.Java
import CodeQuery.Parse.Languages.Json
import CodeQuery.Parse.Languages.Kotlin
import CodeQuery.Parse.Languages.Lua
import CodeQuery.Parse.Languages.Php
import CodeQuery.Parse.Languages.Python
import CodeQuery.Parse.Languages.Ruby
import CodeQuery.Parse.Languages.Rust
import CodeQuery.Parse.Languages.Scala
import CodeQuery.Parse.Languages.Swift
import CodeQuery.Parse.Languages.Toml
import CodeQuery.Parse.Languages.TypeScript
import CodeQuery.Parse.Languages.Yaml
import CodeQuery.Parse.Languages.Zig

namespace CodeQuery.Parse

open CodeQuery.Core CodeQuery.Text

def extractDefinitions (source : Str) (tree : Node) (file : Path) : Language → List Definition
  | .rust => Rust.extractSymbols source tree
  | .python => Python.extractSymbols source tree
  | .go => Go.extractSymbols source file tree
  | .java => Java.extractSymbols source tree
  | .typeScript | .javaScript => TypeScript.extractSymbols source tree
  | .c => C.extractSymbols source tree
  | .cpp => Cpp.extractSymbols source tree
  | .ruby => Ruby.extractSymbols source tree
  | .php => Php.extractSymbols source tree
  | .cSharp => CSharp.extractSymbols source tree
  | .swift => Swift.extractSymbols source tree
  | .kotlin => Kotlin.extractSymbols source tree
  | .scala => Scala.extractSymbols source tree
  | .zig => Zig.extractSymbols source tree
  | .lua => Lua.extractSymbols source tree
  | .bash => Bash.extractSymbols source tree
  | .html => Html.extractSymbols source tree
  | .css => Css.extractSymbols source tree
  | .json => Json.extractSymbols source tree
  | .yaml => Yaml.extractSymbols source tree
  | .toml => Toml.extractSymbols source tree

/-- The texts of the definitions of a tree. -/
abbrev TextsOf := Str → Node → Language → Definition → Texts

def extractSymbols (texts : TextsOf) (source : Str) (tree : Node) (file : Path) (language : Language) : List Symbol :=
  toSymbols (texts source tree language) file (extractDefinitions source tree file language)

end CodeQuery.Parse
