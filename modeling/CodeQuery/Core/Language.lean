/-
  CodeQuery.Core.Language — the built-in languages, and the language of a file.

  Two tables decide by extension. `languageForFile` is the match in the code, with the
  registry behind it; `languageNameForFile` is the registry alone, which also names
  languages that are no `Language` of the code.
-/

import CodeQuery.Core.Path

namespace CodeQuery.Core

inductive Language where
  | rust | typeScript | javaScript | python | go | c | cpp | java
  | ruby | php | cSharp | swift | kotlin | scala | zig | lua | bash
  | html | css | json | yaml | toml
  deriving DecidableEq, Repr

namespace Language

def name : Language → String
  | rust => "rust" | typeScript => "typescript" | javaScript => "javascript" | python => "python" | go => "go"
  | c => "c" | cpp => "cpp" | java => "java" | ruby => "ruby" | php => "php" | cSharp => "csharp"
  | swift => "swift" | kotlin => "kotlin" | scala => "scala" | zig => "zig" | lua => "lua" | bash => "bash"
  | html => "html" | css => "css" | json => "json" | yaml => "yaml" | toml => "toml"

/-- `to_lowercase` as far as it can give a letter of ASCII: `A`–`Z`, and the Kelvin sign. -/
def lowerChar (ch : Char) : Char := if ch.toNat = 0x212A then 'k' else ch.toLower

def fromName (s : String) : Option Language :=
  match String.ofList (s.toList.map lowerChar) with
  | "rust" | "rs" => some rust
  | "typescript" | "ts" => some typeScript
  | "javascript" | "js" => some javaScript
  | "python" | "py" => some python
  | "go" => some go
  | "c" => some c
  | "cpp" | "c++" | "cxx" => some cpp
  | "java" => some java
  | "ruby" | "rb" => some ruby
  | "php" => some php
  | "csharp" | "c#" | "cs" => some cSharp
  | "swift" => some swift
  | "kotlin" | "kt" => some kotlin
  | "scala" => some scala
  | "zig" => some zig
  | "lua" => some lua
  | "bash" | "sh" => some bash
  | "html" => some html
  | "css" => some css
  | "json" => some json
  | "yaml" | "yml" => some yaml
  | "toml" => some toml
  | _ => none

/-- Every language is found again under its own name. -/
theorem fromName_name (l : Language) : fromName l.name = some l := by
  cases l <;> decide

end Language

/-- languages/registry.json: each language's name and extensions, in the file's order. -/
def registry : List (String × List String) :=
  [("rust", [".rs"]), ("typescript", [".ts", ".tsx"]), ("javascript", [".js", ".jsx", ".mjs", ".cjs"]),
   ("python", [".py", ".pyi"]), ("go", [".go"]), ("c", [".c", ".h"]),
   ("cpp", [".cpp", ".cc", ".cxx", ".hpp", ".hxx", ".hh"]), ("java", [".java"]),
   ("ruby", [".rb", ".rake", ".gemspec"]), ("php", [".php"]), ("html", [".html", ".htm"]), ("css", [".css"]),
   ("json", [".json"]), ("yaml", [".yaml", ".yml"]), ("toml", [".toml"]), ("csharp", [".cs"]),
   ("swift", [".swift"]), ("kotlin", [".kt"]), ("scala", [".scala"]), ("zig", [".zig"]), ("lua", [".lua"]),
   ("bash", [".sh", ".bash"]), ("elixir", [".ex", ".exs"]), ("haskell", [".hs"]), ("dart", [".dart"]),
   ("sql", [".sql"]), ("ocaml", [".ml", ".mli"]), ("r", [".r", ".R"]), ("perl", [".pl", ".pm"]),
   ("clojure", [".clj", ".cljs", ".cljc"]), ("erlang", [".erl", ".hrl"]), ("julia", [".jl"]),
   ("objective-c", [".m", ".h"]), ("fsharp", [".fs", ".fsi"]), ("groovy", [".groovy", ".gradle"]),
   ("dockerfile", [".dockerfile"]), ("terraform", [".tf", ".hcl"]),
   ("xml", [".xml", ".xsl", ".xsd", ".svg", ".plist"]), ("markdown", [".md", ".markdown"]),
   ("protobuf", [".proto"]), ("graphql", [".graphql", ".gql"]), ("scss", [".scss"]), ("makefile", [".mk"]),
   ("cmake", [".cmake"]), ("nix", [".nix"]), ("svelte", [".svelte"]), ("elm", [".elm"]), ("solidity", [".sol"]),
   ("verilog", [".v", ".sv"]), ("glsl", [".glsl", ".vert", ".frag", ".geom", ".comp", ".tesc", ".tese"]),
   ("cuda", [".cu", ".cuh"]), ("fortran", [".f90", ".f95", ".f03", ".f08", ".F90"]), ("ada", [".adb", ".ads"]),
   ("pascal", [".pas", ".pp", ".lpr"]), ("ini", [".ini", ".cfg", ".conf"]), ("csv", [".csv", ".tsv"]),
   ("latex", [".tex", ".sty", ".cls"]), ("restructuredtext", [".rst"]), ("org", [".org"]),
   ("diff", [".diff", ".patch"]), ("starlark", [".bzl", ".star"]), ("just", [".just"]), ("nginx", [".nginx"]),
   ("bicep", [".bicep"]), ("prisma", [".prisma"]), ("pkl", [".pkl"]), ("cairo", [".cairo"]),
   ("purescript", [".purs"]), ("scheme", [".scm", ".ss"]), ("racket", [".rkt"]),
   ("common-lisp", [".lisp", ".cl", ".lsp", ".asd"])]

/-- `ext_str.strip_prefix('.').unwrap_or(ext_str)`. -/
def stripDot (ext : String) : String :=
  match ext.toList with
  | '.' :: t => String.ofList t
  | _ => ext

/-- `extension_map().get`: a later entry of the registry replaces an earlier one. -/
def extensionMap (ext : String) : Option String :=
  (registry.reverse.find? fun e => e.2.any (stripDot · == ext)).map (·.1)

def languageNameForFile (p : Path) : Option String := p.extension.bind extensionMap

/-- `language_for_file_with_overrides` with no overrides. -/
def languageForFile (p : Path) : Option Language :=
  p.extension.bind fun ext =>
    match ext with
    | "rs" => some .rust
    | "ts" | "tsx" => some .typeScript
    | "js" | "jsx" => some .javaScript
    | "py" => some .python
    | "go" => some .go
    | "c" | "h" => some .c
    | "cpp" | "cc" | "cxx" | "hpp" | "hxx" | "hh" => some .cpp
    | "java" => some .java
    | "rb" => some .ruby
    | "php" => some .php
    | "cs" => some .cSharp
    | "swift" => some .swift
    | "kt" => some .kotlin
    | "scala" => some .scala
    | "zig" => some .zig
    | "lua" => some .lua
    | "sh" | "bash" => some .bash
    | "html" | "htm" => some .html
    | "css" => some .css
    | "json" => some .json
    | "yaml" | "yml" => some .yaml
    | "toml" => some .toml
    | _ => (extensionMap ext).bind Language.fromName

/-- The two tables differ on a header: C to the match, Objective-C to the registry. -/
example : languageForFile [.normal "a.h"] = some .c ∧ languageNameForFile [.normal "a.h"] = some "objective-c" := by
  decide

end CodeQuery.Core
