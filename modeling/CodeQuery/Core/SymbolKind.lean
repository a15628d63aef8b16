/-
  CodeQuery.Core.SymbolKind — the names of the kinds of symbols (`symbol.rs`, and
  `parse_symbol_kind` of `extract_config.rs`). A kind is read back from its name
  (`parseSymbolKind_text`), so no two kinds have one name.
-/

import CodeQuery.Core.Language
import CodeQuery.Core.Symbol

namespace CodeQuery.Core

namespace SymbolKind

/-- `Display`. -/
def text : SymbolKind → String
  | function => "function" | method => "method" | struct => "struct" | class_ => "class" | trait => "trait"
  | interface => "interface" | enum => "enum" | type => "type" | const => "const" | static => "static"
  | module_ => "module" | impl => "impl" | test => "test" | macro_ => "macro" | variable_ => "variable"
  | namespace_ => "namespace" | package => "package" | record => "record" | signature => "signature"
  | mixin => "mixin" | extension => "extension" | export_ => "export" | port => "port" | exception => "exception"
  | event => "event" | resource => "resource" | data => "data" | output => "output" | config => "config"
  | rule => "rule" | stage => "stage" | label => "label" | route => "route" | block => "block"
  | service => "service" | message => "message" | section_ => "section" | element => "element"
  | environment => "environment" | property => "property" | table => "table" | view => "view"
  | procedure => "procedure" | index => "index" | field => "field" | file => "file" | hunk => "hunk"
  | alias_ => "alias"

end SymbolKind

/-- A kind by its name or another name for it, in any case. -/
def parseSymbolKind (s : String) : Option SymbolKind :=
  match String.ofList (s.toList.map Language.lowerChar) with
  | "function" => some .function
  | "method" => some .method
  | "struct" => some .struct
  | "class" => some .class_
  | "trait" => some .trait
  | "interface" => some .interface
  | "enum" => some .enum
  | "type" | "type_alias" | "module_type" => some .type
  | "const" | "constant" => some .const
  | "static" => some .static
  | "module" => some .module_
  | "impl" => some .impl
  | "test" => some .test
  | "macro" | "directive" => some .macro_
  | "variable" | "var" | "binding" => some .variable_
  | "namespace" => some .namespace_
  | "package" => some .package
  | "record" => some .record
  | "signature" | "type_signature" => some .signature
  | "mixin" => some .mixin
  | "extension" | "category" => some .extension
  | "export" => some .export_
  | "port" => some .port
  | "exception" => some .exception
  | "event" => some .event
  | "resource" => some .resource
  | "data" | "data_source" => some .data
  | "output" => some .output
  | "config" | "configuration" => some .config
  | "rule" => some .rule
  | "stage" => some .stage
  | "label" => some .label
  | "route" | "location" => some .route
  | "block" => some .block
  | "service" => some .service
  | "message" => some .message
  | "section" | "heading" => some .section_
  | "element" => some .element
  | "environment" => some .environment
  | "property" => some .property
  | "table" => some .table
  | "view" => some .view
  | "procedure" | "stored_procedure" => some .procedure
  | "index" => some .index
  | "field" => some .field
  | "file" => some .file
  | "hunk" => some .hunk
  | "alias" => some .alias_
  | _ => none

theorem parseSymbolKind_text (k : SymbolKind) : parseSymbolKind k.text = some k := by
  cases k <;> decide

theorem SymbolKind.text_injective : Function.Injective SymbolKind.text := by
  intro k k' h
  have hparse := congrArg parseSymbolKind h
  rwa [parseSymbolKind_text, parseSymbolKind_text, Option.some.injEq] at hparse

end CodeQuery.Core
