/-
  CodeQuery.Parse.SymbolRanges — the ranges of what the extractors yield.

  Each of these extractors writes the literal of a symbol in many places, with one node
  for its place and one for its body. They are one node in all of them, also where the
  signature is of another, and the children are below it (`extractSymbols_renders`). So
  the ranges are as they should be at every depth (`ranges_nested`).
-/

import CodeQuery.Parse.Extract
import CodeQuery.Parse.Symbols.CSharp
import CodeQuery.Parse.Symbols.Cpp
import CodeQuery.Parse.Symbols.Java
import CodeQuery.Parse.Symbols.Python
import CodeQuery.Parse.Symbols.Ruby
import CodeQuery.Parse.Symbols.Rust
import CodeQuery.Parse.Symbols.TypeScript

namespace CodeQuery.Parse

open CodeQuery.Core CodeQuery.Index CodeQuery.Text

/-- The extractors that are modelled with the texts of their symbols. -/
inductive Extractor where
  | rust
  | python
  | typeScript
  | cpp
  | java
  | cSharp
  | ruby
  deriving DecidableEq, Repr

namespace Extractor

/-- The extractor of a language, when it is one of these. -/
def ofLanguage : Language → Option Extractor
  | .rust => some rust
  | .python => some python
  | .typeScript | .javaScript => some typeScript
  | .cpp => some cpp
  | .java => some java
  | .cSharp => some cSharp
  | .ruby => some ruby
  | _ => none

def extractSymbols (source : Str) (file : Path) (tree : Node) : Extractor → List Symbol
  | rust => Symbols.Rust.extractSymbols source file tree
  | python => Symbols.Python.extractSymbols source file tree
  | typeScript => Symbols.TypeScript.extractSymbols source file tree
  | cpp => Symbols.Cpp.extractSymbols source file tree
  | java => Symbols.Java.extractSymbols source file tree
  | cSharp => Symbols.CSharp.extractSymbols source file tree
  | ruby => Symbols.Ruby.extractSymbols source file tree

def definitions (source : Str) (tree : Node) : Extractor → List Definition
  | rust => Rust.extractSymbols source tree
  | python => Python.extractSymbols source tree
  | typeScript => TypeScript.extractSymbols source tree
  | cpp => Cpp.extractSymbols source tree
  | java => Java.extractSymbols source tree
  | cSharp => CSharp.extractSymbols source tree
  | ruby => Ruby.extractSymbols source tree

variable {source : Str} {file : Path} {tree : Node}

/-- The definitions are those of the language. -/
theorem definitions_eq {language : Language} {e : Extractor} (h : ofLanguage language = some e) :
    e.definitions source tree = extractDefinitions source tree file language := by
  cases language <;> cases h <;> rfl

/-- Every symbol is its definition's, at the definition's node. -/
theorem extractSymbols_renders (e : Extractor) :
    List.Forall₂ (RendersBelow source file tree) (e.definitions source tree) (e.extractSymbols source file tree) := by
  cases e with
  | rust => exact Symbols.Rust.extractSymbols_renders tree
  | python => exact Symbols.Python.extractSymbols_renders tree
  | typeScript => exact Symbols.TypeScript.extractSymbols_renders tree
  | cpp => exact Symbols.Cpp.extractSymbols_renders tree
  | java => exact Symbols.Java.extractSymbols_renders tree
  | cSharp => exact Symbols.CSharp.extractSymbols_renders tree
  | ruby => exact Symbols.Ruby.extractSymbols_renders tree

/-- Whatever the tree, every symbol at every depth is well ranged. -/
theorem ranges_nested (source : Str) (file : Path) (tree : Node) (htree : tree.Located source) (e : Extractor) :
    ∀ s ∈ SymbolIndex.flattenAll (e.extractSymbols source file tree), WellRanged source s :=
  flattenAll_wellRanged htree (self_mem_preorder tree) _ _ (rendersAll_iff.mpr e.extractSymbols_renders)

end Extractor

/-! ## A decorated class -/

def decoratedClassSource : Str := str "@d\nclass C:\n def f(): 0"

def decoratedClassTree : Node :=
  ⟨"module", none, 0, 23, ⟨0, 0⟩, ⟨2, 11⟩, true, false, false,
    [⟨"decorated_definition", none, 0, 23, ⟨0, 0⟩, ⟨2, 11⟩, true, false, false,
      [⟨"decorator", none, 0, 2, ⟨0, 0⟩, ⟨0, 2⟩, true, false, false,
          [.leaf "@" none 0 0 0 1 false, .leaf "identifier" none 0 1 1 1 true]⟩,
        ⟨"class_definition", some "definition", 3, 23, ⟨1, 0⟩, ⟨2, 11⟩, true, false, false,
          [.leaf "class" none 1 0 3 5 false, .leaf "identifier" (some "name") 1 6 9 1 true,
            .leaf ":" none 1 7 10 1 false,
            ⟨"block", some "body", 13, 23, ⟨2, 1⟩, ⟨2, 11⟩, true, false, false,
              [⟨"function_definition", none, 13, 23, ⟨2, 1⟩, ⟨2, 11⟩, true, false, false,
                [.leaf "def" none 2 1 13 3 false, .leaf "identifier" (some "name") 2 5 17 1 true,
                  ⟨"parameters", some "parameters", 18, 20, ⟨2, 6⟩, ⟨2, 8⟩, true, false, false,
                    [.leaf "(" none 2 6 18 1 false, .leaf ")" none 2 7 19 1 false]⟩,
                  .leaf ":" none 2 8 20 1 false,
                  ⟨"block", some "body", 22, 23, ⟨2, 10⟩, ⟨2, 11⟩, true, false, false,
                    [⟨"expression_statement", none, 22, 23, ⟨2, 10⟩, ⟨2, 11⟩, true, false, false,
                      [.leaf "integer" none 2 10 22 1 true]⟩]⟩]⟩]⟩]⟩]⟩]⟩

theorem decoratedClassTree_located : decoratedClassTree.Located decoratedClassSource where
  bytes := by decide
  nested := by decide
  starts := by decide
  ends := by decide

theorem Extractor.ranges_nested_decorated :
    (SymbolIndex.flattenAll (Extractor.python.extractSymbols decoratedClassSource [.normal "a.py"] decoratedClassTree)).map
        (fun s => (s.name, s.line, s.endLine)) = [(str "C", 1, 3), (str "f", 3, 3)] ∧
      ∀ s ∈ SymbolIndex.flattenAll
        (Extractor.python.extractSymbols decoratedClassSource [.normal "a.py"] decoratedClassTree),
        WellRanged decoratedClassSource s :=
  ⟨by decide, Extractor.ranges_nested decoratedClassSource [.normal "a.py"] decoratedClassTree
    decoratedClassTree_located .python⟩

end CodeQuery.Parse
