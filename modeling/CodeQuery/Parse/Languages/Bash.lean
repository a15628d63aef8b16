/-
  CodeQuery.Parse.Languages.Bash — `codequery-parse/src/languages/bash.rs`.
-/

import CodeQuery.Parse.Definition

namespace CodeQuery.Parse.Bash

open CodeQuery.Text

variable (source : Str)

def extractTopLevel (node : Node) : List Definition :=
  match node.kind with
  | "function_definition" => ((nodeFieldText source node "name").map (.leaf .function node)).toList
  | _ => []

def extractSymbols (tree : Node) : List Definition := tree.soundChildren.flatMap (extractTopLevel source)

end CodeQuery.Parse.Bash
