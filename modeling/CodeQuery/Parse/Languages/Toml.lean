/-
  CodeQuery.Parse.Languages.Toml — `codequery-parse/src/languages/toml.rs`.
-/

import CodeQuery.Parse.Definition

namespace CodeQuery.Parse.Toml

open CodeQuery.Core CodeQuery.Text

section Extract

variable (source : Str)

/-- `key` in the kind: `bare_key`, `dotted_key` and what other versions have. -/
def isKey (node : Node) : Bool := (find (str "key") (str node.kind)).isSome

/-- The text between two marks on the first line, without blanks, and where it starts.
    The closing mark of a header is behind its opening one. -/
def betweenMarks (opening closing : String) (node : Node) : Option (Str × Point) :=
  let firstLine := ((lines (nodeSource source node)).head?).getD []
  (find (str opening) firstLine).bind fun before => (find (str closing) firstLine).map fun stop =>
    let start := before + (str opening).length
    let (blanks, name) := trimBlanks ((firstLine.take stop).drop start)
    (name, node.startPosition.after (firstLine.take start ++ blanks))

/-- The header's key, or what is between brackets. -/
def extractTable (node : Node) : Option Definition :=
  let name := match node.children.find? isKey with
    | some header => nodeTrimmedText source header
    | none => betweenMarks source "[" "]" node
  name.map (.leaf .module_ node)

def extractTableArray (node : Node) : Option Definition := (betweenMarks source "[[" "]]" node).map (.leaf .type node)

def extractPair (node : Node) : Option Definition :=
  ((node.children.find? isKey).bind (nodeTrimmedText source)).bind fun name =>
    if name.1.isEmpty then none else some (.leaf .const node name)

def extractTopLevel (node : Node) : Option Definition :=
  match node.kind with
  | "table" => extractTable source node
  | "table_array_element" => extractTableArray source node
  | "pair" => extractPair source node
  | _ => none

def extractSymbols (tree : Node) : List Definition := tree.soundChildren.filterMap (extractTopLevel source)

end Extract

end CodeQuery.Parse.Toml
