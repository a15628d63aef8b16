/-
  CodeQuery.Parse.Languages.Yaml — `codequery-parse/src/languages/yaml.rs`.
-/

import CodeQuery.Parse.Definition

namespace CodeQuery.Parse.Yaml

open CodeQuery.Core CodeQuery.Text

def maxDepth : Nat := 4

section Extract

variable (source : Str)

def isMapping (kind : String) : Bool := ["block_mapping", "flow_mapping"].contains kind

def isSequence (kind : String) : Bool := ["block_sequence", "flow_sequence"].contains kind

def classifyYamlValue (node : Node) : SymbolKind :=
  if isMapping node.kind then .module_
  else if isSequence node.kind then .type
  else if node.kind == "block_node" then
    -- around the value
    match (node.children.map (·.kind)).find? fun kind => isMapping kind || isSequence kind with
    | some kind => if isMapping kind then .module_ else .type
    | none => .module_
  else .const

def extractMappingPair (node : Node) (depth : Nat) : Option Definition :=
  if depth > maxDepth then none
  else
    ((node.childByFieldName "key").bind (nodeTrimmedText source)).bind fun name =>
      if name.1.isEmpty then none
      else some (.leaf (((node.childByFieldName "value").map classifyYamlValue).getD .const) node name)

/-- `&name`; the name is the node's text when no blank is in it. -/
def extractAnchor (node : Node) : Option Definition :=
  (node.utf8Text source).bind fun text =>
    if (str "&").isPrefixOf text then
      let (blanks, name) := trimBlanks (text.drop (str "&").length)
      if name.isEmpty then none
      else some ⟨str "&" ++ name, .const, node, if blanks.isEmpty then some node.startPosition else none, []⟩
    else none

mutual

/-- What `extract_from_node` makes of one child. The depth is passed on as it is. -/
def extractFromChild (depth : Nat) : Node → List Definition
  | n@⟨kind, _, _, _, _, _, _, _, _, cs⟩ =>
    match kind with
    | "block_mapping_pair" | "flow_pair" => (extractMappingPair source n depth).toList
    | "anchor" => (extractAnchor source n).toList
    | _ => if depth > maxDepth then [] else extractFromChildren depth cs

/-- The loop of `extract_from_node`. -/
def extractFromChildren (depth : Nat) : List Node → List Definition
  | [] => []
  | c :: cs => (if c.isError || c.isMissing then [] else extractFromChild depth c) ++ extractFromChildren depth cs

end

def extractFromNode (node : Node) (depth : Nat) : List Definition :=
  if depth > maxDepth then [] else extractFromChildren source depth node.children

def extractSymbols (tree : Node) : List Definition := extractFromNode source tree 0

end Extract

end CodeQuery.Parse.Yaml
