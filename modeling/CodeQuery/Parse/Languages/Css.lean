/-
  CodeQuery.Parse.Languages.Css — `codequery-parse/src/languages/css.rs`.
-/

import CodeQuery.Parse.Definition

namespace CodeQuery.Parse.Css

open CodeQuery.Core CodeQuery.Text

def findChildByKind (node : Node) (kind : String) : Option Node := node.children.find? (·.kind == kind)

section Extract

variable (source : Str)

def extractRuleSet (node : Node) : Option Definition :=
  ((findChildByKind node "selectors").bind (nodeTrimmedText source)).map (.leaf .type node)

/-- `@media` up to the brace, or its first line. -/
def extractMediaQuery (node : Node) : Definition :=
  let bodyText := nodeSource source node
  match find (str "\x7b") bodyText with
  | some brace =>
    let (blanks, name) := trimBlanks (bodyText.take brace)
    .leaf .module_ node (name, node.startPosition.after blanks)
  | none => .leaf .module_ node (((lines bodyText).head?).getD (str "@media"), node.startPosition)

/-- The name is made up with `@keyframes` in front. -/
def extractKeyframes (node : Node) : Option Definition :=
  ((findChildByKind node "keyframes_name").bind (nodeTrimmedText source)).map fun (name, _) =>
    ⟨str "@keyframes " ++ name, .type, node, none, []⟩

/-- `--name`. -/
def extractCustomProperty (node : Node) : Option Definition :=
  ((findChildByKind node "property_name").bind (nodeText source)).bind fun name =>
    if (str "--").isPrefixOf name.1 then some (.leaf .const node name) else none

def extractBlock (node : Node) : List Definition :=
  match findChildByKind node "block" with
  | none => []
  | some block => (block.children.filter (·.kind == "declaration")).filterMap (extractCustomProperty source)

def extractTopLevel (node : Node) : List Definition :=
  match node.kind with
  | "rule_set" => (extractRuleSet source node).toList ++ extractBlock source node
  | "media_statement" => [extractMediaQuery source node]
  | "keyframes_statement" => (extractKeyframes source node).toList
  | "declaration" => (extractCustomProperty source node).toList
  | _ => []

def extractSymbols (tree : Node) : List Definition := tree.soundChildren.flatMap (extractTopLevel source)

end Extract

end CodeQuery.Parse.Css
