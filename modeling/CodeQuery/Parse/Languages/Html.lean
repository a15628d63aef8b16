/-
  CodeQuery.Parse.Languages.Html — `codequery-parse/src/languages/html.rs`.
-/

import CodeQuery.Parse.Definition

namespace CodeQuery.Parse.Html

open CodeQuery.Core CodeQuery.Text

def maxDepth : Nat := 64

def findChildByKind (node : Node) (kind : String) : Option Node := node.children.find? (·.kind == kind)

def structuralTags : List String :=
  ["html", "head", "body", "header", "footer", "main", "nav", "section", "article", "aside", "form", "table", "script",
    "style", "template"]

def isStructuralTag (tag : Str) : Bool := structuralTags.any (str · == tag)

def doubleQuote : UInt8 := 34
def singleQuote : UInt8 := 39

section Extract

variable (source : Str)

/-- The first attribute of the name decides; one that cannot be read ends the search. -/
def attributeValueAmong (attrName : String) : List Node → Option Str
  | [] => none
  | child :: rest =>
    if child.kind == "attribute" then
      ((findChildByKind child "attribute_name").bind (·.utf8Text source)).bind fun name =>
        if name == str attrName then
          (((findChildByKind child "quoted_attribute_value").or (findChildByKind child "attribute_value")).bind
            (·.utf8Text source)).map fun value => trimMatches singleQuote (trimMatches doubleQuote value)
        else attributeValueAmong attrName rest
    else attributeValueAmong attrName rest

def findAttributeValue (tagNode : Node) (attrName : String) : Option Str :=
  attributeValueAmong source attrName tagNode.children

/-- `tag#id` and `tag.class` are made up; a structural tag's name is the tag's. -/
def extractElement (node : Node) : Option Definition :=
  let tagNode := ((findChildByKind node "start_tag").or (findChildByKind node "self_closing_tag")).getD node
  let named := (findChildByKind tagNode "tag_name").bind (nodeText source)
  let tagName := (named.map (·.1)).getD (str "unknown")
  match findAttributeValue source tagNode "id", findAttributeValue source tagNode "class" with
  | some id, _ => some ⟨tagName ++ str "#" ++ id, .type, node, none, []⟩
  | none, some class_ => some ⟨tagName ++ str "." ++ class_, .type, node, none, []⟩
  | none, none =>
    if isStructuralTag tagName then some ⟨tagName, .module_, node, named.map (·.2), []⟩ else none

mutual

def extractRecursive (depth : Nat) : Node → List Definition
  | n@⟨kind, _, _, _, _, _, _, _, _, cs⟩ =>
    if depth > maxDepth then []
    else
      (if kind = "element" ∨ kind = "self_closing_tag" then (extractElement source n).toList else []) ++
        extractRecursiveAll (depth + 1) cs

def extractRecursiveAll (depth : Nat) : List Node → List Definition
  | [] => []
  | c :: cs =>
    (if c.isError || c.isMissing then [] else extractRecursive depth c) ++ extractRecursiveAll depth cs

end

def extractSymbols (tree : Node) : List Definition := extractRecursive source 0 tree

end Extract

end CodeQuery.Parse.Html
