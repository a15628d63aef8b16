/-
  CodeQuery.Parse.Hierarchy — supertype relations (`codequery-parse/src/hierarchy.rs`).

  Each language's walk looks at every node, in pre-order, and pushes what a declaration
  says of its own supertypes: what a tree gives is what its nodes give, one after the
  other (`extractSupertypeRelations_eq`). `CodeQuery.Parse.Supertypes` says when that is
  what the declaration lists.
-/

import CodeQuery.Core.Language
import CodeQuery.Parse.Places

namespace CodeQuery.Parse

open CodeQuery.Core CodeQuery.Text

structure SupertypeRelation where
  /-- The implementing or extending type. -/
  subtype : Str
  /-- The trait, interface or base class. -/
  supertype : Str
  file : Path
  /-- 1-based. -/
  line : Nat
  deriving DecidableEq, Repr

def Node.namedChildren (n : Node) : List Node := n.children.filter (·.isNamed)

def findChildOfKind (node : Node) (kind : String) : Option Node := node.children.find? (·.kind == kind)

section Declarations

variable (source : Str) (file : Path)

/-- The relation that is pushed at a node. -/
def relationAt (node : Node) (subtype supertype : Str) : SupertypeRelation :=
  ⟨subtype, supertype, file, node.startPosition.row + 1⟩

/-- `impl Trait for Type`. -/
def rustRelations (node : Node) : List SupertypeRelation :=
  if node.kind = "impl_item" then
    match node.childByFieldName "trait", node.childByFieldName "type" with
    | some traitNode, some typeNode =>
      match traitNode.utf8Text source, typeNode.utf8Text source with
      | some supertype, some subtype => [relationAt file node subtype supertype]
      | _, _ => []
    | _, _ => []
  else []

def extractTypeName (node : Node) : Option Str :=
  if node.kind = "generic_type" then
    ((node.childByFieldName "name").bind (·.utf8Text source)).or (node.namedChildren.head?.bind (·.utf8Text source))
  else node.utf8Text source

/-- A relation for each named child of a clause: the loop of `collect_ts_clause_types`, and
    of both fields of a Java class. -/
def collectClauseTypes (clause : Node) (subtype : Str) (classNode : Node) : List SupertypeRelation :=
  clause.namedChildren.filterMap fun child => (extractTypeName source child).map (relationAt file classNode subtype)

def isTsClause (kind : String) : Bool := kind == "extends_clause" || kind == "implements_clause"

/-- `class Foo extends Bar implements Baz`. -/
def tsRelations (node : Node) : List SupertypeRelation :=
  if node.kind = "class_declaration" then
    match (node.childByFieldName "name").bind (·.utf8Text source) with
    | none => []
    | some subtype =>
      match findChildOfKind node "class_heritage" with
      | none => []
      | some heritage =>
        heritage.namedChildren.flatMap fun clause =>
          if isTsClause clause.kind then collectClauseTypes source file clause subtype node else []
  else []

/-- `class Foo(Bar, Baz):`. -/
def pythonRelations (node : Node) : List SupertypeRelation :=
  if node.kind = "class_definition" then
    match (node.childByFieldName "name").bind (·.utf8Text source) with
    | none => []
    | some subtype =>
      match node.childByFieldName "superclasses" with
      | none => []
      | some args =>
        args.namedChildren.filterMap fun arg =>
          if arg.kind = "keyword_argument" then none
          else (arg.utf8Text source).map (relationAt file node subtype)
  else []

/-- `class Foo extends Bar implements Baz, Qux`. -/
def javaRelations (node : Node) : List SupertypeRelation :=
  if node.kind = "class_declaration" then
    match (node.childByFieldName "name").bind (·.utf8Text source) with
    | none => []
    | some subtype =>
      (match node.childByFieldName "superclass" with
        | none => []
        | some superclass => collectClauseTypes source file superclass subtype node) ++
      (match node.childByFieldName "interfaces" with
        | none => []
        | some interfaces => collectClauseTypes source file interfaces subtype node)
  else []

/-- An embedded field: one with a type and no name. -/
def embeddedField (subtype : Str) (field : Node) : Option SupertypeRelation :=
  if field.kind = "field_declaration" ∧ (field.childByFieldName "name").isNone then
    ((field.childByFieldName "type").bind (·.utf8Text source)).map (relationAt file field subtype)
  else none

def goRelations (node : Node) : List SupertypeRelation :=
  if node.kind = "type_spec" then
    match (node.childByFieldName "name").bind (·.utf8Text source) with
    | none => []
    | some subtype =>
      match node.childByFieldName "type" with
      | none => []
      | some structType =>
        if structType.kind = "struct_type" then
          match findChildOfKind structType "field_declaration_list" with
          | none => []
          | some fieldList => fieldList.namedChildren.filterMap (embeddedField source file subtype)
        else []
  else []

end Declarations

/-! ## The walks -/

section Walk

variable (own : Node → List SupertypeRelation)

mutual

/-- What a node says, then what its children do. -/
def collectRelations : Node → List SupertypeRelation
  | node@⟨_, _, _, _, _, _, _, _, _, children⟩ => own node ++ collectRelationsAll children

def collectRelationsAll : List Node → List SupertypeRelation
  | [] => []
  | child :: children => collectRelations child ++ collectRelationsAll children

end

end Walk

def collectRustRelations (source : Str) (file : Path) : Node → List SupertypeRelation :=
  collectRelations (rustRelations source file)

def collectTsRelations (source : Str) (file : Path) : Node → List SupertypeRelation :=
  collectRelations (tsRelations source file)

def collectPythonRelations (source : Str) (file : Path) : Node → List SupertypeRelation :=
  collectRelations (pythonRelations source file)

def collectJavaRelations (source : Str) (file : Path) : Node → List SupertypeRelation :=
  collectRelations (javaRelations source file)

def collectGoRelations (source : Str) (file : Path) : Node → List SupertypeRelation :=
  collectRelations (goRelations source file)

def extractSupertypeRelations (source : Str) (tree : Node) (file : Path) (language : Language) : List SupertypeRelation :=
  match language with
  | .rust => collectRustRelations source file tree
  | .typeScript | .javaScript => collectTsRelations source file tree
  | .python => collectPythonRelations source file tree
  | .java => collectJavaRelations source file tree
  | .go => collectGoRelations source file tree
  | _ => []

/-! ## Declaration by declaration -/

/-- What one node of a tree says. -/
def declaredRelations (language : Language) (source : Str) (file : Path) (node : Node) : List SupertypeRelation :=
  match language with
  | .rust => rustRelations source file node
  | .typeScript | .javaScript => tsRelations source file node
  | .python => pythonRelations source file node
  | .java => javaRelations source file node
  | .go => goRelations source file node
  | _ => []

mutual

theorem collectRelations_eq (own : Node → List SupertypeRelation) :
    ∀ node, collectRelations own node = node.preorder.flatMap own
  | ⟨_, _, _, _, _, _, _, _, _, children⟩ => by
    rw [collectRelations, Node.preorder, List.flatMap_cons, collectRelationsAll_eq own children]

theorem collectRelationsAll_eq (own : Node → List SupertypeRelation) :
    ∀ nodes, collectRelationsAll own nodes = (preorderAll nodes).flatMap own
  | [] => by rw [collectRelationsAll, preorderAll, List.flatMap_nil]
  | child :: children => by
    rw [collectRelationsAll, preorderAll, List.flatMap_append, collectRelations_eq own child,
      collectRelationsAll_eq own children]

end

/-- A tree gives what its nodes say, in pre-order. -/
theorem extractSupertypeRelations_eq (source : Str) (tree : Node) (file : Path) (language : Language) :
    extractSupertypeRelations source tree file language =
      tree.preorder.flatMap (declaredRelations language source file) := by
  cases language
  case rust => exact collectRelations_eq _ tree
  case typeScript => exact collectRelations_eq _ tree
  case javaScript => exact collectRelations_eq _ tree
  case python => exact collectRelations_eq _ tree
  case java => exact collectRelations_eq _ tree
  case go => exact collectRelations_eq _ tree
  all_goals simp [extractSupertypeRelations, declaredRelations]

end CodeQuery.Parse
