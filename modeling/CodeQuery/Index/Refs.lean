/-
  CodeQuery.Index.Refs — reference extraction (`codequery-index/src/refs.rs`).

  Rust trees are walked by node kind: imports, calls, type usages, assignments, and
  the calls inside macro bodies. Every other language's tree gives one reference per
  identifier that is no definition name. A reference carries the source line it is
  on; `extractReferences_wf` is what every walk guarantees of it.
-/

import CodeQuery.Core.Language
import CodeQuery.Core.Symbol
import CodeQuery.Parse.Tree

namespace CodeQuery.Index

open CodeQuery.Core CodeQuery.Parse CodeQuery.Text

def isOneOf (words : List String) (t : Str) : Bool := words.any (str · == t)

def isRustMacroName (name : Str) : Bool :=
  isOneOf ["assert", "assert_eq", "assert_ne", "debug_assert", "debug_assert_eq", "debug_assert_ne", "println",
    "print", "eprintln", "eprint", "format", "write", "writeln", "panic", "todo", "unimplemented", "unreachable",
    "vec", "cfg", "include", "include_str", "include_bytes", "env", "option_env", "concat", "line", "column", "file",
    "stringify", "module_path", "compile_error"] name

def isRustPrimitive (name : Str) : Bool :=
  isOneOf ["bool", "char", "f32", "f64", "i8", "i16", "i32", "i64", "i128", "isize", "u8", "u16", "u32", "u64",
    "u128", "usize", "str", "Self"] name

def isUseKeyword (name : Str) : Bool := isOneOf ["crate", "self", "super"] name

def isCommonKeyword (name : Str) : Bool :=
  isOneOf ["true", "false", "null", "None", "self", "this", "super", "return", "break", "continue", "if", "else",
    "for", "while", "match", "let", "mut", "ref", "pub", "fn", "struct", "enum", "trait", "impl", "use", "mod",
    "const", "static", "type", "where", "as", "in"] name

/-- Both definition-name checks: the parent defines something, and `n` is its name. -/
def isNameOf (defines : String → Bool) (parent : Option Node) (n : Node) : Bool :=
  match parent with
  | none => false
  | some p =>
    defines p.kind && (p.childByFieldName "name").any fun c => c.startByte == n.startByte && c.endByte == n.endByte

def isDefinitionName (parent : Option Node) (n : Node) : Bool :=
  isNameOf (fun k => ["struct_item", "enum_item", "trait_item", "type_item", "union_item"].contains k) parent n

def kindContains (kind part : String) : Bool := decide (part.toList <:+: kind.toList)

def isGenericDefinitionName (parent : Option Node) (n : Node) : Bool :=
  isNameOf (fun k => kindContains k "definition" || kindContains k "declaration" || kindContains k "_item") parent n

section Walk

variable (source : Str) (file : Path) (lines : List Str)

/-- The reference a walk pushes for node `n`. -/
def refAt (n : Node) (kind : ReferenceKind) (enclosing : Option (Str × SymbolKind)) : Reference :=
  { file := file
    line := n.startPosition.row + 1
    column := n.startPosition.column
    kind := kind
    context := (lines[n.startPosition.row]?).getD []
    caller := enclosing.map (·.1)
    callerKind := enclosing.map (·.2) }

/-- A reference to `n` when it has a text. -/
def refIfText (n : Node) (kind : ReferenceKind) (enclosing : Option (Str × SymbolKind)) : List Reference :=
  if (n.utf8Text source).isSome then [refAt file lines n kind enclosing] else []

def extractCallRef (func : Node) (enclosing : Option (Str × SymbolKind)) : List Reference :=
  let target :=
    match func.kind with
    | "identifier" => some func
    | "scoped_identifier" => func.childByFieldName "name"
    | "field_expression" => func.childByFieldName "field"
    | _ => none
  (target.map (refIfText source file lines · .call enclosing)).getD []

def extractAssignmentRef (left : Node) (enclosing : Option (Str × SymbolKind)) : List Reference :=
  let target :=
    match left.kind with
    | "identifier" => some left
    | "field_expression" => left.childByFieldName "field"
    | _ => none
  (target.map (refIfText source file lines · .assignment enclosing)).getD []

mutual

/-- Imports: unlike the other walks, this one goes into error nodes. -/
def walkUseTree (enclosing : Option (Str × SymbolKind)) : Node → List Reference
  | n@⟨kind, _, _, _, _, _, _, _, _, cs⟩ =>
    (if kind = "identifier" ∨ kind = "type_identifier" then
        match n.utf8Text source with
        | some t => if isUseKeyword t then [] else [refAt file lines n .import_ enclosing]
        | none => []
      else []) ++ walkUseTrees enclosing cs

def walkUseTrees (enclosing : Option (Str × SymbolKind)) : List Node → List Reference
  | [] => []
  | c :: cs => walkUseTree enclosing c ++ walkUseTrees enclosing cs

end

mutual

/-- Macro bodies: an identifier directly before a parenthesis or a token tree. -/
def extractTokenTreeCalls (enclosing : Option (Str × SymbolKind)) : Node → List Reference
  | ⟨_, _, _, _, _, _, _, _, _, cs⟩ => tokenTreeChildren enclosing cs

def tokenTreeChildren (enclosing : Option (Str × SymbolKind)) : List Node → List Reference
  | [] => []
  | c :: cs =>
    if c.isError || c.isMissing then tokenTreeChildren enclosing cs
    else
      (if c.kind = "identifier" then
          match c.utf8Text source with
          | some t =>
            if !isCommonKeyword t && !isRustMacroName t && cs.head?.any (fun x => x.kind == "token_tree" || x.kind == "(")
            then [refAt file lines c .call enclosing] else []
          | none => []
        else []) ++
      (if c.kind = "token_tree" then extractTokenTreeCalls enclosing c else []) ++ tokenTreeChildren enclosing cs

end

mutual

def walkRustNode (parent : Option Node) (enclosing : Option (Str × SymbolKind)) : Node → List Reference
  | n@⟨kind, _, _, _, _, _, _, _, _, cs⟩ =>
    let entered := if kind = "function_item" then
        ((n.childByFieldName "name").bind (·.utf8Text source)).map (·, SymbolKind.function) else none
    let current := entered.or enclosing
    match kind with
    | "use_declaration" => walkUseTree source file lines current n
    | "type_identifier" =>
      if isDefinitionName parent n then []
      else
        match n.utf8Text source with
        | some t => if isRustPrimitive t then [] else [refAt file lines n .typeUsage current]
        | none => []
    | "token_tree" => extractTokenTreeCalls source file lines current n
    | "call_expression" =>
      ((n.childByFieldName "function").map (extractCallRef source file lines · current)).getD [] ++
        walkRustNodes (some n) current cs
    | "assignment_expression" | "compound_assignment_expr" =>
      ((n.childByFieldName "left").map (extractAssignmentRef source file lines · current)).getD [] ++
        walkRustNodes (some n) current cs
    | _ => walkRustNodes (some n) current cs

def walkRustNodes (parent : Option Node) (enclosing : Option (Str × SymbolKind)) : List Node → List Reference
  | [] => []
  | c :: cs =>
    (if c.isError || c.isMissing then [] else walkRustNode parent enclosing c) ++ walkRustNodes parent enclosing cs

end

mutual

def walkGenericNode (parent : Option Node) : Node → List Reference
  | n@⟨kind, _, _, _, _, _, _, _, _, cs⟩ =>
    (if kind = "identifier" ∧ isGenericDefinitionName parent n = false then
        match n.utf8Text source with
        | some t => if isCommonKeyword t then [] else [refAt file lines n .call none]
        | none => []
      else []) ++ walkGenericNodes (some n) cs

def walkGenericNodes (parent : Option Node) : List Node → List Reference
  | [] => []
  | c :: cs => (if c.isError || c.isMissing then [] else walkGenericNode parent c) ++ walkGenericNodes parent cs

end

end Walk

def extractReferences (source : Str) (tree : Node) (file : Path) (language : Language) : List Reference :=
  match language with
  | .rust => walkRustNode source file (lines source) none none tree
  | _ => walkGenericNode source file (lines source) none tree

/-! ## What every walk guarantees of a reference -/

section Wf

variable {source : Str} {file : Path} {lines : List Str}

/-- The reference was pushed for a node of the tree. -/
def IsRef (file : Path) (lines : List Str) (r : Reference) : Prop := ∃ n k e, r = refAt file lines n k e

theorem refIfText_isRef {n : Node} {k : ReferenceKind} {e : Option (Str × SymbolKind)} :
    ∀ r ∈ refIfText source file lines n k e, IsRef file lines r := by
  intro r hr
  unfold refIfText at hr
  split at hr
  · exact ⟨n, k, e, List.mem_singleton.mp hr⟩
  · cases hr

theorem getD_refIfText_isRef {o : Option Node} {k : ReferenceKind} {e : Option (Str × SymbolKind)} :
    ∀ r ∈ (o.map (refIfText source file lines · k e)).getD [], IsRef file lines r := by
  intro r hr
  cases o with
  | none => cases hr
  | some n => exact refIfText_isRef r hr

theorem getD_extract_isRef {f : Node → List Reference} (hf : ∀ n, ∀ r ∈ f n, IsRef file lines r) {o : Option Node} :
    ∀ r ∈ (o.map f).getD [], IsRef file lines r := by
  intro r hr
  cases o with
  | none => cases hr
  | some n => exact hf n r hr

theorem singleton_isRef {n : Node} {k : ReferenceKind} {e : Option (Str × SymbolKind)} {p : Prop} [Decidable p] :
    ∀ r ∈ (if p then [] else [refAt file lines n k e]), IsRef file lines r := by
  intro r hr
  split at hr
  · cases hr
  · exact ⟨n, k, e, List.mem_singleton.mp hr⟩

mutual

theorem walkUseTree_isRef (e : Option (Str × SymbolKind)) :
    ∀ n, ∀ r ∈ walkUseTree source file lines e n, IsRef file lines r
  | ⟨_, _, _, _, _, _, _, _, _, cs⟩ => by
    intro r hr
    simp only [walkUseTree] at hr
    rcases List.mem_append.mp hr with hr | hr
    · split at hr
      · split at hr
        · exact singleton_isRef r hr
        · cases hr
      · cases hr
    · exact walkUseTrees_isRef e cs r hr

theorem walkUseTrees_isRef (e : Option (Str × SymbolKind)) :
    ∀ ns, ∀ r ∈ walkUseTrees source file lines e ns, IsRef file lines r
  | [] => by intro r hr; simp [walkUseTrees] at hr
  | c :: cs => by
    intro r hr
    simp only [walkUseTrees] at hr
    rcases List.mem_append.mp hr with hr | hr
    · exact walkUseTree_isRef e c r hr
    · exact walkUseTrees_isRef e cs r hr

end

mutual

theorem extractTokenTreeCalls_isRef (e : Option (Str × SymbolKind)) :
    ∀ n, ∀ r ∈ extractTokenTreeCalls source file lines e n, IsRef file lines r
  | ⟨_, _, _, _, _, _, _, _, _, cs⟩ => by
    intro r hr
    simp only [extractTokenTreeCalls] at hr
    exact tokenTreeChildren_isRef e cs r hr

theorem tokenTreeChildren_isRef (e : Option (Str × SymbolKind)) :
    ∀ ns, ∀ r ∈ tokenTreeChildren source file lines e ns, IsRef file lines r
  | [] => by intro r hr; simp [tokenTreeChildren] at hr
  | c :: cs => by
    intro r hr
    simp only [tokenTreeChildren] at hr
    split at hr
    · exact tokenTreeChildren_isRef e cs r hr
    · rcases List.mem_append.mp hr with hr | hr
      · rcases List.mem_append.mp hr with hr | hr
        · split at hr
          · split at hr
            · split at hr
              · exact ⟨c, .call, e, List.mem_singleton.mp hr⟩
              · cases hr
            · cases hr
          · cases hr
        · split at hr
          · exact extractTokenTreeCalls_isRef e c r hr
          · cases hr
      · exact tokenTreeChildren_isRef e cs r hr

end

mutual

theorem walkRustNode_isRef (parent : Option Node) (e : Option (Str × SymbolKind)) :
    ∀ n, ∀ r ∈ walkRustNode source file lines parent e n, IsRef file lines r
  | ⟨kind, _, _, _, _, _, _, _, _, cs⟩ => by
    intro r hr
    simp only [walkRustNode] at hr
    split at hr
    · exact walkUseTree_isRef _ _ r hr
    · split at hr
      · cases hr
      · split at hr
        · exact singleton_isRef r hr
        · cases hr
    · exact extractTokenTreeCalls_isRef _ _ r hr
    · rcases List.mem_append.mp hr with hr | hr
      · exact getD_extract_isRef (fun _ => getD_refIfText_isRef) r hr
      · exact walkRustNodes_isRef _ _ cs r hr
    · rcases List.mem_append.mp hr with hr | hr
      · exact getD_extract_isRef (fun _ => getD_refIfText_isRef) r hr
      · exact walkRustNodes_isRef _ _ cs r hr
    · rcases List.mem_append.mp hr with hr | hr
      · exact getD_extract_isRef (fun _ => getD_refIfText_isRef) r hr
      · exact walkRustNodes_isRef _ _ cs r hr
    · exact walkRustNodes_isRef _ _ cs r hr

theorem walkRustNodes_isRef (parent : Option Node) (e : Option (Str × SymbolKind)) :
    ∀ ns, ∀ r ∈ walkRustNodes source file lines parent e ns, IsRef file lines r
  | [] => by intro r hr; simp [walkRustNodes] at hr
  | c :: cs => by
    intro r hr
    simp only [walkRustNodes] at hr
    rcases List.mem_append.mp hr with hr | hr
    · split at hr
      · cases hr
      · exact walkRustNode_isRef parent e c r hr
    · exact walkRustNodes_isRef parent e cs r hr

end

mutual

theorem walkGenericNode_isRef (parent : Option Node) :
    ∀ n, ∀ r ∈ walkGenericNode source file lines parent n, IsRef file lines r
  | ⟨_, _, _, _, _, _, _, _, _, cs⟩ => by
    intro r hr
    simp only [walkGenericNode] at hr
    rcases List.mem_append.mp hr with hr | hr
    · split at hr
      · split at hr
        · exact singleton_isRef r hr
        · cases hr
      · cases hr
    · exact walkGenericNodes_isRef _ cs r hr

theorem walkGenericNodes_isRef (parent : Option Node) :
    ∀ ns, ∀ r ∈ walkGenericNodes source file lines parent ns, IsRef file lines r
  | [] => by intro r hr; simp [walkGenericNodes] at hr
  | c :: cs => by
    intro r hr
    simp only [walkGenericNodes] at hr
    rcases List.mem_append.mp hr with hr | hr
    · split at hr
      · cases hr
      · exact walkGenericNode_isRef parent c r hr
    · exact walkGenericNodes_isRef parent cs r hr

end

end Wf

/-- Every extracted reference is in the given file, and its context is the source line
    it names. -/
theorem extractReferences_wf {source : Str} {tree : Node} {file : Path} {language : Language} {r : Reference}
    (h : r ∈ extractReferences source tree file language) :
    r.file = file ∧ 0 < r.line ∧ r.context = ((lines source)[r.line - 1]?).getD [] := by
  have hr : IsRef file (lines source) r := by
    unfold extractReferences at h
    split at h
    · exact walkRustNode_isRef none none tree r h
    · exact walkGenericNode_isRef none tree r h
  obtain ⟨n, k, e, rfl⟩ := hr
  exact ⟨rfl, Nat.succ_pos _, rfl⟩

end CodeQuery.Index
