/-
  CodeQuery.Parse.HeaderSignatures — where the signature of a function ends
  (`extract_fn_signature` and `find_top_level_brace` of `languages/rust.rs`, `cpp.rs`,
  `typescript.rs` and `go.rs`).

  The tree has the body's block, but the signature is cut at a brace of the text: Go's at
  the first, the others' at the first that is in no angle brackets and, in TypeScript, in
  no parentheses. A `<` that is an operator opens brackets too, and none closes them
  (`headers_with_operators_and_braces`). The signature is the header if and only if the
  header leaves nothing open and has no brace where nothing is
  (`signature_is_header_iff`).
-/

import CodeQuery.Parse.Symbols.Cpp
import CodeQuery.Parse.Symbols.Go
import CodeQuery.Parse.Symbols.Rust
import CodeQuery.Parse.Symbols.TypeScript
import CodeQuery.Parse.TrimmedText

namespace CodeQuery.Parse.HeaderSignatures

open CodeQuery.Core CodeQuery.Text

/-! ## Signatures -/

inductive BraceLanguage where
  | rust
  | cpp
  | typeScript
  | go
  deriving DecidableEq, Repr

def extractSignature (source : Str) : BraceLanguage → Node → SymbolKind → Str
  | .rust => Symbols.Rust.extractSignature source
  | .cpp => Symbols.Cpp.extractSignature source
  | .typeScript => Symbols.TypeScript.extractSignature source
  | .go => Symbols.Go.extractSignature source

/-- The kinds that functions and methods get. -/
def functionKinds : BraceLanguage → List SymbolKind
  | .rust | .go => [.function, .method, .test]
  | .cpp | .typeScript => [.function, .method]

/-- The block is below the function, and begins with a brace. -/
structure HasBody (source : Str) (n block : Node) : Prop where
  below : block ∈ n.preorder
  starts : n.startByte ≤ block.startByte
  ends : block.startByte < n.endByte
  brace : source[block.startByte]? = some braceOpen

/-- What is in front of the block. -/
def header (source : Str) (n block : Node) : Str := (source.take block.startByte).drop n.startByte

/-! ## Depths -/

/-- How many angle brackets and parentheses are open. -/
def nest (parens : Bool) (depth : Nat × Nat) (b : UInt8) : Nat × Nat :=
  if b = angleOpen then (deeper depth.1, depth.2)
  else if b = angleClose then (depth.1 - 1, depth.2)
  else if parens ∧ b = parenOpen then (depth.1, deeper depth.2)
  else if parens ∧ b = parenClose then (depth.1, depth.2 - 1)
  else depth

/-- From some depth on, nothing is open at the end, and at no brace in between. -/
structure PlainFrom (parens : Bool) (depth : Nat × Nat) (text : Str) : Prop where
  closed : text.foldl (nest parens) depth = (0, 0)
  braces : ∀ before after, text = before ++ braceOpen :: after → before.foldl (nest parens) depth ≠ (0, 0)

/-- What the header has to be like. -/
def Plain (text : Str) : BraceLanguage → Prop
  | .rust | .cpp => PlainFrom false (0, 0) text
  | .typeScript => PlainFrom true (0, 0) text
  | .go => braceOpen ∉ text

section Scan

variable {parens : Bool}

theorem plainFrom_nil_iff {depth : Nat × Nat} : PlainFrom parens depth [] ↔ depth = (0, 0) :=
  ⟨fun h => h.closed, fun h => ⟨h, fun _ _ heq => absurd heq (by simp)⟩⟩

theorem plainFrom_cons_iff {depth : Nat × Nat} {b : UInt8} {text : Str} : PlainFrom parens depth (b :: text) ↔
    ¬ (b = braceOpen ∧ depth = (0, 0)) ∧ PlainFrom parens (nest parens depth b) text := by
  constructor
  · intro h
    refine ⟨fun hb => h.braces [] text (by rw [hb.1, List.nil_append]) hb.2, h.closed, fun before after heq => ?_⟩
    exact h.braces (b :: before) after (by rw [heq, List.cons_append])
  · intro h
    obtain ⟨hb, hrest⟩ := h
    refine ⟨hrest.closed, fun before after heq => ?_⟩
    cases before with
    | nil =>
      rw [List.nil_append] at heq
      injection heq with hbrace
      exact fun hdepth => hb ⟨hbrace, hdepth⟩
    | cons c before =>
      rw [List.cons_append] at heq
      injection heq with hc hrest'
      subst hc
      exact hrest.braces before after hrest'

theorem findBraceFrom_cons (angle paren pos : Nat) (b : UInt8) (text : Str) :
    findBraceFrom parens angle paren pos (b :: text) =
      if b = braceOpen ∧ (angle, paren) = (0, 0) then some pos
      else findBraceFrom parens (nest parens (angle, paren) b).1 (nest parens (angle, paren) b).2 (pos + 1) text := by
  rw [findBraceFrom]
  by_cases hb : b = braceOpen
  · -- a brace opens and closes nothing
    have h1 : ¬ b = angleOpen := by rw [hb]; decide
    have h2 : ¬ b = angleClose := by rw [hb]; decide
    have h3 : ¬ (parens = true ∧ b = parenOpen) := fun h => absurd (hb ▸ h.2) (by decide)
    have h4 : ¬ (parens = true ∧ b = parenClose) := fun h => absurd (hb ▸ h.2) (by decide)
    have hnest : nest parens (angle, paren) b = (angle, paren) := by
      rw [nest, if_neg h1, if_neg h2, if_neg h3, if_neg h4]
    rw [if_neg h1, if_neg h2, if_neg h3, if_neg h4, hnest]
    simp only [Prod.mk.injEq]
  · simp only [hb, false_and, if_false]
    unfold nest
    split_ifs <;> rfl

/-- A brace is found where one is. -/
theorem findBraceFrom_eq_some {text : Str} {angle paren pos found : Nat}
    (h : findBraceFrom parens angle paren pos text = some found) : pos ≤ found ∧ text[found - pos]? = some braceOpen := by
  induction text generalizing angle paren pos with
  | nil => cases h
  | cons b text ih =>
    rw [findBraceFrom_cons] at h
    split at h
    next hb =>
      cases h
      rw [Nat.sub_self, hb.1]
      exact ⟨le_rfl, rfl⟩
    · obtain ⟨hle, hat⟩ := ih h
      obtain ⟨k, rfl⟩ : ∃ k, found = pos + 1 + k := ⟨found - (pos + 1), by omega⟩
      rw [Nat.add_sub_cancel_left] at hat
      have hk : pos + 1 + k - pos = k + 1 := by omega
      rw [hk, List.getElem?_cons_succ]
      exact ⟨by omega, hat⟩

/-- The scan stops behind the header if and only if that is plain. -/
theorem findBraceFrom_eq_iff {text rest : Str} {angle paren pos : Nat} :
    findBraceFrom parens angle paren pos (text ++ braceOpen :: rest) = some (pos + text.length) ↔
      PlainFrom parens (angle, paren) text := by
  induction text generalizing angle paren pos with
  | nil =>
    rw [List.nil_append, findBraceFrom_cons, plainFrom_nil_iff, List.length_nil, Nat.add_zero]
    split
    next hdepth => exact iff_of_true rfl hdepth.2
    next hdepth =>
      refine iff_of_false (fun h => ?_) fun h => hdepth ⟨rfl, h⟩
      exact absurd (findBraceFrom_eq_some h).1 (by omega)
  | cons b text ih =>
    rw [List.cons_append, findBraceFrom_cons, plainFrom_cons_iff, List.length_cons]
    split
    next hb =>
      refine iff_of_false (fun h => ?_) fun h => h.1 hb
      injection h with h
      omega
    next hb =>
      have hpos : pos + (text.length + 1) = pos + 1 + text.length := by omega
      rw [hpos, ih]
      exact (and_iff_right hb).symm

end Scan

/-! ## Where the text is cut -/

/-- Behind a brace there is one brace more. -/
theorem count_take_lt {body : Str} {i j : Nat} (hij : i < j) (hi : body[i]? = some braceOpen) :
    (body.take i).count braceOpen < (body.take j).count braceOpen := by
  have hstep : (body.take (i + 1)).count braceOpen = (body.take i).count braceOpen + 1 := by
    rw [List.take_add_one, hi, List.count_append]
    rfl
  have hmono : (body.take (i + 1)).count braceOpen ≤ (body.take j).count braceOpen :=
    (List.take_prefix_take_left hij).sublist.count_le braceOpen
  omega

/-- Cut at two braces, a text is not the same. -/
theorem beforeBrace_eq_iff {head rest otherwise : Str} {brace : Option Nat}
    (hbrace : ∀ pos, brace = some pos → (head ++ braceOpen :: rest)[pos]? = some braceOpen)
    (hotherwise : otherwise.count braceOpen = (head ++ braceOpen :: rest).count braceOpen) :
    beforeBrace brace (head ++ braceOpen :: rest) otherwise = trimText head ↔ brace = some head.length := by
  have hat : (head ++ braceOpen :: rest)[head.length]? = some braceOpen := by simp
  have hhead : (head ++ braceOpen :: rest).take head.length = head := List.take_left
  generalize head ++ braceOpen :: rest = body at hbrace hotherwise hat hhead ⊢
  constructor
  · intro h
    have hcount := congrArg (List.count braceOpen) h
    rw [count_trimText isVisible_braceOpen, ← hhead] at hcount
    cases brace with
    | none =>
      have hlt := count_take_lt (Nat.lt_add_one head.length) hat
      have hle := (List.take_sublist (head.length + 1) body).count_le braceOpen
      rw [beforeBrace, hotherwise] at hcount
      omega
    | some pos =>
      rw [beforeBrace, count_trimText isVisible_braceOpen] at hcount
      rcases Nat.lt_trichotomy pos head.length with hlt | heq | hlt
      · exact absurd hcount (count_take_lt hlt (hbrace pos rfl)).ne
      · rw [heq]
      · exact absurd hcount (count_take_lt hlt hat).ne'
  · intro h
    rw [h, beforeBrace, hhead]

theorem count_otherwise (body : Str) :
    (trimText (trimEndMatches semicolon (trimText body))).count braceOpen = body.count braceOpen := by
  rw [count_trimText isVisible_braceOpen, count_trimEndMatches (by decide), count_trimText isVisible_braceOpen]

theorem fnSignature_eq_iff (parens : Bool) {head rest : Str} :
    fnSignature (findBraceFrom parens 0 0 0 (head ++ braceOpen :: rest)) (head ++ braceOpen :: rest) = trimText head ↔
      PlainFrom parens (0, 0) head := by
  rw [fnSignature, beforeBrace_eq_iff (fun pos hpos => (findBraceFrom_eq_some hpos).2) (count_otherwise _)]
  have hiff := @findBraceFrom_eq_iff parens head rest 0 0 0
  rwa [Nat.zero_add] at hiff

theorem goSignature_eq_iff {head rest : Str} :
    Symbols.Go.extractFnSignature (head ++ braceOpen :: rest) = trimText head ↔ braceOpen ∉ head := by
  have hfound : ∀ pos, (head ++ braceOpen :: rest).findIdx? (· == braceOpen) = some pos →
      (head ++ braceOpen :: rest)[pos]? = some braceOpen := by
    intro pos hpos
    obtain ⟨hlt, heq, -⟩ := List.findIdx?_eq_some_iff_getElem.mp hpos
    rw [List.getElem?_eq_getElem hlt, eq_of_beq heq]
  rw [Symbols.Go.extractFnSignature, beforeBrace_eq_iff hfound (count_trimText isVisible_braceOpen _), List.findIdx?_append]
  by_cases hmem : braceOpen ∈ head
  · have hsome : (head.findIdx? (· == braceOpen)).isSome = true := by
      rw [List.findIdx?_isSome]
      exact List.any_eq_true.mpr ⟨braceOpen, hmem, beq_self_eq_true braceOpen⟩
    obtain ⟨i, hi⟩ := Option.isSome_iff_exists.mp hsome
    obtain ⟨hlt, -⟩ := List.findIdx?_eq_some_iff_getElem.mp hi
    rw [hi, Option.some_or]
    refine iff_of_false (fun h => ?_) fun h => h hmem
    injection h with h
    omega
  · have hnone : head.findIdx? (· == braceOpen) = none := by
      rw [List.findIdx?_eq_none_iff]
      exact fun b hb => beq_eq_false_iff_ne.mpr fun heq => hmem (heq ▸ hb)
    rw [hnone, Option.none_or, List.findIdx?_cons, if_pos (beq_self_eq_true braceOpen), Option.map_some, Nat.zero_add]
    exact iff_of_true rfl hmem

/-- The text of the function is the header, a brace, and the rest. -/
theorem HasBody.nodeSource_eq {source : Str} {n block : Node} (h : HasBody source n block) :
    ∃ rest, nodeSource source n = header source n block ++ braceOpen :: rest := by
  have hat : (source.take n.endByte)[block.startByte]? = some braceOpen := by
    rw [List.getElem?_take_of_lt h.ends, h.brace]
  obtain ⟨hlt, heq⟩ := List.getElem?_eq_some_iff.mp hat
  have hbefore : (source.take n.endByte).take block.startByte = source.take block.startByte := by
    rw [List.take_take, Nat.min_eq_left h.ends.le]
  have hsplit : source.take n.endByte =
      source.take block.startByte ++ braceOpen :: (source.take n.endByte).drop (block.startByte + 1) := by
    rw [← hbefore, ← heq, ← List.drop_eq_getElem_cons hlt, List.take_append_drop]
  refine ⟨(source.take n.endByte).drop (block.startByte + 1), ?_⟩
  rw [nodeSource, header]
  conv_lhs => rw [hsplit]
  refine List.drop_append_of_le_length ?_
  rw [← hbefore, List.length_take]
  have hstarts := h.starts
  omega

/-! ## The signature and the header -/

/-- For every function or method with a block, in every source: the signature is the
    trimmed header if and only if that is plain. -/
theorem signature_is_header_iff (language : BraceLanguage) {source : Str} {n block : Node} (h : HasBody source n block)
    {kind : SymbolKind} (hkind : kind ∈ functionKinds language) :
    extractSignature source language n kind = trimText (header source n block) ↔
      Plain (header source n block) language := by
  obtain ⟨rest, hsource⟩ := h.nodeSource_eq
  have hscan : ∀ parens, fnSignature (findBraceFrom parens 0 0 0 (nodeSource source n)) (nodeSource source n) =
      trimText (header source n block) ↔ PlainFrom parens (0, 0) (header source n block) := by
    intro parens
    rw [hsource]
    exact fnSignature_eq_iff parens
  cases language with
  | rust =>
    simp only [functionKinds, List.mem_cons, List.not_mem_nil, or_false] at hkind
    rcases hkind with rfl | rfl | rfl <;> exact hscan false
  | cpp =>
    simp only [functionKinds, List.mem_cons, List.not_mem_nil, or_false] at hkind
    rcases hkind with rfl | rfl <;> exact hscan false
  | typeScript =>
    simp only [functionKinds, List.mem_cons, List.not_mem_nil, or_false] at hkind
    rcases hkind with rfl | rfl <;> exact hscan true
  | go =>
    have hgo : Symbols.Go.extractFnSignature (nodeSource source n) = trimText (header source n block) ↔
        braceOpen ∉ header source n block := by
      rw [hsource]
      exact goSignature_eq_iff
    simp only [functionKinds, List.mem_cons, List.not_mem_nil, or_false] at hkind
    rcases hkind with rfl | rfl | rfl <;> exact hgo

/-! ## Operators and braces in headers -/

def emptyBlock (kind : String) (length : Nat) : Node := .leaf kind (some "body") 0 (length - 2) (length - 2) 2 true

/-- A function on one line, with an empty block at its end. -/
def emptyFunction (kind block : String) (length : Nat) : Node :=
  ⟨kind, none, 0, length, ⟨0, 0⟩, ⟨0, length⟩, true, false, false, [emptyBlock block length]⟩

theorem hasBody_emptyFunction {source : Str} {kind block : String} {length : Nat} (hlength : 2 ≤ length)
    (hbrace : source[length - 2]? = some braceOpen) :
    HasBody source (emptyFunction kind block length) (emptyBlock block length) :=
  ⟨child_mem_preorder (List.mem_singleton_self _), Nat.zero_le _, Nat.sub_lt (by omega) (by decide), hbrace⟩

def rustShift : Str := str "fn f(x: [u8; 1 << 4]) \x7b\x7d"

def cppOperator : Str := str "bool operator<(S s) \x7b\x7d"

def tsObjectType : Str := str "function f(): \x7b a: 1 \x7d \x7b\x7d"

def goInterface : Str := str "func f(v interface\x7b\x7d) \x7b\x7d"

/-- The signature is this, and the header is another. -/
def CutAt (language : BraceLanguage) (source : Str) (kind block : String) (signature : Str) : Prop :=
  let n := emptyFunction kind block source.length
  let b := emptyBlock block source.length
  HasBody source n b ∧ extractSignature source language n .function = signature ∧
    trimText (header source n b) ≠ signature

/-- An operator keeps the block in the signature, and a brace cuts the header off. -/
theorem headers_with_operators_and_braces :
    CutAt .rust rustShift "function_item" "block" rustShift ∧
      CutAt .cpp cppOperator "function_definition" "compound_statement" cppOperator ∧
      CutAt .typeScript tsObjectType "function_declaration" "statement_block" (str "function f():") ∧
      CutAt .go goInterface "function_declaration" "block" (str "func f(v interface") := by
  refine ⟨⟨?_, ?_, ?_⟩, ⟨?_, ?_, ?_⟩, ⟨?_, ?_, ?_⟩, ⟨?_, ?_, ?_⟩⟩
  case refine_1 | refine_4 | refine_7 | refine_10 => exact hasBody_emptyFunction (by decide) (by decide)
  all_goals decide

/-- `fn f<T>() {}`. -/
theorem signature_is_header_iff_generic :
    extractSignature (str "fn f<T>() \x7b\x7d") .rust (emptyFunction "function_item" "block" 12) .function =
        trimText (header (str "fn f<T>() \x7b\x7d") (emptyFunction "function_item" "block" 12) (emptyBlock "block" 12)) ↔
      Plain (header (str "fn f<T>() \x7b\x7d") (emptyFunction "function_item" "block" 12) (emptyBlock "block" 12)) .rust :=
  signature_is_header_iff .rust (hasBody_emptyFunction (by decide) (by decide)) (by decide)

end CodeQuery.Parse.HeaderSignatures
