/-
  CodeQuery.Parse.EndLines — the last line of a symbol
  (`codequery-parse/src/languages/rust.rs`, `cpp.rs` and `toml.rs`).

  It is the row of the place behind the symbol's node. A node that takes in the line feed
  behind it ends on the next row, and there its symbol ends too
  (`a_definition_ends_on_the_next_line`). `end_line_exact_iff` says which symbols end on
  the line of their last character.
-/

import CodeQuery.Parse.Extraction
import CodeQuery.Parse.Ranges

namespace CodeQuery.Parse.EndLines

open CodeQuery.Core CodeQuery.Index CodeQuery.Text

/-! ## The last character -/

def isLineTerminator (b : UInt8) : Bool := b == lf || b == cr

/-- The last line is the line of the last byte of the body that ends no line; the bytes of
    a character are on one line. -/
def EndsOnLastLine (s : Symbol) : Prop :=
  ∃ front b ending, s.body = some (front ++ b :: ending) ∧ isLineTerminator b = false ∧
    (∀ c ∈ ending, isLineTerminator c = true) ∧ s.endLine = s.line + front.count lf

/-- There is such a byte, and no line feed behind the last one. -/
def NoLineFeedBehind (text : Str) : Prop :=
  ∃ front b ending, text = front ++ b :: ending ∧ isLineTerminator b = false ∧ ∀ c ∈ ending, c = cr

section Symbols

variable {source : Str} {tree : Node} {file : Path}

/-- From the first line to the last there are as many line feeds as rows. -/
theorem endLine_eq (htree : tree.Located source) {s : Symbol} {n : Node} (hbody : BodyOf source tree s n)
    (hline : s.line = n.startPosition.row + 1) : s.endLine = s.line + (nodeSource source n).count lf := by
  obtain ⟨before, after, -, -, hstop⟩ := htree.standsFrom hbody.mem
  have hrow := n.startPosition.after_row (nodeSource source n)
  rw [hstop] at hrow
  rw [hbody.endLine, hline, hrow]
  omega

theorem endsOnLastLine_iff {s : Symbol} {text : Str} (hbody : s.body = some text)
    (hend : s.endLine = s.line + text.count lf) : EndsOnLastLine s ↔ NoLineFeedBehind text := by
  constructor
  · intro h
    obtain ⟨front, b, ending, hs, hb, hending, hline⟩ := h
    rw [hbody] at hs
    cases hs
    refine ⟨front, b, ending, rfl, hb, fun c hc => ?_⟩
    have hblf : b ≠ lf := by
      intro heq
      rw [heq] at hb
      cases hb
    rw [hend, List.count_append, List.count_cons_of_ne hblf] at hline
    have hnone : lf ∉ ending := List.count_eq_zero.mp (by omega)
    rcases Bool.or_eq_true_iff.mp (hending c hc) with hlf | hcr
    · exact absurd (eq_of_beq hlf ▸ hc) hnone
    · exact eq_of_beq hcr
  · intro h
    obtain ⟨front, b, ending, rfl, hb, hending⟩ := h
    have hblf : b ≠ lf := by
      intro heq
      rw [heq] at hb
      cases hb
    have hnone : ending.count lf = 0 := by
      refine List.count_eq_zero.mpr fun hmem => ?_
      exact absurd (hending lf hmem) (by decide)
    refine ⟨front, b, ending, hbody, hb, fun c hc => by rw [hending c hc]; rfl, ?_⟩
    rw [hend, List.count_append, List.count_cons_of_ne hblf, hnone, Nat.add_zero]

end Symbols

/-- The extractors that are looked at. -/
inductive LineLanguage where
  | rust
  | cpp
  | toml
  deriving DecidableEq, Repr

def LineLanguage.language : LineLanguage → Language
  | rust => .rust
  | cpp => .cpp
  | toml => .toml

/-- The symbols of a file, at every depth. -/
def allSymbols (texts : TextsOf) (source : Str) (tree : Node) (file : Path) (l : LineLanguage) : List Symbol :=
  SymbolIndex.flattenAll ((Extraction.builtin l.language texts).forest source tree file)

/-- Each has a body, and a node that the body is the text of. -/
theorem allSymbols_eq (texts : TextsOf) (source : Str) (tree : Node) (file : Path) (l : LineLanguage) :
    allSymbols texts source tree file l = ((Extraction.builtin l.language texts).bodies source tree file).map Prod.fst := by
  rw [allSymbols, Extraction.forest, extractSymbols, flattenAll_toSymbols, Extraction.bodies, List.map_map]
  rfl

/-- For every source with its tree and every symbol of it, at any depth: the symbol ends on
    the line of its last character if and only if its node has no line feed behind that. -/
theorem end_line_exact_iff {source : Str} {tree : Node} (htree : tree.Located source) (texts : TextsOf) (file : Path)
    (l : LineLanguage) {s : Symbol} (hs : s ∈ allSymbols texts source tree file l) :
    ∃ n ∈ tree.preorder, s.body = some (nodeSource source n) ∧
      (EndsOnLastLine s ↔ NoLineFeedBehind (nodeSource source n)) := by
  rw [allSymbols_eq] at hs
  obtain ⟨⟨s', n⟩, hmem, rfl⟩ := List.mem_map.mp hs
  have hbody : BodyOf source tree s' n := @Extraction.bodyOf source tree file (.builtin l.language texts) trivial s' n hmem
  exact ⟨n, hbody.mem, hbody.body, endsOnLastLine_iff hbody.body (endLine_eq htree hbody (Extraction.builtin_line hmem))⟩

/-! ## A macro -/

/-- `#define N 1`, which takes in its line feed, and `int a;`. -/
def macroSource : Str := str "#define N 1\nint a;\n"

def macroTree : Node :=
  ⟨"translation_unit", none, 0, 19, ⟨0, 0⟩, ⟨2, 0⟩, true, false, false,
    [⟨"preproc_def", none, 0, 12, ⟨0, 0⟩, ⟨1, 0⟩, true, false, false,
      [.leaf "#define" none 0 0 0 7 false, .leaf "identifier" (some "name") 0 8 8 1 true,
        .leaf "preproc_arg" (some "value") 0 10 10 1 true]⟩,
      ⟨"declaration", none, 12, 18, ⟨1, 0⟩, ⟨1, 6⟩, true, false, false,
        [.leaf "primitive_type" (some "type") 1 0 12 3 true, .leaf "identifier" (some "declarator") 1 4 16 1 true,
          .leaf ";" none 1 5 17 1 false]⟩]⟩

theorem macroTree_located : macroTree.Located macroSource where
  bytes := by decide
  nested := by decide
  starts := by decide
  ends := by decide

def macroSymbol : Symbol :=
  { name := str "N", kind := .const, file := [.normal "a.cpp"], line := 1, column := 0, endLine := 2,
    visibility := .public_, children := [], doc := none, body := some (str "#define N 1\n"), signature := none }

theorem macroSymbol_mem : macroSymbol ∈ allSymbols noTexts macroSource macroTree [.normal "a.cpp"] .cpp := by
  have hfirst : (allSymbols noTexts macroSource macroTree [.normal "a.cpp"] .cpp).head? = some macroSymbol := rfl
  exact List.mem_of_head? hfirst

/-- What ends in a line feed has one behind its last character. -/
theorem not_noLineFeedBehind {text : Str} (h : text.getLast? = some lf) : ¬ NoLineFeedBehind text := by
  intro hbehind
  obtain ⟨front, b, ending, rfl, hb, hending⟩ := hbehind
  rcases List.eq_nil_or_concat ending with rfl | ⟨init, last, rfl⟩
  · rw [List.getLast?_concat] at h
    rw [Option.some.inj h] at hb
    cases hb
  · rw [List.concat_eq_append, ← List.cons_append, ← List.append_assoc, List.getLast?_concat] at h
    have hlast := hending last (by simp)
    rw [Option.some.inj h] at hlast
    exact absurd hlast (by decide)

/-- The macro on the first line ends on the second, where what is declared next begins. -/
theorem a_definition_ends_on_the_next_line :
    macroTree.Located macroSource ∧
      (allSymbols noTexts macroSource macroTree [.normal "a.cpp"] .cpp).map (fun s => (s.name, s.line, s.endLine)) =
        [(str "N", 1, 2), (str "a", 2, 2)] ∧
      macroSymbol ∈ allSymbols noTexts macroSource macroTree [.normal "a.cpp"] .cpp ∧ ¬ EndsOnLastLine macroSymbol := by
  refine ⟨macroTree_located, by decide, macroSymbol_mem, fun h => ?_⟩
  exact not_noLineFeedBehind (by decide) ((@endsOnLastLine_iff macroSymbol (str "#define N 1\n") rfl (by decide)).mp h)

theorem end_line_exact_iff_macro :
    ∃ n ∈ macroTree.preorder, macroSymbol.body = some (nodeSource macroSource n) ∧
      (EndsOnLastLine macroSymbol ↔ NoLineFeedBehind (nodeSource macroSource n)) :=
  end_line_exact_iff macroTree_located noTexts [.normal "a.cpp"] .cpp macroSymbol_mem

end CodeQuery.Parse.EndLines
