/-
  CodeQuery.Parse.PythonSignatures — the signature of a Python function
  (`extract_def_signature` of `codequery-parse/src/languages/python.rs`).

  It is a line: the first that begins with `def `, or else the first of all. So a header
  of several lines is cut off, what follows the colon on its line is kept, and an `async`
  function that has another in it gets the signature of that one
  (`headers_that_are_not_the_signature`). `signature_is_def_header_iff` says when the
  signature is the header.
-/

import CodeQuery.Parse.Symbols.Python
import CodeQuery.Parse.TrimmedText

namespace CodeQuery.Parse.PythonSignatures

open CodeQuery.Core CodeQuery.Text
open CodeQuery.Parse.Symbols.Python (extractSignature)

/-! ## Headers -/

/-- From the first keyword up to the colon, with it. -/
def defHeader (source : Str) (n colonNode : Node) : Str := (source.take colonNode.endByte).drop n.startByte

/-- The colon is a child of the definition and one byte of its text, and what is in front
    of it is a text too. -/
structure HasHeader (source : Str) (n colonNode : Node) : Prop where
  child : colonNode ∈ n.children
  kind : colonNode.kind = ":"
  starts : n.startByte ≤ colonNode.startByte
  byte : colonNode.endByte = colonNode.startByte + 1
  ends : colonNode.endByte ≤ n.endByte
  colon : source[colonNode.startByte]? = some Parse.colon
  text : ∃ t, fromUtf8 (defHeader source n colonNode) = some t

/-- The first line is the header, but for blanks behind it, and no line in it is taken for
    the line of the `def`. -/
structure OnOneLine (text head : Str) : Prop where
  line : ∃ blanks, Blank blanks ∧ firstLine text = head ++ str (.ofList blanks)
  keyword : str "def " <+: head ∨ ∀ l ∈ lines text, ¬ str "def " <+: trimTextStart l

/-! ## The first line -/

section FirstLine

theorem splitInclusive_of_notMem {l : Str} (hne : l ≠ []) (h : lf ∉ l) : splitInclusive l = [l] := by
  induction l with
  | nil => contradiction
  | cons b l ih =>
    have hb : b ≠ lf := fun heq => h (heq ▸ List.mem_cons_self)
    rw [splitInclusive, if_neg hb]
    cases l with
    | nil => rfl
    | cons c l => rw [ih (by simp) fun hm => h (List.mem_cons_of_mem _ hm)]

/-- The first line, and what is behind it: nothing, or a line end first. -/
theorem lines_cons {text : Str} (hne : text ≠ []) : ∃ rest ls, text = firstLine text ++ rest ∧
    lines text = firstLine text :: ls ∧ ∀ b ∈ rest.head?, b = lf ∨ b = cr := by
  by_cases h : lf ∈ text
  · obtain ⟨l, s, rfl, hl⟩ := List.eq_append_cons_of_mem h
    have hlines : lines (l ++ lf :: s) = (Segment.ofPiece (l ++ [lf])).line :: lines s := by
      rw [lines, segments, splitInclusive_line hl, List.map_cons, List.map_cons, lines, segments]
    have hfirst : firstLine (l ++ lf :: s) = (Segment.ofPiece (l ++ [lf])).line := by
      rw [firstLine, hlines]
      rfl
    refine ⟨(Segment.ofPiece (l ++ [lf])).ending ++ s, lines s, ?_, by rw [hlines, hfirst], ?_⟩
    · have hpiece : (Segment.ofPiece (l ++ [lf])).line ++ (Segment.ofPiece (l ++ [lf])).ending = l ++ [lf] :=
        Segment.ofPiece_text _
      rw [hfirst, ← List.append_assoc, hpiece, List.append_assoc, List.singleton_append]
    · intro b hb
      rcases ofPiece_ending_lf (p := l ++ [lf]) (by simp) with hend | hend
      · rw [hend] at hb
        exact .inl (Option.some.inj hb).symm
      · rw [hend] at hb
        exact .inr (Option.some.inj hb).symm
  · have hpiece : Segment.ofPiece text = ⟨text, []⟩ :=
      if_neg fun hlast => h (List.mem_of_getLast? hlast)
    have hlines : lines text = [text] := by
      rw [lines, segments, splitInclusive_of_notMem hne h, List.map_singleton, List.map_singleton, hpiece]
    have hfirst : firstLine text = text := by
      rw [firstLine, hlines]
      rfl
    exact ⟨[], [], by rw [hfirst, List.append_nil], by rw [hlines, hfirst], fun b hb => absurd hb (by simp)⟩

/-- A text that begins with a keyword has a first line that does. -/
theorem prefix_firstLine {keyword text : Str} (hne : text ≠ []) (hkeyword : ∀ b ∈ keyword, b ≠ lf ∧ b ≠ cr)
    (h : keyword <+: text) : keyword <+: firstLine text := by
  obtain ⟨rest, ls, htext, -, hend⟩ := lines_cons hne
  obtain ⟨s, hs⟩ := h
  rcases List.append_eq_append_iff.mp (hs.trans htext) with ⟨more, hline, -⟩ | ⟨more, hword, hrest⟩
  · exact ⟨more, hline.symm⟩
  · -- a line end would stand in the keyword
    cases more with
    | nil => exact ⟨[], by rw [hword, List.append_nil, List.append_nil]⟩
    | cons b more =>
      obtain ⟨hlf, hcr⟩ := hkeyword b (by rw [hword]; simp)
      rcases hend b (by rw [hrest]; rfl) with heq | heq
      · exact absurd heq hlf
      · exact absurd heq hcr

end FirstLine

/-! ## The signature of a definition -/

section Signature

variable {text head : Str}

theorem isVisible_colon : IsVisible colon := isVisible_of_ascii (by decide) (by decide)

theorem isVisible_d : IsVisible 100 := isVisible_of_ascii (by decide) (by decide)

/-- The colon is not in the keyword. -/
theorem keyword_of_line {blanks : Str} (hlast : head.getLast? = some colon) (h : str "def " <+: head ++ blanks) :
    str "def " <+: head := by
  obtain ⟨s, hs⟩ := h
  rcases List.append_eq_append_iff.mp hs with ⟨more, hhead, -⟩ | ⟨more, hword, -⟩
  · exact ⟨more, hhead.symm⟩
  · have hmem : colon ∈ str "def " := by
      rw [hword]
      exact List.mem_append_left _ (List.mem_of_getLast? hlast)
    exact absurd hmem (by decide)

/-- A line that begins with the keyword has no blanks in front. -/
theorem trimTextStart_of_keyword {line : Str} (h : str "def " <+: line) : trimTextStart line = line := by
  obtain ⟨s, rfl⟩ := h
  exact trimTextStart_of_isVisible isVisible_d rfl

/-- Where the text begins with the keyword, its first line is taken. -/
theorem keywordSignature_first (h : str "def " <+: text) :
    keywordSignature (str "def ") text = trimTextEnd (firstLine text) := by
  have hne : text ≠ [] := by
    intro hnil
    rw [hnil, List.prefix_nil] at h
    exact absurd h (by decide)
  have hline : str "def " <+: firstLine text := prefix_firstLine hne (List.forall_iff_forall_mem.mp (by decide)) h
  obtain ⟨rest, ls, -, hlines, -⟩ := lines_cons hne
  have htaken : (str "def ").isPrefixOf (trimTextStart (firstLine text)) = true := by
    rw [trimTextStart_of_keyword hline, List.isPrefixOf_iff_prefix]
    exact hline
  have hfind : ((lines text).find? fun line => (str "def ").isPrefixOf (trimTextStart line)) = some (firstLine text) := by
    rw [hlines, List.find?_cons, htaken]
  rw [keywordSignature, hfind]
  dsimp only
  rw [trimTextStart_of_keyword hline]

/-- Where no line begins with the keyword, the first is taken. -/
theorem keywordSignature_fallback (h : ∀ l ∈ lines text, ¬ str "def " <+: trimTextStart l) :
    keywordSignature (str "def ") text = trimTextEnd (firstLine text) := by
  have hfind : ((lines text).find? fun line => (str "def ").isPrefixOf (trimTextStart line)) = none := by
    rw [List.find?_eq_none]
    exact fun l hl htaken => h l hl (List.isPrefixOf_iff_prefix.mp htaken)
  rw [keywordSignature, hfind]

/-- A signature that does not begin with the keyword is of a text without lines that do. -/
theorem no_line_of_not_keyword {signature : Str} (h : keywordSignature (str "def ") text = signature)
    (htext : ∃ t, fromUtf8 signature = some t) (hlast : signature.getLast? = some colon)
    (hkeyword : ¬ str "def " <+: signature) : ∀ l ∈ lines text, ¬ str "def " <+: trimTextStart l := by
  rw [keywordSignature] at h
  split at h
  next line hfind =>
    have hfound := List.find?_some hfind
    have htaken := List.isPrefixOf_iff_prefix.mp hfound
    obtain ⟨blanks, -, hline⟩ := (trimTextEnd_eq_iff isVisible_colon htext hlast).mp h
    rw [hline] at htaken
    exact absurd (keyword_of_line hlast htaken) hkeyword
  next hfind =>
    rw [List.find?_eq_none] at hfind
    exact fun l hl htaken => hfind l hl (List.isPrefixOf_iff_prefix.mpr htaken)

theorem keywordSignature_eq_iff (htext : ∃ t, fromUtf8 head = some t) (hlast : head.getLast? = some colon)
    (hbegins : head <+: text) : keywordSignature (str "def ") text = head ↔ OnOneLine text head := by
  constructor
  · intro h
    by_cases hkeyword : str "def " <+: head
    · rw [keywordSignature_first (hkeyword.trans hbegins)] at h
      exact ⟨(trimTextEnd_eq_iff isVisible_colon htext hlast).mp h, .inl hkeyword⟩
    · have hnone := no_line_of_not_keyword h htext hlast hkeyword
      rw [keywordSignature_fallback hnone] at h
      exact ⟨(trimTextEnd_eq_iff isVisible_colon htext hlast).mp h, .inr hnone⟩
  · intro h
    obtain ⟨hline, hdef | hnone⟩ := h
    · rw [keywordSignature_first (hdef.trans hbegins)]
      exact (trimTextEnd_eq_iff isVisible_colon htext hlast).mpr hline
    · rw [keywordSignature_fallback hnone]
      exact (trimTextEnd_eq_iff isVisible_colon htext hlast).mpr hline

end Signature

section Header

variable {source : Str} {n colonNode : Node}

theorem HasHeader.prefix_nodeSource (h : HasHeader source n colonNode) :
    defHeader source n colonNode <+: nodeSource source n := by
  have hbytes : (source.take n.endByte).take colonNode.endByte = source.take colonNode.endByte := by
    rw [List.take_take, Nat.min_eq_left h.ends]
  rw [defHeader, nodeSource, ← hbytes]
  exact (List.take_prefix _ _).drop n.startByte

theorem HasHeader.getLast? (h : HasHeader source n colonNode) :
    (defHeader source n colonNode).getLast? = some Parse.colon := by
  have hsplit : source.take colonNode.endByte = source.take colonNode.startByte ++ [Parse.colon] := by
    rw [h.byte, List.take_add_one, h.colon]
    rfl
  obtain ⟨hlt, -⟩ := List.getElem?_eq_some_iff.mp h.colon
  have hstarts := h.starts
  have hle : n.startByte ≤ (source.take colonNode.startByte).length := by
    rw [List.length_take]
    omega
  rw [defHeader, hsplit, List.drop_append_of_le_length hle, List.getLast?_concat]

end Header

/-! ## The signature and the header -/

/-- For every definition of a function, in every source: the signature is the header if
    and only if that is a line of its own, and is the line that is taken for the `def`'s. -/
theorem signature_is_def_header_iff {source : Str} {n colonNode : Node} (h : HasHeader source n colonNode)
    {kind : SymbolKind} (hkind : kind ∈ [SymbolKind.function, .method, .test]) :
    extractSignature source n kind = defHeader source n colonNode ↔
      OnOneLine (nodeSource source n) (defHeader source n colonNode) := by
  have hsignature : extractSignature source n kind = keywordSignature (str "def ") (nodeSource source n) := by
    simp only [List.mem_cons, List.not_mem_nil, or_false] at hkind
    rcases hkind with rfl | rfl | rfl <;> rfl
  rw [hsignature]
  exact keywordSignature_eq_iff h.text h.getLast? h.prefix_nodeSource

/-! ## Headers of other shapes -/

def colonAt (row column startByte : Nat) : Node := .leaf ":" none row column startByte 1 false

/-- A function that the source is, with the colon of its header. -/
def functionIn (source : Str) (colonNode : Node) : Node :=
  ⟨"function_definition", none, 0, source.length, ⟨0, 0⟩, Point.after ⟨0, 0⟩ source, true, false, false, [colonNode]⟩

theorem hasHeader_functionIn {source : Str} {row column startByte : Nat} (hcolon : source[startByte]? = some Parse.colon)
    {header : String} (hheader : source.take (startByte + 1) = str header) :
    HasHeader source (functionIn source (colonAt row column startByte)) (colonAt row column startByte) := by
  obtain ⟨hlt, -⟩ := List.getElem?_eq_some_iff.mp hcolon
  have htext : defHeader source (functionIn source (colonAt row column startByte)) (colonAt row column startByte) =
      str header := hheader
  exact ⟨List.mem_singleton_self _, rfl, Nat.zero_le _, rfl, hlt, hcolon, ⟨header, by rw [htext, fromUtf8_str]⟩⟩

def asyncSource : Str := str "async def f():\n  def g(): pass"

def twoLineSource : Str := str "def f(a,\n  b):\n  pass"

def oneLineSource : Str := str "def f(): pass"

/-- The signature is this, and the header is another. -/
def TakesLine (source : Str) (colonNode : Node) (signature : Str) : Prop :=
  let n := functionIn source colonNode
  HasHeader source n colonNode ∧ extractSignature source n .function = signature ∧
    defHeader source n colonNode ≠ signature

/-- An `async` function gets the line of the one in it, a header of two lines is cut off,
    and a body on the header's line is kept. -/
theorem headers_that_are_not_the_signature :
    TakesLine asyncSource (colonAt 0 13 13) (str "def g(): pass") ∧
      TakesLine twoLineSource (colonAt 1 4 13) (str "def f(a,") ∧
      TakesLine oneLineSource (colonAt 0 7 7) oneLineSource := by
  refine ⟨⟨?_, ?_, ?_⟩, ⟨?_, ?_, ?_⟩, ⟨?_, ?_, ?_⟩⟩
  case refine_1 => exact @hasHeader_functionIn asyncSource 0 13 13 (by decide) "async def f():" (by decide)
  case refine_4 => exact @hasHeader_functionIn twoLineSource 1 4 13 (by decide) "def f(a,\n  b):" (by decide)
  case refine_7 => exact @hasHeader_functionIn oneLineSource 0 7 7 (by decide) "def f():" (by decide)
  all_goals decide

def plainSource : Str := str "def f():\n  pass"

theorem signature_is_def_header_iff_plain :
    extractSignature plainSource (functionIn plainSource (colonAt 0 7 7)) .function =
        defHeader plainSource (functionIn plainSource (colonAt 0 7 7)) (colonAt 0 7 7) ↔
      OnOneLine (nodeSource plainSource (functionIn plainSource (colonAt 0 7 7)))
        (defHeader plainSource (functionIn plainSource (colonAt 0 7 7)) (colonAt 0 7 7)) :=
  signature_is_def_header_iff (@hasHeader_functionIn plainSource 0 7 7 (by decide) "def f():" (by decide)) (by decide)

end CodeQuery.Parse.PythonSignatures
