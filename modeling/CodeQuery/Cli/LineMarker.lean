/-
  CodeQuery.Cli.LineMarker — the marker of the context command
  (`insert_line_marker` of `codequery-cli/src/output.rs`).

  The marker goes behind the body line whose index is the distance from the symbol's line
  to the target. That is the target line exactly where the body starts on the symbol's
  line, and where the body has a line there: one that ends in a line feed has none on its
  symbol's last line, and none is marked (`every_line_marked_iff`). The extractors
  compiled in start the body on the symbol's line (`Extraction.builtin_line`); under a
  package's rules the symbol's line is the name's, which a return type can stand above
  (`a_return_type_above_shifts_the_marker`).
-/

import CodeQuery.Cli.FramedBody
import CodeQuery.Parse.Extraction
import CodeQuery.Text.Rows

namespace CodeQuery.Cli

open CodeQuery.Core CodeQuery.Index CodeQuery.Parse CodeQuery.Text

/-! ## The marker -/

def lineMarker (targetLine : Nat) : Str := str "    // <- line " ++ str (toString targetLine)

/-- The loop over the lines of the body, the first of which is no. `i`. -/
def markLines (targetOffset targetLine i : Nat) : List Str → Str
  | [] => []
  | line :: rest =>
    (if i > 0 then [lf] else []) ++ line ++ (if i = targetOffset then lineMarker targetLine else []) ++
      markLines targetOffset targetLine (i + 1) rest

def insertLineMarker (body : Str) (bodyStartLine targetLine : Nat) : Str :=
  let targetOffset := targetLine - bodyStartLine
  markLines targetOffset targetLine 0 (lines body)

/-! ## What is marked -/

section Marked

/-- The marker is behind the line of the body with the index, and nothing else is put in. -/
structure MarksAt (body : Str) (bodyStartLine targetLine i : Nat) : Prop where
  line : i < (lines body).length
  marked : insertLineMarker body bodyStartLine targetLine = joinLines ((lines body).modify i (· ++ lineMarker targetLine))

/-- A line is marked, and it is the text of the target line, as far as the body that
    starts at the place reaches. -/
def MarksTarget (source : Str) (start : Point) (body : Str) (bodyStartLine targetLine : Nat) : Prop :=
  ∃ i line place, MarksAt body bodyStartLine targetLine i ∧ (lines body)[i]? = some line ∧
    place = start.after (beforeLine body i) ∧ place.row + 1 = targetLine ∧ StandsFrom source place (place.after line) line

variable {body : Str} {bodyStartLine targetLine i : Nat}

theorem lf_not_mem_lineMarker (n : Nat) : lf ∉ lineMarker n := by
  rw [lineMarker, List.mem_append, not_or]
  exact ⟨by decide, not_mem_digits (by decide) (show '\n'.val.toNat = _ by decide) (by decide) n⟩

theorem lineMarker_ne_nil (n : Nat) : lineMarker n ≠ [] := List.append_ne_nil_of_left_ne_nil (by decide) _

theorem joinLines_cons (l : Str) (ls : List Str) : joinLines (l :: ls) = l ++ ls.flatMap ([lf] ++ ·) := by
  induction ls generalizing l with
  | nil => simp [joinLines]
  | cons l' ls ih =>
    have hcons : joinLines (l :: l' :: ls) = l ++ [lf] ++ joinLines (l' :: ls) := by simp [joinLines, List.intercalate]
    rw [hcons, ih, List.flatMap_cons, List.append_assoc, List.append_assoc]

/-- Behind the offset the loop marks nothing. -/
theorem markLines_behind {targetOffset i : Nat} (h : targetOffset ≤ i) (ls : List Str) :
    markLines targetOffset targetLine (i + 1) ls = ls.flatMap ([lf] ++ ·) := by
  induction ls generalizing i with
  | nil => rfl
  | cons l ls ih =>
    rw [markLines, if_pos (Nat.succ_pos i), if_neg (by omega), ih (Nat.le_succ_of_le h), List.flatMap_cons,
      List.append_nil]

/-- Up to it, one line. -/
theorem markLines_from (i k : Nat) (ls : List Str) :
    markLines (i + 1 + k) targetLine (i + 1) ls = (ls.modify k (· ++ lineMarker targetLine)).flatMap ([lf] ++ ·) := by
  induction ls generalizing i k with
  | nil => simp [markLines]
  | cons l ls ih =>
    rw [markLines, if_pos (Nat.succ_pos i)]
    cases k with
    | zero =>
      rw [Nat.add_zero, if_pos rfl, markLines_behind le_rfl, List.modify_zero_cons, List.flatMap_cons]
      simp only [List.append_assoc]
    | succ k =>
      have hoffset : i + 1 + (k + 1) = i + 1 + 1 + k := by omega
      rw [if_neg (by omega), hoffset, ih, List.modify_succ_cons, List.flatMap_cons, List.append_nil]

/-- The lines are joined, with the marker behind that with the index of the offset. -/
theorem insertLineMarker_eq (body : Str) (bodyStartLine targetLine : Nat) : insertLineMarker body bodyStartLine targetLine =
    joinLines ((lines body).modify (targetLine - bodyStartLine) (· ++ lineMarker targetLine)) := by
  unfold insertLineMarker
  cases lines body with
  | nil => simp [markLines, joinLines]
  | cons l ls =>
    dsimp only
    rw [markLines, if_neg (Nat.lt_irrefl 0), List.nil_append]
    cases targetLine - bodyStartLine with
    | zero => rw [if_pos rfl, markLines_behind le_rfl, List.modify_zero_cons, joinLines_cons]
    | succ k =>
      have hoffset : k + 1 = 0 + 1 + k := by omega
      rw [if_neg (by omega), hoffset, markLines_from, Nat.zero_add, Nat.add_comm 1 k, List.modify_succ_cons,
        joinLines_cons, List.append_nil]

/-- What the output shows to be marked is the line of the offset, if there is one. -/
theorem marksAt_iff : MarksAt body bodyStartLine targetLine i ↔
    i = targetLine - bodyStartLine ∧ targetLine - bodyStartLine < (lines body).length := by
  constructor
  · intro h
    have hsame := h.marked
    rw [insertLineMarker_eq] at hsame
    have hi := joinLines_modify_inj (fun l => lf_not_mem_line) (lf_not_mem_lineMarker targetLine)
      (lineMarker_ne_nil targetLine) h.line hsame.symm
    exact ⟨hi.symm, hi ▸ h.line⟩
  · intro h
    obtain ⟨rfl, hlt⟩ := h
    exact ⟨hlt, insertLineMarker_eq ..⟩

end Marked

/-! ## Bodies that start on the symbol's line -/

section Rows

variable {source body : Str} {start stop : Point} {bodyStartLine targetLine i : Nat}

/-- A line of the body stands on the row that its index says, from where the body starts. -/
theorem beforeLine_row (hi : i < (lines body).length) : (start.after (beforeLine body i)).row = start.row + i := by
  rw [Point.after_row, count_beforeLine hi]

theorem line_standsFrom (hbody : StandsFrom source start stop body) {line : Str} (hline : (lines body)[i]? = some line) :
    StandsFrom source (start.after (beforeLine body i)) ((start.after (beforeLine body i)).after line) line := by
  obtain ⟨before, after, hsource, hstart, -⟩ := hbody
  obtain ⟨rest, hrest⟩ := lines_getElem? hline
  refine ⟨before ++ beforeLine body i, rest ++ after, ?_, by rw [Point.after_append, hstart], rfl⟩
  rw [hsource]
  conv => lhs; rw [hrest]
  simp only [List.append_assoc]

/-- The line that is marked is the target's where the offset, from the row the body starts
    on, leads to it. -/
theorem marksTarget_iff (hbody : StandsFrom source start stop body) :
    MarksTarget source start body bodyStartLine targetLine ↔
      targetLine - bodyStartLine < (lines body).length ∧ start.row + (targetLine - bodyStartLine) + 1 = targetLine := by
  constructor
  · intro h
    obtain ⟨i, line, place, hmarks, -, rfl, hrow, -⟩ := h
    obtain ⟨rfl, hlt⟩ := marksAt_iff.mp hmarks
    exact ⟨hlt, by rw [← beforeLine_row hlt, hrow]⟩
  · intro h
    obtain ⟨hlt, hrow⟩ := h
    have hline := List.getElem?_eq_getElem hlt
    exact ⟨_, _, _, marksAt_iff.mpr ⟨rfl, hlt⟩, hline, rfl, by rw [beforeLine_row hlt, hrow], line_standsFrom hbody hline⟩

/-- Nothing is between the lines, or the body starts on the first and has text on the
    last. -/
def StartsOnLine (body : Str) (start : Point) (line endLine : Nat) : Prop :=
  endLine < line ∨ line = start.row + 1 ∧ body ≠ [] ∧ body.getLast? ≠ some lf

theorem every_target_iff (hbody : StandsFrom source start stop body) {line : Nat} :
    (∀ targetLine, line ≤ targetLine → targetLine ≤ stop.row + 1 → MarksTarget source start body line targetLine) ↔
      StartsOnLine body start line (stop.row + 1) := by
  have hstop : stop.row = start.row + body.count lf := by
    obtain ⟨-, -, -, -, rfl⟩ := hbody
    exact Point.after_row start body
  simp only [marksTarget_iff hbody, StartsOnLine, ← count_lt_lines_iff]
  constructor
  · intro h
    by_cases hnone : stop.row + 1 < line
    · exact .inl hnone
    · obtain ⟨-, hfirst⟩ := h line le_rfl (by omega)
      obtain ⟨hlast, -⟩ := h (stop.row + 1) (by omega) le_rfl
      exact .inr ⟨by omega, by omega⟩
  · intro h targetLine hle hge
    rcases h with hnone | ⟨hline, hcount⟩
    · omega
    · omega

end Rows

/-- For every way to extract symbols, every source and its tree, and every symbol that has
    a body: whatever line of the symbol is asked for is the one that is marked, if and only
    if the body starts on the symbol's line and does not end in a line feed. -/
theorem every_line_marked_iff (x : Extraction) (source : Str) (tree : Node) (file : Path) (htree : tree.Located source)
    (hx : x.CapturesNodes) :
    (x.bodies source tree file).map Prod.fst =
        (SymbolIndex.flattenAll (x.forest source tree file)).filter (·.body.isSome) ∧
      ∀ s n, (s, n) ∈ x.bodies source tree file → ∃ body, s.body = some body ∧ body = nodeSource source n ∧
        ((∀ targetLine, s.line ≤ targetLine → targetLine ≤ s.endLine →
            MarksTarget source n.startPosition body s.line targetLine) ↔
          StartsOnLine body n.startPosition s.line s.endLine) := by
  refine ⟨x.map_fst_bodies, fun s n h => ?_⟩
  obtain ⟨hmem, hbody, hend⟩ := Extraction.bodyOf hx h
  refine ⟨_, hbody, rfl, ?_⟩
  rw [hend]
  exact every_target_iff (htree.standsFrom hmem)

/-! ## A return type on a line of its own -/

def functionQuery : String :=
  "(function_definition declarator: (function_declarator declarator: (identifier) @name)) @def"

/-- The rule for functions in the package of GLSL. -/
def glslConfig : ExtractConfig :=
  ⟨"glsl", [⟨"function", functionQuery, "@name", some "@def", some "preceding_comment", none⟩]⟩

/-- Where a child is found by its field, with the way to it. -/
def fieldSpot (s : Spot) (field kind : String) : Option Spot :=
  ((s.node.childByFieldName field).filter (·.kind == kind)).map fun c =>
    ⟨c, (s.node, s.node.children.findIdx fun d => d.field == some field) :: s.above⟩

/-- What the query captures of a function. -/
def captureFunction (s : Spot) : Option (List Capture) :=
  if s.node.kind = "function_definition" then
    (fieldSpot s "declarator" "function_declarator").bind fun declarator =>
      (fieldSpot declarator "declarator" "identifier").map fun name => [⟨1, s⟩, ⟨0, name⟩]
  else none

/-- The grammar, for files whose functions stand at the top. -/
def glslGrammar : QueryLanguage where
  query text :=
    if text = functionQuery then
      some ⟨["name", "def"], fun tree _ => (tree.children.mapIdx fun i c => ⟨c, [(tree, i)]⟩).filterMap captureFunction⟩
    else none

theorem fieldSpot_mem {s t : Spot} {field kind : String} (h : fieldSpot s field kind = some t) :
    t.node ∈ s.node.preorder := by
  obtain ⟨c, hc, rfl⟩ := Option.map_eq_some_iff.mp h
  exact field_mem_preorder (Option.filter_eq_some_iff.mp hc).1

theorem glslGrammar_capturesNodes : glslGrammar.CapturesNodes := by
  intro text query hquery tree source captures hcaptures c hc
  simp only [glslGrammar] at hquery
  split at hquery
  · cases hquery
    obtain ⟨s, hs, hcapture⟩ := List.mem_filterMap.mp hcaptures
    obtain ⟨i, hi, rfl⟩ := List.mem_mapIdx.mp hs
    have htop : tree.children[i] ∈ tree.preorder := child_mem_preorder (List.getElem_mem hi)
    unfold captureFunction at hcapture
    split at hcapture
    · obtain ⟨declarator, hdeclarator, hcapture⟩ := Option.bind_eq_some_iff.mp hcapture
      obtain ⟨name, hname, rfl⟩ := Option.map_eq_some_iff.mp hcapture
      have hbelow : name.node ∈ tree.preorder :=
        preorder_trans htop (preorder_trans (fieldSpot_mem hdeclarator) (fieldSpot_mem hname))
      rcases List.mem_cons.mp hc with rfl | hc
      · exact htop
      · rw [List.mem_singleton.mp hc]
        exact hbelow
    · cases hcapture
  · cases hquery

def shaderSource : Str := str "void\nmain() \x7b\n\x7d"

def mainFunction : Node :=
  ⟨"function_definition", none, 0, 15, ⟨0, 0⟩, ⟨2, 1⟩, true, false, false,
    [.leaf "primitive_type" (some "type") 0 0 0 4 true,
      ⟨"function_declarator", some "declarator", 5, 11, ⟨1, 0⟩, ⟨1, 6⟩, true, false, false,
        [.leaf "identifier" (some "declarator") 1 0 5 4 true,
          ⟨"parameter_list", some "parameters", 9, 11, ⟨1, 4⟩, ⟨1, 6⟩, true, false, false,
            [.leaf "(" none 1 4 9 1 false, .leaf ")" none 1 5 10 1 false]⟩]⟩,
      ⟨"compound_statement", some "body", 12, 15, ⟨1, 7⟩, ⟨2, 1⟩, true, false, false,
        [.leaf "\x7b" none 1 7 12 1 false, .leaf "\x7d" none 2 0 14 1 false]⟩]⟩

def shaderTree : Node :=
  ⟨"translation_unit", none, 0, 15, ⟨0, 0⟩, ⟨2, 1⟩, true, false, false, [mainFunction]⟩

theorem shaderTree_located : shaderTree.Located shaderSource where
  bytes := by decide
  nested := by decide
  starts := by decide
  ends := by decide

def shader : Extraction := .declared glslConfig glslGrammar

def mainSymbol : Symbol where
  name := str "main"
  kind := .function
  file := [.normal "a.glsl"]
  line := 2
  column := 0
  endLine := 3
  visibility := .public_
  children := []
  doc := none
  body := some shaderSource
  signature := none

theorem shader_bodies : shader.bodies shaderSource shaderTree [.normal "a.glsl"] = [(mainSymbol, mainFunction)] := by
  rfl

/-- The symbol is on line 2, where the name is, and its body starts on line 1: asked for
    line 2, the first line is marked. -/
theorem a_return_type_above_shifts_the_marker :
    (mainSymbol, mainFunction) ∈ shader.bodies shaderSource shaderTree [.normal "a.glsl"] ∧
      mainSymbol.line ≤ 2 ∧ 2 ≤ mainSymbol.endLine ∧ mainSymbol.body = some shaderSource ∧
      insertLineMarker shaderSource mainSymbol.line 2 = str "void    // <- line 2\nmain() \x7b\n\x7d" ∧
      ¬ MarksTarget shaderSource mainFunction.startPosition shaderSource mainSymbol.line 2 := by
  refine ⟨shader_bodies ▸ List.mem_singleton_self _, by decide, by decide, rfl, by decide, fun h => ?_⟩
  have hbody : StandsFrom shaderSource ⟨0, 0⟩ ⟨2, 1⟩ shaderSource := ⟨[], [], by simp, rfl, by decide⟩
  have hrow := ((marksTarget_iff hbody).mp h).2
  exact absurd hrow (by decide)

theorem every_line_marked_iff_shader :
    (shader.bodies shaderSource shaderTree [.normal "a.glsl"]).map Prod.fst =
        (SymbolIndex.flattenAll (shader.forest shaderSource shaderTree [.normal "a.glsl"])).filter (·.body.isSome) ∧
      ∀ s n, (s, n) ∈ shader.bodies shaderSource shaderTree [.normal "a.glsl"] →
        ∃ body, s.body = some body ∧ body = nodeSource shaderSource n ∧
          ((∀ targetLine, s.line ≤ targetLine → targetLine ≤ s.endLine →
              MarksTarget shaderSource n.startPosition body s.line targetLine) ↔
            StartsOnLine body n.startPosition s.line s.endLine) :=
  every_line_marked_iff shader shaderSource shaderTree [.normal "a.glsl"] shaderTree_located glslGrammar_capturesNodes

end CodeQuery.Cli
