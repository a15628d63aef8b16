/-
  CodeQuery.Cli.Names — the name at a reference, as the commands read it.

  The refs command and the resolver take the run of Unicode letters, digits and
  underscores from the column on, the dead, rename and callchain commands the run of
  ASCII ones. They agree about every name if and only if the run is ASCII and there is
  one (`names_agree_iff`); then what the refs command reports as used is not dead. A
  name with another letter is used for the one, and dead for the other
  (`a_name_with_a_diaeresis_is_dead`).
-/

import CodeQuery.Cli.Common
import CodeQuery.Cli.Dead
import CodeQuery.Cli.Refs
import CodeQuery.Text.Words

namespace CodeQuery.Cli.Refs

open CodeQuery.Core CodeQuery.Text CodeQuery.Index CodeQuery.Resolve

section Agree

variable {alnum : Char → Bool}

/-- `is_alphanumeric` of an ASCII letter or digit. -/
def AsciiAlphanumeric (alnum : Char → Bool) : Prop := ∀ c : Char, c.isAlphanum = true → alnum c = true

/-- The commands read a reference alike: the refs command, the resolver, and those that
    look at the reference's line. -/
def NamesAgree (alnum : Char → Bool) (source : Str) (r : Reference) (symbol : Str) : Prop :=
  (refNameMatches alnum symbol r source = true ↔ extractNameAtColumn r.context r.column = some symbol) ∧
    (extractRefText alnum source r.line r.column = symbol ↔ extractNameAtColumn r.context r.column = some symbol)

/-- The identifier at the column, of letters, digits and underscores, is ASCII and not
    empty. -/
def AsciiIdentifierAt (alnum : Char → Bool) (line : Str) (column : Nat) : Prop :=
  ∃ rest : String, line.drop column = str rest ∧
    (∃ c, rest.toList.head? = some c ∧ (alnum c || c == '_') = true) ∧
    ∀ c ∈ rest.toList.takeWhile fun c => alnum c || c == '_', isWordChar c = true

theorem takeWhile_eq_of_imp {α : Type} {p q : α → Bool} (h : ∀ a, p a = true → q a = true) {l : List α} :
    l.takeWhile p = l.takeWhile q ↔ ∀ a ∈ l.takeWhile q, p a = true := by
  induction l with
  | nil => simp
  | cons a l ih =>
    cases hp : p a with
    | true => simp [hp, h a hp, ih]
    | false =>
      cases hq : q a with
      | true => simp [hp, hq]
      | false => simp [hp, hq]

theorem takeWhile_ne_nil_iff {α : Type} {p : α → Bool} {l : List α} :
    l.takeWhile p ≠ [] ↔ ∃ a, l.head? = some a ∧ p a = true := by
  cases l with
  | nil => simp
  | cons a l => cases hp : p a <;> simp [hp]

theorem leadingIdentifier_str (rest : String) :
    leadingIdentifier alnum (str rest) =
      str (String.ofList (rest.toList.takeWhile fun c => alnum c || c == '_')) := by
  rw [leadingIdentifier, fromUtf8_str]

theorem extractNameAtColumn_eq {line : Str} {column : Nat} (h : column < line.length) (symbol : Str) :
    extractNameAtColumn line column = some symbol ↔
      (line.drop column).takeWhile isWordByte = symbol ∧ symbol ≠ [] := by
  have hle : ¬ column ≥ line.length := by omega
  simp only [extractNameAtColumn, hle, if_false]
  by_cases hnil : (line.drop column).takeWhile isWordByte = []
  · rw [hnil]
    exact ⟨fun he => absurd he.symm (Option.some_ne_none symbol), fun he => absurd he.1.symm he.2⟩
  · rw [if_neg (by simpa using hnil), Option.some.injEq]
    refine ⟨fun he => ⟨he, he ▸ hnil⟩, fun he => he.1⟩

/-- The line of an extracted reference: its context, or there is none. -/
theorem line_of_reference {source : Str} {tree : Parse.Node} {file : Path} {language : Language} {r : Reference}
    (hr : r ∈ extractReferences source tree file language) :
    (lines source)[r.line - 1]? = some r.context ∨ (lines source)[r.line - 1]? = none ∧ r.context = [] := by
  have hcontext := (extractReferences_wf hr).2.2
  cases hline : (lines source)[r.line - 1]? with
  | none => exact .inr ⟨rfl, by rw [hcontext, hline]; rfl⟩
  | some line => exact .inl (by rw [hcontext, hline]; rfl)

/-- What the readers say of a reference with a line: which of the two runs is the name. -/
theorem namesAgree_iff_runs {source : Str} {r : Reference} (hline : (lines source)[r.line - 1]? = some r.context)
    (hcolumn : r.column < r.context.length) (symbol : Str) :
    NamesAgree alnum source r symbol ↔
      (leadingIdentifier alnum (r.context.drop r.column) = symbol ↔
        (r.context.drop r.column).takeWhile isWordByte = symbol ∧ symbol ≠ []) := by
  have hle : ¬ r.column ≥ r.context.length := by omega
  simp only [NamesAgree, refNameMatches, extractRefText, hline, hle, if_false, beq_iff_eq,
    extractNameAtColumn_eq hcolumn, and_self]

theorem asciiIdentifierAt_iff_runs (halnum : AsciiAlphanumeric alnum) {line : Str} {column : Nat} :
    AsciiIdentifierAt alnum line column ↔
      leadingIdentifier alnum (line.drop column) ≠ [] ∧
        leadingIdentifier alnum (line.drop column) = (line.drop column).takeWhile isWordByte := by
  have himp : ∀ c : Char, isWordChar c = true → (alnum c || c == '_') = true := by
    intro c hc
    simp only [isWordChar, Bool.or_eq_true, beq_iff_eq] at hc ⊢
    exact hc.imp_left (halnum c)
  have hruns : ∀ rest : String,
      (leadingIdentifier alnum (str rest) ≠ [] ↔
        ∃ c, rest.toList.head? = some c ∧ (alnum c || c == '_') = true) ∧
      (leadingIdentifier alnum (str rest) = (str rest).takeWhile isWordByte ↔
        ∀ c ∈ rest.toList.takeWhile fun c => alnum c || c == '_', isWordChar c = true) := by
    intro rest
    rw [leadingIdentifier_str, takeWhile_isWordByte_str, str_injective.eq_iff, String.ofList_inj,
      eq_comm, takeWhile_eq_of_imp himp, ← takeWhile_ne_nil_iff, Ne, str_eq_nil, String.ofList_eq_empty_iff]
    exact ⟨Iff.rfl, Iff.rfl⟩
  refine ⟨fun h => ?_, fun h => ?_⟩
  · obtain ⟨rest, hrest, hhead, hascii⟩ := h
    rw [hrest]
    exact ⟨(hruns rest).1.mpr hhead, (hruns rest).2.mpr hascii⟩
  · obtain ⟨hne, heq⟩ := h
    -- an identifier was read, so the rest of the line is a text
    have htext : ∃ rest, line.drop column = str rest := by
      cases htext : fromUtf8 (line.drop column) with
      | none => exact absurd (by rw [leadingIdentifier, htext]) hne
      | some rest => exact ⟨rest, (str_of_fromUtf8 htext).symm⟩
    obtain ⟨rest, hrest⟩ := htext
    rw [hrest] at hne heq
    exact ⟨rest, hrest, (hruns rest).1.mp hne, (hruns rest).2.mp heq⟩

theorem asciiIdentifierAt_lt {line : Str} {column : Nat} (h : AsciiIdentifierAt alnum line column) :
    column < line.length := by
  obtain ⟨rest, hrest, ⟨c, hhead, -⟩, -⟩ := h
  by_contra hge
  have hnil : line.drop column = [] := List.drop_eq_nil_of_le (by omega)
  have hempty : rest = "" := str_eq_nil.mp (hrest.symm.trans hnil)
  rw [hempty] at hhead
  cases hhead

theorem reference_agrees_iff (halnum : AsciiAlphanumeric alnum) {source : Str} {tree : Parse.Node} {file : Path}
    {language : Language} {r : Reference} (hr : r ∈ extractReferences source tree file language) :
    (∀ symbol, NamesAgree alnum source r symbol) ↔ AsciiIdentifierAt alnum r.context r.column := by
  by_cases hplace : (lines source)[r.line - 1]? = some r.context ∧ r.column < r.context.length
  · obtain ⟨hline, hcolumn⟩ := hplace
    simp only [namesAgree_iff_runs hline hcolumn, asciiIdentifierAt_iff_runs halnum]
    refine ⟨fun h => ?_, fun h symbol => ?_⟩
    · obtain ⟨hword, hne⟩ := (h _).mp rfl
      exact ⟨hne, hword.symm⟩
    · obtain ⟨hne, hruns⟩ := h
      rw [← hruns]
      exact ⟨fun he => ⟨he, he ▸ hne⟩, fun he => he.1⟩
  · -- nothing stands at the place: the empty name is read by one and not by the others
    refine ⟨fun h => ?_, fun h => ?_⟩
    · have hdrop : extractRefText alnum source r.line r.column = [] ∧
          extractNameAtColumn r.context r.column = none := by
        rcases line_of_reference hr with hline | ⟨hline, hcontext⟩
        · have hge : r.column ≥ r.context.length := by
            by_contra hlt
            exact hplace ⟨hline, by omega⟩
          simp only [extractRefText, hline, hge, if_true, extractNameAtColumn, and_self]
        · simp [extractRefText, hline, hcontext, extractNameAtColumn]
      have hempty := (h []).2.mp hdrop.1
      rw [hdrop.2] at hempty
      cases hempty
    · have hlt := asciiIdentifierAt_lt h
      rcases line_of_reference hr with hline | ⟨-, hcontext⟩
      · exact absurd ⟨hline, hlt⟩ hplace
      · rw [hcontext] at hlt
        cases hlt

theorem entryLanguage_of_fileLanguage {root file : Path} {language : Language} (h : fileLanguage file = some language) :
    entryLanguage root file = some language := by
  simp only [entryLanguage]
  unfold fileLanguage at h
  cases hl : languageForFile file with
  | some l =>
    rw [hl, Option.some_or] at h
    rw [languageForFile_join hl, Option.some_or, h]
  | none =>
    rw [hl, Option.none_or] at h
    have hname : (languageNameForFile file).isSome = true := Option.isSome_of_isSome_bind (by rw [h]; rfl)
    obtain ⟨hfile, hfileName⟩ := @languageNameForFile_join root file hname
    rw [hfile, hl, hfileName, Option.none_or, h]

/-- What the refs command extracts, the dead command sees. -/
theorem extracted_subset_scanReferences {root : Path} {scan : List FileSymbols} {fs : FileSymbols} (hfs : fs ∈ scan)
    {r : Reference} (hr : r ∈ extracted fs) : r ∈ scanReferences scan root none := by
  unfold extracted at hr
  split at hr
  · cases hr
  · rename_i language hl
    refine List.mem_flatMap.mpr ⟨fs, hfs, ?_⟩
    simpa [entryLanguage_of_fileLanguage hl] using hr

theorem mem_extracted {fs : FileSymbols} {r : Reference} (hr : r ∈ extracted fs) :
    ∃ language, r ∈ extractReferences fs.source fs.tree fs.file language := by
  unfold extracted at hr
  split at hr
  · cases hr
  · exact ⟨_, hr⟩

/-- The commands agree about every name at a reference if and only if the identifier
    there is ASCII and not empty; a symbol used by a reference with such a name is not
    dead. -/
theorem names_agree_iff (halnum : AsciiAlphanumeric alnum) :
    (∀ source tree file language, ∀ r ∈ extractReferences source tree file language,
      (∀ symbol, NamesAgree alnum source r symbol) ↔ AsciiIdentifierAt alnum r.context r.column) ∧
    ∀ root scan kindFilter (s : Symbol),
      (∃ r ∈ syntacticRefs alnum scan s.name everyKind, AsciiIdentifierAt alnum r.context r.column) →
        s ∉ Dead.deadSymbols root scan kindFilter := by
  refine ⟨fun source tree file language r hr => reference_agrees_iff halnum hr, ?_⟩
  rintro root scan kindFilter s ⟨r, hr, hascii⟩ hs
  obtain ⟨fs, hfs, hfound⟩ := List.mem_flatMap.mp hr
  obtain ⟨hextracted, hmatches⟩ := List.mem_filter.mp hfound
  obtain ⟨language, hmem⟩ := mem_extracted hextracted
  have hname : extractNameAtColumn r.context r.column = some s.name :=
    ((reference_agrees_iff halnum hmem).mpr hascii s.name).1.mp (by simpa [everyKind] using hmatches)
  refine (Dead.mem_deadSymbols.mp hs).2.2 ?_
  exact List.mem_filterMap.mpr ⟨r, extracted_subset_scanReferences hfs hextracted, hname⟩

end Agree

/-! ## A name with a diaeresis -/

/-- `is_alphanumeric`, as far as the example's characters go. -/
def alnumI (c : Char) : Bool := c.isAlphanum || c == 'ï'

def naiveSource : Str := str "def naïve(): pass\nnaïve()"

/-- `naïve` is defined on the first line and called on the second. -/
def naiveTree : Parse.Node :=
  ⟨"module", none, 0, 27, ⟨0, 0⟩, ⟨1, 8⟩, true, false, false,
    [⟨"function_definition", none, 0, 18, ⟨0, 0⟩, ⟨0, 18⟩, true, false, false,
      [.leaf "identifier" (some "name") 0 4 4 6 true]⟩,
     ⟨"call", none, 19, 27, ⟨1, 0⟩, ⟨1, 8⟩, true, false, false,
      [.leaf "identifier" (some "function") 1 0 19 6 true, .leaf "argument_list" (some "arguments") 1 6 25 2 true]⟩]⟩

def naiveSymbol : Symbol :=
  ⟨str "naïve", .function, [.normal "a.py"], 1, 0, 1, .public_, [], none, none, some (str "def naïve(): pass")⟩

def naiveEntry : FileSymbols := ⟨[.normal "a.py"], [naiveSymbol], naiveSource, naiveTree⟩

def naiveCall : Reference := ⟨[.normal "a.py"], 2, 0, .call, str "naïve()", none, none⟩

theorem naive_extracted : extracted naiveEntry = [naiveCall] := by rfl

theorem naive_matches : refNameMatches alnumI (str "naïve") naiveCall naiveSource = true := by
  have hline : (lines naiveSource)[naiveCall.line - 1]? = some (str "naïve()") := by decide
  have hident : leadingIdentifier alnumI ((str "naïve()").drop naiveCall.column) = str "naïve" := by
    rw [show naiveCall.column = 0 from rfl, List.drop_zero, leadingIdentifier_str]
    decide
  simp only [refNameMatches, hline, hident, beq_self_eq_true]
  decide

theorem naive_dead : naiveSymbol ∈ Dead.deadSymbols [.rootDir] [naiveEntry] none := by
  refine Dead.mem_deadSymbols.mpr ⟨?_, by decide, by decide⟩
  rw [show (SymbolIndex.fromScan [naiveEntry]).symbols = [naiveSymbol] by rfl]
  exact List.mem_singleton_self _

/-- The refs command finds the call of `naïve`; for the dead command it is a use of
    `na`, and `naïve` has none. -/
theorem a_name_with_a_diaeresis_is_dead :
    naiveCall ∈ extractReferences naiveSource naiveTree [.normal "a.py"] .python ∧
    ¬ NamesAgree alnumI naiveSource naiveCall (str "naïve") ∧
    naiveCall ∈ syntacticRefs alnumI [naiveEntry] (str "naïve") everyKind ∧
    naiveSymbol ∈ Dead.deadSymbols [.rootDir] [naiveEntry] none := by
  have hcall : naiveCall ∈ extracted naiveEntry := by rw [naive_extracted]; exact List.mem_singleton_self _
  refine ⟨hcall, fun h => ?_, ?_, naive_dead⟩
  · exact absurd (h.1.mp naive_matches) (by decide)
  · refine List.mem_flatMap.mpr ⟨naiveEntry, List.mem_singleton_self _, List.mem_filter.mpr ⟨hcall, ?_⟩⟩
    rw [show naiveEntry.source = naiveSource from rfl, naive_matches]
    rfl

theorem names_agree_iff_naive : AsciiAlphanumeric alnumI ∧
    ((∀ symbol, NamesAgree alnumI naiveSource naiveCall symbol) ↔
      AsciiIdentifierAt alnumI naiveCall.context naiveCall.column) :=
  have halnum : AsciiAlphanumeric alnumI := fun c hc => by simp [alnumI, hc]
  ⟨halnum, (names_agree_iff halnum).1 naiveSource naiveTree [.normal "a.py"] .python naiveCall (by decide)⟩

end CodeQuery.Cli.Refs
