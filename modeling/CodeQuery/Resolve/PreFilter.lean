/-
  CodeQuery.Resolve.PreFilter — the files the text pre-filter hands to the resolver.

  The resolver reads a name by character, of letters and digits of any script; the
  pre-filter looks for it by byte, and tells ASCII letters and digits only from the
  rest. The byte test is the weaker one, so no file that holds the name is dropped
  (`filterFiles_keeps_identifiers`), nor one with a reference the resolver would read as
  the name (`reference_is_kept`).
-/

import CodeQuery.Cli.Names
import CodeQuery.Index.Grep
import CodeQuery.Text.Identifiers

namespace CodeQuery.Resolve

open CodeQuery.Core CodeQuery.Text CodeQuery.Index

variable {A : Alphanumeric}

/-- The resolver reads the name somewhere in the content, from where no identifier is
    under way. -/
def HoldsIdentifier (A : Alphanumeric) (content : String) (name : Str) : Prop :=
  ∃ before rest : String, content = before ++ rest ∧ before.toList.getLast?.all (!isIdentifierChar A ·) = true ∧
    leadingIdentifier A.isAlphanumeric (str rest) = name ∧ name ≠ []

/-- The name read at a text's start ends where no identifier goes on. -/
theorem leadingIdentifier_at {before : String} (rest : String)
    (h : before.toList.getLast?.all (!isIdentifierChar A ·) = true) :
    IdentifierAt A (str before ++ str rest) (leadingIdentifier A.isAlphanumeric (str rest)) (str before).length := by
  have hrest : rest = String.ofList (rest.toList.takeWhile (isIdentifierChar A)) ++
      String.ofList (rest.toList.dropWhile (isIdentifierChar A)) := by
    rw [← String.ofList_append, List.takeWhile_append_dropWhile, String.ofList_toList]
  refine ⟨before, String.ofList (rest.toList.dropWhile (isIdentifierChar A)), ?_, rfl, h, ?_⟩
  · have hread : leadingIdentifier A.isAlphanumeric (str rest) =
        str (String.ofList (rest.toList.takeWhile (isIdentifierChar A))) := Cli.Refs.leadingIdentifier_str rest
    rw [hread, List.append_assoc, ← str_append (String.ofList _), ← hrest]
  · rw [String.toList_ofList, Option.all_eq_true]
    intro c hc
    have hnot := List.head?_dropWhile_not (isIdentifierChar A) rest.toList
    rw [hc] at hnot
    rw [hnot]
    rfl

/-- A word that stands somewhere by itself is found. -/
theorem found_of_standsAt {data word : Str} {pos : Nat} (hne : word ≠ []) (h : StandsAt word data pos) :
    dataContainsWord data word = some true := by
  obtain ⟨found, hfound, hiff⟩ := dataContainsWord_iff data word
  rw [hfound, hiff.mpr ⟨hne, pos, h⟩]

theorem filterFiles_keeps {d : Disk} {root f : Path} {files : List Path} {name : Str} {file : FileData} (hf : f ∈ files)
    (hfile : d.file (root.join f) = some file) (hfound : dataContainsWord file.content name = some true) :
    f ∈ filterFiles d root name files := by
  have hlength : file.content.length ≠ 0 := by
    intro hzero
    obtain ⟨found, hsearch, hiff⟩ := dataContainsWord_iff file.content name
    rw [hfound, Option.some.injEq] at hsearch
    obtain ⟨hne, pos, before, after, htext, -⟩ := hiff.mp hsearch.symm
    rw [List.length_eq_zero_iff.mp hzero] at htext
    exact hne (List.append_eq_nil_iff.mp (List.append_eq_nil_iff.mp htext.symm).1).2
  have hread : fileContainsWord d (root.join f) name = some true := by
    rw [fileContainsWord, hfile, Option.bind_some, if_neg hlength, hfound]
  exact List.mem_filter.mpr ⟨hf, by rw [hread]; rfl⟩

/-- A content that holds the name passes the search, and the filter keeps every file with
    that content. -/
theorem filterFiles_keeps_identifiers (content : String) (name : Str) (h : HoldsIdentifier A content name) :
    dataContainsWord (str content) name = some true ∧
      ∀ (d : Disk) (root f : Path) (files : List Path) (file : FileData), f ∈ files →
        d.file (root.join f) = some file → file.content = str content → f ∈ filterFiles d root name files := by
  obtain ⟨before, rest, rfl, hbefore, rfl, hne⟩ := h
  have hfound : dataContainsWord (str (before ++ rest)) (leadingIdentifier A.isAlphanumeric (str rest)) = some true := by
    rw [str_append]
    exact found_of_standsAt hne (leadingIdentifier_at rest hbefore).standsAt
  refine ⟨hfound, ?_⟩
  intro d root f files file hf hfile hcontent
  exact filterFiles_keeps hf hfile (by rw [hcontent, hfound])

/-- The letters and digits the example needs. -/
def latin : Alphanumeric := ⟨Cli.Refs.alnumI, fun c hc => by rw [Cli.Refs.alnumI, hc, Bool.true_or]⟩

theorem filterFiles_keeps_a_quoted_name :
    HoldsIdentifier latin "naïveté «naïve»" (str "naïve") ∧
      dataContainsWord (str "naïveté «naïve»") (str "naïve") = some true := by
  have hholds : HoldsIdentifier latin "naïveté «naïve»" (str "naïve") := by
    refine ⟨"naïveté «", "naïve»", by decide, by decide, ?_, by decide⟩
    rw [Cli.Refs.leadingIdentifier_str]
    decide
  exact ⟨hholds, (filterFiles_keeps_identifiers _ _ hholds).1⟩

/-- The place of a reference that the resolver reads as the name, and where no identifier
    is under way in its line: its file passes the search. -/
theorem reference_is_kept {source lineText name : Str} {line column : Nat} {before : String}
    (hline : (lines source)[line - 1]? = some lineText) (hcolumn : lineText.take column = str before)
    (hbefore : before.toList.getLast?.all (!isIdentifierChar A ·) = true)
    (hname : extractRefText A.isAlphanumeric source line column = name) (hne : name ≠ []) :
    dataContainsWord source name = some true := by
  simp only [extractRefText, hline] at hname
  split at hname
  · exact absurd hname.symm hne
  · cases hrest : fromUtf8 (lineText.drop column) with
    | none => exact absurd (by rw [← hname, leadingIdentifier, hrest]) hne
    | some rest =>
      have htext : lineText = str before ++ str rest := by
        rw [← hcolumn, str_of_fromUtf8 hrest, List.take_append_drop]
      have hat := leadingIdentifier_at rest hbefore
      rw [← htext, str_of_fromUtf8 hrest, hname] at hat
      obtain ⟨q, hstands⟩ := hat.standsAt.of_line (List.mem_of_getElem? hline)
      exact found_of_standsAt hne hstands

end CodeQuery.Resolve
