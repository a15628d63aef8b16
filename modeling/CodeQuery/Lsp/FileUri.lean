/-
  CodeQuery.Lsp.FileUri — paths as `file://` URIs and back (`codequery-lsp/src/queries.rs`;
  `uri_to_path` is in `CodeQuery.Lsp.Cascade`).

  Neither way knows of escapes. A path goes out as it is, so what goes out is a URI of
  the path when all its characters may stand in a URI; and what comes in is taken as it
  is, so a URI of a path comes back as the path when it starts `file:///` and has no
  escape (`file_uris_iff`).
-/

import CodeQuery.Core.PathText
import CodeQuery.Lsp.Cascade
import CodeQuery.Text.Percent

namespace CodeQuery.Lsp.FileUri

open CodeQuery.Core CodeQuery.Text.Percent CodeQuery.Lsp.Cascade

/-! ## URIs of a path -/

def IsAbsolute (path : String) : Prop := path.toList.head? = some '/'

/-- The path with symbolic links and relative components resolved, where it can be. -/
def absolute (canonicalize : String → Option String) (path : String) : String := (canonicalize path).getD path

/-- `path_to_uri`; `canonicalize` is that of the file system. -/
def pathToUri (canonicalize : String → Option String) (path : String) : String :=
  filePrefix ++ absolute canonicalize path

/-- The authority of a file URI: none, an empty one, or the host itself. Without one a
    path does not start with two slashes. -/
def IsLocal (authority written : List Char) : Prop :=
  (authority = [] ∧ ¬['/', '/'] <+: written) ∨ authority = "//".toList ∨
    authority.map Char.toLower = "//localhost".toList

/-- A file URI in any of its spellings, with the path written in any permitted way. -/
def Denotes (uri path : String) : Prop :=
  ∃ scheme authority written, uri.toList = scheme ++ authority ++ written ∧
    scheme.map Char.toLower = "file:".toList ∧ IsLocal authority written ∧ Encodes path.toList written

theorem denotes_of_encodes {path : String} {written : List Char} (h : Encodes path.toList written) :
    Denotes (String.ofList (filePrefix.toList ++ written)) path := by
  refine ⟨"file:".toList, "//".toList, written, ?_, by decide, Or.inr (Or.inl rfl), h⟩
  rw [String.toList_ofList]
  rfl

/-- Of the spellings, the ones that start `file:///` have the path behind `file://`. -/
theorem Denotes.encodes {uri path : String} (h : Denotes uri path) {rest : List Char}
    (hrest : uri.toList = filePrefix.toList ++ '/' :: rest) : Encodes path.toList ('/' :: rest) := by
  obtain ⟨scheme, authority, written, huri, hscheme, hlocal, hencodes⟩ := h
  rw [huri, List.append_assoc] at hrest
  have hlen : scheme.length = 5 := by
    rw [← List.length_map Char.toLower, hscheme]
    rfl
  have hsplit : authority ++ written = '/' :: '/' :: '/' :: rest := by
    have hprefix : scheme ++ (authority ++ written) = "file:".toList ++ '/' :: '/' :: '/' :: rest := hrest
    exact (List.append_inj hprefix (by rw [hlen]; rfl)).2
  rcases hlocal with ⟨rfl, hslashes⟩ | rfl | hhost
  · exact absurd ⟨'/' :: rest, by simpa using hsplit.symm⟩ hslashes
  · have hwritten : written = '/' :: rest := by simpa using hsplit
    exact hwritten ▸ hencodes
  · have hthree : authority.take 3 = ['/', '/', '/'] := by
      have htake := congrArg (List.take 3) hsplit
      have hlen : 3 ≤ authority.length := by
        rw [← List.length_map Char.toLower, hhost]
        decide
      rwa [List.take_append_of_le_length hlen] at htake
    have hmap := congrArg (List.take 3) hhost
    rw [← List.map_take, hthree] at hmap
    exact absurd hmap (by decide)

/-! ## Lengths of paths -/

def componentLength : Component → Nat
  | .rootDir => 0
  | .curDir => 0
  | .parentDir => 2
  | .normal n => n.toList.length

theorem componentsOf_length (names : List (List Char)) :
    ((Path.componentsOf names).map componentLength).sum = (names.map nameLength).sum := by
  induction names with
  | nil => rfl
  | cons n names ih =>
    rw [Path.componentsOf, List.map_map] at ih
    rw [Path.componentsOf, List.filter_cons, List.map_map, List.map_cons, List.sum_cons, nameLength]
    by_cases hn : n = [] ∨ n = ['.']
    · have hskip : decide (n ≠ [] ∧ n ≠ ['.']) = false := by simpa [or_iff_not_imp_left] using hn
      rw [if_pos hn, hskip, Nat.zero_add]
      exact ih
    · have hkeep : decide (n ≠ [] ∧ n ≠ ['.']) = true := by simpa [not_or] using hn
      rw [if_neg hn, hkeep, if_pos rfl, List.map_cons, List.sum_cons, ih, Function.comp_apply]
      split
      · rename_i hparent
        rw [hparent]
        rfl
      · rw [componentLength, String.toList_ofList]

theorem ofString_length (s : String) :
    ((Path.ofString s).map componentLength).sum = ((s.toList.splitOn '/').map nameLength).sum := by
  rw [← componentsOf_length]
  rcases Path.ofString_cases s with ⟨_, heq⟩ | ⟨_, _, heq⟩ | ⟨_, _, heq⟩ <;> rw [heq]
  · exact Nat.zero_add _
  · exact Nat.zero_add _

/-! ## Both ways -/

theorem uriToPath_file {uri : String} {rest : List Char} (h : uri.toList = filePrefix.toList ++ rest) :
    uriToPath uri = .ofString (String.ofList rest) := by
  have hprefix : filePrefix.toList.isPrefixOf uri.toList = true := by
    rw [h, List.isPrefixOf_iff_prefix]
    exact List.prefix_append _ _
  rw [uriToPath, if_pos hprefix, h]
  rfl

/-- A path comes back from its own URI. -/
theorem uriToPath_pathToUri (canonicalize : String → Option String) (path : String) :
    uriToPath (pathToUri canonicalize path) = .ofString (absolute canonicalize path) := by
  have huri : (pathToUri canonicalize path).toList = filePrefix.toList ++ (absolute canonicalize path).toList :=
    String.toList_append ..
  rw [uriToPath_file huri, String.ofList_toList]

theorem pathToUri_denotes_iff {canonicalize : String → Option String} {path : String}
    (h : IsAbsolute (absolute canonicalize path)) :
    Denotes (pathToUri canonicalize path) (absolute canonicalize path) ↔
      ∀ c ∈ (absolute canonicalize path).toList, isPathChar c = true := by
  have huri : (pathToUri canonicalize path).toList = filePrefix.toList ++ (absolute canonicalize path).toList :=
    String.toList_append ..
  obtain ⟨rest, hrest⟩ : ∃ rest, (absolute canonicalize path).toList = '/' :: rest := by
    cases htext : (absolute canonicalize path).toList with
    | nil => simp [IsAbsolute, htext] at h
    | cons c rest =>
      rw [IsAbsolute, htext, List.head?_cons, Option.some.injEq] at h
      exact ⟨rest, by rw [h]⟩
  rw [← encodes_self]
  refine ⟨fun hdenotes => ?_, fun hencodes => ?_⟩
  · have hencodes := hdenotes.encodes (huri.trans (by rw [hrest]))
    rwa [← hrest] at hencodes
  · have hdenotes := denotes_of_encodes hencodes
    rwa [← huri, String.ofList_toList] at hdenotes

/-- What does not start `file://` is taken for a relative path. -/
theorem Denotes.file_prefix {uri path : String} (h : Denotes uri path) (hroot : .rootDir ∈ uriToPath uri) :
    ∃ rest, uri.toList = filePrefix.toList ++ '/' :: rest := by
  by_cases hfile : filePrefix.toList.isPrefixOf uri.toList = true
  · obtain ⟨rest, hrest⟩ := List.isPrefixOf_iff_prefix.mp hfile
    rw [uriToPath_file hrest.symm, Path.rootDir_mem_ofString, String.toList_ofList] at hroot
    cases rest with
    | nil => cases hroot
    | cons c rest =>
      rw [List.head?_cons, Option.some.injEq] at hroot
      exact ⟨rest, by rw [← hrest, hroot]⟩
  · obtain ⟨scheme, authority, written, huri, hscheme, _⟩ := h
    rw [uriToPath, if_neg hfile, Path.rootDir_mem_ofString, huri] at hroot
    cases scheme with
    | nil => cases hscheme
    | cons c scheme =>
      rw [List.append_assoc, List.cons_append, List.head?_cons, Option.some.injEq] at hroot
      rw [hroot, List.map_cons] at hscheme
      exact absurd (List.cons.inj hscheme).1 (by decide)

theorem uriToPath_eq_iff {uri path : String} (habsolute : IsAbsolute path) (h : Denotes uri path) :
    uriToPath uri = .ofString path ↔ "file:///".toList <+: uri.toList ∧ '%' ∉ uri.toList := by
  refine ⟨fun hpath => ?_, fun hplain => ?_⟩
  · obtain ⟨rest, huri⟩ := h.file_prefix (hpath ▸ Path.rootDir_mem_ofString.mpr habsolute)
    have hencodes := h.encodes huri
    have hlength := congrArg (fun p : Path => (p.map componentLength).sum) hpath
    simp only [uriToPath_file huri, ofString_length, String.toList_ofList] at hlength
    have htext := hencodes.eq_of_nameLength hlength.symm
    have hplain := (encodes_self.mp (htext ▸ hencodes)) '%'
    refine ⟨⟨rest, huri.symm⟩, fun hmem => ?_⟩
    rw [huri] at hmem
    rcases List.mem_append.mp hmem with hmem | hmem
    · exact absurd hmem (by decide)
    · exact absurd (hplain hmem) (by decide)
  · obtain ⟨⟨rest, hrest⟩, hplain⟩ := hplain
    have huri : uri.toList = filePrefix.toList ++ '/' :: rest := hrest.symm
    have hwritten : '%' ∉ '/' :: rest := fun hmem => hplain (huri ▸ List.mem_append_right _ hmem)
    rw [uriToPath_file huri, ← (h.encodes huri).eq_of_plain hwritten, String.ofList_toList]

/-- What goes out for a path is a URI of it if and only if the path has none but the
    characters a URI allows, and a URI of a path comes back as the path if and only if it
    is spelled `file:///` and has no escape. -/
theorem file_uris_iff (canonicalize : String → Option String) :
    (∀ path, IsAbsolute (absolute canonicalize path) →
      (Denotes (pathToUri canonicalize path) (absolute canonicalize path) ↔
        ∀ c ∈ (absolute canonicalize path).toList, isPathChar c = true)) ∧
    ∀ uri path, IsAbsolute path → Denotes uri path →
      (uriToPath uri = .ofString path ↔ "file:///".toList <+: uri.toList ∧ '%' ∉ uri.toList) :=
  ⟨fun _ h => pathToUri_denotes_iff h, fun _ _ h hdenotes => uriToPath_eq_iff h hdenotes⟩

theorem escaped_denotes : Denotes "file:///%61" "/a" := by
  have hescapes : Escapes (String.utf8EncodeChar 'a') ['%', '6', '1'] := .cons (by decide) (by decide) .nil
  have hencodes : Encodes "/a".toList "/%61".toList := .plain (by decide) (.escaped (by decide) hescapes .nil)
  exact denotes_of_encodes hencodes

theorem file_uris_iff_escaped :
    (Denotes (pathToUri (fun _ => none) "/a b") "/a b" ↔ ∀ c ∈ "/a b".toList, isPathChar c = true) ∧
    (uriToPath "file:///%61" = .ofString "/a" ↔
      "file:///".toList <+: "file:///%61".toList ∧ '%' ∉ "file:///%61".toList) :=
  ⟨(file_uris_iff fun _ => none).1 "/a b" rfl, (file_uris_iff fun _ => none).2 _ _ rfl escaped_denotes⟩

/-- A path with a space goes out as no URI of it, and a URI of `/a` comes back as another
    path. -/
theorem an_escape_is_taken_as_it_is :
    ¬Denotes (pathToUri (fun _ => none) "/a b") "/a b" ∧
    Denotes "file:///%61" "/a" ∧ uriToPath "file:///%61" ≠ .ofString "/a" := by
  refine ⟨fun h => ?_, escaped_denotes, by decide⟩
  have habsolute : IsAbsolute (absolute (fun _ => none) "/a b") := rfl
  have hplain := (pathToUri_denotes_iff habsolute).mp h
  exact absurd (hplain ' ' (by decide)) (by decide)

end CodeQuery.Lsp.FileUri
