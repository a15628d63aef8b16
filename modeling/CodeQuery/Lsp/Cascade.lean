/-
  CodeQuery.Lsp.Cascade — semantic references, by the daemon and by a server of the
  command's own (`codequery-lsp/src/cascade.rs`, `oneshot.rs`, `queries.rs`).

  Both ask a language server and make a reference of each location it answers. The
  oneshot path strips the project root from a location's path, the daemon path does
  not. So they agree on an answer exactly when no path in it lies under the root
  (`daemon_oneshot_agree_iff`): for a file of the project they do not
  (`a_project_file_is_absolute_by_the_daemon`).
-/

import CodeQuery.Lsp.Client
import CodeQuery.Resolve.Types

namespace CodeQuery.Lsp.Cascade

open CodeQuery.Core CodeQuery.Text CodeQuery.Lsp.Socket CodeQuery.Lsp.Daemon CodeQuery.Resolve

/-! ## Queries -/

def filePrefix : String := "file://"

/-- `uri_to_path`. -/
def uriToPath (uri : String) : Path :=
  if filePrefix.toList.isPrefixOf uri.toList then .ofString (String.ofList (uri.toList.drop filePrefix.length))
  else .ofString uri

/-- `is_ascii_alphanumeric`. -/
def isAlphanumericByte (b : UInt8) : Bool := isWordByte b && b != 95

/-- `find_identifier_column`; `none` is a panic, at a column that is no character
    boundary of its line. -/
def findIdentifierColumn (source : Str) (lineNo originalColumn : Nat) (name : Str) : Option Nat :=
  match (lines source)[lineNo - 1]? with
  | none => some originalColumn
  | some lineText =>
    if isCharBoundary lineText originalColumn then
      match find name (lineText.drop originalColumn) with
      | none => some originalColumn
      | some offset =>
        let pos := originalColumn + offset
        let stop := pos + name.length
        let beforeOk := pos == 0 || !(lineText[pos - 1]?).any isAlphanumericByte
        let afterOk := !(lineText[stop]?).any isAlphanumericByte
        if beforeOk && afterOk then some pos else some originalColumn
    else none

def lspLanguageId (language : Language) : String :=
  match language with
  | .bash => "shellscript"
  | _ => language.name

section Semantic

variable (projectRoot : Path) (language : Language) (symbolName : Str) (symbolFile : Path)
  (symbolLine symbolColumn : Nat)

/-- What both paths make of a location, with the file they take it for. -/
def semanticReference (refFile : Path) (loc : LspLocation) : ResolvedReference :=
  { refFile := refFile
    refLine := loc.range.start.line.toNat + 1
    refColumn := loc.range.start.character.toNat
    symbol := symbolName
    defFile := some symbolFile
    defLine := some symbolLine
    defColumn := some symbolColumn
    resolution := .semantic }

/-! ## The daemon -/

/-- `query_refs`, on a connection of its own. -/
def queryRefs (exchange : DaemonRequest → Except LspError DaemonResponse) : Except LspError (List LspLocation) :=
  match exchange (Client.Call.queryRefs projectRoot language symbolFile symbolLine symbolColumn).request with
  | .error e => .error e
  | .ok (.locations locs) => .ok locs
  | .ok (.error msg) => .error (.connectionFailed (.query msg))
  | .ok _ => .error (.connectionFailed .unexpectedResponse)

def tryDaemonRefs (exchange : DaemonRequest → Except LspError DaemonResponse) : Except LspError ResolutionResult :=
  (queryRefs projectRoot language symbolFile symbolLine symbolColumn exchange).map fun locations =>
    ⟨locations.map fun loc =>
      semanticReference symbolName symbolFile symbolLine symbolColumn (uriToPath loc.uri) loc, []⟩

/-! ## A server of the command's own -/

/-- What a oneshot query finds outside. -/
structure Oneshot where
  start : ServerConfig → Path → Except LspError Unit
  readToString : Path → Option Str
  openDocument : Path → Str → String → Except LspError Unit
  findReferences : Path → Nat → Nat → Except LspError (List LspLocation)

/-- `semantic_refs` as far as the server's answer; `none` is a panic. -/
def oneshotLocations (o : Oneshot) : Option (Except LspError (List LspLocation)) :=
  match configFor builtinConfigs language with
  | none => some (.error (.serverNotFound ("no LSP config for " ++ debugName language)))
  | some config =>
    match o.start config projectRoot with
    | .error e => some (.error e)
    | .ok () =>
      let fullFile := if symbolFile.isRelative then projectRoot.join symbolFile else symbolFile
      match o.readToString fullFile with
      | none => some (.error (.io .other))
      | some source =>
        match o.openDocument fullFile source (lspLanguageId language) with
        | .error e => some (.error e)
        | .ok () =>
          (findIdentifierColumn source symbolLine symbolColumn symbolName).map fun queryColumn =>
            o.findReferences fullFile symbolLine queryColumn

/-- `strip_prefix(project_root).unwrap_or(&abs_file)`. -/
def stripRoot (absFile : Path) : Path := (absFile.stripPrefix projectRoot).getD absFile

def semanticRefs (o : Oneshot) : Option (Except LspError (List ResolvedReference)) :=
  (oneshotLocations projectRoot language symbolName symbolFile symbolLine symbolColumn o).map fun r =>
    r.map fun locations => locations.map fun loc =>
      semanticReference symbolName symbolFile symbolLine symbolColumn (stripRoot projectRoot (uriToPath loc.uri)) loc

def tryOneshotRefs (o : Oneshot) : Option (Except LspError ResolutionResult) :=
  (semanticRefs projectRoot language symbolName symbolFile symbolLine symbolColumn o).map fun r =>
    r.map fun references => ⟨references, []⟩

end Semantic

/-! ## Agreement -/

/-- The path does not lie under the root; under no root at all, every path stays. -/
def Outside (projectRoot p : Path) : Prop := projectRoot = [] ∨ p.startsWith projectRoot = false

instance (projectRoot p : Path) : Decidable (Outside projectRoot p) := inferInstanceAs (Decidable (_ ∨ _))

theorem stripRoot_eq_self_iff {projectRoot p : Path} : stripRoot projectRoot p = p ↔ Outside projectRoot p := by
  unfold stripRoot Path.stripPrefix Outside Path.startsWith
  by_cases hunder : projectRoot.isPrefixOf p
  · simp only [hunder, if_true, Option.getD_some, Bool.true_eq_false, or_false]
    refine ⟨fun h => ?_, fun h => ?_⟩
    · have hle : projectRoot.length ≤ p.length := (List.isPrefixOf_iff_prefix.mp hunder).length_le
      have hlen : p.length - projectRoot.length = p.length := by rw [← List.length_drop, h]
      exact List.eq_nil_of_length_eq_zero (by omega)
    · rw [h]
      rfl
  · simp [hunder]

/-- Where the references of an answer are, with the files taken by `toFile`. -/
theorem location_semanticReference (symbolName : Str) (symbolFile : Path) (symbolLine symbolColumn : Nat)
    (refFile : Path) (loc : LspLocation) :
    (semanticReference symbolName symbolFile symbolLine symbolColumn refFile loc).location =
      (refFile, loc.range.start.line.toNat + 1, loc.range.start.character.toNat) := rfl

/-- Of one answer of a language server, the daemon path and the oneshot path build
    references at the same files, lines and columns if and only if no path of the answer
    lies under the project root. -/
theorem daemon_oneshot_agree_iff {projectRoot : Path} {language : Language} {symbolName : Str} {symbolFile : Path}
    {symbolLine symbolColumn : Nat} {exchange : DaemonRequest → Except LspError DaemonResponse} {o : Oneshot}
    {locations : List LspLocation}
    (hdaemon : queryRefs projectRoot language symbolFile symbolLine symbolColumn exchange = .ok locations)
    (honeshot : oneshotLocations projectRoot language symbolName symbolFile symbolLine symbolColumn o =
      some (.ok locations)) :
    (∃ byDaemon byOneshot,
      tryDaemonRefs projectRoot language symbolName symbolFile symbolLine symbolColumn exchange = .ok byDaemon ∧
      tryOneshotRefs projectRoot language symbolName symbolFile symbolLine symbolColumn o = some (.ok byOneshot) ∧
      byDaemon.references.map ResolvedReference.location = byOneshot.references.map ResolvedReference.location) ↔
    ∀ loc ∈ locations, Outside projectRoot (uriToPath loc.uri) := by
  simp only [tryDaemonRefs, tryOneshotRefs, semanticRefs, hdaemon, honeshot, Except.map, Option.map_some,
    Except.ok.injEq, Option.some.injEq, exists_and_left, exists_eq_left', List.map_map]
  rw [List.map_inj_left]
  refine forall₂_congr fun loc _ => ?_
  rw [← stripRoot_eq_self_iff]
  simp only [Function.comp_apply, location_semanticReference, Prod.mk.injEq, and_true]
  exact eq_comm

/-! ## A file of the project, and one outside -/

def root : Path := .ofString "/p"

def file : Path := .ofString "a.rs"

def locationIn (uri : String) : LspLocation := ⟨uri, ⟨⟨0, 3⟩, ⟨0, 4⟩⟩⟩

/-- A daemon whose server has this answer to everything. -/
def answering (locations : List LspLocation) : DaemonRequest → Except LspError DaemonResponse :=
  fun _ => .ok (.locations locations)

/-- The same server, started for the command. -/
def startedAnswering (locations : List LspLocation) : Oneshot :=
  ⟨fun _ _ => .ok (), fun _ => some (str "fn f() {}"), fun _ _ _ => .ok (), fun _ _ _ => .ok locations⟩

theorem daemon_oneshot_agree_outside :
    ∃ byDaemon byOneshot,
      tryDaemonRefs root .rust (str "f") file 1 0 (answering [locationIn "file:///q/b.rs"]) = .ok byDaemon ∧
      tryOneshotRefs root .rust (str "f") file 1 0 (startedAnswering [locationIn "file:///q/b.rs"]) = some (.ok byOneshot) ∧
      byDaemon.references.map ResolvedReference.location = byOneshot.references.map ResolvedReference.location :=
  (@daemon_oneshot_agree_iff _ _ _ _ _ _ _ _ [locationIn "file:///q/b.rs"] (by decide) (by decide)).mpr (by decide)

/-- The daemon path names a file of the project by its absolute path. -/
theorem a_project_file_is_absolute_by_the_daemon :
    ∃ byDaemon byOneshot,
      tryDaemonRefs root .rust (str "f") file 1 0 (answering [locationIn "file:///p/a.rs"]) = .ok byDaemon ∧
      tryOneshotRefs root .rust (str "f") file 1 0 (startedAnswering [locationIn "file:///p/a.rs"]) = some (.ok byOneshot) ∧
      byDaemon.references.map ResolvedReference.location = [(.ofString "/p/a.rs", 1, 3)] ∧
      byOneshot.references.map ResolvedReference.location = [(.ofString "a.rs", 1, 3)] ∧
      byDaemon.references.map ResolvedReference.location ≠ byOneshot.references.map ResolvedReference.location :=
  ⟨_, _, rfl, rfl, by decide, by decide, by decide⟩

end CodeQuery.Lsp.Cascade
