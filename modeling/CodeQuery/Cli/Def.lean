/-
  CodeQuery.Cli.Def — the def command, with a language server (`codequery-cli/src/commands/def.rs`,
  `codequery-lsp/src/oneshot.rs`).

  Where several symbols have the name, a language server is asked for the definition at
  the first of them. Of a single location in its answer a reference is built whose
  definition is that location, and whose own place is the one the query was asked at; the
  candidates are compared with the latter. So what is kept is the answered definition if
  and only if the first candidate is (`follows_server_iff`), and where the server answers
  the second candidate, the first is kept (`the_first_candidate_is_kept`).
-/

import CodeQuery.Cli.FindSymbols
import CodeQuery.Cli.Refs
import CodeQuery.Lsp.Cascade

namespace CodeQuery.Cli.Def

open CodeQuery.Core CodeQuery.Text CodeQuery.Index CodeQuery.Lsp CodeQuery.Lsp.Socket CodeQuery.Lsp.Cascade
open CodeQuery.Lsp.Daemon CodeQuery.Resolve

/-! ## The server's answer -/

/-- What a oneshot definition query finds outside. -/
structure DefinitionServer where
  start : ServerConfig → Path → Except LspError Unit
  readToString : Path → Option Str
  openDocument : Path → Str → String → Except LspError Unit
  findDefinition : Path → Nat → Nat → Except LspError (List LspLocation)

section Query

variable (o : DefinitionServer) (projectRoot : Path) (language : Language) (file : Path) (line column : Nat)

/-- `semantic_definition_with_wait` as far as the server's answer. -/
def definitionLocations : Except LspError (List LspLocation) :=
  match configFor builtinConfigs language with
  | none => .error (.serverNotFound ("no LSP config for " ++ debugName language))
  | some config =>
    match o.start config projectRoot with
    | .error e => .error e
    | .ok () =>
      let fullFile := if file.isRelative then projectRoot.join file else file
      match o.readToString fullFile with
      | none => .error (.io .other)
      | some source =>
        match o.openDocument fullFile source (lspLanguageId language) with
        | .error e => .error e
        | .ok () => o.findDefinition fullFile line column

/-- The reference is where the query was asked, the definition where the server says. -/
def definitionReference (loc : LspLocation) : ResolvedReference :=
  { refFile := file
    refLine := line
    refColumn := column
    symbol := []
    defFile := some (uriToPath loc.uri)
    defLine := some (loc.range.start.line.toNat + 1)
    defColumn := some loc.range.start.character.toNat
    resolution := .semantic }

def semanticDefinition : Except LspError (List ResolvedReference) :=
  (definitionLocations o projectRoot language file line column).map (List.map (definitionReference file line column))

end Query

/-! ## The command -/

inductive SemanticMode where
  | off
  | oneshot
  | daemon
  deriving DecidableEq, Repr

/-- What the command finds outside, once it has its candidates. -/
structure Session where
  /-- `current_dir`, then `detect_project_root_or`. -/
  projectRoot : Option Path
  isDaemonRunning : Path → Bool
  server : DefinitionServer

def disambiguateWithLsp (s : Session) (found : List Symbol) : Option (List Symbol) :=
  match s.projectRoot with
  | none => none
  | some project =>
    if s.isDaemonRunning project then
      match found.head? with
      | none => none
      | some first =>
        match Refs.fileLanguage first.file with
        | none => none
        | some language =>
          match semanticDefinition s.server project language first.file first.line first.column with
          | .ok [lspRef] =>
            let narrowed := found.filter fun m => m.file == lspRef.refFile && m.line == lspRef.refLine
            if narrowed.isEmpty then none else some narrowed
          | _ => none
    else none

/-- The candidates that are printed. -/
def kept (s : Session) (mode : SemanticMode) (found : List Symbol) : List Symbol :=
  if mode ≠ .off ∧ 1 < found.length then (disambiguateWithLsp s found).getD found else found

/-- `run`, as far as what is printed. -/
def run (s : Session) (G : Parse.Grammars) (d : Disk) (root : Path) (name : Str) (langFilter : Option Language)
    (scope : Option Path) (mode : SemanticMode) : Except FindError (List Symbol) :=
  (findSymbolsByName G d root name langFilter scope).map (kept s mode)

/-! ## What it should keep -/

/-- The project and the locations that the server answers for the first candidate. -/
def answer (s : Session) (found : List Symbol) : Option (Path × List LspLocation) := do
  let project ← s.projectRoot
  if s.isDaemonRunning project then
    let first ← found.head?
    let language ← Refs.fileLanguage first.file
    match definitionLocations s.server project language first.file first.line first.column with
    | .ok locations => some (project, locations)
    | .error _ => none
  else none

/-- The symbol's line is the location's, in the file that the location names. -/
def LocatedAt (project : Path) (loc : LspLocation) (m : Symbol) : Prop :=
  m.file = stripRoot project (uriToPath loc.uri) ∧ m.line = loc.range.start.line.toNat + 1

instance (project : Path) (loc : LspLocation) (m : Symbol) : Decidable (LocatedAt project loc m) :=
  inferInstanceAs (Decidable (_ ∧ _))

/-- The candidates are narrowed. -/
def Narrows (s : Session) (mode : SemanticMode) (found narrowed : List Symbol) : Prop :=
  mode ≠ .off ∧ 1 < found.length ∧ disambiguateWithLsp s found = some narrowed

/-- Narrowed candidates are those at a location that the server answered. -/
def FollowsServer (s : Session) (mode : SemanticMode) (found : List Symbol) : Prop :=
  ∀ narrowed, Narrows s mode found narrowed → ∃ project locations, answer s found = some (project, locations) ∧
    narrowed = found.filter fun m => locations.any fun loc => LocatedAt project loc m

/-- What is kept are the candidates, or what they are narrowed to. -/
theorem kept_eq (s : Session) (mode : SemanticMode) (found : List Symbol) :
    kept s mode found = found ∨ Narrows s mode found (kept s mode found) := by
  unfold kept Narrows
  by_cases hasked : mode ≠ .off ∧ 1 < found.length
  · rw [if_pos hasked]
    cases hnarrowed : disambiguateWithLsp s found with
    | none => exact .inl rfl
    | some narrowed => exact .inr ⟨hasked.1, hasked.2, rfl⟩
  · rw [if_neg hasked]
    exact .inl rfl

/-! ## What it keeps -/

/-- The candidates in the line of one of them. -/
def besides (found : List Symbol) (first : Symbol) : List Symbol :=
  found.filter fun m => m.file == first.file && m.line == first.line

theorem mem_besides_self {found : List Symbol} {first : Symbol} (h : found.head? = some first) :
    first ∈ besides found first :=
  List.mem_filter.mpr ⟨List.mem_of_mem_head? h, by rw [beq_self_eq_true, beq_self_eq_true]; rfl⟩

theorem narrowed_eq {found : List Symbol} {first : Symbol} (h : found.head? = some first) :
    (if (besides found first).isEmpty then none else some (besides found first)) = some (besides found first) := by
  rw [if_neg]
  rw [List.isEmpty_iff]
  exact List.ne_nil_of_mem (mem_besides_self h)

/-- The candidates are narrowed to those in the line of the first, whatever single
    location the server answers. -/
theorem disambiguateWithLsp_iff {s : Session} {found narrowed : List Symbol} :
    disambiguateWithLsp s found = some narrowed ↔
      ∃ project loc first, answer s found = some (project, [loc]) ∧ found.head? = some first ∧
        narrowed = besides found first := by
  unfold disambiguateWithLsp answer
  cases hproject : s.projectRoot with
  | none => simp
  | some project =>
    by_cases hrunning : s.isDaemonRunning project = true
    · cases hhead : found.head? with
      | none => simp [hrunning]
      | some first =>
        cases hlanguage : Refs.fileLanguage first.file with
        | none => simp [hrunning, hlanguage]
        | some language =>
          cases hanswer : definitionLocations s.server project language first.file first.line first.column with
          | error e => simp [hrunning, hlanguage, hanswer, semanticDefinition, Except.map]
          | ok locations =>
            have hnarrowed := narrowed_eq hhead
            unfold besides at hnarrowed
            match locations with
            | [] => simp [hrunning, hlanguage, hanswer, semanticDefinition, Except.map]
            | [loc] =>
              simp only [hrunning, if_true, hlanguage, hanswer, semanticDefinition, Except.map, List.map_cons,
                List.map_nil, definitionReference, hnarrowed, Option.bind_eq_bind, Option.bind_some, besides,
                Option.some.injEq, Prod.mk.injEq, List.cons.injEq, and_true]
              constructor
              · rintro rfl
                exact ⟨project, loc, first, ⟨rfl, rfl⟩, rfl, rfl⟩
              · rintro ⟨-, -, -, -, rfl, rfl⟩
                rfl
            | _ :: _ :: _ => simp [hrunning, hlanguage, hanswer, semanticDefinition, Except.map]
    · simp [hrunning]

/-- For every session and candidates: what the candidates are narrowed to is what the
    server answered if and only if a single answered location is that of the first
    candidate. -/
theorem follows_server_iff (s : Session) (mode : SemanticMode) (found : List Symbol) :
    FollowsServer s mode found ↔
      (mode ≠ .off → 1 < found.length → ∀ project loc first, answer s found = some (project, [loc]) →
        found.head? = some first → LocatedAt project loc first) := by
  constructor
  · intro h hmode hmany project loc first hanswer hfirst
    obtain ⟨project', locations, hanswer', hnarrowed⟩ :=
      h (besides found first) ⟨hmode, hmany, disambiguateWithLsp_iff.mpr ⟨project, loc, first, hanswer, hfirst, rfl⟩⟩
    rw [hanswer, Option.some.injEq, Prod.mk.injEq] at hanswer'
    obtain ⟨rfl, rfl⟩ := hanswer'
    have hmem := mem_besides_self hfirst
    rw [hnarrowed] at hmem
    simpa using (List.mem_filter.mp hmem).2
  · rintro h narrowed ⟨hmode, hmany, hnarrowed⟩
    obtain ⟨project, loc, first, hanswer, hfirst, rfl⟩ := disambiguateWithLsp_iff.mp hnarrowed
    refine ⟨project, [loc], hanswer, ?_⟩
    obtain ⟨hfile, hline⟩ := h hmode hmany project loc first hanswer hfirst
    apply List.filter_congr
    intro m hm
    rw [hfile, hline, Bool.eq_iff_iff]
    simp only [Bool.and_eq_true, beq_iff_eq, List.any_cons, List.any_nil, Bool.or_false, decide_eq_true_iff]
    exact Iff.rfl

/-! ## Two candidates -/

def helperIn (file : String) (line : Nat) : Symbol :=
  ⟨str "helper", .function, .ofString file, line, 0, line, .public_, [], none, none, none⟩

/-- A project in `/p` with a daemon; the language server answers line 3 of `b.rs`. -/
def answeringB : Session :=
  ⟨some (.ofString "/p"), fun _ => true,
    ⟨fun _ _ => .ok (), fun _ => some (str "fn helper() {}"), fun _ _ _ => .ok (),
      fun _ _ _ => .ok [⟨"file:///p/b.rs", ⟨⟨2, 3⟩, ⟨2, 9⟩⟩⟩]⟩⟩

/-- The server answers the second candidate, and the first is kept. -/
theorem the_first_candidate_is_kept :
    (kept answeringB .daemon [helperIn "a.rs" 1, helperIn "b.rs" 3]).map Symbol.location = [(.ofString "a.rs", 1, 0)] ∧
      LocatedAt (.ofString "/p") ⟨"file:///p/b.rs", ⟨⟨2, 3⟩, ⟨2, 9⟩⟩⟩ (helperIn "b.rs" 3) ∧
      ¬ FollowsServer answeringB .daemon [helperIn "a.rs" 1, helperIn "b.rs" 3] := by
  refine ⟨by decide, by decide, ?_⟩
  intro h
  obtain ⟨project, locations, hanswer, hnarrowed⟩ := h [helperIn "a.rs" 1] ⟨by decide, by decide, rfl⟩
  have hb : answer answeringB [helperIn "a.rs" 1, helperIn "b.rs" 3] =
      some (.ofString "/p", [⟨"file:///p/b.rs", ⟨⟨2, 3⟩, ⟨2, 9⟩⟩⟩]) := rfl
  rw [hb, Option.some.injEq, Prod.mk.injEq] at hanswer
  obtain ⟨rfl, rfl⟩ := hanswer
  exact absurd (congrArg (List.map Symbol.location) hnarrowed) (by decide)

end CodeQuery.Cli.Def
