/-
  CodeQuery.Cli.Callers — what the callers command lists (see `CodeQuery.Cli.Refs`).

  A place is listed when a kept reference of the resolver is there, or a call found by
  name. The stack graph and the language server do not say what kind a reference is, and
  nothing of the command compares theirs with the extracted kinds: an import, a type
  usage or an assignment that the resolver answers with is listed as a call
  (`an_import_is_listed_as_a_call`). `callers_are_calls_iff` says when none is.
-/

import CodeQuery.Cli.RefsProofs

namespace CodeQuery.Cli.Refs

open CodeQuery.Core CodeQuery.Text CodeQuery.Index CodeQuery.Data CodeQuery.Resolve

section Callers

variable {alnum : Char → Bool} {scan : List FileSymbols} {symbol : Str}

theorem runCallers_some {result : List ResolvedReference} {entries : Iteration (syntacticMap alnum scan symbol isCall)}
    {out : Output} (h : runCallers alnum scan symbol result entries = some out) :
    out.references = callRefs alnum scan symbol (retainResolved (definitions scan symbol) result) entries ∧
      out.definitions = definitions scan symbol := by
  unfold runCallers at h
  split at h
  · cases h
    exact ⟨rfl, rfl⟩
  · cases h

/-- A place is listed exactly when a kept reference is there or a call found by name. -/
theorem mem_runCallers_iff {result : List ResolvedReference}
    {entries : Iteration (syntacticMap alnum scan symbol isCall)} {out : Output}
    (h : runCallers alnum scan symbol result entries = some out) {loc : Location} :
    loc ∈ out.references.map Reference.location ↔
      (∃ rr ∈ retainResolved (definitions scan symbol) result, rr.location = loc) ∨
      ∃ r ∈ syntacticRefs alnum scan symbol isCall, r.location = loc := by
  rw [(runCallers_some h).1, callRefs, sortRefs, ((stableSort_perm _).map _).mem_iff, mem_merge_iff]

/-- The extraction gives an import, a type usage or an assignment at the place. -/
def OtherUse (scan : List FileSymbols) (loc : Location) : Prop :=
  ∃ fs ∈ scan, ∃ r ∈ extracted fs,
    r.location = loc ∧ (r.kind = .import_ ∨ r.kind = .typeUsage ∨ r.kind = .assignment)

variable (scan symbol) in
/-- The command takes an entry of the resolver for a caller: one of the stack graph or of a
    language server, or any where the symbol has no definition. -/
def TakenForCaller (rr : ResolvedReference) : Prop :=
  rr.resolution = .resolved ∨ rr.resolution = .semantic ∨ definitions scan symbol = []

theorem mem_retainResolved_iff {result : List ResolvedReference} {rr : ResolvedReference} :
    rr ∈ retainResolved (definitions scan symbol) result ↔ rr ∈ result ∧ TakenForCaller scan symbol rr := by
  cases hdefs : definitions scan symbol with
  | nil => simp [retainResolved, TakenForCaller, hdefs]
  | cons d ds => simp [retainResolved, TakenForCaller, hdefs]

theorem mem_syntacticRefs_iff {r : Reference} :
    r ∈ syntacticRefs alnum scan symbol isCall ↔
      ∃ fs ∈ scan, r ∈ extracted fs ∧ r.kind = .call ∧ refNameMatches alnum symbol r fs.source = true := by
  simp only [syntacticRefs, List.mem_flatMap, List.mem_filter, isCall, Bool.and_eq_true, beq_iff_eq]

/-- No import, type usage or assignment is listed as a caller if and only if the extraction has
    none where an entry is that is taken for a caller, and none where it has a call by the
    symbol's name. -/
theorem callers_are_calls_iff {result : List ResolvedReference}
    {entries : Iteration (syntacticMap alnum scan symbol isCall)} {out : Output}
    (h : runCallers alnum scan symbol result entries = some out) :
    (∀ loc, OtherUse scan loc → loc ∉ out.references.map Reference.location) ↔
      (∀ rr ∈ result, TakenForCaller scan symbol rr → ¬ OtherUse scan rr.location) ∧
        ∀ fs ∈ scan, ∀ r ∈ extracted fs, r.kind = .call → refNameMatches alnum symbol r fs.source = true →
          ¬ OtherUse scan r.location := by
  constructor
  · intro hnone
    refine ⟨fun rr hrr htaken hother => ?_, fun fs hfs r hr hcall hname hother => ?_⟩
    · exact hnone _ hother ((mem_runCallers_iff h).mpr (.inl ⟨rr, mem_retainResolved_iff.mpr ⟨hrr, htaken⟩, rfl⟩))
    · exact hnone _ hother ((mem_runCallers_iff h).mpr (.inr ⟨r, mem_syntacticRefs_iff.mpr ⟨fs, hfs, hr, hcall, hname⟩, rfl⟩))
  · intro hcond loc hother hin
    rcases (mem_runCallers_iff h).mp hin with ⟨rr, hrr, rfl⟩ | ⟨r, hr, rfl⟩
    · obtain ⟨hresult, htaken⟩ := mem_retainResolved_iff.mp hrr
      exact hcond.1 rr hresult htaken hother
    · obtain ⟨fs, hfs, hextracted, hcall, hname⟩ := mem_syntacticRefs_iff.mp hr
      exact hcond.2 fs hfs r hextracted hcall hname hother

end Callers

/-! ## An import -/

def importsF : FileSymbols :=
  ⟨[.normal "c.rs"], [], str "use a::f;", ⟨"source_file", none, 0, 9, ⟨0, 0⟩, ⟨0, 9⟩, true, false, false,
    [⟨"use_declaration", none, 0, 9, ⟨0, 0⟩, ⟨0, 9⟩, true, false, false,
      [⟨"scoped_identifier", some "argument", 4, 8, ⟨0, 4⟩, ⟨0, 8⟩, true, false, false,
        [.leaf "identifier" (some "path") 0 4 4 1 true, .leaf "identifier" (some "name") 0 7 7 1 true]⟩]⟩]⟩⟩

def importScan : List FileSymbols := [definesF fileA, importsF]

def importLocation : Location := ([.normal "c.rs"], 1, 7)

/-- The import, resolved to the definition of `f`. -/
def resolvedImport : ResolvedReference :=
  ⟨[.normal "c.rs"], 1, 7, str "f", some fileA, some 1, some 7, .resolved⟩

theorem import_otherUse : OtherUse importScan importLocation :=
  ⟨importsF, by simp [importScan],
    ⟨[.normal "c.rs"], 1, 7, .import_, str "use a::f;", none, none⟩, by decide, rfl, .inl rfl⟩

/-- `c.rs` imports `f` and calls nothing; the stack graph resolves the import, and it is
    listed as a caller of `f`. -/
theorem an_import_is_listed_as_a_call :
    ∃ out, runCallers Char.isAlphanum importScan (str "f") [resolvedImport] (.stored _) = some out ∧
      OtherUse importScan importLocation ∧ importLocation ∈ out.references.map Reference.location := by
  have hkept : resolvedImport ∈ retainResolved (definitions importScan (str "f")) [resolvedImport] := by
    rw [show definitions importScan (str "f") = [symbolF fileA] by rfl]
    decide
  exact ⟨_, if_pos (by decide), import_otherUse,
    (mem_runCallers_iff (if_pos (by decide))).mpr (.inl ⟨resolvedImport, hkept, rfl⟩)⟩

theorem callers_are_calls_iff_import :
    ∃ out, runCallers Char.isAlphanum importScan (str "f") [resolvedImport] (.stored _) = some out ∧
      ((∀ loc, OtherUse importScan loc → loc ∉ out.references.map Reference.location) ↔
        (∀ rr ∈ [resolvedImport], TakenForCaller importScan (str "f") rr → ¬ OtherUse importScan rr.location) ∧
          ∀ fs ∈ importScan, ∀ r ∈ extracted fs, r.kind = .call →
            refNameMatches Char.isAlphanum (str "f") r fs.source = true → ¬ OtherUse importScan r.location) :=
  ⟨_, if_pos (by decide), callers_are_calls_iff (if_pos (by decide))⟩

end CodeQuery.Cli.Refs
