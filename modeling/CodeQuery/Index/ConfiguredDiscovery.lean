/-
  CodeQuery.Index.ConfiguredDiscovery — discovery with a project's `.cq.toml` (`discovery.rs`;
  see `CodeQuery.Index.Scanner` for plain discovery).

  Plain discovery asks the registry for a file's language by name, and finds the files of
  every language of it. Configured discovery is a copy of that walk that asks for a
  `Language` of the code, and leaves out the files whose language can only be installed:
  `a.ex` is found without a configuration and not found with an empty one. It is plain
  discovery with the overrides and the excludes applied exactly where the walk comes to
  no such file that would be kept (`configured_discovery_iff`).
-/

import CodeQuery.Core.PathText
import CodeQuery.Index.Scanner

namespace CodeQuery.Index

open CodeQuery.Core

/-! ## The configuration -/

/-- What discovery reads of a `.cq.toml`. -/
structure ProjectConfig where
  exclude : List String
  /-- By extension with its dot. -/
  languageOverrides : List (String × String)

def ProjectConfig.empty : ProjectConfig := ⟨[], []⟩

/-- `glob::Pattern::new(p).ok()`, and `matches` of the pattern. -/
abbrev Glob := String → Option (String → Bool)

def buildExcludeMatchers (glob : Glob) (patterns : List String) : List (String → Bool) := patterns.filterMap glob

/-- `m.matches(&path.to_string_lossy())` for any of them. -/
def isExcluded (p : Path) (matchers : List (String → Bool)) : Bool := matchers.any (· p.text)

def overrideFor (p : Path) (overrides : List (String × String)) : Option String :=
  p.extension.bind fun ext => overrides.lookup ("." ++ ext)

def languageForFileWithOverrides (p : Path) (overrides : List (String × String)) : Option Language :=
  match overrideFor p overrides with
  | some langName => Language.fromName langName
  | none => languageForFile p

/-! ## The walk -/

/-- The loop over the walk's entries, which keeps the files that are `found` and not
    `excluded`. -/
def collect (found excluded : Path → Bool) (root : Path) : List (Option WalkEntry) → Except DiscoverError (List Path)
  | [] => .ok []
  | none :: _ => .error .walk
  | some e :: t =>
    if e.isFile = some true ∧ found e.path = true then
      match e.path.stripPrefix root with
      | none => .error .notRelative
      | some rel => (collect found excluded root t).map fun files => if excluded rel then files else rel :: files
    else collect found excluded root t

def discoverWith (found excluded : Path → Bool) (d : Disk) (root : Path) (scope : Option Path) :
    Except DiscoverError (List Path) :=
  let walkRoot := (scope.map root.join).getD root
  if d.pathExists walkRoot then (collect found excluded root (d.walk walkRoot)).map (List.insertionSort (· ≤ ·))
  else .error (.doesNotExist walkRoot)

def discoverFilesWithConfig (glob : Glob) (d : Disk) (root : Path) (scope : Option Path) (config : ProjectConfig) :
    Except DiscoverError (List Path) :=
  let matchers := buildExcludeMatchers glob config.exclude
  discoverWith (fun p => (languageForFileWithOverrides p config.languageOverrides).isSome) (isExcluded · matchers) d root
    scope

/-- Plain discovery is this loop with the registry's languages and nothing excluded. -/
theorem collectFiles_eq (root : Path) (entries : List (Option WalkEntry)) :
    collectFiles root entries = collect (fun p => (languageNameForFile p).isSome) (fun _ => false) root entries := by
  induction entries with
  | nil => rfl
  | cons entry t ih =>
    cases entry with
    | none => rfl
    | some e =>
      rw [collectFiles, collect, ih]
      rfl

theorem discoverFiles_eq (d : Disk) (root : Path) (scope : Option Path) :
    discoverFiles d root scope = discoverWith (fun p => (languageNameForFile p).isSome) (fun _ => false) d root scope := by
  simp only [discoverFiles, discoverWith, collectFiles_eq]

/-! ## What the loop returns -/

section Loop

variable {found found' excluded : Path → Bool} {root : Path} {entries : List (Option WalkEntry)}

/-- The entries before the walk's first error. -/
def reached : List (Option WalkEntry) → List WalkEntry
  | [] => []
  | none :: _ => []
  | some e :: t => e :: reached t

def foundIn (found : Path → Bool) (entries : List (Option WalkEntry)) : List WalkEntry :=
  (reached entries).filter fun e => decide (e.isFile = some true) && found e.path

/-- The path the loop keeps of a file found. -/
def keptPath (excluded : Path → Bool) (root : Path) (e : WalkEntry) : Option Path :=
  (e.path.stripPrefix root).bind fun rel => if excluded rel then none else some rel

def isOutside (root : Path) (e : WalkEntry) : Bool := (e.path.stripPrefix root).isNone

/-- A file found outside of the root ends the loop, then an error of the walk. -/
theorem collect_eq : collect found excluded root entries =
    if (foundIn found entries).any (isOutside root) then .error .notRelative
    else if none ∈ entries then .error .walk
    else .ok ((foundIn found entries).filterMap (keptPath excluded root)) := by
  induction entries with
  | nil => rfl
  | cons entry t ih =>
    cases entry with
    | none => simp [collect, foundIn, reached]
    | some e =>
      rw [collect, ih]
      by_cases hfound : e.isFile = some true ∧ found e.path = true
      · have hcons : foundIn found (some e :: t) = e :: foundIn found t := by
          simp [foundIn, reached, hfound]
        rw [if_pos hfound, hcons, List.any_cons]
        cases hrel : e.path.stripPrefix root with
        | none => simp [isOutside, hrel]
        | some rel =>
          by_cases houtside : (foundIn found t).any (isOutside root) = true
          · simp [isOutside, hrel, houtside, Except.map]
          · by_cases herror : none ∈ t
            · simp [isOutside, hrel, houtside, herror, Except.map]
            · cases hexcluded : excluded rel <;>
                simp [isOutside, hrel, houtside, herror, hexcluded, keptPath, Except.map]
      · have hskip : foundIn found (some e :: t) = foundIn found t := by
          have hfalse : (decide (e.isFile = some true) && found e.path) = false := by simpa using hfound
          simp [foundIn, reached, hfalse]
        rw [if_neg hfound, hskip]
        simp

/-- A recogniser that finds less finds a part of the files. -/
theorem foundIn_filter (h : ∀ p, found p = true → found' p = true) :
    foundIn found entries = (foundIn found' entries).filter fun e => found e.path := by
  rw [foundIn, foundIn, List.filter_filter]
  refine List.filter_congr fun e _ => ?_
  cases hfound : found e.path
  · rw [Bool.and_false, Bool.false_and]
  · rw [h _ hfound, Bool.true_and]

theorem mem_foundIn {e : WalkEntry} :
    e ∈ foundIn found entries ↔ e ∈ reached entries ∧ e.isFile = some true ∧ found e.path = true := by
  simp [foundIn]

theorem any_isOutside {fs : List WalkEntry} :
    fs.any (isOutside root) = true ↔ ∃ e ∈ fs, e.path.stripPrefix root = none := by
  simp [isOutside]

/-- The sorted results are the same when what is dropped gives nothing. -/
theorem sort_filterMap_filter_iff {α β : Type*} [LinearOrder β] (g : α → Option β) (keep : α → Bool) (fs : List α) :
    ((fs.filter keep).filterMap g).insertionSort (· ≤ ·) = (fs.filterMap g).insertionSort (· ≤ ·) ↔
      ∀ x ∈ fs, keep x = false → g x = none := by
  refine ⟨fun h x hx hkeep => ?_, fun h => ?_⟩
  · have hlength := congrArg List.length h
    rw [List.length_insertionSort, List.length_insertionSort] at hlength
    have hperm := ((List.filter_append_perm keep fs).filterMap g).length_eq
    rw [List.filterMap_append, List.length_append, hlength] at hperm
    have hnil : (fs.filter fun x => !keep x).filterMap g = [] := List.length_eq_zero_iff.mp (by omega)
    exact List.filterMap_eq_nil_iff.mp hnil x (List.mem_filter.mpr ⟨hx, by rw [hkeep]; rfl⟩)
  · refine congrArg _ ?_
    rw [List.filterMap_filter]
    refine List.filterMap_congr fun x hx => ?_
    cases hkeep : keep x
    · exact (h x hx hkeep).symm
    · rfl

theorem any_outside_iff : (foundIn found entries).any (isOutside root) = true ↔
    ∃ e ∈ reached entries, e.isFile = some true ∧ found e.path = true ∧ e.path.stripPrefix root = none := by
  simp only [any_isOutside, mem_foundIn, and_assoc]

/-- A file below the root is left out exactly when it is excluded. -/
theorem keptPath_eq_none_iff {e : WalkEntry} {rel : Path} (hrel : e.path.stripPrefix root = some rel) :
    keptPath excluded root e = none ↔ excluded rel = true := by
  rw [keptPath, hrel, Option.bind_some, ite_eq_left_iff]
  simp

/-- Where one recogniser finds less than another, the two loops return the same if and
    only if one of its own files is outside of the root, or each that it leaves out is
    below the root and excluded, or lost anyway to an error of the walk. -/
theorem collect_sort_eq_iff (h : ∀ p, found p = true → found' p = true) :
    (collect found excluded root entries).map (List.insertionSort (· ≤ ·)) =
      (collect found' excluded root entries).map (List.insertionSort (· ≤ ·)) ↔
      (∃ e ∈ reached entries, e.isFile = some true ∧ found e.path = true ∧ e.path.stripPrefix root = none) ∨
      ∀ e ∈ reached entries, e.isFile = some true → found' e.path = true → found e.path = false →
        ∃ rel, e.path.stripPrefix root = some rel ∧ (excluded rel = true ∨ none ∈ entries) := by
  rw [collect_eq, collect_eq, ← any_outside_iff]
  by_cases hout : (foundIn found entries).any (isOutside root) = true
  · have hout' : (foundIn found' entries).any (isOutside root) = true := by
      obtain ⟨e, he, hnone⟩ := any_isOutside.mp hout
      rw [foundIn_filter h] at he
      exact any_isOutside.mpr ⟨e, List.mem_of_mem_filter he, hnone⟩
    simp [hout, hout']
  rw [if_neg hout]
  by_cases hout' : (foundIn found' entries).any (isOutside root) = true
  · obtain ⟨e, he, hfile, hfound, hnone⟩ := any_outside_iff.mp hout'
    have hlost : found e.path = false := by
      by_contra hfound
      exact hout (any_outside_iff.mpr ⟨e, he, hfile, by simpa using hfound, hnone⟩)
    rw [if_pos hout']
    refine iff_of_false ?_ fun hright => ?_
    · split <;> simp [Except.map]
    · obtain ⟨rel, hrel, _⟩ := hright.resolve_left hout e he hfile hfound hlost
      rw [hnone] at hrel
      cases hrel
  have hinside : ∀ e ∈ foundIn found' entries, ∃ rel, e.path.stripPrefix root = some rel := by
    intro e he
    exact Option.ne_none_iff_exists'.mp fun hnone => hout' (any_isOutside.mpr ⟨e, he, hnone⟩)
  rw [if_neg hout']
  by_cases herror : none ∈ entries
  · rw [if_pos herror, if_pos herror]
    refine iff_of_true rfl (Or.inr fun e he hfile hfound _ => ?_)
    obtain ⟨rel, hrel⟩ := hinside e (mem_foundIn.mpr ⟨he, hfile, hfound⟩)
    exact ⟨rel, hrel, Or.inr herror⟩
  · rw [if_neg herror, if_neg herror, foundIn_filter h, Except.map, Except.map, Except.ok.injEq, sort_filterMap_filter_iff,
      ← foundIn_filter h]
    refine ⟨fun hkept => Or.inr fun e he hfile hfound hlost => ?_, fun hright e he hlost => ?_⟩
    · have hmem := mem_foundIn.mpr ⟨he, hfile, hfound⟩
      obtain ⟨rel, hrel⟩ := hinside e hmem
      have hnone := hkept e hmem hlost
      exact ⟨rel, hrel, Or.inl ((keptPath_eq_none_iff hrel).mp hnone)⟩
    · rw [mem_foundIn] at he
      obtain ⟨rel, hrel, hexcluded⟩ := hright.resolve_left hout e he.1 he.2.1 he.2.2 hlost
      exact (keptPath_eq_none_iff hrel).mpr (hexcluded.resolve_right herror)

theorem discoverWith_eq_iff {d : Disk} {scope : Option Path} (h : ∀ p, found p = true → found' p = true) :
    discoverWith found excluded d root scope = discoverWith found' excluded d root scope ↔
      let walkRoot := (scope.map root.join).getD root
      let entries := d.walk walkRoot
      d.pathExists walkRoot = false ∨
      (∃ e ∈ reached entries, e.isFile = some true ∧ found e.path = true ∧ e.path.stripPrefix root = none) ∨
      ∀ e ∈ reached entries, e.isFile = some true → found' e.path = true → found e.path = false →
        ∃ rel, e.path.stripPrefix root = some rel ∧ (excluded rel = true ∨ none ∈ entries) := by
  rw [discoverWith, discoverWith]
  generalize (scope.map root.join).getD root = walkRoot
  simp only
  by_cases hexists : d.pathExists walkRoot = true
  · rw [if_pos hexists, if_pos hexists, hexists, collect_sort_eq_iff h]
    simp
  · rw [if_neg hexists, if_neg hexists]
    simp [hexists]

end Loop

/-! ## Configured discovery -/

/-- The files of configured discovery: with an override, the ones it gives a language;
    without, the ones that plain discovery finds. -/
def isConfiguredSource (overrides : List (String × String)) (p : Path) : Bool :=
  match overrideFor p overrides with
  | some langName => (Language.fromName langName).isSome
  | none => (languageNameForFile p).isSome

/-- Plain discovery extended by the overrides, without the excluded files. -/
def configuredFiles (glob : Glob) (d : Disk) (root : Path) (scope : Option Path) (config : ProjectConfig) :
    Except DiscoverError (List Path) :=
  discoverWith (isConfiguredSource config.languageOverrides) (isExcluded · (buildExcludeMatchers glob config.exclude)) d
    root scope

theorem configuredFiles_empty (glob : Glob) (d : Disk) (root : Path) (scope : Option Path) :
    configuredFiles glob d root scope .empty = discoverFiles d root scope := by
  have hsource : isConfiguredSource ProjectConfig.empty.languageOverrides = fun p => (languageNameForFile p).isSome := by
    funext p
    have hnone : overrideFor p ProjectConfig.empty.languageOverrides = none := by
      cases h : p.extension <;> simp [overrideFor, h, ProjectConfig.empty]
    rw [isConfiguredSource, hnone]
  rw [configuredFiles, discoverFiles_eq, hsource]
  rfl

/-- The match in the code knows no extension that the registry does not. -/
theorem languageNameForFile_of_languageForFile {p : Path} (h : (languageForFile p).isSome = true) :
    (languageNameForFile p).isSome = true := by
  unfold languageForFile at h
  unfold languageNameForFile
  cases hext : p.extension with
  | none => simp [hext] at h
  | some ext =>
    rw [hext, Option.bind_some] at h
    rw [Option.bind_some]
    split at h
    all_goals first
      | rfl
      | exact Option.isSome_of_isSome_bind h

/-- The extension is without an override, and is one of a language to be installed. -/
def isOnlyInstallable (overrides : List (String × String)) (p : Path) : Bool :=
  (overrideFor p overrides).isNone && (languageNameForFile p).isSome && (languageForFile p).isNone

section Discovery

variable {glob : Glob} {d : Disk} {root : Path} {scope : Option Path} {config : ProjectConfig}

theorem stripPrefix_inj {p q base rel : Path} (hp : p.stripPrefix base = some rel) (hq : q.stripPrefix base = some rel) :
    p = q := by
  have happend : ∀ {r : Path}, r.stripPrefix base = some rel → base ++ rel = r := by
    intro r hr
    rw [Path.stripPrefix] at hr
    split at hr
    · rename_i hprefix
      cases hr
      obtain ⟨rest, rfl⟩ := List.isPrefixOf_iff_prefix.mp hprefix
      rw [List.drop_left]
    · cases hr
  rw [← happend hp, ← happend hq]

theorem discoverWith_ok {found excluded : Path → Bool} {files : List Path}
    (h : discoverWith found excluded d root scope = .ok files) :
    files = ((foundIn found (d.walk ((scope.map root.join).getD root))).filterMap (keptPath excluded root)).insertionSort
      (· ≤ ·) := by
  rw [discoverWith, collect_eq] at h
  split at h
  · split at h
    · cases h
    · split at h
      · cases h
      · cases h
        rfl
  · cases h

theorem mem_discoverWith {found excluded : Path → Bool} {files : List Path}
    (h : discoverWith found excluded d root scope = .ok files) {rel : Path} :
    rel ∈ files ↔ excluded rel = false ∧ ∃ e ∈ reached (d.walk ((scope.map root.join).getD root)),
      e.isFile = some true ∧ found e.path = true ∧ e.path.stripPrefix root = some rel := by
  have hkept : ∀ e, keptPath excluded root e = some rel ↔ e.path.stripPrefix root = some rel ∧ excluded rel = false := by
    intro e
    rw [keptPath]
    cases e.path.stripPrefix root with
    | none => simp
    | some r =>
      rw [Option.bind_some]
      cases hexcluded : excluded r <;> simp
      · rintro rfl
        exact hexcluded
      · rintro rfl
        exact hexcluded
  rw [discoverWith_ok h, List.mem_insertionSort, List.mem_filterMap]
  simp only [mem_foundIn, hkept]
  constructor
  · rintro ⟨e, ⟨he, hfile, hfound⟩, hrel, hexcluded⟩
    exact ⟨hexcluded, e, he, hfile, hfound, hrel⟩
  · rintro ⟨hexcluded, e, he, hfile, hfound, hrel⟩
    exact ⟨e, ⟨he, hfile, hfound⟩, hrel, hexcluded⟩

/-- Where both plain discovery and its extension give files, these are sorted, and are
    the ones of plain discovery without an override and the ones whose override names a
    known language, less the excluded. -/
theorem configuredFiles_laws {files plain : List Path} (h : configuredFiles glob d root scope config = .ok files)
    (hplain : discoverFiles d root scope = .ok plain) :
    files.Pairwise (· ≤ ·) ∧ ∀ rel, rel ∈ files ↔
      isExcluded rel (buildExcludeMatchers glob config.exclude) = false ∧
      ∃ e ∈ reached (d.walk ((scope.map root.join).getD root)), e.isFile = some true ∧ e.path.stripPrefix root = some rel ∧
        ((overrideFor e.path config.languageOverrides = none ∧ rel ∈ plain) ∨
          ∃ langName, overrideFor e.path config.languageOverrides = some langName ∧
            (Language.fromName langName).isSome = true) := by
  refine ⟨?_, fun rel => ?_⟩
  · rw [discoverWith_ok h]
    exact List.pairwise_insertionSort _ _
  rw [discoverFiles_eq] at hplain
  rw [mem_discoverWith h, mem_discoverWith hplain]
  refine and_congr_right fun _ => exists_congr fun e => and_congr_right fun he => and_congr_right fun hfile => ?_
  rw [and_comm]
  refine and_congr_right fun hrel => ?_
  rw [isConfiguredSource]
  cases hoverride : overrideFor e.path config.languageOverrides with
  | some langName => simp
  | none =>
    simp only [true_and, reduceCtorEq, false_and, exists_false, or_false]
    refine ⟨fun hname => ⟨e, he, hfile, hname, hrel⟩, fun h => ?_⟩
    obtain ⟨e', _, _, hname, hrel'⟩ := h
    rw [stripPrefix_inj hrel hrel']
    exact hname

/-- The walk comes to no file that is only installable and would be kept, or fails
    anyway. -/
def DropsNoInstallable (glob : Glob) (d : Disk) (root : Path) (scope : Option Path) (config : ProjectConfig) : Prop :=
  let walkRoot := (scope.map root.join).getD root
  let entries := d.walk walkRoot
  d.pathExists walkRoot = false ∨
  (∃ e ∈ reached entries, e.isFile = some true ∧
    (languageForFileWithOverrides e.path config.languageOverrides).isSome = true ∧ e.path.stripPrefix root = none) ∨
  ∀ e ∈ reached entries, e.isFile = some true → isOnlyInstallable config.languageOverrides e.path = true →
    ∃ rel, e.path.stripPrefix root = some rel ∧
      (isExcluded rel (buildExcludeMatchers glob config.exclude) = true ∨ none ∈ entries)

variable (glob d root scope config)

theorem discoverFilesWithConfig_eq_iff :
    discoverFilesWithConfig glob d root scope config = configuredFiles glob d root scope config ↔
      DropsNoInstallable glob d root scope config := by
  have hless : ∀ p, (languageForFileWithOverrides p config.languageOverrides).isSome = true →
      isConfiguredSource config.languageOverrides p = true := by
    intro p
    rw [languageForFileWithOverrides, isConfiguredSource]
    cases overrideFor p config.languageOverrides with
    | some langName => exact id
    | none => exact languageNameForFile_of_languageForFile
  have hlost : ∀ p, isOnlyInstallable config.languageOverrides p = true ↔
      isConfiguredSource config.languageOverrides p = true ∧
        (languageForFileWithOverrides p config.languageOverrides).isSome = false := by
    intro p
    rw [isConfiguredSource, languageForFileWithOverrides, isOnlyInstallable]
    cases overrideFor p config.languageOverrides with
    | some langName => simpa using Option.isSome_iff_ne_none.mp
    | none => simp
  rw [discoverFilesWithConfig, configuredFiles, discoverWith_eq_iff hless]
  simp only [DropsNoInstallable, hlost, and_imp]

/-- Configured discovery is plain discovery extended by the overrides, less the excluded
    files, exactly where it drops no file that is only installable; and so for the empty
    configuration, where the extension is plain discovery itself. -/
theorem configured_discovery_iff :
    (discoverFilesWithConfig glob d root scope config = configuredFiles glob d root scope config ↔
      DropsNoInstallable glob d root scope config) ∧
    (discoverFilesWithConfig glob d root scope .empty = discoverFiles d root scope ↔
      DropsNoInstallable glob d root scope .empty) := by
  refine ⟨discoverFilesWithConfig_eq_iff glob d root scope config, ?_⟩
  rw [← configuredFiles_empty glob]
  exact discoverFilesWithConfig_eq_iff glob d root scope .empty

end Discovery

def elixirDisk : Disk where
  file _ := none
  pathExists _ := true
  walk _ := [some ⟨[.normal "p"], some false⟩, some ⟨[.normal "p", .normal "a.ex"], some true⟩]

/-- An Elixir file is discovered without a configuration and lost with an empty one. -/
theorem an_empty_config_loses_a_file :
    discoverFiles elixirDisk [.normal "p"] none = .ok [[.normal "a.ex"]] ∧
    discoverFilesWithConfig (fun _ => none) elixirDisk [.normal "p"] none .empty = .ok [] := by
  decide

end CodeQuery.Index
