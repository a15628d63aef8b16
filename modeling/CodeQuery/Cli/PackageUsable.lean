/-
  CodeQuery.Cli.PackageUsable — whether an installed package can be used
  (`run_install` of `codequery-cli/src/commands/grammar.rs` and `auto_install_grammar` of
  `codequery-parse/src/parser.rs`).

  A package counts as installed when its directory is there. The automatic installation
  checks the grammar that it unpacked; `run_install` only says what it finds, and takes
  any archive that unpacks. So what it leaves can be used exactly when the archive has a
  grammar (`keepsUsable_iff`); `an_archive_without_a_grammar_blocks` is one that has none.
  Runs of both whose calls all leave usable packages come to no others (`run_usable`).
-/

import CodeQuery.Cli.GrammarUpdate
import CodeQuery.Parse.PackageInstall

namespace CodeQuery.Cli.Grammar

open CodeQuery.Text CodeQuery.Parse.AutoInstall

/-! ## One installation -/

section Install

variable (i : Installation Files) (language : String) (dir : Packages Files)

/-- The package's directory is there only if it was before, or can be used. -/
def KeepsUsable : Prop :=
  ∀ files, (runInstall i language dir).2.lookup language = some files →
    (dir.lookup language).isSome = true ∨ usable files = true

/-- What an extraction leaves can be used. -/
def LeavesUsable : Fetch Files → Prop
  | .extracted files => usable files = true
  | .extractFailed (some left) => usable left = true
  | _ => True

/-- The directory was there, the registry does not know the language, or what is fetched
    can be used. -/
def InstallsUsable : Prop :=
  (dir.lookup language).isSome = true ∨ ∀ languages, i.registry = some languages → language ∈ languages → LeavesUsable i.fetch

variable {i language dir}

/-- A package that is there is left alone. -/
theorem runInstall_present (h : (dir.lookup language).isSome = true) : (runInstall i language dir).2 = dir := by
  unfold runInstall
  repeat' split
  all_goals rfl

theorem runInstall_again {languages : List String} (hregistry : i.registry = some languages) (hknown : language ∈ languages)
    (h : (dir.lookup language).isSome = true) : runInstall i language dir = (.ok .success, dir) := by
  have hcontains : ¬ (!languages.contains language) = true := by simp [hknown]
  rw [runInstall, hregistry]
  dsimp only
  rw [if_neg hcontains, if_pos h]

theorem keepsUsable_iff : KeepsUsable i language dir ↔ InstallsUsable i language dir := by
  unfold KeepsUsable InstallsUsable
  cases hpresent : (dir.lookup language).isSome with
  | true => simp
  | false =>
    have habsent : dir.lookup language = none := by simpa using hpresent
    rw [runInstall_lookup habsent]
    obtain ⟨_ | languages, fetch⟩ := i
    · simp [installed]
    · by_cases hknown : language ∈ languages
      · cases fetch with
        | downloadFailed => simp [installed, hknown, LeavesUsable]
        | createFailed => simp [installed, hknown, LeavesUsable]
        | extractFailed left => cases left <;> simp [installed, hknown, LeavesUsable]
        | extracted files => simp [installed, hknown, LeavesUsable]
      · simp [installed, hknown]

end Install

/-! ## Runs -/

inductive Call where
  | install (i : Installation Files) (language : String)
  | autoInstall (o : Outcomes) (attempted : List String) (language : String)

def Call.after : Call → Packages Files → Packages Files
  | .install i language, dir => (runInstall i language dir).2
  | .autoInstall o attempted language, dir =>
    leave dir language (autoInstallGrammar o language attempted (dir.lookup language)).pkgDir

/-- All that is installed can be used. -/
def AllUsable (dir : Packages Files) : Prop := ∀ language files, dir.lookup language = some files → usable files = true

/-- An installation leaves a package that can be used, and so does the removal of an
    automatic one that fails, if it leaves any. -/
def Call.Fine : Call → Packages Files → Prop
  | .install i language, dir => InstallsUsable i language dir
  | .autoInstall o _ language, dir => ∀ files left, createDirAll o (dir.lookup language) = some files →
      o.remove (atRemoval o files) = some left → usable left = true

/-- The states of a run of calls. -/
def states : List Call → Packages Files → List (Packages Files)
  | [], dir => [dir]
  | c :: calls, dir => dir :: states calls (c.after dir)

def FineRun : List Call → Packages Files → Prop
  | [], _ => True
  | c :: calls, dir => c.Fine dir ∧ FineRun calls (c.after dir)

theorem install_usable {i : Installation Files} {language : String} {dir : Packages Files} (h : AllUsable dir)
    (hfine : InstallsUsable i language dir) : AllUsable (runInstall i language dir).2 := by
  intro other files hfiles
  by_cases hother : other = language
  · subst hother
    rcases keepsUsable_iff.mpr hfine files hfiles with hpresent | husable
    · rw [runInstall_present hpresent] at hfiles
      exact h other files hfiles
    · exact husable
  · rw [runInstall_lookup_ne hother] at hfiles
    exact h other files hfiles

/-- What an automatic installation leaves in a directory that was absent or usable. -/
theorem autoInstall_usable {o : Outcomes} {attempted : List String} {language : String} {pkgDir : Option Files}
    (h : ∀ files ∈ pkgDir, usable files = true)
    (hfine : ∀ files left, createDirAll o pkgDir = some files → o.remove (atRemoval o files) = some left → usable left = true) :
    ∀ files ∈ (autoInstallGrammar o language attempted pkgDir).pkgDir, usable files = true := by
  by_cases hearly : EndsEarly o language attempted pkgDir
  · rw [(autoInstall_early hearly).2]
    exact h
  · obtain ⟨files, hfiles, ⟨hsucceeds, hcall⟩ | ⟨-, hcall⟩⟩ := autoInstall_late hearly
    · rw [hcall]
      intro extracted hextracted
      cases hextracted
      obtain ⟨files', extracted, hfiles', -, hextract, husable⟩ := hsucceeds
      rw [hfiles] at hfiles'
      cases hfiles'
      rw [hextract]
      exact husable
    · rw [hcall]
      exact fun left hleft => hfine files left hfiles hleft

theorem step_usable {c : Call} {dir : Packages Files} (h : AllUsable dir) (hfine : c.Fine dir) : AllUsable (c.after dir) := by
  cases c with
  | install i language => exact install_usable h hfine
  | autoInstall o attempted language =>
    intro other files hfiles
    by_cases hother : other = language
    · subst hother
      rw [Call.after, leave_lookup] at hfiles
      exact autoInstall_usable (h other) hfine files hfiles
    · rw [Call.after, leave_lookup_ne hother] at hfiles
      exact h other files hfiles

theorem run_usable {calls : List Call} {dir : Packages Files} (h : AllUsable dir) (hfine : FineRun calls dir) :
    ∀ dir' ∈ states calls dir, AllUsable dir' := by
  induction calls generalizing dir with
  | nil =>
    intro dir' hdir'
    rw [List.mem_singleton.mp hdir']
    exact h
  | cons c calls ih =>
    intro dir' hdir'
    rcases List.mem_cons.mp hdir' with rfl | hdir'
    · exact h
    · exact ih (step_usable h hfine.1) hfine.2 dir' hdir'

/-- An installation keeps to usable packages exactly when what it fetches can be used, and
    runs whose calls all do so come to no other packages. -/
theorem installed_usable_iff (i : Installation Files) (language : String) (calls : List Call) (dir : Packages Files) :
    (KeepsUsable i language dir ↔ InstallsUsable i language dir) ∧
      (AllUsable dir → FineRun calls dir → ∀ dir' ∈ states calls dir, AllUsable dir') :=
  ⟨keepsUsable_iff, run_usable⟩

/-- An archive that has no grammar in it. -/
def emptyArchive : Installation Files := ⟨some ["lua"], .extracted noFiles⟩

/-- It is installed with success, cannot be used, and no installation after it fetches the
    package again. -/
theorem an_archive_without_a_grammar_blocks :
    (runInstall emptyArchive "lua" ∅).1 = .ok .success ∧
      (runInstall emptyArchive "lua" ∅).2.lookup "lua" = some noFiles ∧
      ¬ KeepsUsable emptyArchive "lua" ∅ ∧
      ∀ i : Installation Files, i.registry = some ["lua"] →
        runInstall i "lua" (runInstall emptyArchive "lua" ∅).2 = (.ok .success, (runInstall emptyArchive "lua" ∅).2) := by
  have hinstalled : (runInstall emptyArchive "lua" ∅).2.lookup "lua" = some noFiles := rfl
  refine ⟨rfl, hinstalled, ?_, ?_⟩
  · intro h
    rcases h noFiles hinstalled with hpresent | husable
    · cases hpresent
    · cases husable
  · intro i hregistry
    exact runInstall_again hregistry (by simp) (by rw [hinstalled]; rfl)

end CodeQuery.Cli.Grammar
