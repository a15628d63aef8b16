/-
  CodeQuery.Parse.PackageInstall — the package directory in an automatic installation
  (`auto_install_grammar` of `codequery-parse/src/parser.rs`; its threads are in
  `CodeQuery.Parse.AutoInstall`).

  The directory is made if it is not there, the archive is unpacked into it, and every
  failure from then on removes it, whatever it held before. So a failure leaves it as it
  was exactly when it was not there and is removed, or the removal fails and leaves what
  was there (`failure_leaves_iff`); `a_failed_download_removes_a_package` is one that
  does not.
-/

import CodeQuery.Text.Bytes

namespace CodeQuery.Parse.AutoInstall

open CodeQuery.Text

/-! ## The call -/

/-- What is in a directory: the files by their paths below it. -/
abbrev Files := String → Option Str

def noFiles : Files := fun _ => none

/-- There is a `grammar.wasm` of more than 100 bytes. -/
def usable (files : Files) : Bool := (files "grammar.wasm").any (100 < ·.length)

/-- What the system makes of the steps of a call. -/
structure Outcomes where
  /-- `languages_dir()` is there. -/
  hasLanguagesDir : Bool
  /-- `create_dir_all` makes a directory that is not there. -/
  creates : Bool
  /-- `curl` runs, and succeeds. -/
  download : Option Bool
  /-- `tar` runs and succeeds, and what is in the directory then. -/
  extract : Files → Bool × Files
  /-- What `remove_dir_all` leaves; its result is ignored. -/
  remove : Files → Option Files

structure Installed where
  result : Bool
  attempted : List String
  /-- The package's directory. -/
  pkgDir : Option Files

/-- The directory that the archive is unpacked into. -/
def createDirAll (o : Outcomes) : Option Files → Option Files
  | some files => some files
  | none => if o.creates then some noFiles else none

def autoInstallGrammar (o : Outcomes) (name : String) (attempted : List String) (pkgDir : Option Files) : Installed :=
  if name ∈ attempted then ⟨false, attempted, pkgDir⟩
  else
    let attempted := attempted ++ [name]
    if !o.hasLanguagesDir then ⟨false, attempted, pkgDir⟩
    else
      match createDirAll o pkgDir with
      | none => ⟨false, attempted, pkgDir⟩
      | some files =>
        match o.download with
        | none => ⟨false, attempted, o.remove files⟩
        | some false => ⟨false, attempted, o.remove files⟩
        | some true =>
          match o.extract files with
          | (true, extracted) =>
            if usable extracted then ⟨true, attempted, some extracted⟩ else ⟨false, attempted, o.remove extracted⟩
          | (false, extracted) => ⟨false, attempted, o.remove extracted⟩

/-! ## A failure -/

section Failure

variable (o : Outcomes) (name : String) (attempted : List String) (pkgDir : Option Files)

/-- The call ends before it touches the directory. -/
def EndsEarly : Prop := name ∈ attempted ∨ o.hasLanguagesDir = false ∨ createDirAll o pkgDir = none

/-- The download, the extraction and the check succeed. -/
def Succeeds : Prop :=
  ∃ files extracted, createDirAll o pkgDir = some files ∧ o.download = some true ∧ o.extract files = (true, extracted) ∧
    usable extracted = true

/-- What the directory holds when it is removed. -/
def atRemoval (files : Files) : Files := if o.download = some true then (o.extract files).2 else files

/-- There was no directory and the removal leaves none; or there was one, and the removal
    fails and leaves the files that it held. -/
def RemovalRestores : Prop :=
  match pkgDir with
  | none => o.remove (atRemoval o noFiles) = none
  | some files => o.remove (atRemoval o files) = some files

variable {o name attempted pkgDir}

theorem autoInstall_early (h : EndsEarly o name attempted pkgDir) :
    (autoInstallGrammar o name attempted pkgDir).result = false ∧
      (autoInstallGrammar o name attempted pkgDir).pkgDir = pkgDir := by
  unfold autoInstallGrammar
  by_cases htried : name ∈ attempted
  · simp [htried]
  · rcases h with h | h | h
    · exact absurd h htried
    · simp [htried, h]
    · cases o.hasLanguagesDir <;> simp [htried, h]

theorem succeeds_iff {files : Files} (hfiles : createDirAll o pkgDir = some files) :
    Succeeds o pkgDir ↔ o.download = some true ∧ (o.extract files).1 = true ∧ usable (o.extract files).2 = true := by
  unfold Succeeds
  constructor
  · intro h
    obtain ⟨files', extracted, hfiles', hdownload, hextract, husable⟩ := h
    rw [hfiles] at hfiles'
    cases hfiles'
    rw [hextract]
    exact ⟨hdownload, rfl, husable⟩
  · intro h
    obtain ⟨hdownload, hextract, husable⟩ := h
    exact ⟨files, (o.extract files).2, hfiles, hdownload, Prod.ext hextract rfl, husable⟩

/-- A call that touches the directory succeeds, or removes what is there. -/
theorem autoInstall_late (h : ¬ EndsEarly o name attempted pkgDir) :
    ∃ files, createDirAll o pkgDir = some files ∧
      ((Succeeds o pkgDir ∧ autoInstallGrammar o name attempted pkgDir =
          ⟨true, attempted ++ [name], some (o.extract files).2⟩) ∨
        ¬ Succeeds o pkgDir ∧ autoInstallGrammar o name attempted pkgDir =
          ⟨false, attempted ++ [name], o.remove (atRemoval o files)⟩) := by
  unfold EndsEarly at h
  push Not at h
  obtain ⟨htried, hdir, hcreated⟩ := h
  obtain ⟨files, hfiles⟩ := Option.ne_none_iff_exists'.mp hcreated
  refine ⟨files, hfiles, ?_⟩
  rw [autoInstallGrammar, if_neg htried, hfiles]
  dsimp only
  rw [if_neg (by simpa using hdir)]
  rw [succeeds_iff hfiles]
  unfold atRemoval
  cases hdownload : o.download with
  | none => exact .inr ⟨by simp, rfl⟩
  | some success =>
    cases success with
    | false => exact .inr ⟨by simp, rfl⟩
    | true =>
      rcases o.extract files with ⟨_ | _, extracted⟩
      · exact .inr ⟨by simp, rfl⟩
      · cases husable : usable extracted with
        | true => exact .inl ⟨by simp, by simp [husable]⟩
        | false => exact .inr ⟨by simp, by simp [husable]⟩

end Failure

/-- A failure leaves the directory as it was exactly when the call ends before it touches
    it, does not fail, or removes what it made or nothing at all. -/
theorem failure_leaves_iff (o : Outcomes) (name : String) (attempted : List String) (pkgDir : Option Files) :
    ((autoInstallGrammar o name attempted pkgDir).result = false →
        (autoInstallGrammar o name attempted pkgDir).pkgDir = pkgDir) ↔
      EndsEarly o name attempted pkgDir ∨ Succeeds o pkgDir ∨ RemovalRestores o pkgDir := by
  by_cases hearly : EndsEarly o name attempted pkgDir
  · exact iff_of_true (fun _ => (autoInstall_early hearly).2) (.inl hearly)
  · obtain ⟨files, hfiles, ⟨hsucceeds, hcall⟩ | ⟨hfails, hcall⟩⟩ := autoInstall_late hearly
    · rw [hcall]
      exact iff_of_true (fun h => nomatch h) (.inr (.inl hsucceeds))
    · rw [hcall, or_iff_right hearly, or_iff_right hfails]
      have hrestores : RemovalRestores o pkgDir ↔ o.remove (atRemoval o files) = pkgDir := by
        cases pkgDir with
        | some held =>
          cases hfiles
          rfl
        | none =>
          obtain ⟨-, he⟩ := Option.ite_none_right_eq_some.mp hfiles
          cases he
          rfl
      rw [hrestores]
      exact ⟨fun h => h rfl, fun h _ => h⟩

/-! ## A failed download -/

/-- No network: nothing is downloaded, and the removal succeeds. -/
def offline : Outcomes := ⟨true, true, some false, fun files => (false, files), fun _ => none⟩

/-- A package whose rules the user wrote, and whose grammar is yet to come. -/
def ownRules : Files := fun path => if path = "extract.toml" then some (str "[language]") else none

/-- The download fails, and the user's rules are gone. -/
theorem a_failed_download_removes_a_package :
    (autoInstallGrammar offline "lua" [] (some ownRules)).result = false ∧
      (autoInstallGrammar offline "lua" [] (some ownRules)).pkgDir = none ∧
      ¬ ((autoInstallGrammar offline "lua" [] (some ownRules)).result = false →
        (autoInstallGrammar offline "lua" [] (some ownRules)).pkgDir = some ownRules) := by
  have hcall : autoInstallGrammar offline "lua" [] (some ownRules) = ⟨false, ["lua"], none⟩ := rfl
  rw [hcall]
  exact ⟨rfl, rfl, fun h => nomatch h rfl⟩

end CodeQuery.Parse.AutoInstall
