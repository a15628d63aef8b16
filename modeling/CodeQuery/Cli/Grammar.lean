/-
  CodeQuery.Cli.Grammar — installing and updating language packages
  (`codequery-cli/src/commands/grammar.rs`).

  The languages directory is what it holds, package by package. What the network, the
  file system and `tar` make of a package is given from outside, as are the registries
  that are loaded.
-/

import Mathlib.Data.List.AList
import Mathlib.Data.List.Sort
import Mathlib.Data.String.Basic

namespace CodeQuery.Cli.Grammar

inductive ExitCode where
  | success
  | usageError
  | projectError
  | parseWarning
  deriving DecidableEq, Repr

/-- The errors of the commands; what the system says is left out. -/
inductive GrammarError where
  /-- `failed to parse language registry: {e}`. -/
  | registry
  /-- `cannot determine languages directory`. -/
  | noLanguagesDir
  /-- `failed to create directory: {e}`. -/
  | createDirectory
  /-- `failed to remove {pkg_dir}: {e}`. -/
  | remove (language : String)
  deriving DecidableEq, Repr

section Packages

variable {α : Type}

/-- The packages in the languages directory, with what is in each. -/
abbrev Packages (α : Type) := AList fun _ : String => α

/-- What becomes of a package once it is known and not there. -/
inductive Fetch (α : Type) where
  | downloadFailed
  | createFailed
  /-- The directory is removed again, as far as that goes. -/
  | extractFailed (left : Option α)
  | extracted (content : α)

structure Installation (α : Type) where
  /-- The languages of the registry that is loaded. -/
  registry : Option (List String)
  fetch : Fetch α

/-- `find_installed`. -/
def findInstalled (dir : Packages α) : List String := dir.keys.mergeSort (· ≤ ·)

/-- The package as a removal or an extraction leaves it. -/
def leave (dir : Packages α) (language : String) : Option α → Packages α
  | none => dir.erase language
  | some content => dir.insert language content

def runInstall (i : Installation α) (language : String) (dir : Packages α) : Except GrammarError ExitCode × Packages α :=
  match i.registry with
  | none => (.error .registry, dir)
  | some languages =>
    if !languages.contains language then (.ok .usageError, dir)
    else if (dir.lookup language).isSome then (.ok .success, dir)
    else
      match i.fetch with
      | .downloadFailed => (.ok .projectError, dir)
      | .createFailed => (.error .createDirectory, dir)
      | .extractFailed left => (.ok .projectError, leave dir language left)
      | .extracted content => (.ok .success, leave dir language (some content))

/-- What becomes of a package in an update. -/
inductive Reinstallation (α : Type) where
  | removalFailed (left : Option α)
  | removed (installation : Installation α)

/-- The loop of `run_update`; an error ends it. -/
def updateLoop (outcome : String → Reinstallation α) : List String → Packages α → Except GrammarError Unit × Packages α
  | [], dir => (.ok (), dir)
  | name :: names, dir =>
    match outcome name with
    | .removalFailed left => (.error (.remove name), leave dir name left)
    | .removed i =>
      match runInstall i name (leave dir name none) with
      | (.error e, dir') => (.error e, dir')
      | (.ok _, dir') => updateLoop outcome names dir'

structure Update (α : Type) where
  /-- `languages_dir()` is there. -/
  hasDir : Bool
  registry : Option (List String)
  outcome : String → Reinstallation α

def runUpdate (u : Update α) (dir : Packages α) : Except GrammarError ExitCode × Packages α :=
  if !u.hasDir then (.error .noLanguagesDir, dir)
  else
    let installed := findInstalled dir
    if installed.isEmpty then (.ok .success, dir)
    else if u.registry.isNone then (.error .registry, dir)
    else
      match updateLoop u.outcome installed dir with
      | (.error e, dir') => (.error e, dir')
      | (.ok _, dir') => (.ok .success, dir')

end Packages

end CodeQuery.Cli.Grammar
