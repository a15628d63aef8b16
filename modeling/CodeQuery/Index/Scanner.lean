/-
  CodeQuery.Index.Scanner — file discovery, the scan, and the scan with a disk cache
  (`discovery.rs`, `scanner.rs`, `cache.rs`).

  The walk of the `ignore` crate, the grammars and the extractors are what the
  scanner calls: the walk is part of the disk, since ignore files decide it, and the
  other two are a `Toolchain`. A record on disk is what `load` gives of it; one that
  does not load is no record.
-/

import CodeQuery.Core.Language
import CodeQuery.Core.Symbol
import CodeQuery.Parse.Tree
import CodeQuery.Text.Utf8
import Mathlib.Data.List.Sort

namespace CodeQuery.Index

open CodeQuery.Core CodeQuery.Parse CodeQuery.Text

/-! ## The disk and the tools -/

structure FileData where
  content : Str
  /-- Nanoseconds from the Unix epoch. -/
  mtime : Int
  deriving DecidableEq, Repr

structure WalkEntry where
  path : Path
  /-- `file_type().is_file()`, when there is a file type. -/
  isFile : Option Bool
  deriving DecidableEq, Repr

structure Disk where
  file : Path → Option FileData
  pathExists : Path → Bool
  /-- The entries of a walk from a path; `none` is a walk error. -/
  walk : Path → List (Option WalkEntry)

structure Toolchain where
  /-- `Parser::for_language(language).ok()`, then `parse`. -/
  parse : Language → Str → Option Node
  extractSymbols : Str → Node → Path → Language → List Symbol

/-- `fs::read_to_string(path).ok()`. -/
def Disk.readToString (d : Disk) (p : Path) : Option Str :=
  (d.file p).bind fun f => if (fromUtf8 f.content).isSome then some f.content else none

/-- `file_metadata`: whole seconds and size, unless the file is older than the epoch. -/
def Disk.fileMetadata (d : Disk) (p : Path) : Option (Nat × Nat) :=
  (d.file p).bind fun f => if f.mtime < 0 then none else some ((f.mtime / 1000000000).toNat, f.content.length)

/-! ## Discovery -/

inductive DiscoverError where
  | doesNotExist (path : Path)
  | walk
  | notRelative
  deriving DecidableEq, Repr

def collectFiles (root : Path) : List (Option WalkEntry) → Except DiscoverError (List Path)
  | [] => .ok []
  | none :: _ => .error .walk
  | some e :: t =>
    if e.isFile = some true ∧ (languageNameForFile e.path).isSome then
      match e.path.stripPrefix root with
      | none => .error .notRelative
      | some rel => (collectFiles root t).map (rel :: ·)
    else collectFiles root t

def discoverFiles (d : Disk) (root : Path) (scope : Option Path) : Except DiscoverError (List Path) :=
  let walkRoot := (scope.map root.join).getD root
  if d.pathExists walkRoot then (collectFiles root (d.walk walkRoot)).map (List.insertionSort (· ≤ ·))
  else .error (.doesNotExist walkRoot)

/-! ## The scan -/

structure FileSymbols where
  file : Path
  symbols : List Symbol
  source : Str
  tree : Node

section Scan

variable (T : Toolchain) (d : Disk) (root : Path)

def scanSingleFile (relative : Path) : Option FileSymbols := do
  let absolute := root.join relative
  let language ← languageForFile absolute
  let source ← d.readToString absolute
  let tree ← T.parse language source
  some ⟨relative, T.extractSymbols source tree relative language, source, tree⟩

def sortByFile (l : List FileSymbols) : List FileSymbols := l.insertionSort (·.file ≤ ·.file)

def scanProject (scope : Option Path) : Except DiscoverError (List FileSymbols) :=
  (discoverFiles d root scope).map fun files => sortByFile (files.filterMap (scanSingleFile T d root))

/-! ## The cache -/

structure CachedFile where
  path : Path
  mtime : Nat
  size : Nat
  symbols : List Symbol

/-- Every recorded file has its recorded time and size. -/
def isValid (cached : List CachedFile) : Bool :=
  cached.all fun e => d.fileMetadata (root.join e.path) == some (e.mtime, e.size)

def rebuildEntry (e : CachedFile) : Option FileSymbols := do
  let absolute := root.join e.path
  let language ← languageForFile absolute
  let source ← d.readToString absolute
  let tree ← T.parse language source
  some ⟨e.path, e.symbols, source, tree⟩

def inScope (scope : Option Path) (p : Path) : Bool := scope.all (p.startsWith ·)

def rebuildFromCache (cached : List CachedFile) (scope : Option Path) : List FileSymbols :=
  sortByFile ((cached.filter (inScope scope ·.path)).filterMap (rebuildEntry T d root))

def buildCacheEntries (results : List FileSymbols) : List CachedFile :=
  results.filterMap fun fs => (d.fileMetadata (root.join fs.file)).map fun m => ⟨fs.file, m.1, m.2, fs.symbols⟩

/-- What becomes of `store.store`: the record is written, the old one stays (its
    directory or file could not be opened), or the file is left without a record that
    loads (a write that broke off). -/
inductive StoreOutcome where
  | written
  | kept
  | torn
  deriving DecidableEq, Repr

def StoreOutcome.apply (o : StoreOutcome) (old : Option (List CachedFile)) (new : List CachedFile) :
    Option (List CachedFile) :=
  match o with
  | .written => some new
  | .kept => old
  | .torn => none

/-- The record that answers a call: it loads and is valid. `home` says whether a cache
    directory can be determined. -/
def cacheHit (home : Bool) (record : Option (List CachedFile)) : Option (List CachedFile) :=
  if home then record.filter (isValid d root) else none

/-- `scan_project_cached` with the cache enabled: its result, and the record it leaves. -/
def scanProjectCached (scope : Option Path) (home : Bool) (store : StoreOutcome)
    (record : Option (List CachedFile)) : Except DiscoverError (List FileSymbols) × Option (List CachedFile) :=
  match cacheHit d root home record with
  | some cached => (.ok (rebuildFromCache T d root cached scope), record)
  | none =>
    match scanProject T d root scope with
    | .error e => (.error e, record)
    | .ok results =>
      (.ok results, if home then store.apply record (buildCacheEntries d root results) else record)

end Scan

end CodeQuery.Index
