/-
  CodeQuery.Cli.Dead — the dead command (`codequery-cli/src/commands/dead.rs`).

  A symbol is dead when its name is that of no reference of the scan. With a scope the
  scan is of the scope alone: its symbols are the candidates, and its references are all
  that count. So a symbol dead in a scope need not be dead in the project: it is exactly
  when its name stands at no reference of the project's trees (`widened_dead_iff`), in fresh
  scans none of the files outside the scope (`widened_dead_iff_outside`). A use there breaks
  it (`a_use_outside_the_scope_is_not_seen`).
-/

import CodeQuery.Cli.Rename
import CodeQuery.Data.StableSort
import CodeQuery.Index.ScannerProofs
import CodeQuery.Text.Words

namespace CodeQuery.Cli.Dead

open CodeQuery.Core CodeQuery.Text CodeQuery.Data CodeQuery.Index

/-! ## The command -/

inductive DeadError where
  | discover (e : DiscoverError)
  /-- `unknown symbol kind: {s}. valid kinds: …`. -/
  | unknownKind (s : String)
  deriving DecidableEq, Repr

def parseKind (s : String) : Except DeadError SymbolKind :=
  match String.ofList (s.toList.map Language.lowerChar) with
  | "function" => .ok .function
  | "method" => .ok .method
  | "struct" => .ok .struct
  | "class" => .ok .class_
  | "trait" => .ok .trait
  | "interface" => .ok .interface
  | "enum" => .ok .enum
  | "type" | "type_alias" => .ok .type
  | "const" | "constant" => .ok .const
  | "static" => .ok .static
  | "module" => .ok .module_
  | _ => .error (.unknownKind s)

section Scan

variable (root : Path) (scan : List FileSymbols)

/-- The names at the scan's references. -/
def referencedNames : List Str :=
  (scanReferences scan root none).filterMap fun r => extractNameAtColumn r.context r.column

/-- What the command looks at: symbols of the kind asked for, but no impl block, no test
    and no `main`. -/
def isCandidate (kindFilter : Option SymbolKind) (s : Symbol) : Bool :=
  kindFilter.all (s.kind == ·) && s.kind != .impl && s.kind != .test && s.name != str "main"

/-- By file, then by line. -/
def symbolKey (s : Symbol) : Path ×ₗ ℕ := toLex (s.file, s.line)

def sortSymbols (l : List Symbol) : List Symbol := l.insertionSort (symbolKey · ≤ symbolKey ·)

def deadSymbols (kindFilter : Option SymbolKind) : List Symbol :=
  sortSymbols ((SymbolIndex.fromScan scan).symbols.filter fun s =>
    isCandidate kindFilter s && !(referencedNames root scan).contains s.name)

end Scan

structure Args where
  kind : Option String
  limit : Option Nat

/-- `run` behind its scan, up to printing. -/
def run (root : Path) (args : Args) (scan : Except DiscoverError (List FileSymbols)) : Except DeadError (List Symbol) :=
  match scan with
  | .error e => .error (.discover e)
  | .ok entries =>
    match args.kind.mapM parseKind with
    | .error e => .error e
    | .ok kindFilter =>
      let dead := deadSymbols root entries kindFilter
      .ok ((args.limit.map dead.take).getD dead)

/-! ## Who is reported -/

/-- The command reports the symbol. -/
def Reports (r : Except DeadError (List Symbol)) (s : Symbol) : Prop := ∃ dead, r = .ok dead ∧ s ∈ dead

section Reports

variable {root : Path} {scan : List FileSymbols} {kindFilter : Option SymbolKind} {s : Symbol}

theorem mem_deadSymbols :
    s ∈ deadSymbols root scan kindFilter ↔
      s ∈ (SymbolIndex.fromScan scan).symbols ∧ isCandidate kindFilter s = true ∧ s.name ∉ referencedNames root scan := by
  rw [deadSymbols, sortSymbols, List.mem_insertionSort, List.mem_filter]
  simp

theorem mem_limited {limit : Option Nat} {dead : List Symbol} :
    s ∈ (limit.map dead.take).getD dead ↔ s ∈ dead ∧ ∀ n, limit = some n → s ∈ dead.take n := by
  cases limit with
  | none => simp
  | some n =>
    simp only [Option.map_some, Option.getD_some, Option.some.injEq, forall_eq']
    exact ⟨fun h => ⟨List.mem_of_mem_take h, h⟩, fun h => h.2⟩

theorem reports_iff {args : Args} {scan : Except DiscoverError (List FileSymbols)} :
    Reports (run root args scan) s ↔ ∃ entries kindFilter, scan = .ok entries ∧ args.kind.mapM parseKind = .ok kindFilter ∧
      s ∈ deadSymbols root entries kindFilter ∧ ∀ n, args.limit = some n → s ∈ (deadSymbols root entries kindFilter).take n := by
  refine ⟨fun h => ?_, fun h => ?_⟩
  · obtain ⟨dead, hrun, hs⟩ := h
    unfold run at hrun
    split at hrun
    · cases hrun
    · rename_i entries
      split at hrun
      · cases hrun
      · rename_i kindFilter hkind
        cases hrun
        exact ⟨entries, kindFilter, rfl, hkind, mem_limited.mp hs⟩
  · obtain ⟨entries, kindFilter, rfl, hkind, hs⟩ := h
    refine ⟨_, ?_, mem_limited.mpr hs⟩
    simp only [run, hkind]

end Reports

/-! ## The references of the trees -/

/-- The name stands at the reference: it begins in its line at its column, and ends where no
    character of a name follows. -/
def StandsAt (r : Reference) (name : Str) : Prop :=
  name ≠ [] ∧ (∀ b ∈ name, isWordByte b = true) ∧
    ∃ before after, r.context = before ++ (name ++ after) ∧ before.length = r.column ∧
      ∀ b, after.head? = some b → isWordByte b = false

theorem extractNameAtColumn_iff {r : Reference} {name : Str} :
    extractNameAtColumn r.context r.column = some name ↔ StandsAt r name := by
  constructor
  · intro h
    simp only [extractNameAtColumn] at h
    split at h
    · cases h
    next hcolumn =>
      split at h
      · cases h
      next hne =>
        cases h
        obtain ⟨hword, after, hsplit, hafter⟩ := takeWhile_eq_iff.mp (rfl : (r.context.drop r.column).takeWhile isWordByte = _)
        refine ⟨by simpa using hne, hword, r.context.take r.column, after, ?_, ?_, hafter⟩
        · rw [← hsplit, List.take_append_drop]
        · rw [List.length_take]
          omega
  · rintro ⟨hne, hword, before, after, hcontext, hcolumn, hafter⟩
    have hdrop : (r.context.drop r.column).takeWhile isWordByte = name := by
      rw [hcontext, ← hcolumn, List.drop_left]
      exact takeWhile_eq_iff.mpr ⟨hword, after, rfl, hafter⟩
    have hpos := List.length_pos_iff.mpr hne
    have hlt : ¬ r.column ≥ r.context.length := by
      rw [hcontext, List.length_append, List.length_append]
      omega
    simp only [extractNameAtColumn, hlt, if_false, hdrop]
    simpa using hne

/-- A reference in the tree of the file is to the name. -/
def RefersIn (root : Path) (fs : FileSymbols) (name : Str) : Prop :=
  ∃ language, entryLanguage root fs.file = some language ∧
    ∃ r ∈ extractReferences fs.source fs.tree fs.file language, StandsAt r name

theorem mem_referencedNames {root : Path} {scan : List FileSymbols} {name : Str} :
    name ∈ referencedNames root scan ↔ ∃ fs ∈ scan, RefersIn root fs name := by
  simp only [referencedNames, List.mem_filterMap, extractNameAtColumn_iff, scanReferences, List.mem_flatMap]
  constructor
  · rintro ⟨r, ⟨fs, hfs, hr⟩, hname⟩
    cases hlanguage : entryLanguage root fs.file with
    | none => simp [hlanguage] at hr
    | some language => exact ⟨fs, hfs, language, hlanguage, r, by simpa [hlanguage] using hr, hname⟩
  · rintro ⟨fs, hfs, language, hlanguage, r, hr, hname⟩
    exact ⟨r, ⟨fs, hfs, by simpa [hlanguage] using hr⟩, hname⟩

/-- The file lists the symbol, among its own or inside of one of these. -/
def Lists (fs : FileSymbols) (s : Symbol) : Prop := s ∈ SymbolIndex.flattenAll fs.symbols

/-- The symbol is one the command looks at, and no reference in the trees of the scan is to its
    name. -/
def Unused (root : Path) (scan : List FileSymbols) (kindFilter : Option SymbolKind) (s : Symbol) : Prop :=
  isCandidate kindFilter s = true ∧ ∀ fs ∈ scan, ¬ RefersIn root fs s.name

open Classical in
/-- Fewer than `n` unused symbols come before this one: those of an earlier file and line, and
    those of its own that are listed ahead of it. -/
def FewerAhead (root : Path) (scan : List FileSymbols) (kindFilter : Option SymbolKind) (s : Symbol) (n : Nat) : Prop :=
  let unused := (scan.flatMap fun fs => SymbolIndex.flattenAll fs.symbols).filter fun t => decide (Unused root scan kindFilter t)
  ∃ ahead behind, unused.filter (symbolKey · = symbolKey s) = ahead ++ s :: behind ∧
    (unused.filter (symbolKey · < symbolKey s)).length + ahead.length < n

section Trees

variable {root : Path} {scan : List FileSymbols} {kindFilter : Option SymbolKind} {s : Symbol}

theorem mem_deadSymbols_iff :
    s ∈ deadSymbols root scan kindFilter ↔ (∃ fs ∈ scan, Lists fs s) ∧ Unused root scan kindFilter s := by
  rw [mem_deadSymbols, SymbolIndex.fromScan_symbols, List.mem_flatMap, mem_referencedNames, not_exists]
  simp only [Unused, Lists, not_and]

open Classical in
theorem deadSymbols_eq : deadSymbols root scan kindFilter =
    stableSort symbolKey ((scan.flatMap fun fs => SymbolIndex.flattenAll fs.symbols).filter fun t =>
      decide (Unused root scan kindFilter t)) := by
  rw [deadSymbols, SymbolIndex.fromScan_symbols]
  refine congrArg sortSymbols (List.filter_congr fun t _ => ?_)
  rw [Bool.eq_iff_iff, decide_eq_true_eq, Unused, Bool.and_eq_true, Bool.not_eq_true', ← not_exists_mem]
  simp [mem_referencedNames]

theorem mem_take_deadSymbols_iff {n : Nat} :
    s ∈ (deadSymbols root scan kindFilter).take n ↔ FewerAhead root scan kindFilter s n := by
  rw [deadSymbols_eq, mem_take_stableSort]
  exact Iff.rfl

end Trees

/-! ## Two scopes -/

section Widen

variable {root : Path} {args : Args} {s : Symbol}

/-- A symbol dead in a scope is dead in the project if and only if the project's scan lists it,
    no reference in the project's trees is to its name, and, with a limit, fewer unused symbols
    come before it. -/
theorem widened_dead_iff {T : Toolchain} {d : Disk} {scope : Path} {home home' : Bool} {store store' : StoreOutcome}
    {record record' : Option (List CachedFile)}
    (h : Reports (run root args (scanProjectCached T d root (some scope) home store record).1) s) :
    Reports (run root args (scanProjectCached T d root none home' store' record').1) s ↔
      ∃ whole, (scanProjectCached T d root none home' store' record').1 = .ok whole ∧ (∃ fs ∈ whole, Lists fs s) ∧
        (∀ fs ∈ whole, ¬ RefersIn root fs s.name) ∧
        ∀ n kindFilter, args.limit = some n → args.kind.mapM parseKind = .ok kindFilter →
          FewerAhead root whole kindFilter s n := by
  obtain ⟨part, kindFilter, -, hkind, hdead, -⟩ := reports_iff.mp h
  obtain ⟨-, hcandidate, -⟩ := mem_deadSymbols_iff.mp hdead
  rw [reports_iff]
  constructor
  · rintro ⟨whole, kindFilter', hscan, hkind', hdead', hlimit⟩
    obtain ⟨hlisted, -, hunnamed⟩ := mem_deadSymbols_iff.mp hdead'
    refine ⟨whole, hscan, hlisted, hunnamed, fun n kindFilter'' hn hkind'' => ?_⟩
    cases hkind'.symm.trans hkind''
    exact mem_take_deadSymbols_iff.mp (hlimit n hn)
  · rintro ⟨whole, hscan, hlisted, hunnamed, hlimit⟩
    refine ⟨whole, kindFilter, hscan, hkind, mem_deadSymbols_iff.mpr ⟨hlisted, hcandidate, hunnamed⟩, fun n hn => ?_⟩
    exact mem_take_deadSymbols_iff.mpr (hlimit n kindFilter hn hkind)

/-- Over two fresh scans, the whole one listing the files of the scope, and with no limit, the
    files outside the scope decide. -/
theorem widened_dead_iff_outside {T : Toolchain} {d : Disk} {scope : Path} {part whole : List FileSymbols}
    (hpart : scanProject T d root (some scope) = .ok part) (hwhole : scanProject T d root none = .ok whole)
    (hfiles : ∀ fs ∈ part, ∃ fs' ∈ whole, fs'.file = fs.file) (hlimit : args.limit = none)
    (h : Reports (run root args (.ok part)) s) :
    Reports (run root args (.ok whole)) s ↔
      ∀ fs ∈ whole, (∀ fs' ∈ part, fs'.file ≠ fs.file) → ¬ RefersIn root fs s.name := by
  obtain ⟨_, kindFilter, hok, hkind, hdead, -⟩ := reports_iff.mp h
  cases hok
  obtain ⟨⟨fs, hfs, hlisted⟩, hcandidate, hunnamed⟩ := mem_deadSymbols_iff.mp hdead
  have hlisted' : ∃ fs ∈ whole, Lists fs s := by
    obtain ⟨fs', hfs', he⟩ := hfiles fs hfs
    exact ⟨fs', hfs', scanProject_unique hpart hwhole hfs hfs' he.symm ▸ hlisted⟩
  rw [reports_iff]
  constructor
  · rintro ⟨_, _, hscan, _, hdead', _⟩ fs hfs _
    cases hscan
    exact (mem_deadSymbols_iff.mp hdead').2.2 fs hfs
  · intro houtside
    refine ⟨whole, kindFilter, rfl, hkind, mem_deadSymbols_iff.mpr ⟨hlisted', hcandidate, fun fs hfs => ?_⟩, by simp [hlimit]⟩
    by_cases hin : ∃ fs' ∈ part, fs'.file = fs.file
    · obtain ⟨fs', hfs', he⟩ := hin
      exact scanProject_unique hpart hwhole hfs' hfs he ▸ hunnamed fs' hfs'
    · exact houtside fs hfs fun fs' hfs' he => hin ⟨fs', hfs', he⟩

end Widen

/-! ## A use outside the scope -/

def definesG : Str := str "fn g() {}"

def callsG : Str := str "fn main() { g(); }"

/-- What the tools make of the two sources. -/
def twoTools : Toolchain where
  parse _ source :=
    if source = callsG then
      some ⟨"source_file", none, 0, 18, ⟨0, 0⟩, ⟨0, 18⟩, true, false, false,
        [⟨"call_expression", none, 12, 15, ⟨0, 12⟩, ⟨0, 15⟩, true, false, false,
          [.leaf "identifier" (some "function") 0 12 12 1 true, .leaf "arguments" (some "arguments") 0 13 13 2 true]⟩]⟩
    else some (.leaf "source_file" none 0 0 0 9 true)
  extractSymbols source _ file _ :=
    if source = callsG then [⟨str "main", .function, file, 1, 0, 1, .private_, [], none, none, some (str "fn main()")⟩]
    else [⟨str "g", .function, file, 1, 0, 1, .private_, [], none, none, some (str "fn g()")⟩]

def twoDisk : Disk :=
  plainDisk [(projectRoot ++ [.normal "a.rs"], ⟨callsG, 1000000000⟩),
    (projectRoot ++ [.normal "lib", .normal "b.rs"], ⟨definesG, 1000000000⟩)]

def libScope : Path := [.normal "lib"]

def symbolG : Symbol :=
  ⟨str "g", .function, [.normal "lib", .normal "b.rs"], 1, 0, 1, .private_, [], none, none, some (str "fn g()")⟩

theorem g_dead_in_lib :
    Reports (run projectRoot ⟨none, none⟩ (scanProjectCached twoTools twoDisk projectRoot (some libScope) false .kept
      none).1) symbolG :=
  ⟨[symbolG], by rfl, List.mem_singleton_self _⟩

/-- `a.rs` calls `g`, and `lib` does not: `g` is dead in `lib`, and the project has no
    dead symbol. -/
theorem a_use_outside_the_scope_is_not_seen :
    Reports (run projectRoot ⟨none, none⟩ (scanProjectCached twoTools twoDisk projectRoot (some libScope) false .kept
      none).1) symbolG ∧
    ¬ Reports (run projectRoot ⟨none, none⟩ (scanProjectCached twoTools twoDisk projectRoot none false .kept none).1)
      symbolG := by
  refine ⟨g_dead_in_lib, fun h => ?_⟩
  have hnone : run projectRoot ⟨none, none⟩ (scanProjectCached twoTools twoDisk projectRoot none false .kept none).1 =
      .ok [] := by rfl
  obtain ⟨dead, hrun, hs⟩ := h
  rw [hnone] at hrun
  cases hrun
  cases hs

theorem widened_dead_iff_g :
    Reports (run projectRoot ⟨none, none⟩ (scanProjectCached twoTools twoDisk projectRoot none false .kept none).1)
      symbolG ↔
    ∃ whole, (scanProjectCached twoTools twoDisk projectRoot none false .kept none).1 = .ok whole ∧
      (∃ fs ∈ whole, Lists fs symbolG) ∧ (∀ fs ∈ whole, ¬ RefersIn projectRoot fs symbolG.name) ∧
      ∀ n kindFilter, (none : Option Nat) = some n → Option.mapM parseKind (none : Option String) = .ok kindFilter →
        FewerAhead projectRoot whole kindFilter symbolG n :=
  widened_dead_iff g_dead_in_lib

end CodeQuery.Cli.Dead
