/-
  CodeQuery.Index.ScannerProofs — when a cached scan is a scan (see `CodeQuery.Index.Scanner`).

  A run goes through worlds: the disk, the record, and, for the proofs only, the disk
  and the scope the record was written under. Between calls the disk becomes any other
  disk (files created, edited, deleted, ignore files among them).

  (1) Over one disk (`scanned_iff_covered`): a call returns what `scanProject` returns
      if and only if it is not answered from the record, or the record's scope covers
      its own. `a_scoped_scan_hides_the_rest` is a run that breaks it.
  (2) Over a changing disk, unscoped (`unscoped_scan_fresh_iff`): a call answered from
      the record returns what `scanProject` returns of the disk as it is if and only if a
      file found then is gone or has another time, in whole seconds, or another size, or
      nothing has changed. `an_added_file_is_not_scanned` is a run that breaks it.
-/

import CodeQuery.Index.Scanner
import Mathlib.Data.Set.Basic

namespace CodeQuery.Index

open CodeQuery.Core CodeQuery.Parse CodeQuery.Text

variable {T : Toolchain} {d : Disk} {root : Path}

/-! ## The scan, file by file -/

theorem scanSingleFile_file {p : Path} {fs : FileSymbols} (h : scanSingleFile T d root p = some fs) : fs.file = p := by
  simp only [scanSingleFile, Option.bind_eq_bind, Option.bind_eq_some_iff, Option.some.injEq] at h
  obtain ⟨_, _, _, _, _, _, rfl⟩ := h
  rfl

/-- A cached entry is rebuilt as its file scans now, with the recorded symbols. -/
theorem rebuildEntry_eq (e : CachedFile) :
    rebuildEntry T d root e = (scanSingleFile T d root e.path).map fun fs => { fs with symbols := e.symbols } := by
  simp only [rebuildEntry, scanSingleFile, Option.bind_eq_bind, Option.map_bind, Function.comp_def, Option.map_some]

@[simp] theorem mem_sortByFile {l : List FileSymbols} {fs : FileSymbols} : fs ∈ sortByFile l ↔ fs ∈ l :=
  List.mem_insertionSort _

theorem mem_scanProject {scope : Option Path} {l : List FileSymbols} (h : scanProject T d root scope = .ok l)
    {fs : FileSymbols} (hm : fs ∈ l) : scanSingleFile T d root fs.file = some fs := by
  simp only [scanProject] at h
  cases hf : discoverFiles d root scope with
  | error e => rw [hf] at h; cases h
  | ok files =>
    rw [hf] at h
    cases h
    obtain ⟨p, _, hp⟩ := List.mem_filterMap.mp (mem_sortByFile.mp hm)
    rw [scanSingleFile_file hp]
    exact hp

/-- A scan has one entry per file. -/
theorem scanProject_unique {scope scope' : Option Path} {l l' : List FileSymbols}
    (h : scanProject T d root scope = .ok l) (h' : scanProject T d root scope' = .ok l') {fs fs' : FileSymbols}
    (hm : fs ∈ l) (hm' : fs' ∈ l') (he : fs.file = fs'.file) : fs = fs' := by
  have h1 := mem_scanProject h hm
  rw [he, mem_scanProject h' hm'] at h1
  exact (Option.some.inj h1).symm

theorem mem_rebuildFromCache {cached : List CachedFile} {scope : Option Path} {x : FileSymbols} :
    x ∈ rebuildFromCache T d root cached scope ↔
      ∃ e ∈ cached, inScope scope e.path = true ∧
        ∃ fs, scanSingleFile T d root e.path = some fs ∧ x = { fs with symbols := e.symbols } := by
  simp only [rebuildFromCache, mem_sortByFile, List.mem_filterMap, List.mem_filter, rebuildEntry_eq,
    Option.map_eq_some_iff]
  constructor
  · intro h
    obtain ⟨e, ⟨he, hs⟩, fs, hfs, rfl⟩ := h
    exact ⟨e, he, hs, fs, hfs, rfl⟩
  · intro h
    obtain ⟨e, he, hs, fs, hfs, rfl⟩ := h
    exact ⟨e, ⟨he, hs⟩, fs, hfs, rfl⟩

theorem mem_buildCacheEntries {l : List FileSymbols} {e : CachedFile} :
    e ∈ buildCacheEntries d root l ↔
      ∃ fs ∈ l, e.path = fs.file ∧ e.symbols = fs.symbols ∧
        d.fileMetadata (root.join fs.file) = some (e.mtime, e.size) := by
  simp only [buildCacheEntries, List.mem_filterMap, Option.map_eq_some_iff]
  constructor
  · intro h
    obtain ⟨fs, hfs, m, hm, rfl⟩ := h
    exact ⟨fs, hfs, rfl, rfl, hm⟩
  · intro h
    obtain ⟨fs, hfs, h1, h2, hm⟩ := h
    exact ⟨fs, hfs, _, hm, by rw [← h1, ← h2]⟩

/-- What a caller compares: the set of files with their sources and symbols. -/
def view (l : List FileSymbols) : Set (Path × Str × List Symbol) :=
  { x | ∃ fs ∈ l, x = (fs.file, fs.source, fs.symbols) }

def SameResult : Except DiscoverError (List FileSymbols) → Except DiscoverError (List FileSymbols) → Prop
  | .ok l, .ok l' => view l = view l'
  | .error e, .error e' => e = e'
  | _, _ => False

theorem SameResult.refl (r : Except DiscoverError (List FileSymbols)) : SameResult r r := by
  cases r <;> simp [SameResult]

/-! ## Runs -/

structure World where
  disk : Disk
  record : Option (List CachedFile)
  /-- The disk and the scope of the scan the record holds; no call reads it. -/
  written : Option (Disk × Option Path)

inductive Ev where
  | edit (d : Disk)
  | scan (scope : Option Path) (home : Bool) (store : StoreOutcome)

variable (T root)

/-- What a call returns in a world. -/
def callResult (w : World) (scope : Option Path) (home : Bool) (store : StoreOutcome) :
    Except DiscoverError (List FileSymbols) :=
  (scanProjectCached T w.disk root scope home store w.record).1

/-- The call stores what it scanned. -/
def stores (w : World) (scope : Option Path) (home : Bool) : Bool :=
  home && (cacheHit w.disk root home w.record).isNone && (scanProject T w.disk root scope).isOk

def step (w : World) : Ev → World
  | .edit d => { w with disk := d }
  | .scan scope home store =>
    { w with
      record := (scanProjectCached T w.disk root scope home store w.record).2
      written := if stores T root w scope home && store == .written then some (w.disk, scope) else w.written }

/-- The worlds that events allowed by `ok` lead to, from a disk with no record. -/
inductive Reach (ok : Ev → Prop) : World → Prop
  | init (d : Disk) : Reach ok ⟨d, none, none⟩
  | step {w : World} (e : Ev) : Reach ok w → ok e → Reach ok (step T root w e)

/-- The record is what the scan it was written by found. -/
def Inv (w : World) : Prop :=
  ∀ record, w.record = some record → ∃ d0 s0 l0, w.written = some (d0, s0) ∧ scanProject T d0 root s0 = .ok l0 ∧
    record = buildCacheEntries d0 root l0

variable {T root}

variable (T root) in
/-- What a call does to the record: nothing, or its scan's outcome of the store. -/
theorem scan_cases (w : World) (scope : Option Path) (home : Bool) (store : StoreOutcome) :
    ((step T root w (.scan scope home store)).record = w.record ∧
      (step T root w (.scan scope home store)).written = w.written) ∨
    ((step T root w (.scan scope home store)).record = none ∧
      (step T root w (.scan scope home store)).written = w.written) ∨
    ∃ l, scanProject T w.disk root scope = .ok l ∧
      (step T root w (.scan scope home store)).record = some (buildCacheEntries w.disk root l) ∧
      (step T root w (.scan scope home store)).written = some (w.disk, scope) := by
  cases hh : cacheHit w.disk root home w.record with
  | some cached => left; simp [step, scanProjectCached, stores, hh]
  | none =>
    cases hs : scanProject T w.disk root scope with
    | error e => left; simp [step, scanProjectCached, stores, hh, hs, Except.isOk, Except.toBool]
    | ok l =>
      cases home with
      | false => left; simp [step, scanProjectCached, stores, hh, hs]
      | true => cases store <;>
          simp [step, scanProjectCached, stores, hh, hs, StoreOutcome.apply, Except.isOk, Except.toBool]

theorem step_inv {w : World} (h : Inv T root w) (e : Ev) : Inv T root (step T root w e) := by
  cases e with
  | edit d => exact h
  | scan scope home store =>
    intro record hr
    rcases scan_cases T root w scope home store with ⟨h1, h2⟩ | ⟨h1, _⟩ | ⟨l, hl, h1, h2⟩
    · rw [h1] at hr
      rw [h2]
      exact h record hr
    · rw [h1] at hr; cases hr
    · rw [h1] at hr
      cases hr
      exact ⟨w.disk, scope, l, h2, hl, rfl⟩

theorem inv {ok : Ev → Prop} {w : World} (h : Reach T root ok w) : Inv T root w := by
  induction h with
  | init d => intro record hr; cases hr
  | step e _ _ ih => exact step_inv ih e

/-- A call not answered from the record is a scan. -/
theorem callResult_miss {w : World} {scope : Option Path} {home : Bool} {store : StoreOutcome}
    (h : cacheHit w.disk root home w.record = none) :
    callResult T root w scope home store = scanProject T w.disk root scope := by
  simp only [callResult, scanProjectCached, h]
  cases scanProject T w.disk root scope <;> rfl

theorem callResult_hit {w : World} {scope : Option Path} {home : Bool} {store : StoreOutcome}
    {cached : List CachedFile} (h : cacheHit w.disk root home w.record = some cached) :
    callResult T root w scope home store = .ok (rebuildFromCache T w.disk root cached scope) := by
  simp only [callResult, scanProjectCached, h]

theorem cacheHit_some {home : Bool} {record : Option (List CachedFile)} {cached : List CachedFile}
    (h : cacheHit d root home record = some cached) : record = some cached ∧ isValid d root cached = true := by
  unfold cacheHit at h
  split at h
  · rw [Option.filter_eq_some_iff] at h
    exact h
  · cases h

theorem scanSingleFile_source {p : Path} {fs : FileSymbols} (h : scanSingleFile T d root p = some fs) :
    d.readToString (root.join p) = some fs.source := by
  simp only [scanSingleFile, Option.bind_eq_bind, Option.bind_eq_some_iff, Option.some.injEq] at h
  obtain ⟨_, _, source, hs, _, _, rfl⟩ := h
  exact hs

/-- However a call is answered, its sources are what the disk holds. -/
theorem scanProjectCached_source {scope : Option Path} {home : Bool} {store : StoreOutcome}
    {record : Option (List CachedFile)} {l : List FileSymbols}
    (h : (scanProjectCached T d root scope home store record).1 = .ok l) {fs : FileSymbols} (hm : fs ∈ l) :
    d.readToString (root.join fs.file) = some fs.source := by
  have hcall : callResult T root ⟨d, record, none⟩ scope home store = .ok l := h
  cases hh : cacheHit d root home record with
  | none =>
    rw [callResult_miss (w := ⟨d, record, none⟩) hh] at hcall
    exact scanSingleFile_source (mem_scanProject hcall hm)
  | some cached =>
    rw [callResult_hit (w := ⟨d, record, none⟩) hh] at hcall
    cases hcall
    obtain ⟨e, _, _, fs', hfs', rfl⟩ := mem_rebuildFromCache.mp hm
    have hsource := scanSingleFile_source hfs'
    rw [scanSingleFile_file hfs']
    exact hsource

/-! ## (1) One disk, any scopes -/

def IsScan : Ev → Prop
  | .edit _ => False
  | .scan .. => True

variable (T d root) in
/-- A record written under scope `s0` covers scope `s`: of the files it lists, those
    whose path starts with `s` are exactly the files a scan under `s` finds. -/
def Covers (s0 s : Option Path) : Prop :=
  ∃ l0 l, scanProject T d root s0 = .ok l0 ∧ scanProject T d root s = .ok l ∧
    ∀ p, (∃ fs ∈ l, fs.file = p) ↔
      (∃ fs ∈ l0, fs.file = p) ∧ (d.fileMetadata (root.join p)).isSome = true ∧ inScope s p = true

theorem written_disk {w : World} (h : Reach T root IsScan w) :
    ∀ d0 s0, w.written = some (d0, s0) → d0 = w.disk := by
  induction h with
  | init d => intro d0 s0 hw; cases hw
  | step e hr he ih =>
    rename_i w
    cases e with
    | edit d => cases he
    | scan scope home store =>
      intro d0 s0 hw
      rcases scan_cases T root w scope home store with ⟨_, h2⟩ | ⟨_, h2⟩ | ⟨_, _, _, h2⟩
      · exact ih d0 s0 (h2 ▸ hw)
      · exact ih d0 s0 (h2 ▸ hw)
      · rw [h2] at hw; cases hw; rfl

/-- Rebuilt over the disk it was written under, a record gives back the entries of its
    scan that are in scope. -/
theorem mem_rebuild_same {s0 scope : Option Path} {l0 : List FileSymbols} (hl0 : scanProject T d root s0 = .ok l0)
    {x : FileSymbols} :
    x ∈ rebuildFromCache T d root (buildCacheEntries d root l0) scope ↔
      x ∈ l0 ∧ (d.fileMetadata (root.join x.file)).isSome = true ∧ inScope scope x.file = true := by
  rw [mem_rebuildFromCache]
  constructor
  · intro h
    obtain ⟨e, he, hs, fs, hfs, rfl⟩ := h
    obtain ⟨fs0, hfs0, hp, hsym, hm⟩ := mem_buildCacheEntries.mp he
    have hsame : fs = fs0 := by
      rw [hp, mem_scanProject hl0 hfs0] at hfs
      exact (Option.some.inj hfs).symm
    subst hsame
    rw [hp] at hs
    rw [hsym]
    exact ⟨hfs0, by rw [hm]; rfl, hs⟩
  · intro h
    obtain ⟨hx, hm, hs⟩ := h
    obtain ⟨m, hm⟩ := Option.isSome_iff_exists.mp hm
    exact ⟨⟨x.file, m.1, m.2, x.symbols⟩, mem_buildCacheEntries.mpr ⟨x, hx, rfl, rfl, hm⟩, hs, x,
      mem_scanProject hl0 hx, rfl⟩

/-- A record that answers as the scan does covers it. -/
theorem covers_of_same {s0 scope : Option Path} {l0 l : List FileSymbols} (hl0 : scanProject T d root s0 = .ok l0)
    (hl : scanProject T d root scope = .ok l)
    (hsame : view (rebuildFromCache T d root (buildCacheEntries d root l0) scope) = view l) :
    Covers T d root s0 scope := by
  refine ⟨l0, l, hl0, hl, fun p => ⟨?_, ?_⟩⟩
  · intro h
    obtain ⟨fs, hfs, rfl⟩ := h
    have hv : (fs.file, fs.source, fs.symbols) ∈ view l := ⟨fs, hfs, rfl⟩
    rw [← hsame] at hv
    obtain ⟨x, hx, he⟩ := hv
    obtain ⟨hx0, hm, hsc⟩ := (mem_rebuild_same hl0).mp hx
    have hfile : fs.file = x.file := congrArg Prod.fst he
    rw [hfile]
    exact ⟨⟨x, hx0, rfl⟩, hm, hsc⟩
  · intro h
    obtain ⟨⟨x, hx, rfl⟩, hm, hsc⟩ := h
    have hv : (x.file, x.source, x.symbols) ∈ view (rebuildFromCache T d root (buildCacheEntries d root l0) scope) :=
      ⟨x, (mem_rebuild_same hl0).mpr ⟨hx, hm, hsc⟩, rfl⟩
    rw [hsame] at hv
    obtain ⟨fs, hfs, he⟩ := hv
    exact ⟨fs, hfs, (congrArg Prod.fst he).symm⟩

/-- A file of both lists is one entry, so a record that covers a scope gives its entries. -/
theorem mem_rebuild_of_covers {s0 scope : Option Path} {l0 l : List FileSymbols}
    (hl0 : scanProject T d root s0 = .ok l0) (hl : scanProject T d root scope = .ok l) (h : Covers T d root s0 scope)
    (x : FileSymbols) : x ∈ rebuildFromCache T d root (buildCacheEntries d root l0) scope ↔ x ∈ l := by
  obtain ⟨l0', l', hl0', hl', hcov⟩ := h
  rw [hl0] at hl0'; rw [hl] at hl'
  cases hl0'; cases hl'
  rw [mem_rebuild_same hl0]
  constructor
  · intro h
    obtain ⟨hx, hm, hsc⟩ := h
    obtain ⟨fs, hfs, he⟩ := (hcov x.file).mpr ⟨⟨x, hx, rfl⟩, hm, hsc⟩
    rwa [← scanProject_unique hl hl0 hfs hx he]
  · intro hx
    obtain ⟨⟨fs, hfs, he⟩, hm, hsc⟩ := (hcov x.file).mp ⟨x, hx, rfl⟩
    exact ⟨scanProject_unique hl0 hl hfs hx he ▸ hfs, hm, hsc⟩

theorem covers_iff_same {s0 scope : Option Path} {l0 : List FileSymbols} (hl0 : scanProject T d root s0 = .ok l0) :
    SameResult (.ok (rebuildFromCache T d root (buildCacheEntries d root l0) scope)) (scanProject T d root scope) ↔
      Covers T d root s0 scope := by
  cases hs : scanProject T d root scope with
  | error e =>
    simp only [SameResult, false_iff]
    intro h
    obtain ⟨_, l, _, hl, _⟩ := h
    rw [hs] at hl; cases hl
  | ok l =>
    constructor
    · intro hsame
      exact covers_of_same hl0 hs hsame
    · intro h
      simp only [SameResult, view, mem_rebuild_of_covers hl0 hs h]

/-- After any calls over one disk, a call returns what the uncached scan returns if
    and only if it is not answered from the record, or the record covers its scope. -/
theorem scanned_iff_covered {w : World} (h : Reach T root IsScan w) (scope : Option Path) (home : Bool)
    (store : StoreOutcome) :
    SameResult (callResult T root w scope home store) (scanProject T w.disk root scope) ↔
      ((cacheHit w.disk root home w.record).isSome = true →
        ∀ d0 s0, w.written = some (d0, s0) → Covers T w.disk root s0 scope) := by
  cases hh : cacheHit w.disk root home w.record with
  | none =>
    rw [callResult_miss hh]
    simp [SameResult.refl]
  | some cached =>
    rw [callResult_hit hh]
    obtain ⟨d0, s0, l0, hw, hl0, rfl⟩ := inv h cached (cacheHit_some hh).1
    have hd := written_disk h d0 s0 hw
    subst hd
    rw [covers_iff_same hl0]
    simp [hw]

/-- A project of these files with no ignore files: a walk lists those under its root. -/
def plainDisk (files : List (Path × FileData)) : Disk where
  file p := (files.find? (·.1 == p)).map (·.2)
  pathExists p := files.any (·.1.startsWith p)
  walk p := (files.filter (·.1.startsWith p)).map fun f => some ⟨f.1, some true⟩

/-- What the tools make of an empty source file. -/
def emptyFileTools : Toolchain :=
  ⟨fun _ _ => some (.leaf "source_file" none 0 0 0 0 true), fun _ _ _ _ => []⟩

def projectRoot : Path := [.rootDir, .normal "p"]

def emptyFile (name : List String) (mtime : Int) : Path × FileData :=
  (projectRoot ++ name.map .normal, ⟨[], mtime⟩)

def twoFiles : Disk := plainDisk [emptyFile ["b.rs"] 1000000000, emptyFile ["src", "a.rs"] 1000000000]

/-- The files a result lists. -/
def filesOf (r : Except DiscoverError (List FileSymbols)) : Option (List Path) := r.toOption.map (·.map (·.file))

theorem SameResult.files {r r' : Except DiscoverError (List FileSymbols)} (h : SameResult r r') {ps ps' : List Path}
    (hr : filesOf r = some ps) (hr' : filesOf r' = some ps') : ∀ p ∈ ps', p ∈ ps := by
  cases r with
  | error e => cases hr
  | ok l =>
    cases r' with
    | error e => cases hr'
    | ok l' =>
      cases hr; cases hr'
      intro p hp
      obtain ⟨fs, hfs, rfl⟩ := List.mem_map.mp hp
      have hv : (fs.file, fs.source, fs.symbols) ∈ view l' := ⟨fs, hfs, rfl⟩
      rw [← show view l = view l' from h] at hv
      obtain ⟨x, hx, he⟩ := hv
      exact List.mem_map.mpr ⟨x, hx, (congrArg Prod.fst he).symm⟩

def afterScoped : World :=
  step emptyFileTools projectRoot ⟨twoFiles, none, none⟩ (.scan (some [.normal "src"]) true .written)

theorem afterScoped_reach : Reach emptyFileTools projectRoot IsScan afterScoped :=
  .step (.scan (some [.normal "src"]) true .written) (.init twoFiles) trivial

/-- A call scoped to `src` writes the record; the unscoped call after it returns
    `src/a.rs` alone. -/
theorem a_scoped_scan_hides_the_rest :
    Reach emptyFileTools projectRoot IsScan afterScoped ∧
      ¬ SameResult (callResult emptyFileTools projectRoot afterScoped none true .written)
        (scanProject emptyFileTools afterScoped.disk projectRoot none) := by
  refine ⟨afterScoped_reach, fun h => ?_⟩
  have hr : filesOf (callResult emptyFileTools projectRoot afterScoped none true .written) =
      some [[.normal "src", .normal "a.rs"]] := by decide
  have hr' : filesOf (scanProject emptyFileTools afterScoped.disk projectRoot none) =
      some [[.normal "b.rs"], [.normal "src", .normal "a.rs"]] := by decide
  exact absurd (h.files hr hr' [.normal "b.rs"] (by simp)) (by decide)

theorem scanned_iff_covered_after_scoped :
    SameResult (callResult emptyFileTools projectRoot afterScoped none true .written)
        (scanProject emptyFileTools afterScoped.disk projectRoot none) ↔
      ((cacheHit afterScoped.disk projectRoot true afterScoped.record).isSome = true →
        ∀ d0 s0, afterScoped.written = some (d0, s0) → Covers emptyFileTools afterScoped.disk projectRoot s0 none) :=
  scanned_iff_covered afterScoped_reach none true .written

/-! ## (2) A changing disk, no scopes -/

def IsUnscoped : Ev → Prop
  | .edit _ => True
  | .scan scope _ _ => scope = none

/-- A file with a time, at or after the epoch, on the first disk shows a change on the second: it
    is gone, or its time in whole seconds or its size is another. -/
def ShowsChange (d0 d : Disk) (p : Path) : Prop :=
  ∃ f0, d0.file p = some f0 ∧ 0 ≤ f0.mtime ∧
    ∀ f, d.file p = some f → f.mtime / 1000000000 ≠ f0.mtime / 1000000000 ∨ f.content.length ≠ f0.content.length

variable (T root) in
/-- A file that the scan of the first disk finds shows a change. -/
def ChangeShows (d0 d : Disk) : Prop :=
  ∃ l0, scanProject T d0 root none = .ok l0 ∧ ∃ fs ∈ l0, ShowsChange d0 d (root.join fs.file)

variable (T root) in
/-- Nothing a scan gives has changed: it finds on the second disk the files with a time that it
    finds on the first, with the same symbols, less those that can no longer be read or parsed. -/
def NothingChanged (d0 d : Disk) : Prop :=
  ∃ l0 l, scanProject T d0 root none = .ok l0 ∧ scanProject T d root none = .ok l ∧
    ∀ p syms, (∃ fs ∈ l, fs.file = p ∧ fs.symbols = syms) ↔
      (∃ fs ∈ l0, fs.file = p ∧ fs.symbols = syms ∧ (d0.fileMetadata (root.join p)).isSome = true) ∧
        (scanSingleFile T d root p).isSome = true

theorem written_unscoped {w : World} (h : Reach T root IsUnscoped w) :
    ∀ d0 s0, w.written = some (d0, s0) → s0 = none := by
  induction h with
  | init d => intro d0 s0 hw; cases hw
  | step e hr he ih =>
    rename_i w
    cases e with
    | edit d => exact ih
    | scan scope home store =>
      intro d0 s0 hw
      rcases scan_cases T root w scope home store with ⟨_, h2⟩ | ⟨_, h2⟩ | ⟨_, _, _, h2⟩
      · exact ih d0 s0 (h2 ▸ hw)
      · exact ih d0 s0 (h2 ▸ hw)
      · rw [h2] at hw; cases hw; exact he

theorem fileMetadata_eq_some {p : Path} {m : Nat × Nat} :
    d.fileMetadata p = some m ↔
      ∃ f, d.file p = some f ∧ 0 ≤ f.mtime ∧ (f.mtime / 1000000000).toNat = m.1 ∧ f.content.length = m.2 := by
  rw [Disk.fileMetadata, Option.bind_eq_some_iff]
  constructor
  · intro h
    obtain ⟨f, hf, hm⟩ := h
    split at hm
    · cases hm
    · cases hm
      exact ⟨f, hf, by omega, rfl, rfl⟩
  · intro h
    obtain ⟨f, hf, hpos, htime, hsize⟩ := h
    refine ⟨f, hf, ?_⟩
    rw [if_neg (by omega), htime, hsize]

/-- A file's time and size on one disk are those on another, unless it shows a change. -/
theorem showsChange_iff {d0 : Disk} {p : Path} {m : Nat × Nat} (h : d0.fileMetadata p = some m) :
    ShowsChange d0 d p ↔ d.fileMetadata p ≠ some m := by
  obtain ⟨f0, hf0, hpos, htime, hsize⟩ := fileMetadata_eq_some.mp h
  constructor
  · intro hshows hsame
    obtain ⟨g0, hg0, -, hchange⟩ := hshows
    obtain ⟨f, hf, hfpos, hftime, hfsize⟩ := fileMetadata_eq_some.mp hsame
    cases hf0.symm.trans hg0
    rcases hchange f hf with hne | hne <;> omega
  · intro hne
    refine ⟨f0, hf0, hpos, fun f hf => ?_⟩
    by_contra hsame
    obtain ⟨hseconds, hlength⟩ := not_or.mp hsame
    exact hne (fileMetadata_eq_some.mpr ⟨f, hf, by omega, by omega, by omega⟩)

/-- The record of a scan is no longer valid when a file of the scan shows a change. -/
theorem isValid_iff {d0 : Disk} {l0 : List FileSymbols} :
    isValid d root (buildCacheEntries d0 root l0) = true ↔ ∀ fs ∈ l0, ¬ ShowsChange d0 d (root.join fs.file) := by
  simp only [isValid, List.all_eq_true, beq_iff_eq]
  constructor
  · intro hvalid fs hfs hshows
    obtain ⟨f0, hf0, hpos, -⟩ := id hshows
    have hm : d0.fileMetadata (root.join fs.file) = some ((f0.mtime / 1000000000).toNat, f0.content.length) :=
      fileMetadata_eq_some.mpr ⟨f0, hf0, hpos, rfl, rfl⟩
    have hentry := hvalid ⟨fs.file, _, _, fs.symbols⟩ (mem_buildCacheEntries.mpr ⟨fs, hfs, rfl, rfl, hm⟩)
    exact (showsChange_iff hm).mp hshows hentry
  · intro h e he
    obtain ⟨fs, hfs, hp, -, hm⟩ := mem_buildCacheEntries.mp he
    by_contra hne
    rw [hp] at hne
    exact h fs hfs ((showsChange_iff hm).mpr hne)

theorem mem_rebuild_record {d0 : Disk} {l0 : List FileSymbols} {x : FileSymbols} :
    x ∈ rebuildFromCache T d root (buildCacheEntries d0 root l0) none ↔
      (∃ fs ∈ l0, fs.file = x.file ∧ fs.symbols = x.symbols ∧ (d0.fileMetadata (root.join x.file)).isSome = true) ∧
        ∃ y, scanSingleFile T d root x.file = some y ∧ x = { y with symbols := x.symbols } := by
  rw [mem_rebuildFromCache]
  constructor
  · intro h
    obtain ⟨e, he, -, y, hy, rfl⟩ := h
    obtain ⟨fs, hfs, hp, hsym, hm⟩ := mem_buildCacheEntries.mp he
    have hfile : y.file = e.path := scanSingleFile_file hy
    refine ⟨⟨fs, hfs, hp.symm.trans hfile.symm, hsym.symm, ?_⟩, y, ?_, rfl⟩
    · show (d0.fileMetadata (root.join y.file)).isSome = true
      rw [hfile, hp, hm]
      rfl
    · show scanSingleFile T d root y.file = some y
      rw [hfile, hy]
  · intro h
    obtain ⟨⟨fs, hfs, hfile, hsym, htimed⟩, y, hy, hx⟩ := h
    obtain ⟨m, hm⟩ := Option.isSome_iff_exists.mp htimed
    refine ⟨⟨x.file, m.1, m.2, x.symbols⟩, mem_buildCacheEntries.mpr ⟨fs, hfs, hfile.symm, hsym.symm, ?_⟩, rfl, y, hy, hx⟩
    rw [hfile, hm]

/-- Rebuilt on another disk, the record of a scan gives a scan of that disk if and only if nothing
    a scan gives has changed. -/
theorem rebuild_same_iff {d0 : Disk} {l0 : List FileSymbols} (hl0 : scanProject T d0 root none = .ok l0) :
    SameResult (.ok (rebuildFromCache T d root (buildCacheEntries d0 root l0) none)) (scanProject T d root none) ↔
      NothingChanged T root d0 d := by
  cases hl : scanProject T d root none with
  | error e =>
    refine ⟨fun h => h.elim, fun h => ?_⟩
    obtain ⟨-, l, -, hok, -⟩ := h
    cases hl.symm.trans hok
  | ok l =>
    constructor
    · intro hsame
      replace hsame : view (rebuildFromCache T d root (buildCacheEntries d0 root l0) none) = view l := hsame
      refine ⟨l0, l, hl0, hl, fun p syms => ⟨?_, ?_⟩⟩
      · rintro ⟨fs, hfs, rfl, rfl⟩
        have hv : (fs.file, fs.source, fs.symbols) ∈ view l := ⟨fs, hfs, rfl⟩
        rw [← hsame] at hv
        obtain ⟨x, hx, he⟩ := hv
        obtain ⟨hfile, -, hsymbols⟩ : fs.file = x.file ∧ fs.source = x.source ∧ fs.symbols = x.symbols := by simpa using he
        obtain ⟨hrecorded, y, hy, -⟩ := mem_rebuild_record.mp hx
        rw [hfile, hsymbols]
        exact ⟨hrecorded, by rw [hy]; rfl⟩
      · rintro ⟨⟨fs, hfs, rfl, rfl, htimed⟩, hread⟩
        obtain ⟨y, hy⟩ := Option.isSome_iff_exists.mp hread
        have hfile : y.file = fs.file := scanSingleFile_file hy
        have hx : { y with symbols := fs.symbols } ∈ rebuildFromCache T d root (buildCacheEntries d0 root l0) none :=
          mem_rebuild_record.mpr ⟨⟨fs, hfs, hfile.symm, rfl, hfile ▸ htimed⟩, y, hfile ▸ hy, rfl⟩
        have hv : (y.file, y.source, fs.symbols) ∈ view l := hsame ▸ ⟨_, hx, rfl⟩
        obtain ⟨z, hz, he⟩ := hv
        obtain ⟨hzfile, -, hsymbols⟩ : y.file = z.file ∧ y.source = z.source ∧ fs.symbols = z.symbols := by simpa using he
        exact ⟨z, hz, hzfile.symm.trans hfile, hsymbols.symm⟩
    · intro h
      obtain ⟨l0', l', hok0, hok, hsame⟩ := h
      cases hl0.symm.trans hok0
      cases hl.symm.trans hok
      have hmem : ∀ x, x ∈ rebuildFromCache T d root (buildCacheEntries d0 root l0) none ↔ x ∈ l := fun x => by
        rw [mem_rebuild_record]
        constructor
        · rintro ⟨hrecorded, y, hy, hx⟩
          obtain ⟨z, hz, hfile, hsymbols⟩ := (hsame x.file x.symbols).mpr ⟨hrecorded, by rw [hy]; rfl⟩
          have hscan := mem_scanProject hl hz
          rw [hfile, hy] at hscan
          cases hscan
          rw [hx, ← hsymbols]
          exact hz
        · intro hx
          exact ⟨((hsame x.file x.symbols).mp ⟨x, hx, rfl, rfl⟩).1, x, mem_scanProject hl hx, rfl⟩
      simp only [SameResult, view, hmem]

/-- After any edits and unscoped calls, a call returns what the uncached scan returns of the disk
    as it is if and only if there is no record for it, or a file found when the record was written
    shows a change since, or nothing a scan gives has changed. -/
theorem unscoped_scan_fresh_iff {w : World} (h : Reach T root IsUnscoped w) (home : Bool) (store : StoreOutcome) :
    SameResult (callResult T root w none home store) (scanProject T w.disk root none) ↔
      (home = true → w.record.isSome = true → ∀ d0 s0, w.written = some (d0, s0) →
        ChangeShows T root d0 w.disk ∨ NothingChanged T root d0 w.disk) := by
  cases hrec : w.record with
  | none =>
    rw [callResult_miss (by simp [cacheHit, hrec])]
    simp [SameResult.refl]
  | some record =>
    obtain ⟨d0, s0, l0, hw, hl0, rfl⟩ := inv h record hrec
    obtain rfl := written_unscoped h d0 s0 hw
    have hshows : ChangeShows T root d0 w.disk ↔ isValid w.disk root (buildCacheEntries d0 root l0) = false := by
      rw [Bool.eq_false_iff, ne_eq, isValid_iff, ChangeShows]
      simp [hl0]
    cases home with
    | false =>
      rw [callResult_miss (by simp [cacheHit])]
      simp [SameResult.refl]
    | true =>
      cases hvalid : isValid w.disk root (buildCacheEntries d0 root l0) with
      | false =>
        rw [callResult_miss (by simp [cacheHit, hrec, hvalid, Option.filter])]
        simp [SameResult.refl, hw, hshows, hvalid]
      | true =>
        have hhit : cacheHit w.disk root true w.record = some (buildCacheEntries d0 root l0) := by
          simp [cacheHit, hrec, hvalid, Option.filter]
        rw [callResult_hit hhit, rebuild_same_iff hl0]
        simp [hw, hshows, hvalid]

def oneFile (mtime : Int) : Disk := plainDisk [emptyFile ["a.rs"] mtime]

/-- Scanned and recorded at second 1, then written again at second 5. -/
def afterRewrite : World :=
  step emptyFileTools projectRoot
    (step emptyFileTools projectRoot ⟨oneFile 1000000000, none, none⟩ (.scan none true .written))
    (.edit (oneFile 5000000000))

theorem afterRewrite_reach : Reach emptyFileTools projectRoot IsUnscoped afterRewrite :=
  .step (.edit (oneFile 5000000000)) (.step (.scan none true .written) (.init (oneFile 1000000000)) rfl) trivial

theorem unscoped_scan_fresh_iff_rewrite :
    SameResult (callResult emptyFileTools projectRoot afterRewrite none true .written)
        (scanProject emptyFileTools afterRewrite.disk projectRoot none) ↔
      (true = true → afterRewrite.record.isSome = true → ∀ d0 s0, afterRewrite.written = some (d0, s0) →
        ChangeShows emptyFileTools projectRoot d0 afterRewrite.disk ∨
          NothingChanged emptyFileTools projectRoot d0 afterRewrite.disk) :=
  unscoped_scan_fresh_iff afterRewrite_reach true .written

/-- An empty project scanned and recorded, then a file added. -/
def afterAdded : World :=
  step emptyFileTools projectRoot
    (step emptyFileTools projectRoot
      ⟨{ plainDisk [] with pathExists := (· == projectRoot) }, none, none⟩ (.scan none true .written))
    (.edit (oneFile 1000000000))

theorem afterAdded_reach : Reach emptyFileTools projectRoot IsUnscoped afterAdded :=
  .step (.edit (oneFile 1000000000)) (.step (.scan none true .written) (.init _) rfl) trivial

/-- The record of an empty project is valid whatever is added: the call returns no
    file. -/
theorem an_added_file_is_not_scanned :
    Reach emptyFileTools projectRoot IsUnscoped afterAdded ∧
      ¬ SameResult (callResult emptyFileTools projectRoot afterAdded none true .written)
        (scanProject emptyFileTools afterAdded.disk projectRoot none) := by
  refine ⟨afterAdded_reach, fun h => ?_⟩
  have hr : filesOf (callResult emptyFileTools projectRoot afterAdded none true .written) = some [] := by decide
  have hr' : filesOf (scanProject emptyFileTools afterAdded.disk projectRoot none) = some [[.normal "a.rs"]] := by
    decide
  exact absurd (h.files hr hr' [.normal "a.rs"] (by simp)) (by decide)

end CodeQuery.Index
