/-
  CodeQuery.Index.CacheRecord — the record of a scan in the disk cache
  (`codequery-index/src/cache.rs`).

  Symbols go into the record field by field, children and all, and come out the same way:
  nothing is lost at any depth (`toSymbol_ofSymbol`). So a record that was stored is
  loaded as it was (`load_store`), given that `bincode` decodes what it encodes.
-/

import CodeQuery.Index.Scanner

namespace CodeQuery.Index

open CodeQuery.Core CodeQuery.Text

/-! ## Symbols in the record -/

structure CachedSymbol where
  name : Str
  kind : SymbolKind
  file : Path
  line : Nat
  column : Nat
  endLine : Nat
  visibility : Visibility
  children : List CachedSymbol
  doc : Option Str
  body : Option Str
  signature : Option Str

mutual

/-- `CachedSymbol::from`. -/
def CachedSymbol.ofSymbol : Symbol → CachedSymbol
  | ⟨name, kind, file, line, column, endLine, visibility, children, doc, body, signature⟩ =>
    ⟨name, kind, file, line, column, endLine, visibility, CachedSymbol.ofSymbols children, doc, body, signature⟩

def CachedSymbol.ofSymbols : List Symbol → List CachedSymbol
  | [] => []
  | s :: symbols => CachedSymbol.ofSymbol s :: CachedSymbol.ofSymbols symbols

end

mutual

/-- `Symbol::from`. -/
def CachedSymbol.toSymbol : CachedSymbol → Symbol
  | ⟨name, kind, file, line, column, endLine, visibility, children, doc, body, signature⟩ =>
    ⟨name, kind, file, line, column, endLine, visibility, CachedSymbol.toSymbols children, doc, body, signature⟩

def CachedSymbol.toSymbols : List CachedSymbol → List Symbol
  | [] => []
  | s :: symbols => s.toSymbol :: CachedSymbol.toSymbols symbols

end

mutual

/-- A symbol comes out of the record as it went in. -/
theorem toSymbol_ofSymbol (s : Symbol) : (CachedSymbol.ofSymbol s).toSymbol = s := by
  cases s with
  | mk name kind file line column endLine visibility children doc body signature =>
    rw [CachedSymbol.ofSymbol, CachedSymbol.toSymbol, toSymbols_ofSymbols children]

theorem toSymbols_ofSymbols (symbols : List Symbol) : CachedSymbol.toSymbols (CachedSymbol.ofSymbols symbols) = symbols := by
  cases symbols with
  | nil => rw [CachedSymbol.ofSymbols, CachedSymbol.toSymbols]
  | cons s symbols =>
    rw [CachedSymbol.ofSymbols, CachedSymbol.toSymbols, toSymbol_ofSymbol s, toSymbols_ofSymbols symbols]

end

/-! ## The record -/

structure CachedFileData where
  path : Path
  mtime : Nat
  size : Nat
  symbols : List CachedSymbol

def CachedFileData.ofFile (f : CachedFile) : CachedFileData := ⟨f.path, f.mtime, f.size, CachedSymbol.ofSymbols f.symbols⟩

def CachedFileData.toFile (f : CachedFileData) : CachedFile := ⟨f.path, f.mtime, f.size, CachedSymbol.toSymbols f.symbols⟩

theorem toFile_ofFile (f : CachedFile) : (CachedFileData.ofFile f).toFile = f := by
  rw [CachedFileData.ofFile, CachedFileData.toFile, toSymbols_ofSymbols]

structure CacheManifest where
  version : Nat
  files : List CachedFileData

def cacheVersion : Nat := 1

inductive CacheError where
  | notFound
  | corrupt (msg : String)
  | io (e : String)
  | stale
  deriving DecidableEq, Repr

/-- `bincode::serialize` and `bincode::deserialize`. -/
structure Bincode where
  serialize : CacheManifest → Except String Str
  deserialize : Str → Except String CacheManifest

/-- What was encoded is decoded. -/
def Bincode.Decodes (b : Bincode) : Prop := ∀ manifest data, b.serialize manifest = .ok data → b.deserialize data = .ok manifest

/-- The errors of the steps of a store; a write may break off behind some bytes. -/
structure StoreErrors where
  createDirAll : Option String
  create : Option String
  writeAll : Option (String × Nat)

section Cache

variable (b : Bincode)

/-- The result, and what the cache file holds then. -/
def store (errors : StoreErrors) (files : List CachedFile) (cacheFile : Option Str) : Except CacheError Unit × Option Str :=
  match b.serialize ⟨cacheVersion, files.map CachedFileData.ofFile⟩ with
  | .error e => (.error (.corrupt ("serialization failed: " ++ e)), cacheFile)
  | .ok data =>
    match errors.createDirAll with
    | some e => (.error (.io e), cacheFile)
    | none =>
      match errors.create with
      | some e => (.error (.io e), cacheFile)
      | none =>
        match errors.writeAll with
        | some (e, n) => (.error (.io e), some (data.take n))
        | none => (.ok (), some data)

/-- The first argument is the error of a file that is there and cannot be read. -/
def load (readError : Option String) (cacheFile : Option Str) : Except CacheError (List CachedFile) :=
  match cacheFile with
  | none => .error .notFound
  | some data =>
    match readError with
    | some e => .error (.io e)
    | none =>
      match b.deserialize data with
      | .error e => .error (.corrupt e)
      | .ok manifest =>
        if manifest.version ≠ cacheVersion then
          .error (.corrupt ("version mismatch: expected " ++ toString cacheVersion ++ ", got " ++ toString manifest.version))
        else .ok (manifest.files.map CachedFileData.toFile)

variable {b}

/-- A store without an error leaves the encoded record. -/
theorem store_ok {errors : StoreErrors} {files : List CachedFile} {cacheFile cacheFile' : Option Str}
    (h : store b errors files cacheFile = (.ok (), cacheFile')) :
    ∃ data, b.serialize ⟨cacheVersion, files.map CachedFileData.ofFile⟩ = .ok data ∧ cacheFile' = some data := by
  unfold store at h
  split at h
  · cases h
  next data hdata =>
    repeat' split at h
    all_goals cases h
    exact ⟨data, hdata, rfl⟩

theorem load_serialized (hb : b.Decodes) {files : List CachedFile} {data : Str}
    (h : b.serialize ⟨cacheVersion, files.map CachedFileData.ofFile⟩ = .ok data) : load b none (some data) = .ok files := by
  have hfiles : (files.map CachedFileData.ofFile).map CachedFileData.toFile = files := by
    rw [List.map_map]
    exact (List.map_congr_left fun f _ => toFile_ofFile f).trans (List.map_id files)
  simp only [load, hb _ _ h, ne_eq, not_true_eq_false, if_false, hfiles]

/-- What was stored is loaded, file by file, unless it cannot be read; and a symbol goes
    through the record unchanged. -/
theorem load_store (hb : b.Decodes) (errors : StoreErrors) (files : List CachedFile) (cacheFile cacheFile' : Option Str)
    (h : store b errors files cacheFile = (.ok (), cacheFile')) :
    (∀ readError, load b readError cacheFile' = match readError with
        | some e => .error (.io e)
        | none => .ok files) ∧
      ∀ s : Symbol, (CachedSymbol.ofSymbol s).toSymbol = s := by
  obtain ⟨data, hdata, rfl⟩ := store_ok h
  refine ⟨fun readError => ?_, toSymbol_ofSymbol⟩
  cases readError with
  | some e => rfl
  | none => exact load_serialized hb hdata

end Cache

/-! ## A record in bytes -/

/-- Little-endian. -/
def leBytes (width n : Nat) : Str := (List.range width).map fun i => UInt8.ofNat (n / 256 ^ i)

def encodeStr (s : Str) : Str := leBytes 8 s.length ++ s

def encodeOption : Option Str → Str
  | none => [0]
  | some s => 1 :: encodeStr s

/-- A file with a struct, its method, and no documentation. -/
def sampleFile : CachedFile where
  path := [.normal "a.rs"]
  mtime := 1700000000
  size := 40
  symbols := [⟨str "S", .struct, [.normal "a.rs"], 1, 0, 3, .public_,
    [⟨str "f", .method, [.normal "a.rs"], 2, 4, 2, .private_, [], none, some (str "fn f() {}"), some (str "fn f()")⟩],
    none, none, some (str "pub struct S")⟩]

/-- The record of the file as `bincode` encodes it: numbers little-endian with lengths in
    eight bytes, and the numbers of variants in four. -/
def sampleBytes : Str :=
  leBytes 4 1 ++ leBytes 8 1 ++ encodeStr (str "a.rs") ++ leBytes 8 1700000000 ++ leBytes 8 40 ++ leBytes 8 1 ++
    (encodeStr (str "S") ++ leBytes 4 2 ++ encodeStr (str "a.rs") ++ leBytes 8 1 ++ leBytes 8 0 ++ leBytes 8 3 ++
      leBytes 4 0 ++ leBytes 8 1 ++
      (encodeStr (str "f") ++ leBytes 4 1 ++ encodeStr (str "a.rs") ++ leBytes 8 2 ++ leBytes 8 4 ++ leBytes 8 2 ++
        leBytes 4 1 ++ leBytes 8 0 ++ encodeOption none ++ encodeOption (some (str "fn f() {}")) ++
        encodeOption (some (str "fn f()"))) ++
      encodeOption none ++ encodeOption none ++ encodeOption (some (str "pub struct S")))

/-- The record is that of the file. -/
def isSample : CacheManifest → Bool
  | ⟨version, [⟨path, mtime, size, [⟨name, kind, file, line, column, endLine, visibility,
      [⟨name', kind', file', line', column', endLine', visibility', [], doc', body', signature'⟩], doc, body,
      signature⟩]⟩]⟩ =>
    decide ((version, path, mtime, size) = (1, sampleFile.path, 1700000000, 40)) &&
      (decide ((name, kind, file, visibility) = (str "S", .struct, sampleFile.path, .public_)) &&
        decide ((line, column, endLine) = (1, 0, 3)) &&
        decide ((doc, body, signature) = (none, none, some (str "pub struct S")))) &&
      (decide ((name', kind', file', visibility') = (str "f", .method, sampleFile.path, .private_)) &&
        decide ((line', column', endLine') = (2, 4, 2)) &&
        decide ((doc', body', signature') = (none, some (str "fn f() {}"), some (str "fn f()"))))
  | _ => false

/-- `bincode` as far as the one record goes. -/
def sampleCodec : Bincode where
  serialize manifest := if isSample manifest then .ok sampleBytes else .error "another record"
  deserialize data :=
    if data = sampleBytes then .ok ⟨cacheVersion, [CachedFileData.ofFile sampleFile]⟩ else .error "another text"

theorem eq_of_isSample {manifest : CacheManifest} (h : isSample manifest = true) :
    manifest = ⟨cacheVersion, [CachedFileData.ofFile sampleFile]⟩ := by
  unfold isSample at h
  split at h
  · simp only [Bool.and_eq_true, decide_eq_true_eq, Prod.mk.injEq] at h
    obtain ⟨⟨⟨rfl, rfl, rfl, rfl⟩, ⟨⟨rfl, rfl, rfl, rfl⟩, rfl, rfl, rfl⟩, rfl, rfl, rfl⟩,
      ⟨⟨rfl, rfl, rfl, rfl⟩, rfl, rfl, rfl⟩, rfl, rfl, rfl⟩ := h
    rfl
  · cases h

theorem sampleCodec_decodes : sampleCodec.Decodes := by
  intro manifest data h
  unfold sampleCodec at h
  dsimp only at h
  split at h
  next hsample =>
    cases h
    rw [eq_of_isSample hsample, sampleCodec]
    simp only [if_true]
  next => cases h

theorem load_store_sample :
    (∀ readError, load sampleCodec readError (some sampleBytes) = match readError with
        | some e => .error (.io e)
        | none => .ok [sampleFile]) ∧
      ∀ s : Symbol, (CachedSymbol.ofSymbol s).toSymbol = s :=
  load_store sampleCodec_decodes ⟨none, none, none⟩ [sampleFile] none (some sampleBytes) rfl

end CodeQuery.Index
