/-
  CodeQuery.Index.SymbolIndex — the in-memory symbol index (`codequery-index/src/index.rs`).

  The symbols of a scan, children after their parent, in one vector with three
  secondary indices into it. `flatten` is the order they come in; a lookup by name,
  file or kind is the flattened scan filtered (`findByName_fromScan`).
-/

import CodeQuery.Data.Groups
import CodeQuery.Index.Scanner

namespace CodeQuery.Index

open CodeQuery.Core CodeQuery.Text CodeQuery.Data

structure SymbolIndex where
  symbols : List Symbol
  byName : Postings Symbol.name symbols
  byFile : Postings Symbol.file symbols
  byKind : Postings Symbol.kind symbols

namespace SymbolIndex

def empty : SymbolIndex := ⟨[], .empty _, .empty _, .empty _⟩

def push (ix : SymbolIndex) (s : Symbol) : SymbolIndex :=
  ⟨ix.symbols ++ [s], ix.byName.push s, ix.byFile.push s, ix.byKind.push s⟩

mutual

def collectSymbol (ix : SymbolIndex) : Symbol → SymbolIndex
  | s@⟨_, _, _, _, _, _, _, children, _, _, _⟩ => collectSymbols (ix.push s) children

def collectSymbols (ix : SymbolIndex) : List Symbol → SymbolIndex
  | [] => ix
  | s :: ss => collectSymbols (collectSymbol ix s) ss

end

def fromScan (scan : List FileSymbols) : SymbolIndex := scan.foldl (fun ix fs => collectSymbols ix fs.symbols) empty

def findByName (ix : SymbolIndex) (name : Str) : List Symbol := ix.byName.lookup name

def findByKind (ix : SymbolIndex) (kind : SymbolKind) : List Symbol := ix.byKind.lookup kind

def symbolsInFile (ix : SymbolIndex) (file : Path) : List Symbol := ix.byFile.lookup file

def allSymbols (ix : SymbolIndex) : List Symbol := ix.symbols

/-! ## What is in it -/

mutual

/-- A symbol, then its children. -/
def flatten : Symbol → List Symbol
  | s@⟨_, _, _, _, _, _, _, children, _, _, _⟩ => s :: flattenAll children

def flattenAll : List Symbol → List Symbol
  | [] => []
  | s :: ss => flatten s ++ flattenAll ss

end

mutual

theorem collectSymbol_symbols (ix : SymbolIndex) :
    ∀ s, (collectSymbol ix s).symbols = ix.symbols ++ flatten s
  | ⟨_, _, _, _, _, _, _, children, _, _, _⟩ => by
    simp only [collectSymbol, flatten]
    rw [collectSymbols_symbols _ children]
    simp [push]

theorem collectSymbols_symbols (ix : SymbolIndex) :
    ∀ ss, (collectSymbols ix ss).symbols = ix.symbols ++ flattenAll ss
  | [] => by simp [collectSymbols, flattenAll]
  | s :: ss => by
    simp only [collectSymbols, flattenAll]
    rw [collectSymbols_symbols _ ss, collectSymbol_symbols ix s, List.append_assoc]

end

theorem fromScan_symbols (scan : List FileSymbols) :
    (fromScan scan).symbols = scan.flatMap fun fs => flattenAll fs.symbols := by
  suffices ∀ ix : SymbolIndex, (scan.foldl (fun ix fs => collectSymbols ix fs.symbols) ix).symbols =
      ix.symbols ++ scan.flatMap fun fs => flattenAll fs.symbols from this empty
  induction scan with
  | nil => intro ix; simp
  | cons fs scan ih =>
    intro ix
    rw [List.foldl_cons, ih, collectSymbols_symbols, List.flatMap_cons, List.append_assoc]

theorem flatten_eq (s : Symbol) : flatten s = s :: flattenAll s.children := by
  cases s
  rw [flatten]

theorem flattenAll_eq (ss : List Symbol) : flattenAll ss = ss.flatMap fun s => s :: flattenAll s.children := by
  induction ss with
  | nil => rfl
  | cons s ss ih => rw [List.flatMap_cons, ← ih, flattenAll, flatten_eq]

theorem mem_flattenAll {ss : List Symbol} {s : Symbol} (h : s ∈ ss) : s ∈ flattenAll ss := by
  rw [flattenAll_eq]
  exact List.mem_flatMap.mpr ⟨s, h, List.mem_cons_self ..⟩

theorem child_mem_flattenAll {ss : List Symbol} {s c : Symbol} (h : s ∈ ss) (hc : c ∈ s.children) :
    c ∈ flattenAll ss := by
  rw [flattenAll_eq]
  exact List.mem_flatMap.mpr ⟨s, h, List.mem_cons_of_mem _ (mem_flattenAll hc)⟩

/-- A name finds the symbols of that name, at every depth, in the scan's order. -/
theorem findByName_fromScan (scan : List FileSymbols) (name : Str) :
    (fromScan scan).findByName name = (scan.flatMap fun fs => flattenAll fs.symbols).filter (·.name = name) := by
  rw [findByName, Postings.lookup_eq, fromScan_symbols]

theorem findByKind_fromScan (scan : List FileSymbols) (kind : SymbolKind) :
    (fromScan scan).findByKind kind = (scan.flatMap fun fs => flattenAll fs.symbols).filter (·.kind = kind) := by
  rw [findByKind, Postings.lookup_eq, fromScan_symbols]

theorem symbolsInFile_fromScan (scan : List FileSymbols) (file : Path) :
    (fromScan scan).symbolsInFile file = (scan.flatMap fun fs => flattenAll fs.symbols).filter (·.file = file) := by
  rw [symbolsInFile, Postings.lookup_eq, fromScan_symbols]

/-- For every scan: the index holds each file's symbols in pre-order, file after file; a
    lookup is the filter of all of them by its key; the positions kept under a key are
    those of its symbols, in order, and none is out of bounds. -/
theorem fromScan_laws (scan : List FileSymbols) :
    ((fromScan scan).allSymbols = scan.flatMap fun fs => flattenAll fs.symbols) ∧
      (∀ name, (fromScan scan).findByName name = (fromScan scan).allSymbols.filter (·.name = name)) ∧
      (∀ kind, (fromScan scan).findByKind kind = (fromScan scan).allSymbols.filter (·.kind = kind)) ∧
      (∀ file, (fromScan scan).symbolsInFile file = (fromScan scan).allSymbols.filter (·.file = file)) ∧
      (∀ name, ∀ i ∈ (fromScan scan).byName.positions.get name, i < (fromScan scan).allSymbols.length) ∧
      (∀ kind, ∀ i ∈ (fromScan scan).byKind.positions.get kind, i < (fromScan scan).allSymbols.length) ∧
      (∀ file, ∀ i ∈ (fromScan scan).byFile.positions.get file, i < (fromScan scan).allSymbols.length) := by
  refine ⟨fromScan_symbols scan, ?_, ?_, ?_, ?_, ?_, ?_⟩
  · intro name
    rw [findByName_fromScan, allSymbols, fromScan_symbols]
  · intro kind
    rw [findByKind_fromScan, allSymbols, fromScan_symbols]
  · intro file
    rw [symbolsInFile_fromScan, allSymbols, fromScan_symbols]
  · intro name i hi
    exact (fromScan scan).byName.lt_of_mem hi
  · intro kind i hi
    exact (fromScan scan).byKind.lt_of_mem hi
  · intro file i hi
    exact (fromScan scan).byFile.lt_of_mem hi

end SymbolIndex

end CodeQuery.Index
