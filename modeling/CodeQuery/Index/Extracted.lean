/-
  CodeQuery.Index.Extracted — what a scan holds of the definitions in its files.

  The symbols of a scanned file are the definitions that an extractor made of a text
  (`scanned_extracted`): of the file's own, or, when a record of an earlier scan
  answers, of the text that scan read. The index takes them in the definitions' order,
  at every depth (`flattenAll_toSymbols`), so a lookup by name gives the definitions of
  the name (`mem_findByName`).
-/

import CodeQuery.Index.ScannerProofs
import CodeQuery.Index.SymbolIndex
import CodeQuery.Parse.Extract

namespace CodeQuery.Index

open CodeQuery.Core CodeQuery.Parse CodeQuery.Text

/-! ## Symbols and definitions -/

section Symbols

variable (texts : Definition → Texts) (file : Path)

mutual

theorem flatten_toSymbol : ∀ d : Definition,
    SymbolIndex.flatten (d.toSymbol texts file) = d.preorder.map (Definition.toSymbol texts file)
  | ⟨name, kind, node, place, children⟩ => by
    rw [Definition.preorder, List.map_cons, ← flattenAll_toSymbols children, Definition.toSymbol, SymbolIndex.flatten]

/-- The index takes the symbols in the definitions' order, each before what it holds. -/
theorem flattenAll_toSymbols : ∀ ds : List Definition,
    SymbolIndex.flattenAll (toSymbols texts file ds) = (preorderDefinitions ds).map (Definition.toSymbol texts file)
  | [] => rfl
  | d :: ds => by
    rw [toSymbols, SymbolIndex.flattenAll, preorderDefinitions, List.map_append, flatten_toSymbol d,
      flattenAll_toSymbols ds]

end

end Symbols

/-! ## Scans -/

/-- The scanner's tools, with a parser and the extractors. -/
def tools (parse : Language → Str → Option Node) (texts : TextsOf) : Toolchain := ⟨parse, extractSymbols texts⟩

/-- The file's symbols are what the extractor of a language makes of a text's tree. -/
def ExtractedFrom (texts : TextsOf) (fs : FileSymbols) (source : Str) (tree : Node) (language : Language) : Prop :=
  fs.symbols = extractSymbols texts source tree fs.file language

section Scans

variable {parse : Language → Str → Option Node} {texts : TextsOf} {root : Path} {d : Disk}

theorem scanSingleFile_extracted {p : Path} {fs : FileSymbols} (h : scanSingleFile (tools parse texts) d root p = some fs) :
    ∃ source tree language, ExtractedFrom texts fs source tree language := by
  simp only [scanSingleFile, Option.bind_eq_bind, Option.bind_eq_some_iff, Option.some.injEq] at h
  obtain ⟨language, _, source, _, tree, _, rfl⟩ := h
  exact ⟨source, tree, language, rfl⟩

/-- Whatever the disk was before and whatever answers, a scanned file's symbols are
    those of a text that was scanned. -/
theorem scanned_extracted {ok : Ev → Prop} {w : World} (hw : Reach (tools parse texts) root ok w) {scope : Option Path}
    {home : Bool} {store : StoreOutcome} {scan : List FileSymbols}
    (hscan : callResult (tools parse texts) root w scope home store = .ok scan) {fs : FileSymbols} (hfs : fs ∈ scan) :
    ∃ source tree language, ExtractedFrom texts fs source tree language := by
  cases hhit : cacheHit w.disk root home w.record with
  | none =>
    rw [callResult_miss hhit] at hscan
    exact scanSingleFile_extracted (mem_scanProject hscan hfs)
  | some cached =>
    rw [callResult_hit hhit] at hscan
    cases hscan
    obtain ⟨e, he, _, now, hnow, rfl⟩ := mem_rebuildFromCache.mp hfs
    -- the record is of an earlier scan
    obtain ⟨d0, s0, l0, _, hl0, rfl⟩ := inv hw cached (cacheHit_some hhit).1
    obtain ⟨before, hbefore, hpath, hsymbols, _⟩ := mem_buildCacheEntries.mp he
    obtain ⟨source, tree, language, hfrom⟩ := scanSingleFile_extracted (mem_scanProject hl0 hbefore)
    refine ⟨source, tree, language, ?_⟩
    have hfile : now.file = before.file := (scanSingleFile_file hnow).trans hpath
    rw [ExtractedFrom, hsymbols, hfrom, hfile]

/-- A name finds what was made of the definitions of that name. -/
theorem mem_findByName {scan : List FileSymbols} {fs : FileSymbols} (hfs : fs ∈ scan) {source : Str} {tree : Node}
    {language : Language} (hfrom : ExtractedFrom texts fs source tree language) {d : Definition}
    (hd : d ∈ preorderDefinitions (extractDefinitions source tree fs.file language)) :
    d.toSymbol (texts source tree language) fs.file ∈ (SymbolIndex.fromScan scan).findByName d.name := by
  rw [SymbolIndex.findByName_fromScan]
  refine List.mem_filter.mpr ⟨List.mem_flatMap.mpr ⟨fs, hfs, ?_⟩, by simp⟩
  rw [hfrom, extractSymbols, flattenAll_toSymbols]
  exact List.mem_map_of_mem hd

end Scans

end CodeQuery.Index
