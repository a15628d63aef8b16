/-
  CodeQuery.Cli.RenameSafety — when the edits of a rename are safe (see `CodeQuery.Cli.Rename`).

  Safe edits each cover a whole word of their line, the old name, and never overlap.
  `planned_safe_iff` says when the planned ones are: every reference's text starts a
  word, and every definition's line first holds the old name as a whole word. The two
  ways to find a column then agree wherever they meet on a line: a reference can only
  match a name made of word bytes, and two whole occurrences of such a name are
  disjoint (`WholeAt.disjoint`). The definition's column is found by a plain search:
  `a_name_inside_the_keyword_is_edited` is a definition whose keyword holds its name.
-/

import CodeQuery.Cli.Rename
import CodeQuery.Index.ScannerProofs
import Mathlib.Data.List.TakeWhile

namespace CodeQuery.Cli

open CodeQuery.Core CodeQuery.Text CodeQuery.Index CodeQuery.Data CodeQuery.Parse

/-! ## Whole words -/

def StartsWord (text : Str) (column : Nat) : Prop :=
  column ≠ 0 → (text[column - 1]?).all (!isWordByte ·) = true

instance (text : Str) (column : Nat) : Decidable (StartsWord text column) :=
  inferInstanceAs (Decidable (column ≠ 0 → _ = true))

/-- The word stands at the column, with no word byte before it or after it. -/
structure WholeAt (word text : Str) (column : Nat) : Prop where
  here : word <+: text.drop column
  before : StartsWord text column
  after : (text[column + word.length]?).all (!isWordByte ·) = true

theorem extractNameAtColumn_some {text : Str} {column : Nat} {name : Str}
    (h : extractNameAtColumn text column = some name) :
    name ≠ [] ∧ (∀ b ∈ name, isWordByte b = true) ∧ name <+: text.drop column ∧
      (text[column + name.length]?).all (!isWordByte ·) = true := by
  simp only [extractNameAtColumn] at h
  split at h
  · cases h
  · split at h
    · cases h
    · rename_i hne
      cases h
      refine ⟨by simpa using hne, fun b hb => List.mem_takeWhile_imp hb, List.takeWhile_prefix _, ?_⟩
      -- the byte after the run is the first the run leaves
      have hsplit : (text.drop column).drop ((text.drop column).takeWhile isWordByte).length =
          (text.drop column).dropWhile isWordByte := by
        conv => lhs; arg 2; rw [← List.takeWhile_append_dropWhile (p := isWordByte) (l := text.drop column)]
        rw [List.drop_left]
      have hget : text[column + ((text.drop column).takeWhile isWordByte).length]? =
          ((text.drop column).dropWhile isWordByte).head? := by
        rw [← hsplit, List.head?_drop, List.getElem?_drop]
      rw [hget]
      cases hd : ((text.drop column).dropWhile isWordByte).head? with
      | none => rfl
      | some b =>
        have := List.head?_dropWhile_not isWordByte (text.drop column)
        rw [hd] at this
        simpa using this

/-- Two whole occurrences of a name made of word bytes do not overlap. -/
theorem WholeAt.disjoint {word text : Str} {c c' : Nat} (hw : ∀ b ∈ word, isWordByte b = true)
    (h : WholeAt word text c) (h' : WholeAt word text c') (hlt : c < c') : c + word.length ≤ c' := by
  by_contra hov
  -- the byte before the second occurrence lies in the first
  have hin : c' - 1 - c < word.length := by omega
  have hget : text[c' - 1]? = word[c' - 1 - c]? := by
    obtain ⟨t, ht⟩ := h.here
    have : (text.drop c)[c' - 1 - c]? = word[c' - 1 - c]? := by
      rw [← ht, List.getElem?_append_left hin]
    rw [← this, List.getElem?_drop]
    congr 1; omega
  have hb := h'.before (by omega)
  rw [hget, List.getElem?_eq_getElem hin] at hb
  simp [hw _ (List.getElem_mem hin)] at hb

/-! ## Sorting and deduplicating -/

theorem same_place_iff {a e : TextEdit} :
    (a.file = e.file ∧ a.line = e.line ∧ a.column = e.column) ↔ editKey a = editKey e := by
  simp [editKey]

theorem dedupFrom_subset {e : TextEdit} {l : List TextEdit} : dedupFrom e l ⊆ l := by
  induction l generalizing e with
  | nil => exact List.Subset.refl _
  | cons a l ih =>
    simp only [dedupFrom]
    split
    · exact List.subset_cons_of_subset a ih
    · exact List.cons_subset_cons a ih

/-- What is dropped repeats the place of something kept. -/
theorem dedupFrom_covers {l : List TextEdit} : ∀ {e a : TextEdit}, a ∈ l →
    ∃ a' ∈ e :: dedupFrom e l, editKey a' = editKey a := by
  induction l with
  | nil => intro e a h; cases h
  | cons x l ih =>
    intro e a h
    simp only [dedupFrom]
    split
    · rename_i hx
      rcases List.mem_cons.mp h with rfl | h
      · exact ⟨e, List.mem_cons_self .., (same_place_iff.mp hx).symm⟩
      · exact ih h
    · rcases List.mem_cons.mp h with rfl | h
      · exact ⟨a, by simp, rfl⟩
      · obtain ⟨a', ha', hk⟩ := ih (e := x) h
        exact ⟨a', List.mem_cons_of_mem _ ha', hk⟩

/-- Deduplicated, sorted edits stand in strictly ascending places. -/
theorem dedupFrom_pairwise {l : List TextEdit} : ∀ {e : TextEdit},
    (e :: l).Pairwise (editKey · ≤ editKey ·) → (e :: dedupFrom e l).Pairwise (editKey · < editKey ·) := by
  induction l with
  | nil => intro e _; simp [dedupFrom]
  | cons a l ih =>
    intro e h
    obtain ⟨hle, htail⟩ := List.pairwise_cons.mp h
    simp only [dedupFrom]
    split
    · exact ih (List.pairwise_cons.mpr
        ⟨fun b hb => hle b (List.mem_cons_of_mem _ hb), (List.pairwise_cons.mp htail).2⟩)
    · rename_i hne
      have hlt : editKey e < editKey a :=
        lt_of_le_of_ne (hle a (List.mem_cons_self ..)) fun he => hne (same_place_iff.mpr he.symm)
      have ih' := ih htail
      refine List.pairwise_cons.mpr ⟨fun b hb => ?_, ih'⟩
      rcases List.mem_cons.mp hb with rfl | hb
      · exact hlt
      · exact lt_trans hlt ((List.pairwise_cons.mp ih').1 b hb)

theorem dedup_sort_pairwise (l : List TextEdit) : (dedupEdits (sortEdits l)).Pairwise (editKey · < editKey ·) := by
  have hs : (sortEdits l).Pairwise (editKey · ≤ editKey ·) := List.pairwise_insertionSort _ l
  cases h : sortEdits l with
  | nil => exact List.Pairwise.nil
  | cons a t =>
    rw [h] at hs
    exact dedupFrom_pairwise hs

/-- Where edits of one place are equal, none is lost. -/
theorem mem_dedup_sort {l : List TextEdit} (hkey : ∀ a ∈ l, ∀ b ∈ l, editKey a = editKey b → a = b) {e : TextEdit} :
    e ∈ dedupEdits (sortEdits l) ↔ e ∈ l := by
  have hmem : ∀ x, x ∈ sortEdits l ↔ x ∈ l := fun x => List.mem_insertionSort _
  constructor
  · intro h
    rw [← hmem]
    cases hs : sortEdits l with
    | nil => rw [hs] at h; exact h
    | cons a t =>
      rw [hs] at h
      rcases List.mem_cons.mp h with rfl | h
      · exact List.mem_cons_self ..
      · exact List.mem_cons_of_mem _ (dedupFrom_subset h)
  · intro h
    have h' := (hmem e).mpr h
    cases hs : sortEdits l with
    | nil => rw [hs] at h'; cases h'
    | cons a t =>
      rw [hs] at h'
      rcases List.mem_cons.mp h' with rfl | ht
      · exact List.mem_cons_self ..
      · obtain ⟨e', he', hk⟩ := dedupFrom_covers (e := a) ht
        have hl : e' ∈ l := by
          rw [← hmem, hs]
          rcases List.mem_cons.mp he' with rfl | he'
          · exact List.mem_cons_self ..
          · exact List.mem_cons_of_mem _ (dedupFrom_subset he')
        rw [← hkey e' hl e h hk]
        exact he'

/-! ## The planned edits -/

section Plan

variable {scan : List FileSymbols} {root : Path} {langFilter : Option Language} {oldName newName : String}

/-- The entries of one file have one source. -/
def Coherent (scan : List FileSymbols) : Prop :=
  ∀ fs ∈ scan, ∀ fs' ∈ scan, fs.file = fs'.file → fs.source = fs'.source

/-- Whatever answers a scan, its sources are what the disk holds. -/
theorem scanned_coherent {T : Toolchain} {d : Disk} {scope : Option Path} {home : Bool} {store : StoreOutcome}
    {record : Option (List CachedFile)} (h : (scanProjectCached T d root scope home store record).1 = .ok scan) :
    Coherent scan := by
  intro fs hm fs' hm' he
  have h1 := scanProjectCached_source h hm
  rw [he, scanProjectCached_source h hm'] at h1
  exact (Option.some.inj h1).symm

theorem sourceOf_mem (hc : Coherent scan) {fs : FileSymbols} (hm : fs ∈ scan) :
    sourceOf scan fs.file = some fs.source := by
  have hs : (scan.reverse.find? (·.file = fs.file)).isSome = true := by
    rw [List.find?_isSome]
    exact ⟨fs, List.mem_reverse.mpr hm, by simp⟩
  obtain ⟨x, hx⟩ := Option.isSome_iff_exists.mp hs
  have hfile : x.file = fs.file := by simpa using List.find?_some hx
  rw [sourceOf, hx, Option.map_some, hc x (List.mem_reverse.mp (List.mem_of_find?_eq_some hx)) fs hm hfile]

/-- A matching reference stands in the line it names. -/
theorem lineOf_reference (hc : Coherent scan) {r : Reference} (hr : r ∈ scanReferences scan root langFilter)
    (hn : extractNameAtColumn r.context r.column = some (str oldName)) :
    lineOf scan r.file r.line = some r.context := by
  obtain ⟨entry, he, hr⟩ := List.mem_flatMap.mp hr
  split at hr
  · cases hr
  · split at hr
    · cases hr
    · obtain ⟨hfile, _, hctx⟩ := extractReferences_wf hr
      rw [lineOf, hfile, sourceOf_mem hc he, Option.bind_some]
      cases hl : (lines entry.source)[r.line - 1]? with
      | some line => rw [hl] at hctx; rw [hctx, Option.getD_some]
      | none =>
        rw [hl, Option.getD_none] at hctx
        rw [hctx] at hn
        simp [extractNameAtColumn] at hn

theorem referenceEdit_some {r : Reference} {e : TextEdit} :
    referenceEdit oldName newName r = some e ↔
      extractNameAtColumn r.context r.column = some (str oldName) ∧
        e = editAt oldName newName r.file r.line r.column := by
  unfold referenceEdit
  split <;> simp_all [eq_comm]

theorem definitionEdit_some {d : Symbol} {e : TextEdit} :
    definitionEdit scan oldName newName d = some e ↔
      d.kind ≠ .impl ∧ ∃ line, lineOf scan d.file d.line = some line ∧
        ∃ c, find (str oldName) line = some c ∧ e = editAt oldName newName d.file d.line c := by
  unfold definitionEdit
  split
  · rename_i h
    simp [h]
  · rename_i h
    simp only [ne_eq, h, not_false_eq_true, true_and, Option.bind_eq_some_iff, Option.map_eq_some_iff, @eq_comm _ e]

/-- Where an edit comes from. -/
theorem mem_computedEdits {definitions : List Symbol} {e : TextEdit} :
    e ∈ computedEdits scan root langFilter oldName newName definitions ↔
      (∃ r ∈ scanReferences scan root langFilter, referenceEdit oldName newName r = some e) ∨
        ∃ d ∈ definitions, definitionEdit scan oldName newName d = some e := by
  rw [computedEdits, mem_dedup_sort, List.mem_append, List.mem_filterMap, List.mem_filterMap]
  -- the place of an edit determines it
  have hshape : ∀ a ∈ (scanReferences scan root langFilter).filterMap (referenceEdit oldName newName) ++
      definitions.filterMap (definitionEdit scan oldName newName),
      a = editAt oldName newName a.file a.line a.column := by
    intro a ha
    rcases List.mem_append.mp ha with ha | ha
    · obtain ⟨r, _, hr⟩ := List.mem_filterMap.mp ha
      rw [(referenceEdit_some.mp hr).2]
      rfl
    · obtain ⟨d, _, hd⟩ := List.mem_filterMap.mp ha
      obtain ⟨_, _, _, c, _, rfl⟩ := definitionEdit_some.mp hd
      rfl
  intro a ha b hb hk
  obtain ⟨h1, h2, h3⟩ := same_place_iff.mpr hk
  rw [hshape a ha, hshape b hb, h1, h2, h3]

variable (scan oldName)

structure SafeEdits (edits : List TextEdit) : Prop where
  whole : ∀ e ∈ edits, e.endLine = e.line ∧ e.endColumn = e.column + (str oldName).length ∧
    ∃ line, lineOf scan e.file e.line = some line ∧ WholeAt (str oldName) line e.column
  disjoint : edits.Pairwise fun a b =>
    a.file = b.file → a.line = b.line → a.endColumn ≤ b.column ∨ b.endColumn ≤ a.column

variable (root langFilter)

/-- Every reference the name matches starts a word, and every definition's line holds
    the name as a whole word where it first holds it. -/
structure FoundWhole : Prop where
  references : ∀ r ∈ scanReferences scan root langFilter,
    extractNameAtColumn r.context r.column = some (str oldName) → StartsWord r.context r.column
  definitions : ∀ d ∈ definitionsOf scan oldName, d.kind ≠ .impl → ∀ line, lineOf scan d.file d.line = some line →
    ∀ c, find (str oldName) line = some c → WholeAt (str oldName) line c

variable {scan oldName root langFilter}

/-- A planned edit's line and its occurrence there. -/
theorem computed_whole (hc : Coherent scan) (h : FoundWhole scan root langFilter oldName) {e : TextEdit}
    (he : e ∈ computedEdits scan root langFilter oldName newName (definitionsOf scan oldName)) :
    ∃ line, lineOf scan e.file e.line = some line ∧ WholeAt (str oldName) line e.column ∧
      ((∀ b ∈ str oldName, isWordByte b = true) ∨ find (str oldName) line = some e.column) := by
  rcases mem_computedEdits.mp he with ⟨r, hr, hre⟩ | ⟨d, hd, hde⟩
  · obtain ⟨hn, rfl⟩ := referenceEdit_some.mp hre
    obtain ⟨_, hword, hhere, hafter⟩ := extractNameAtColumn_some hn
    exact ⟨r.context, lineOf_reference hc hr hn, ⟨hhere, h.references r hr hn, hafter⟩, Or.inl hword⟩
  · obtain ⟨hk, line, hl, c, hf, rfl⟩ := definitionEdit_some.mp hde
    exact ⟨line, hl, h.definitions d hd hk line hl c hf, Or.inr hf⟩

theorem computed_shape {definitions : List Symbol} {e : TextEdit}
    (he : e ∈ computedEdits scan root langFilter oldName newName definitions) :
    e.endLine = e.line ∧ e.endColumn = e.column + (str oldName).length := by
  rcases mem_computedEdits.mp he with ⟨r, _, hre⟩ | ⟨d, _, hde⟩
  · obtain ⟨_, rfl⟩ := referenceEdit_some.mp hre
    exact ⟨rfl, rfl⟩
  · obtain ⟨_, _, _, _, _, rfl⟩ := definitionEdit_some.mp hde
    exact ⟨rfl, rfl⟩

/-- Two edits of one line in ascending columns, both whole: they are disjoint, since a
    name that is not all word bytes has only the edit where it is first found. -/
theorem computed_disjoint (hc : Coherent scan) (h : FoundWhole scan root langFilter oldName) {a b : TextEdit}
    (ha : a ∈ computedEdits scan root langFilter oldName newName (definitionsOf scan oldName))
    (hb : b ∈ computedEdits scan root langFilter oldName newName (definitionsOf scan oldName))
    (hf : a.file = b.file) (hl : a.line = b.line) (hlt : a.column < b.column) : a.endColumn ≤ b.column := by
  obtain ⟨line, hla, hwa, hsa⟩ := computed_whole hc h ha
  obtain ⟨line', hlb, hwb, hsb⟩ := computed_whole hc h hb
  have hline : line' = line := by
    rw [hf, hl, hlb] at hla
    exact Option.some.inj hla
  subst hline
  rw [(computed_shape ha).2]
  rcases hsa with hword | hfa
  · exact hwa.disjoint hword hwb hlt
  · rcases hsb with hword | hfb
    · exact hwa.disjoint hword hwb hlt
    · rw [hfa] at hfb
      have := Option.some.inj hfb
      omega

theorem computed_safe (hc : Coherent scan) (h : FoundWhole scan root langFilter oldName) :
    SafeEdits scan oldName (computedEdits scan root langFilter oldName newName (definitionsOf scan oldName)) where
  whole e he := by
    obtain ⟨line, hl, hw, _⟩ := computed_whole hc h he
    exact ⟨(computed_shape he).1, (computed_shape he).2, line, hl, hw⟩
  disjoint := by
    have hpw : (computedEdits scan root langFilter oldName newName (definitionsOf scan oldName)).Pairwise
        (editKey · < editKey ·) := dedup_sort_pairwise _
    refine List.Pairwise.imp_of_mem ?_ hpw
    intro a b ha hb hk hf hl
    left
    refine computed_disjoint hc h ha hb hf hl ?_
    simpa [editKey, Prod.Lex.toLex_lt_toLex, hf, hl] using hk

theorem foundWhole_of_safe (hc : Coherent scan)
    (h : SafeEdits scan oldName (computedEdits scan root langFilter oldName newName (definitionsOf scan oldName))) :
    FoundWhole scan root langFilter oldName where
  references r hr hn := by
    obtain ⟨_, _, line, hl, hw⟩ := h.whole _
      (mem_computedEdits.mpr (Or.inl ⟨r, hr, referenceEdit_some.mpr ⟨hn, rfl⟩⟩))
    have hline : line = r.context :=
      Option.some.inj (hl.symm.trans (lineOf_reference hc hr hn))
    rw [← hline]
    exact hw.before
  definitions d hd hk line hl c hf := by
    obtain ⟨_, _, line', hl', hw⟩ := h.whole _
      (mem_computedEdits.mpr (Or.inr ⟨d, hd, definitionEdit_some.mpr ⟨hk, line, hl, c, hf, rfl⟩⟩))
    have hline : line' = line := Option.some.inj (hl'.symm.trans hl)
    rw [← hline]
    exact hw

end Plan

/-- For every scan and every name it defines, the edits are planned, and they are safe
    if and only if every place they are found at is a whole word's. With no cache
    directory the scan is an uncached one. -/
theorem planned_safe_iff {T : Toolchain} {d : Disk} {root : Path} {scope : Option Path} {home : Bool}
    {store : StoreOutcome} {record : Option (List CachedFile)} {scan : List FileSymbols}
    (hscan : (scanProjectCached T d root scope home store record).1 = .ok scan) (langFilter : Option Language)
    (oldName newName : String) (hdef : definitionsOf scan oldName ≠ []) :
    ∃ edits, planEdits scan root langFilter oldName newName = .ok edits ∧
      (SafeEdits scan oldName edits ↔ FoundWhole scan root langFilter oldName) := by
  refine ⟨_, by rw [planEdits, if_neg (by simpa using hdef)], ?_⟩
  exact ⟨foundWhole_of_safe (scanned_coherent hscan), computed_safe (scanned_coherent hscan)⟩

/-! ## A name inside its keyword -/

/-- What the tools make of `fn n() {}`. -/
def fnTools : Toolchain where
  parse _ _ := some ⟨"source_file", none, 0, 9, ⟨0, 0⟩, ⟨0, 9⟩, true, false, false,
    [⟨"function_item", none, 0, 9, ⟨0, 0⟩, ⟨0, 9⟩, true, false, false,
      [.leaf "fn" none 0 0 0 2 false, .leaf "identifier" (some "name") 0 3 3 1 true,
        .leaf "parameters" (some "parameters") 0 4 4 2 true, .leaf "block" (some "body") 0 7 7 2 true]⟩]⟩
  extractSymbols _ _ file _ := [⟨str "n", .function, file, 1, 0, 1, .private_, [], none, none, some (str "fn n()")⟩]

def fnDisk : Disk := plainDisk [(projectRoot ++ [.normal "a.rs"], ⟨str "fn n() {}", 1000000000⟩)]

def fnEntry : FileSymbols where
  file := [.normal "a.rs"]
  symbols := fnTools.extractSymbols [] (.leaf "source_file" none 0 0 0 0 true) [.normal "a.rs"] .rust
  source := str "fn n() {}"
  tree := (fnTools.parse .rust []).getD (.leaf "source_file" none 0 0 0 0 true)

theorem fn_scanned : (scanProjectCached fnTools fnDisk projectRoot none false .kept none).1 = .ok [fnEntry] := by rfl

/-- The definition `fn n() {}` first holds `n` inside `fn`: the only edit of a rename of
    `n` is there. -/
theorem a_name_inside_the_keyword_is_edited :
    (scanProjectCached fnTools fnDisk projectRoot none false .kept none).1 = .ok [fnEntry] ∧
      definitionsOf [fnEntry] "n" ≠ [] ∧
      ∃ edits, planEdits [fnEntry] projectRoot none "n" "m" = .ok edits ∧
        edits = [⟨[.normal "a.rs"], 1, 1, 1, 2, "m"⟩] ∧ ¬ SafeEdits [fnEntry] "n" edits := by
  refine ⟨fn_scanned, by decide, _, rfl, by decide, fun h => ?_⟩
  obtain ⟨_, _, line, hl, hw⟩ := h.whole ⟨[.normal "a.rs"], 1, 1, 1, 2, "m"⟩ (by decide)
  have hline : line = str "fn n() {}" := Option.some.inj (hl.symm.trans (by decide))
  have hbefore := hw.before
  subst hline
  exact absurd hbefore (by decide)

theorem planned_safe_iff_fn : ∃ edits, planEdits [fnEntry] projectRoot none "n" "m" = .ok edits ∧
    (SafeEdits [fnEntry] "n" edits ↔ FoundWhole [fnEntry] projectRoot none "n") :=
  planned_safe_iff fn_scanned none "n" "m" (by decide)

end CodeQuery.Cli
