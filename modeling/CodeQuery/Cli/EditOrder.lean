/-
  CodeQuery.Cli.EditOrder — the edits of a file, one after the other
  (see `CodeQuery.Cli.ApplyEdits`).

  For disjoint edits that start at different places, in any order, the lines are those
  with all the spans replaced at once, and each edit finds its line as it was up to its
  own end (`edits_apply_at_once`). `run` drops all but one of the edits that start at one
  place. Without that, an insertion is lost when it comes before an edit that starts where
  it does: `an_insertion_is_lost`.
-/

import CodeQuery.Cli.ApplyEdits

namespace CodeQuery.Cli

open CodeQuery.Core CodeQuery.Text CodeQuery.Data

/-- The two edits start at different places. -/
def StartApart (a b : TextEdit) : Prop := ¬(a.line = b.line ∧ a.column = b.column)

instance : Std.Symm StartApart := ⟨fun _ _ h he => h ⟨he.1.symm, he.2.symm⟩⟩

/-- Edits that start at different places put nothing in where another one starts. -/
theorem noneDisturbed_of_startApart {content : Str} {edits : List TextEdit} (hstart : edits.Pairwise StartApart) :
    NoneDisturbed content edits := by
  intro i line _
  refine allUndisturbed_iff.mpr fun l p before hsplit _ => .inl ?_
  have hstarts : (patchesOn edits (i + 1)).Pairwise (·.start ≠ ·.start) := by
    rw [patchesOn, List.pairwise_map, List.pairwise_reverse]
    refine List.Pairwise.imp_of_mem ?_ (hstart.filter _)
    intro a b ha hb hab hsame
    have hal : a.line = i + 1 := by simpa using (List.mem_filter.mp ha).2
    have hbl : b.line = i + 1 := by simpa using (List.mem_filter.mp hb).2
    exact hab ⟨hal.trans hbl.symm, hsame.symm⟩
  rw [hsplit] at hstarts
  have hbefore := (List.pairwise_cons.mp (List.pairwise_append.mp hstarts).2.1).1
  have hnone : before.filter (·.start = p.start) = [] := List.filter_eq_nil_iff.mpr fun q hq => by
    simpa using (hbefore q hq).symm
  rw [textsAt, hnone]
  rfl

/-- Edits that start at different places have one order to be applied in. -/
theorem sortReverse_perm {edits edits' : List TextEdit} (hperm : edits'.Perm edits) (hstart : edits.Pairwise StartApart) :
    sortReverse edits' = sortReverse edits := by
  have hsorted (l : List TextEdit) : (sortReverse l).Pairwise (lineKey · ≥ lineKey ·) := List.pairwise_insertionSort _ l
  have hmem (l : List TextEdit) : ∀ e, e ∈ sortReverse l ↔ e ∈ l := fun e => List.mem_insertionSort _
  refine List.Perm.eq_of_pairwise ?_ (hsorted edits') (hsorted edits) ?_
  · intro a b ha hb hab hba
    have ha : a ∈ edits := hperm.mem_iff.mp ((hmem edits' a).mp ha)
    have hb : b ∈ edits := (hmem edits b).mp hb
    have hkey : lineKey a = lineKey b := le_antisymm hba hab
    by_contra hne
    refine hstart.forall ha hb hne ?_
    simpa [lineKey] using hkey
  · exact ((List.perm_insertionSort _ _).trans hperm).trans (List.perm_insertionSort _ _).symm

/-! ## The lines on the way -/

theorem replaceRange_take {s t : Str} {p : Patch} {k : Nat} (h : replaceRange s p = some t) (hk : k ≤ p.start) :
    t.take k = s.take k := by
  obtain ⟨hordered, hinside⟩ := replaceRange_inside h
  unfold replaceRange at h
  split at h
  · cases h
    have hlength : k ≤ (s.take p.start).length := by
      rw [List.length_take]
      omega
    rw [List.append_assoc, List.take_append_of_le_length hlength, List.take_take, Nat.min_eq_left hk]
  · cases h

/-- An edit leaves the other lines, and its own up to its start. -/
theorem applyToLines_take {ls ls' : List Str} {d : TextEdit} {i k : Nat} (h : applyToLines ls d = some ls')
    (hk : d.line - 1 = i → k ≤ d.column) : (ls'[i]?).map (·.take k) = (ls[i]?).map (·.take k) := by
  unfold applyToLines at h
  split at h
  · cases h
    rfl
  · rename_i line hline
    split at h
    · cases h
    · split at h
      · obtain ⟨line', hline', rfl⟩ := Option.map_eq_some_iff.mp h
        by_cases hi : d.line - 1 = i
        · subst hi
          obtain ⟨hlt, -⟩ := List.getElem?_eq_some_iff.mp hline
          rw [List.getElem?_set_self hlt, hline, Option.map_some, Option.map_some, replaceRange_take hline' (hk rfl)]
        · rw [List.getElem?_set_ne hi]
      · cases h
        rfl

theorem foldlM_applyToLines_take {done : List TextEdit} {i k : Nat} :
    ∀ {ls ls' : List Str}, done.foldlM applyToLines ls = some ls' → (∀ d ∈ done, d.line - 1 = i → k ≤ d.column) →
      (ls'[i]?).map (·.take k) = (ls[i]?).map (·.take k) := by
  induction done with
  | nil =>
    intro ls ls' h _
    cases h
    rfl
  | cons d done ih =>
    intro ls ls' h hk
    rw [List.foldlM_cons, Option.bind_eq_bind, Option.bind_eq_some_iff] at h
    obtain ⟨mid, hmid, hrest⟩ := h
    rw [ih hrest fun d hd => hk d (List.mem_cons_of_mem _ hd), applyToLines_take hmid (hk d List.mem_cons_self)]

/-- The edits applied before one start at or behind its end, on its line. -/
theorem done_behind {content : Str} {edits done rest : List TextEdit} {e : TextEdit}
    (hin : ∀ e ∈ edits, InBounds content e) (hdisjoint : edits.Pairwise SpansDisjoint)
    (hstart : edits.Pairwise StartApart) (hsplit : sortReverse edits = done ++ e :: rest) :
    ∀ d ∈ done, d.line - 1 = e.line - 1 → e.endColumn ≤ d.column := by
  intro d hdone hline
  have hsorted : (sortReverse edits).Pairwise (lineKey · ≥ lineKey ·) := List.pairwise_insertionSort _ edits
  have hperm := (List.perm_insertionSort (lineKey · ≥ lineKey ·) edits).symm
  have hspans : (sortReverse edits).Pairwise SpansDisjoint := hdisjoint.perm hperm fun h => Std.Symm.symm _ _ h
  have hstarts : (sortReverse edits).Pairwise StartApart := hstart.perm hperm fun h => Std.Symm.symm _ _ h
  rw [hsplit] at hsorted hspans hstarts
  have hmem : ∀ x ∈ done ++ e :: rest, x ∈ edits := by
    intro x hx
    rw [← hsplit] at hx
    exact (List.mem_insertionSort _).mp hx
  have hd := hin d (hmem d (List.mem_append_left _ hdone))
  have hdpos := hd.line_pos
  have hepos := (hin e (hmem e (by simp))).line_pos
  have hsame : d.line = e.line := by omega
  have hkey := (List.pairwise_append.mp hsorted).2.2 d hdone e List.mem_cons_self
  have hcolumn : e.column ≤ d.column := by simpa [lineKey, Prod.Lex.toLex_le_toLex, hsame] using hkey
  have hstartApart := (List.pairwise_append.mp hstarts).2.2 d hdone e List.mem_cons_self
  obtain ⟨-, -, hordered, -⟩ := hd.inside
  rcases (List.pairwise_append.mp hspans).2.2 d hdone e List.mem_cons_self hsame with h | h
  · exact absurd ⟨hsame, by omega⟩ hstartApart
  · exact h

/-- For every content and disjoint edits in bounds that start at different places, in any
    order: the lines become those with every span replaced where it was, and an edit
    finds its line as it was up to its own end. -/
theorem edits_apply_at_once {content : Str} {edits : List TextEdit} (hin : ∀ e ∈ edits, InBounds content e)
    (hdisjoint : edits.Pairwise SpansDisjoint) (hstart : edits.Pairwise StartApart) :
    (∀ edits', edits'.Perm edits → (sortReverse edits').foldlM applyToLines (lines content) =
        some ((lines content).mapIdx fun i line => splice ((editsOn edits (i + 1)).map patchOf) line)) ∧
      ∀ done e rest, sortReverse edits = done ++ e :: rest → ∃ ls, done.foldlM applyToLines (lines content) = some ls ∧
        (ls[e.line - 1]?).map (·.take e.endColumn) = ((lines content)[e.line - 1]?).map (·.take e.endColumn) := by
  have hlines := (edited_lines_iff hin hdisjoint).1.mpr (noneDisturbed_of_startApart hstart)
  constructor
  · intro edits' hperm
    rw [sortReverse_perm hperm hstart, hlines, replacedSegments_line]
  · intro done e rest hsplit
    rw [hsplit, List.foldlM_append, Option.bind_eq_bind, Option.bind_eq_some_iff] at hlines
    obtain ⟨ls, hls, -⟩ := hlines
    exact ⟨ls, hls, foldlM_applyToLines_take hls (done_behind hin hdisjoint hstart hsplit)⟩

/-! An insertion into `abcdef`, and an edit of the `de` behind it. -/

def insertion : TextEdit := ⟨[.normal "a.rs"], 1, 3, 1, 3, "X"⟩

def replacement : TextEdit := ⟨[.normal "a.rs"], 1, 3, 1, 5, "Y"⟩

def appending : TextEdit := ⟨[.normal "a.rs"], 1, 5, 1, 6, "long"⟩

theorem inBounds_abcdef {e : TextEdit} (hline : e.line = 1) (hend : e.endLine = 1) (hle : e.column ≤ e.endColumn)
    (hin : e.endColumn ≤ 6) : InBounds (str "abcdef") e := by
  have hascii : ∀ i ≤ 6, isCharBoundary (str "abcdef") i = true := by decide
  refine ⟨by omega, hend.trans hline.symm, str "abcdef", by rw [hline]; decide, hle, hin, ?_, ?_⟩
  · exact hascii _ (by omega)
  · exact hascii _ hin

theorem edits_apply_at_once_abcdef :
    (∀ edits', edits'.Perm [replacement, appending] →
        (sortReverse edits').foldlM applyToLines (lines (str "abcdef")) =
          some ((lines (str "abcdef")).mapIdx fun i line =>
            splice ((editsOn [replacement, appending] (i + 1)).map patchOf) line)) ∧
      ∀ done e rest, sortReverse [replacement, appending] = done ++ e :: rest →
        ∃ ls, done.foldlM applyToLines (lines (str "abcdef")) = some ls ∧
          (ls[e.line - 1]?).map (·.take e.endColumn) =
            ((lines (str "abcdef"))[e.line - 1]?).map (·.take e.endColumn) := by
  have hin : ∀ e ∈ [replacement, appending], InBounds (str "abcdef") e := by
    intro e he
    rcases List.mem_pair.mp he with rfl | rfl
    · exact inBounds_abcdef rfl rfl (by decide) (by decide)
    · exact inBounds_abcdef rfl rfl (by decide) (by decide)
  refine edits_apply_at_once hin ?_ ?_
  · exact List.pairwise_pair.mpr fun _ => Or.inl (by decide)
  · exact List.pairwise_pair.mpr fun h => absurd h.2 (by decide)

/-- With the insertion first in the list, the replacement takes it for its own span. -/
theorem an_insertion_is_lost :
    (∀ e ∈ [insertion, replacement], InBounds (str "abcdef") e) ∧ [insertion, replacement].Pairwise SpansDisjoint ∧
      (sortReverse [insertion, replacement]).foldlM applyToLines (lines (str "abcdef")) = some [str "abcYef"] ∧
      (sortReverse [replacement, insertion]).foldlM applyToLines (lines (str "abcdef")) = some [str "abcXYf"] := by
  refine ⟨?_, List.pairwise_pair.mpr fun _ => Or.inl (by decide), by decide, by decide⟩
  intro e he
  rcases List.mem_pair.mp he with rfl | rfl
  · exact inBounds_abcdef rfl rfl (by decide) (by decide)
  · exact inBounds_abcdef rfl rfl (by decide) (by decide)

end CodeQuery.Cli
