/-
  CodeQuery.Cli.ApplyEdits — what applying edits does to the files (see `CodeQuery.Cli.Rename`).

  (1) One file (`applied_replaced_iff`): each line of edits in bounds and disjoint becomes
      the line with its spans replaced, unless an edit takes away what one listed before it
      put in where it starts (`edited_lines_iff`); but the lines are joined with line feeds.
      The file is the content with the spans replaced if and only if no edit is disturbed so,
      no line ended in CR LF and it does not end in an empty line;
      `a_carriage_return_is_dropped` is a file with one CR LF.
  (2) Many files (`failed_apply_stops`): a failure stops the visit. The files before it
      keep their edits, the failing one may be cut off, the rest is untouched:
      `a_failed_rename_keeps_the_first_file`.
-/

import CodeQuery.Cli.Rename

namespace CodeQuery.Cli

open CodeQuery.Core CodeQuery.Text CodeQuery.Data

/-! ## Edits of a content -/

/-- The edit names a span of one line of the content, on character boundaries. -/
structure InBounds (content : Str) (e : TextEdit) : Prop where
  line_pos : 0 < e.line
  one_line : e.endLine = e.line
  inside : ∃ line, (lines content)[e.line - 1]? = some line ∧ e.column ≤ e.endColumn ∧ e.endColumn ≤ line.length ∧
    isCharBoundary line e.column = true ∧ isCharBoundary line e.endColumn = true

/-- On one line, one edit ends before the other starts. -/
def SpansDisjoint (a b : TextEdit) : Prop := a.line = b.line → a.endColumn ≤ b.column ∨ b.endColumn ≤ a.column

instance : Std.Symm SpansDisjoint := ⟨fun _ _ h he => (h he.symm).symm⟩

def patchOf (e : TextEdit) : Patch := ⟨e.column, e.endColumn, str e.newText⟩

/-- The edits of a line, from its start on. At one place, what is only put in comes before what
    takes text away; of two that are put in, the one listed last comes first. -/
def editsOn (edits : List TextEdit) (line : Nat) : List TextEdit :=
  stableSort (fun e => (patchOf e).key) (edits.filter (·.line = line)).reverse

/-- The content's lines with the edited spans replaced, and their endings as they are. -/
def replacedSegments (content : Str) (edits : List TextEdit) : List Segment :=
  (segments content).mapIdx fun i g => ⟨splice ((editsOn edits (i + 1)).map patchOf) g.line, g.ending⟩

/-- The content with just the edited spans replaced. -/
def replaced (content : Str) (edits : List TextEdit) : Str := textOf (replacedSegments content edits)

theorem replacedSegments_ending (content : Str) (edits : List TextEdit) :
    (replacedSegments content edits).map Segment.ending = (segments content).map Segment.ending := by
  apply List.ext_getElem?
  intro i
  simp only [replacedSegments, List.getElem?_map, List.getElem?_mapIdx, Option.map_map, Function.comp_def]

theorem replacedSegments_line (content : Str) (edits : List TextEdit) :
    (replacedSegments content edits).map Segment.line =
      (lines content).mapIdx fun i line => splice ((editsOn edits (i + 1)).map patchOf) line := by
  apply List.ext_getElem?
  intro i
  simp only [replacedSegments, lines, List.getElem?_map, List.getElem?_mapIdx, Option.map_map, Function.comp_def]

theorem replaced_nil (content : Str) : replaced content [] = content := by
  have h : replacedSegments content [] = segments content := by
    apply List.ext_getElem?
    intro i
    simp [replacedSegments, editsOn, stableSort]
  rw [replaced, h]
  exact segments_flatten content

/-- The patches of a line, the one listed last first. -/
def patchesOn (edits : List TextEdit) (line : Nat) : List Patch := (edits.filter (·.line = line)).reverse.map patchOf

/-- On no line does an edit that takes text away take, instead, what an edit listed before it puts
    in where it starts. -/
def NoneDisturbed (content : Str) (edits : List TextEdit) : Prop :=
  ∀ i line, (lines content)[i]? = some line → AllUndisturbed line (patchesOn edits (i + 1))

theorem map_editsOn (edits : List TextEdit) (i : Nat) : (editsOn edits i).map patchOf = inOrder (patchesOn edits i) :=
  List.map_insertionSort _ _ patchOf _ fun _ _ _ _ => Iff.rfl

/-! ## The order of application -/

/-- The patches of a line, in the order the last one of which is applied first. -/
def appliedOn (edits : List TextEdit) (line : Nat) : List Patch :=
  ((sortReverse edits).filter (·.line = line)).reverse.map patchOf

/-- Edits of one place are applied as they are listed. -/
theorem filter_sortReverse (edits : List TextEdit) (k : ℕ ×ₗ ℕ) :
    (sortReverse edits).filter (lineKey · = k) = edits.filter (lineKey · = k) := by
  let key : TextEdit → (ℕ ×ₗ ℕ)ᵒᵈ := fun e => OrderDual.toDual (lineKey e)
  have hkept : (stableSort key edits).filter (key · = OrderDual.toDual k) = edits.filter (key · = OrderDual.toDual k) :=
    filter_stableSort edits _
  exact hkept

theorem filter_appliedOn (edits : List TextEdit) (i pos : Nat) :
    (appliedOn edits i).filter (·.start = pos) = (patchesOn edits i).filter (·.start = pos) := by
  have hplace : ∀ l : List TextEdit, (l.filter (·.line = i)).filter ((·.start = pos) ∘ patchOf) =
      l.filter (lineKey · = toLex (i, pos)) := by
    intro l
    rw [List.filter_filter]
    refine List.filter_congr fun e _ => ?_
    simp [lineKey, patchOf, Bool.and_comm]
    rfl
  rw [appliedOn, patchesOn, List.filter_map, List.filter_map, List.filter_reverse, List.filter_reverse, hplace, hplace,
    filter_sortReverse]

theorem mem_appliedOn {edits : List TextEdit} {i : Nat} {p : Patch} :
    p ∈ appliedOn edits i ↔ ∃ e ∈ edits, e.line = i ∧ patchOf e = p := by
  simp [appliedOn, sortReverse, and_assoc]

/-- What holds of the edits of a line in the order they are sorted in holds of what is applied
    to it, the other way round. -/
theorem appliedOn_pairwise {edits : List TextEdit} {i : Nat} {R : TextEdit → TextEdit → Prop} {S : Patch → Patch → Prop}
    (hs : (sortReverse edits).Pairwise R)
    (h : ∀ a b, a.line = i → b.line = i → R a b → S (patchOf b) (patchOf a)) : (appliedOn edits i).Pairwise S := by
  rw [appliedOn, List.pairwise_map, List.pairwise_reverse]
  refine List.Pairwise.imp_of_mem ?_ (hs.filter _)
  intro a b ha hb hab
  have hal : a.line = i := by simpa using (List.mem_filter.mp ha).2
  have hbl : b.line = i := by simpa using (List.mem_filter.mp hb).2
  exact h a b hal hbl hab

theorem appliedOn_sorted (edits : List TextEdit) (i : Nat) : (appliedOn edits i).Pairwise (·.start ≤ ·.start) := by
  have hs : (sortReverse edits).Pairwise (lineKey · ≥ lineKey ·) := List.pairwise_insertionSort _ edits
  refine appliedOn_pairwise hs fun a b hal hbl hk => ?_
  simpa [lineKey, Prod.Lex.toLex_le_toLex, hal, hbl, patchOf] using hk

theorem appliedOn_disjoint {edits : List TextEdit} (hd : edits.Pairwise SpansDisjoint) (i : Nat) :
    (appliedOn edits i).Pairwise Patch.Disjoint := by
  have hs : (sortReverse edits).Pairwise SpansDisjoint :=
    hd.perm (List.perm_insertionSort _ edits).symm fun h => Std.Symm.symm _ _ h
  refine appliedOn_pairwise hs fun a b hal hbl hab => ?_
  exact (hab (hal.trans hbl.symm)).symm

theorem appliedOn_fit {content : Str} {edits : List TextEdit} (hin : ∀ e ∈ edits, InBounds content e) {i : Nat}
    {line : Str} (hl : (lines content)[i]? = some line) : ∀ p ∈ appliedOn edits (i + 1), p.Fits line := by
  intro p hp
  obtain ⟨e, he, hel, rfl⟩ := mem_appliedOn.mp hp
  obtain ⟨line', hl', h1, h2, h3, h4⟩ := (hin e he).inside
  rw [hel, Nat.add_sub_cancel, hl] at hl'
  cases hl'
  exact ⟨h1, h2, h3, h4, fun b hb => str_head hb⟩

/-! ## One line, and all of them -/

/-- An edit of its line. One out of range is skipped. -/
def applyToLine (p : Patch) (line : Str) : Option Str :=
  if p.stop < p.start then none
  else if p.start + (p.stop - p.start) ≤ line.length then replaceRange line p else some line

theorem applyToLine_inside {p : Patch} {line : Str} (hle : p.start ≤ p.stop) (hstop : p.stop ≤ line.length) :
    applyToLine p line = replaceRange line p := by
  rw [applyToLine, if_neg (by omega), if_pos (by omega)]

theorem applyToLines_eq {ls : List Str} {e : TextEdit} {line : Str} (hline : ls[e.line - 1]? = some line) :
    applyToLines ls e = (applyToLine (patchOf e) line).map fun line' => ls.set (e.line - 1) line' := by
  have hset : ls.set (e.line - 1) line = ls := by
    obtain ⟨hlt, hget⟩ := List.getElem?_eq_some_iff.mp hline
    rw [← hget, List.set_getElem_self]
  have hpatch : applyToLine (patchOf e) line =
      if e.endColumn < e.column then none
      else if e.column + (e.endColumn - e.column) ≤ line.length then
        replaceRange line ⟨e.column, e.endColumn, str e.newText⟩
      else some line := rfl
  rw [applyToLines, hline, hpatch]
  by_cases hback : e.endColumn < e.column
  · simp only [hback, if_true, Option.map_none]
  · by_cases hfit : e.column + (e.endColumn - e.column) ≤ line.length
    · simp only [hback, hfit, if_true, if_false]
    · simp only [hback, hfit, if_false, Option.map_some, hset]

/-- The edits of one line, applied to it one after the other. -/
def applyToOne (es : List TextEdit) (i : Nat) (line : Str) : Option Str :=
  ((es.filter (·.line = i + 1)).map patchOf).foldlM (fun line p => applyToLine p line) line

/-- Edits applied line by line: every line becomes what its own edits make of it. -/
theorem foldlM_applyToLines_iff {es : List TextEdit} : ∀ {ls ls' : List Str},
    (∀ e ∈ es, 0 < e.line ∧ e.line ≤ ls.length) →
    (es.foldlM applyToLines ls = some ls' ↔ ls'.length = ls.length ∧
      ∀ i line, ls[i]? = some line → ∃ line', ls'[i]? = some line' ∧ applyToOne es i line = some line') := by
  induction es with
  | nil =>
    intro ls ls' _
    rw [List.foldlM_nil]
    constructor
    · intro h
      cases h
      exact ⟨rfl, fun i line hline => ⟨line, hline, rfl⟩⟩
    · intro h
      obtain ⟨hlength, h⟩ := h
      refine congrArg some (List.ext_getElem? fun i => ?_)
      cases hline : ls[i]? with
      | none =>
        have hle := List.getElem?_eq_none_iff.mp hline
        rw [List.getElem?_eq_none (by omega)]
      | some line =>
        obtain ⟨line', hline', hsame⟩ := h i line hline
        cases hsame
        exact hline'.symm
  | cons e es ih =>
    intro ls ls' hin
    obtain ⟨⟨hpos, hle⟩, hin⟩ := List.forall_mem_cons.mp hin
    obtain ⟨line, hline⟩ : ∃ line, ls[e.line - 1]? = some line := ⟨_, List.getElem?_eq_getElem (by omega)⟩
    have hown : ∀ l, applyToOne (e :: es) (e.line - 1) l =
        (applyToLine (patchOf e) l).bind fun l' => applyToOne es (e.line - 1) l' := by
      intro l
      rw [applyToOne, List.filter_cons_of_pos (by simp; omega), List.map_cons, List.foldlM_cons]
      rfl
    have hother : ∀ i l, e.line - 1 ≠ i → applyToOne (e :: es) i l = applyToOne es i l := by
      intro i l hi
      rw [applyToOne, List.filter_cons_of_neg (by simp; omega), applyToOne]
    rw [List.foldlM_cons, applyToLines_eq hline]
    cases hmade : applyToLine (patchOf e) line with
    | none =>
      refine iff_of_false (by simp) fun h => ?_
      obtain ⟨_, -, hall⟩ := h.2 _ _ hline
      rw [hown, hmade] at hall
      cases hall
    | some made =>
      have hset : ∀ i l, (ls.set (e.line - 1) made)[i]? = some l ↔
          if e.line - 1 = i then l = made else ls[i]? = some l := by
        intro i l
        rw [List.getElem?_set]
        split
        · rw [if_pos (by omega), Option.some.injEq, eq_comm]
        · rfl
      rw [Option.map_some, Option.bind_eq_bind, Option.bind_some, ih (by simpa using hin), List.length_set]
      refine and_congr_right fun _ => ⟨fun h i l hl => ?_, fun h i l hl => ?_⟩
      · by_cases hi : e.line - 1 = i
        · subst hi
          obtain rfl := Option.some.inj (hline.symm.trans hl)
          rw [hown, hmade]
          exact h _ made ((hset _ _).mpr (by rw [if_pos rfl]))
        · rw [hother i l hi]
          exact h i l ((hset _ _).mpr (by rwa [if_neg hi]))
      · rw [hset] at hl
        by_cases hi : e.line - 1 = i
        · rw [if_pos hi] at hl
          subst hi hl
          obtain ⟨line', hline', hfold⟩ := h _ line hline
          rw [hown, hmade] at hfold
          exact ⟨line', hline', hfold⟩
        · rw [if_neg hi] at hl
          rw [← hother i l hi]
          exact h i l hl

/-- The edits of a line, in bounds and disjoint, make it as long as the line with its spans
    replaced, if they do not cut a character. It is that line exactly when none is disturbed. -/
theorem applyToOne_iff {content : Str} {edits : List TextEdit} (hin : ∀ e ∈ edits, InBounds content e)
    (hd : edits.Pairwise SpansDisjoint) {i : Nat} {line : Str} (hl : (lines content)[i]? = some line) :
    (applyToOne (sortReverse edits) i line = some (splice ((editsOn edits (i + 1)).map patchOf) line) ↔
        AllUndisturbed line (patchesOn edits (i + 1))) ∧
      ∀ t, applyToOne (sortReverse edits) i line = some t →
        t.length = (splice ((editsOn edits (i + 1)).map patchOf) line).length := by
  have hone : applyToOne (sortReverse edits) i line = (appliedOn edits (i + 1)).foldrM applyToLine line := by
    rw [applyToOne, ← List.reverse_reverse (((sortReverse edits).filter (·.line = i + 1)).map patchOf),
      List.foldlM_reverse, ← List.map_reverse]
    rfl
  have happlied := applyAll_iff (fun _ _ => applyToLine_inside) (appliedOn_fit hin hl) (appliedOn_sorted edits (i + 1))
    (appliedOn_disjoint hd (i + 1))
  have hagree := filter_appliedOn edits (i + 1)
  rw [hone, map_editsOn, ← inOrder_congr hagree, ← allUndisturbed_congr hagree]
  exact happlied

/-- Edits in bounds and disjoint make of every line what `applyToOne_iff` says. -/
theorem edited_lines_iff {content : Str} {edits : List TextEdit} (hin : ∀ e ∈ edits, InBounds content e)
    (hd : edits.Pairwise SpansDisjoint) :
    ((sortReverse edits).foldlM applyToLines (lines content) =
        some ((replacedSegments content edits).map Segment.line) ↔ NoneDisturbed content edits) ∧
      ∀ ls, (sortReverse edits).foldlM applyToLines (lines content) = some ls →
        ls.map List.length = ((replacedSegments content edits).map Segment.line).map List.length := by
  have hlines : ∀ e ∈ sortReverse edits, 0 < e.line ∧ e.line ≤ (lines content).length := by
    intro e he
    have he : e ∈ edits := (List.mem_insertionSort _).mp he
    obtain ⟨line, hl, _⟩ := (hin e he).inside
    obtain ⟨hlt, _⟩ := List.getElem?_eq_some_iff.mp hl
    have := (hin e he).line_pos
    omega
  rw [replacedSegments_line]
  constructor
  · rw [foldlM_applyToLines_iff hlines, List.length_mapIdx, and_iff_right rfl, NoneDisturbed]
    refine forall_congr' fun i => forall_congr' fun line => forall_congr' fun hl => ?_
    rw [← (applyToOne_iff hin hd hl).1, List.getElem?_mapIdx, hl, Option.map_some]
    simp
  · intro ls h
    obtain ⟨hlength, h⟩ := (foldlM_applyToLines_iff hlines).mp h
    refine List.ext_getElem? fun i => ?_
    rw [List.getElem?_map, List.getElem?_map, List.getElem?_mapIdx]
    cases hl : (lines content)[i]? with
    | none =>
      have hle := List.getElem?_eq_none_iff.mp hl
      rw [List.getElem?_eq_none (by omega)]
      rfl
    | some line =>
      obtain ⟨line', hline', hone⟩ := h i line hl
      rw [hline', Option.map_some, Option.map_some, Option.map_some, (applyToOne_iff hin hd hl).2 line' hone]

/-! ## (1) One file -/

/-- The content written back is the replaced content exactly when no edit is disturbed, no line
    ends in CR LF and, if the content ends in a line feed, the replaced one does not end in two. -/
theorem editedContent_replaced_iff {content : Str} {edits : List TextEdit} (hin : ∀ e ∈ edits, InBounds content e)
    (hd : edits.Pairwise SpansDisjoint) :
    editedContent content edits = some (replaced content edits) ↔
      NoneDisturbed content edits ∧ (∀ g ∈ segments content, g.ending ≠ [cr, lf]) ∧
        (content.getLast? = some lf → ¬ [lf, lf] <:+ replaced content edits) := by
  obtain ⟨hmade, hlengths⟩ := edited_lines_iff hin hd
  have hends := replacedSegments_ending content edits
  have hended : WellEnded (replacedSegments content edits) := WellEnded.congr hends (segments_wellEnded content)
  have hcrlf : (∀ g ∈ replacedSegments content edits, g.ending ≠ [cr, lf]) ↔
      ∀ g ∈ segments content, g.ending ≠ [cr, lf] := by
    have h (gs : List Segment) : (∀ g ∈ gs, g.ending ≠ [cr, lf]) ↔ ∀ x ∈ gs.map Segment.ending, x ≠ [cr, lf] := by simp
    rw [h, h, hends]
  have hfinal : (content.getLast? == some lf) = (lastEnding (replacedSegments content edits) != []) := by
    rw [lastEnding_congr hends, Bool.eq_iff_iff]
    simpa using (lastEnding_segments content).symm
  have hjoined := rejoin_eq_iff hended
  rw [hcrlf, lastEnding_congr hends, lastEnding_segments, ← lastEnding_congr hends] at hjoined
  rw [editedContent, hfinal, Option.map_eq_some_iff, ← hmade, replaced, ← hjoined]
  constructor
  · intro h
    obtain ⟨ls, hls, htext⟩ := h
    -- the lines have their lengths, so the text tells what they are
    obtain rfl := lines_of_textOf hended (hlengths ls hls) (htext ▸ joinLines_prefix_rejoin _ ls)
    exact ⟨hls, htext⟩
  · intro h
    exact ⟨_, h.1, h.2⟩

/-- No read or write fails. -/
def Faults.none : Faults := ⟨fun _ => false, fun _ => .none⟩

theorem order_one_file {file : Path} {edits : List TextEdit} (hf : ∀ e ∈ edits, e.file = file) (hne : edits ≠ [])
    (order : FileOrder edits) : order.groups = [⟨file, edits⟩] := by
  have hmem : ∀ g, g ∈ (byFile edits).entries ↔ g = ⟨file, edits⟩ := by
    intro g
    rw [byFile, Groups.mem_entries_groupBy]
    obtain ⟨k, as⟩ := g
    constructor
    · intro h
      obtain ⟨⟨e, he, hk⟩, has⟩ := h
      have hkf : k = file := hk.symm.trans (hf e he)
      subst hkf
      have hall : edits.filter (·.file = k) = edits := List.filter_eq_self.mpr fun x hx => by simp [hf x hx]
      rw [show as = edits.filter (·.file = k) from has, hall]
    · intro h
      cases h
      obtain ⟨e, he⟩ := List.exists_mem_of_ne_nil _ hne
      exact ⟨⟨e, he, hf e he⟩, (List.filter_eq_self.mpr fun x hx => by simp [hf x hx]).symm⟩
  have hnodup : (byFile edits).entries.Nodup := (byFile edits).nodupKeys.nodup
  have hone : (byFile edits).entries.Perm [⟨file, edits⟩] :=
    (List.perm_ext_iff_of_nodup hnodup (List.nodup_singleton _)).mpr fun g => by rw [hmem, List.mem_singleton]
  exact List.perm_singleton.mp (order.perm.trans hone)

/-- For every text and every list of its edits, in bounds and disjoint: the edits are applied and the
    file holds the content with just the spans replaced if and only if there was nothing to do, or
    no edit is disturbed, no line ended in CR LF and the file, if it ended in a line feed, is not
    left with an empty line at its end. -/
theorem applied_replaced_iff {root file : Path} {content : Str} {edits : List TextEdit} {files : Files}
    (hfile : files (root.join file) = some content) (htext : (fromUtf8 content).isSome = true)
    (hf : ∀ e ∈ edits, e.file = file) (hin : ∀ e ∈ edits, InBounds content e) (hd : edits.Pairwise SpansDisjoint)
    (order : FileOrder edits) :
    ((applyEdits root .none edits order files).1 = .ok ∧
        (applyEdits root .none edits order files).2 (root.join file) = some (replaced content edits)) ↔
      edits = [] ∨ NoneDisturbed content edits ∧ (∀ g ∈ segments content, g.ending ≠ [cr, lf]) ∧
        (content.getLast? = some lf → ¬ [lf, lf] <:+ replaced content edits) := by
  rcases eq_or_ne edits [] with rfl | hne
  · have hg : order.groups = [] := List.perm_nil.mp order.perm
    simp [applyEdits, hg, applyGroups, hfile, replaced_nil]
  · have hread : readToString .none files (root.join file) = some content := by
      simp [readToString, Faults.none, hfile, htext]
    have hwrite : Faults.none.writeFails (root.join file) = .none := rfl
    rw [or_iff_right hne, ← editedContent_replaced_iff hin hd]
    simp only [applyEdits, order_one_file hf hne, applyGroups, hread]
    cases hnew : editedContent content edits with
    | none => simp
    | some new => simp [hwrite, Files.update]

/-! A file of two lines, one of them ended by CR LF. -/

def crlfFile : Files := fun p => if p = [.rootDir, .normal "a.rs"] then some (str "one\x0d\ntwo") else none

def crlfEdits : List TextEdit := [⟨[.normal "a.rs"], 1, 0, 1, 3, "three"⟩]

def crlfOrder : FileOrder crlfEdits := ⟨_, .refl _⟩

theorem crlfEdits_inBounds : ∀ e ∈ crlfEdits, InBounds (str "one\x0d\ntwo") e := by
  intro e he
  have he : e = ⟨[.normal "a.rs"], 1, 0, 1, 3, "three"⟩ := by simpa [crlfEdits] using he
  subst he
  exact ⟨by decide, rfl, str "one", by decide, by decide, by decide, by decide, by decide⟩

/-- A rename in the first line drops its carriage return. -/
theorem a_carriage_return_is_dropped :
    (∀ e ∈ crlfEdits, InBounds (str "one\x0d\ntwo") e) ∧ crlfEdits.Pairwise SpansDisjoint ∧
      (applyEdits [.rootDir] .none crlfEdits crlfOrder crlfFile).2 [.rootDir, .normal "a.rs"] =
        some (str "three\ntwo") ∧
      replaced (str "one\x0d\ntwo") crlfEdits = str "three\x0d\ntwo" ∧ str "three\ntwo" ≠ str "three\x0d\ntwo" :=
  ⟨crlfEdits_inBounds, List.pairwise_singleton .., by decide, by decide, by decide⟩

theorem applied_replaced_iff_crlf :
    ((applyEdits [.rootDir] .none crlfEdits crlfOrder crlfFile).1 = .ok ∧
        (applyEdits [.rootDir] .none crlfEdits crlfOrder crlfFile).2 [.rootDir, .normal "a.rs"] =
          some (replaced (str "one\x0d\ntwo") crlfEdits)) ↔
      crlfEdits = [] ∨ NoneDisturbed (str "one\x0d\ntwo") crlfEdits ∧
        (∀ g ∈ segments (str "one\x0d\ntwo"), g.ending ≠ [cr, lf]) ∧
          ((str "one\x0d\ntwo").getLast? = some lf → ¬ [lf, lf] <:+ replaced (str "one\x0d\ntwo") crlfEdits) :=
  applied_replaced_iff (by decide : crlfFile (Path.join [.rootDir] [.normal "a.rs"]) = some (str "one\x0d\ntwo"))
    (by decide) (by decide) crlfEdits_inBounds (List.pairwise_singleton ..) crlfOrder

/-! ## (2) Many files -/

/-- What a visit that failed leaves: `failing` is the file whose read or write failed. -/
structure StoppedAt (root : Path) (faults : Faults) (files files' : Files)
    (done : List (Sigma fun _ : Path => List TextEdit)) (failing : Sigma fun _ : Path => List TextEdit) : Prop where
  edited : ∀ g ∈ done, ∃ content new, files (root.join g.1) = some content ∧ editedContent content g.2 = some new ∧
    files' (root.join g.1) = some new
  untouched : ∀ p, (∀ g ∈ done, p ≠ root.join g.1) → p ≠ root.join failing.1 → files' p = files p
  failed : (readToString faults files (root.join failing.1) = none ∨
        faults.writeFails (root.join failing.1) = some .notOpened) ∧
      files' (root.join failing.1) = files (root.join failing.1) ∨
    ∃ n content new, faults.writeFails (root.join failing.1) = some (.brokeOff n) ∧
      files (root.join failing.1) = some content ∧ editedContent content failing.2 = some new ∧
      files' (root.join failing.1) = some (new.take n)

theorem readToString_some {faults : Faults} {files : Files} {p : Path} {s : Str}
    (h : readToString faults files p = some s) : files p = some s := by
  unfold readToString at h
  split at h
  · cases h
  · exact (Option.filter_eq_some_iff.mp h).1

theorem readToString_update {faults : Faults} {files : Files} {p q : Path} {s : Str} (h : q ≠ p) :
    readToString faults (files.update p s) q = readToString faults files q := by
  simp [readToString, Files.update, h]

/-- A file written before, at a path of its own. -/
theorem StoppedAt.cons {root : Path} {faults : Faults} {files files' : Files} {g failing : Sigma fun _ : Path => List TextEdit}
    {done : List (Sigma fun _ : Path => List TextEdit)} {content new : Str}
    (hcontent : files (root.join g.1) = some content) (hnew : editedContent content g.2 = some new)
    (hdone : ∀ g' ∈ done, root.join g.1 ≠ root.join g'.1) (hfailing : root.join g.1 ≠ root.join failing.1)
    (h : StoppedAt root faults (files.update (root.join g.1) new) files' done failing) :
    StoppedAt root faults files files' (g :: done) failing where
  edited g' hg' := by
    rcases List.mem_cons.mp hg' with rfl | hg'
    · refine ⟨content, new, hcontent, hnew, ?_⟩
      rw [h.untouched _ hdone hfailing]
      simp [Files.update]
    · obtain ⟨c, n, hc, hn, hf⟩ := h.edited g' hg'
      have hapart : files.update (root.join g.1) new (root.join g'.1) = files (root.join g'.1) := by
        simp [Files.update, (hdone g' hg').symm]
      exact ⟨c, n, by rw [← hc, hapart], hn, hf⟩
  untouched p hp hpf := by
    rw [h.untouched p (fun x hx => hp x (List.mem_cons_of_mem _ hx)) hpf]
    simp [Files.update, hp g (List.mem_cons_self ..)]
  failed := by
    have hf := h.failed
    have hapart : files.update (root.join g.1) new (root.join failing.1) = files (root.join failing.1) := by
      simp [Files.update, hfailing.symm]
    rwa [readToString_update hfailing.symm, hapart] at hf

/-- A visit of files with paths of their own that fails stops at the failing one. -/
theorem applyGroups_err {root : Path} {faults : Faults} {gs : List (Sigma fun _ : Path => List TextEdit)} :
    ∀ {files files' : Files}, gs.Pairwise (fun g g' => root.join g.1 ≠ root.join g'.1) →
      applyGroups root faults gs files = (.err, files') →
      ∃ done failing rest, gs = done ++ failing :: rest ∧ StoppedAt root faults files files' done failing := by
  induction gs with
  | nil => intro files files' _ h; simp [applyGroups] at h
  | cons g gs ih =>
    intro files files' hpw h
    obtain ⟨hne, hpw'⟩ := List.pairwise_cons.mp hpw
    simp only [applyGroups] at h
    split at h
    · rename_i hread
      cases h
      exact ⟨[], g, gs, rfl, by simp, fun _ _ _ => rfl, Or.inl ⟨Or.inl hread, rfl⟩⟩
    · rename_i content hread
      have hcontent := readToString_some hread
      split at h
      · cases h
      · rename_i new hnew
        split at h
        · rename_i hwrite
          cases h
          exact ⟨[], g, gs, rfl, by simp, fun _ _ _ => rfl, Or.inl ⟨Or.inr hwrite, rfl⟩⟩
        · rename_i n hwrite
          cases h
          refine ⟨[], g, gs, rfl, by simp, fun p _ hp => by simp [Files.update, hp], Or.inr ?_⟩
          exact ⟨n, content, new, hwrite, hcontent, hnew, by simp [Files.update]⟩
        · -- the file is written, and the failure is behind it
          obtain ⟨done, failing, rest, hgs, hstop⟩ := ih hpw' h
          have hdone : ∀ g' ∈ done, g' ∈ gs := fun g' hg' => by rw [hgs]; exact List.mem_append_left _ hg'
          have hfailing : failing ∈ gs := by rw [hgs]; simp
          exact ⟨g :: done, failing, rest, by rw [hgs]; rfl,
            hstop.cons hcontent hnew (fun g' hg' => hne g' (hdone g' hg')) (hne failing hfailing)⟩

/-- For every set of edits of scanned files, whatever fails: an error stops the visit at
    one file. Those visited before it hold their edited contents, the failing one is as
    it was or holds a part of its edited content, and nothing else changes. -/
theorem failed_apply_stops {root : Path} {faults : Faults} {edits : List TextEdit} {order : FileOrder edits}
    {files files' : Files} (hplain : ∀ e ∈ edits, e.file.Plain)
    (h : applyEdits root faults edits order files = (.err, files')) :
    ∃ done failing rest, order.groups = done ++ failing :: rest ∧ StoppedAt root faults files files' done failing := by
  refine applyGroups_err ?_ h
  -- distinct files, none of them rooted, have distinct paths
  have hkeys : order.groups.Pairwise fun g g' => g.1 ≠ g'.1 := by
    have hk : (byFile edits).entries.Pairwise fun g g' => g.1 ≠ g'.1 := List.pairwise_map.mp (byFile edits).nodupKeys
    exact hk.perm order.perm.symm fun hne => hne.symm
  have hmem : ∀ g ∈ order.groups, g.1.Plain := by
    intro g hg
    obtain ⟨⟨e, he, hk⟩, _⟩ := Groups.mem_entries_groupBy.mp (order.perm.mem_iff.mp hg)
    rw [← hk]
    exact hplain e he
  refine List.Pairwise.imp_of_mem ?_ hkeys
  intro g g' hg hg' hne heq
  exact hne ((Path.join_plain_inj (hmem g hg) (hmem g' hg')).mp heq)

/-! Two files, the second of which cannot be read. -/

def pairFiles : Files := fun p =>
  if p = [.rootDir, .normal "a.rs"] then some (str "old")
  else if p = [.rootDir, .normal "b.rs"] then some (str "old")
  else none

def pairEdits : List TextEdit :=
  [⟨[.normal "a.rs"], 1, 0, 1, 3, "new"⟩, ⟨[.normal "b.rs"], 1, 0, 1, 3, "new"⟩]

def pairOrder : FileOrder pairEdits := ⟨(byFile pairEdits).entries.reverse, List.reverse_perm _⟩

def pairFaults : Faults := ⟨(· == [.rootDir, .normal "b.rs"]), fun _ => .none⟩

/-- The rename fails at the second file, and the first keeps its edit. -/
theorem a_failed_rename_keeps_the_first_file :
    (applyEdits [.rootDir] pairFaults pairEdits pairOrder pairFiles).1 = .err ∧
      pairFiles [.rootDir, .normal "a.rs"] = some (str "old") ∧
      (applyEdits [.rootDir] pairFaults pairEdits pairOrder pairFiles).2 [.rootDir, .normal "a.rs"] =
        some (str "new") := by
  decide

theorem failed_apply_stops_pair : ∃ done failing rest, pairOrder.groups = done ++ failing :: rest ∧
    StoppedAt [.rootDir] pairFaults pairFiles (applyEdits [.rootDir] pairFaults pairEdits pairOrder pairFiles).2 done
      failing :=
  failed_apply_stops (by decide : ∀ e ∈ pairEdits, e.file.Plain)
    (Prod.ext (by decide : (applyEdits [.rootDir] pairFaults pairEdits pairOrder pairFiles).1 = .err) rfl)

end CodeQuery.Cli
