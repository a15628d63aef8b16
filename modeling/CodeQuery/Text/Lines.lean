/-
  CodeQuery.Text.Lines — a text taken apart into lines and joined again.

  Joining with line feeds forgets how each line ended. `rejoin` is the usual repair, a
  line feed put back when the text had one; `rejoin_eq_iff` says when that gives the
  text again: no line ended in CR LF, and the text does not end in an empty line.
-/

import CodeQuery.Text.Bytes

namespace CodeQuery.Text

/-- `join("\n")`. -/
def joinLines (ls : List Str) : Str := [lf].intercalate ls

/-- Joined lines, with a line feed at the end when `final` says the text had one and
    the joined lines do not end in one. -/
def rejoin (final : Bool) (ls : List Str) : Str :=
  let joined := joinLines ls
  if final && joined.getLast? != some lf then joined ++ [lf] else joined

/-- Endings as `segments` gives them: only the last line may have none. -/
def WellEnded : List Segment → Prop
  | [] => True
  | [g] => g.ending = [] ∨ g.ending = [lf] ∨ g.ending = [cr, lf]
  | g :: g' :: gs => (g.ending = [lf] ∨ g.ending = [cr, lf]) ∧ WellEnded (g' :: gs)

def lastEnding (gs : List Segment) : Str := (gs.getLast?.map Segment.ending).getD []

def textOf (gs : List Segment) : Str := (gs.map Segment.text).flatten

@[simp] theorem lastEnding_cons_cons (g g' : Segment) (gs : List Segment) :
    lastEnding (g :: g' :: gs) = lastEnding (g' :: gs) := by simp [lastEnding]

theorem ofPiece_ending (p : Str) :
    (Segment.ofPiece p).ending = [] ∨ (Segment.ofPiece p).ending = [lf] ∨ (Segment.ofPiece p).ending = [cr, lf] := by
  unfold Segment.ofPiece
  split
  · split <;> simp
  · simp

theorem ofPiece_ending_lf {p : Str} (h : p.getLast? = some lf) :
    (Segment.ofPiece p).ending = [lf] ∨ (Segment.ofPiece p).ending = [cr, lf] := by
  unfold Segment.ofPiece
  rw [if_pos h]
  split <;> simp

theorem wellEnded_ofPieces : ∀ ps : List Str, (∀ l p r, ps = l ++ p :: r → r ≠ [] → p.getLast? = some lf) →
    WellEnded (ps.map Segment.ofPiece)
  | [], _ => trivial
  | [p], _ => ofPiece_ending p
  | p :: q :: ps, h =>
    ⟨ofPiece_ending_lf (h [] p (q :: ps) rfl (by simp)),
      wellEnded_ofPieces (q :: ps) fun l x r e hr => h (p :: l) x r (by rw [e]; rfl) hr⟩

theorem segments_wellEnded (s : Str) : WellEnded (segments s) :=
  wellEnded_ofPieces _ (splitInclusive_ends s)

/-- Only the endings count, whatever the lines become. -/
theorem WellEnded.congr : ∀ {gs gs' : List Segment}, gs'.map Segment.ending = gs.map Segment.ending → WellEnded gs →
    WellEnded gs'
  | [], [], _, _ => trivial
  | [g], [g'], h, hw => by
    have he : g'.ending = g.ending := (List.cons.inj h).1
    simpa [WellEnded, he] using hw
  | g :: k :: gs, g' :: k' :: gs', h, hw => by
    obtain ⟨he, ht⟩ := List.cons.inj h
    have hrest : WellEnded (k' :: gs') := WellEnded.congr ht hw.2
    exact ⟨by rw [show g'.ending = g.ending from he]; exact hw.1, hrest⟩
  | [], _ :: _, h, _ => by simp at h
  | _ :: _, [], h, _ => by simp at h
  | [_], _ :: _ :: _, h, _ => by simp at h
  | _ :: _ :: _, [_], h, _ => by simp at h

theorem lastEnding_congr {gs gs' : List Segment} (h : gs'.map Segment.ending = gs.map Segment.ending) :
    lastEnding gs' = lastEnding gs := by
  simp only [lastEnding, ← List.getLast?_map, h]

/-- The last line has an ending when the text ends in a line feed. -/
theorem lastEnding_segments (s : Str) : lastEnding (segments s) ≠ [] ↔ s.getLast? = some lf := by
  rcases List.eq_nil_or_concat (splitInclusive s) with h | ⟨ps, p, h⟩
  · have hs : s = [] := by rw [← splitInclusive_flatten s, h]; rfl
    subst hs
    simp [lastEnding, segments, splitInclusive]
  · have hp : p ≠ [] := splitInclusive_ne_nil s p (by rw [h]; simp)
    have hlast : s.getLast? = p.getLast? := by
      conv => lhs; rw [← splitInclusive_flatten s, h]
      rw [List.concat_eq_append, List.flatten_append, List.getLast?_append_of_ne_nil _ (by simpa using hp)]
      simp
    have hend : lastEnding (segments s) = (Segment.ofPiece p).ending := by
      simp [lastEnding, segments, h]
    rw [hend, hlast]
    constructor
    · intro hne
      by_contra hno
      exact hne (by simp [Segment.ofPiece, hno])
    · intro hlf
      rcases ofPiece_ending_lf hlf with he | he <;> simp [he]

theorem joinLines_cons_cons (g g' : Segment) (gs : List Segment) :
    joinLines ((g :: g' :: gs).map Segment.line) = g.line ++ [lf] ++ joinLines ((g' :: gs).map Segment.line) := by
  simp [joinLines, List.intercalate]

/-- The joined lines and the text: a carriage return for every CR LF, and the last
    line's end. -/
theorem textOf_length : ∀ gs : List Segment, WellEnded gs → gs ≠ [] →
    (textOf gs).length =
      (joinLines (gs.map Segment.line)).length + (gs.filter (·.ending == [cr, lf])).length +
        (if lastEnding gs = [] then 0 else 1)
  | [], _, h => absurd rfl h
  | [g], hw, _ => by
    rcases hw with h | h | h <;> simp [textOf, Segment.text, joinLines, List.intercalate, lastEnding, h, cr, lf]
  | g :: g' :: gs, hw, _ => by
    obtain ⟨hg, hw'⟩ := hw
    have ih := textOf_length (g' :: gs) hw' (by simp)
    have ht : textOf (g :: g' :: gs) = g.line ++ g.ending ++ textOf (g' :: gs) := by simp [textOf, Segment.text]
    rw [joinLines_cons_cons, ht, lastEnding_cons_cons]
    rcases hg with h | h
    · simp only [h, List.length_append, ih, List.filter_cons, show ([lf] == [cr, lf]) = false by decide,
        Bool.false_eq_true, if_false]
      omega
    · simp only [h, List.length_append, ih, List.filter_cons, beq_self_eq_true, if_true, List.length_cons,
        List.length_nil]
      omega

/-- With no CR LF, the joined lines are the text up to the last line's end. -/
theorem textOf_eq_join : ∀ gs : List Segment, WellEnded gs → (∀ g ∈ gs, g.ending ≠ [cr, lf]) →
    textOf gs = joinLines (gs.map Segment.line) ++ lastEnding gs
  | [], _, _ => rfl
  | [g], _, _ => by simp [textOf, Segment.text, joinLines, List.intercalate, lastEnding]
  | g :: g' :: gs, hw, hno => by
    obtain ⟨hg, hw'⟩ := hw
    have ih := textOf_eq_join (g' :: gs) hw' fun x hx => hno x (List.mem_cons_of_mem _ hx)
    have hend : g.ending = [lf] := hg.resolve_right (hno g (List.mem_cons_self ..))
    rw [joinLines_cons_cons, lastEnding_cons_cons, List.append_assoc, ← ih]
    simp [textOf, Segment.text, hend]

theorem lastEnding_cases {gs : List Segment} (hw : WellEnded gs) :
    lastEnding gs = [] ∨ lastEnding gs = [lf] ∨ lastEnding gs = [cr, lf] := by
  match gs, hw with
  | [], _ => left; rfl
  | [g], hw => simpa [lastEnding, WellEnded] using hw
  | g :: g' :: gs, hw =>
    rw [lastEnding_cons_cons]
    exact lastEnding_cases hw.2

theorem lastEnding_mem {gs : List Segment} (h : lastEnding gs = [cr, lf]) : ∃ g ∈ gs, g.ending = [cr, lf] := by
  unfold lastEnding at h
  cases hl : gs.getLast? with
  | none => rw [hl] at h; simp at h
  | some g => rw [hl] at h; exact ⟨g, List.mem_of_getLast? hl, h⟩

/-- With no CR LF, a text that ends a line ends it in a line feed. -/
theorem lastEnding_eq_lf {gs : List Segment} (hw : WellEnded gs) (hno : ∀ g ∈ gs, g.ending ≠ [cr, lf])
    (hend : lastEnding gs ≠ []) : lastEnding gs = [lf] := by
  rcases lastEnding_cases hw with h | h | h
  · exact absurd h hend
  · exact h
  · obtain ⟨g, hg, he⟩ := lastEnding_mem h
    exact absurd he (hno g hg)

/-- Two line feeds at the end: what stands before the last already ends in one. -/
theorem two_lf_suffix_iff (j : Str) : [lf, lf] <:+ j ++ [lf] ↔ j.getLast? = some lf := by
  rw [List.getLast?_eq_some_iff]
  constructor
  · intro h
    obtain ⟨t, ht⟩ := h
    exact ⟨t, by simpa using (List.append_inj_left' (by simpa using ht : (t ++ [lf]) ++ [lf] = j ++ [lf]) rfl).symm⟩
  · intro h
    obtain ⟨t, rfl⟩ := h
    exact ⟨t, by simp⟩

theorem no_crlf_iff (gs : List Segment) :
    (∀ g ∈ gs, g.ending ≠ [cr, lf]) ↔ (gs.filter (·.ending == [cr, lf])).length = 0 := by
  simp [List.filter_eq_nil_iff]

/-- Rejoining gives the text exactly when no line ended in CR LF and, if the text
    ended in a line feed, it does not end in an empty line. -/
theorem rejoin_eq_iff {gs : List Segment} (hw : WellEnded gs) :
    rejoin (lastEnding gs != []) (gs.map Segment.line) = textOf gs ↔
      (∀ g ∈ gs, g.ending ≠ [cr, lf]) ∧ (lastEnding gs ≠ [] → ¬ [lf, lf] <:+ textOf gs) := by
  rcases eq_or_ne gs [] with rfl | hne
  · simp [rejoin, joinLines, textOf, lastEnding]
  have hlen := textOf_length gs hw hne
  by_cases hend : lastEnding gs = []
  · simp only [rejoin, hend, bne_self_eq_false, Bool.false_and, Bool.false_eq_true, if_false, ne_eq, not_true_eq_false,
      false_implies, and_true]
    constructor
    · intro h
      rw [no_crlf_iff]
      rw [← h] at hlen
      simp only [hend, if_true] at hlen
      omega
    · intro h
      rw [textOf_eq_join gs hw h, hend, List.append_nil]
  · simp only [hend, if_false] at hlen
    have hb : (lastEnding gs != []) = true := by simpa using hend
    simp only [rejoin, hb, Bool.true_and, ne_eq, hend, not_false_eq_true, true_implies]
    by_cases hj : (joinLines (gs.map Segment.line)).getLast? = some lf
    · -- the joined lines end in a line feed: no second one is put behind it
      simp only [hj, bne_self_eq_false, Bool.false_eq_true, if_false]
      constructor
      · intro h
        rw [← h] at hlen
        omega
      · intro h
        obtain ⟨hno, hnot⟩ := h
        rw [textOf_eq_join gs hw hno, lastEnding_eq_lf hw hno hend] at hnot
        exact absurd ((two_lf_suffix_iff _).mpr hj) hnot
    · have hj' : ((joinLines (gs.map Segment.line)).getLast? != some lf) = true := by simpa using hj
      simp only [hj', if_true]
      constructor
      · intro h
        refine ⟨?_, ?_⟩
        · rw [no_crlf_iff]
          rw [← h, List.length_append, List.length_singleton] at hlen
          omega
        · rw [← h, two_lf_suffix_iff]
          exact hj
      · intro h
        rw [textOf_eq_join gs hw h.1, lastEnding_eq_lf hw h.1 hend]

/-! ## Reading the lines off the text -/

theorem joinLines_prefix_rejoin (final : Bool) (ls : List Str) : joinLines ls <+: rejoin final ls := by
  rw [rejoin]
  split
  · exact List.prefix_append _ _
  · exact List.prefix_rfl

theorem prefix_parts {a b x y : Str} (hlength : a.length = b.length) (h : a ++ x <+: b ++ y) : a = b ∧ x <+: y := by
  obtain ⟨t, ht⟩ := h
  rw [List.append_assoc] at ht
  obtain ⟨hab, hxy⟩ := List.append_inj ht hlength
  exact ⟨hab, t, hxy⟩

/-- Joined lines that begin a text are its lines, if they are as long as these. -/
theorem lines_of_textOf : ∀ {gs : List Segment} {ls : List Str}, WellEnded gs →
    ls.map List.length = (gs.map Segment.line).map List.length → joinLines ls <+: textOf gs →
    ls = gs.map Segment.line
  | [], [], _, _, _ => rfl
  | [g], [l], _, hlength, h => by
    have htext : textOf [g] = g.line ++ g.ending := by simp [textOf, Segment.text]
    have hjoin : joinLines [l] = l ++ [] := by simp [joinLines]
    rw [htext, hjoin] at h
    rw [(prefix_parts (List.cons.inj hlength).1 h).1]
    rfl
  | g :: g' :: gs, l :: l' :: ls, hw, hlength, h => by
    obtain ⟨hown, hlengths⟩ := List.cons.inj hlength
    have htext : textOf (g :: g' :: gs) = g.line ++ (g.ending ++ textOf (g' :: gs)) := by simp [textOf, Segment.text]
    have hjoin : joinLines (l :: l' :: ls) = l ++ ([lf] ++ joinLines (l' :: ls)) := by simp [joinLines, List.intercalate]
    rw [htext, hjoin] at h
    obtain ⟨rfl, hrest⟩ := prefix_parts hown h
    rcases hw.1 with hending | hending
    · rw [hending] at hrest
      rw [lines_of_textOf hw.2 hlengths (prefix_parts rfl hrest).2]
      rfl
    · -- a line feed is no carriage return
      rw [hending] at hrest
      simp [lf, cr] at hrest
  | [], _ :: _, _, hlength, _ => by simp at hlength
  | _ :: _, [], _, hlength, _ => by simp at hlength
  | [_], _ :: _ :: _, _, hlength, _ => by simp at hlength
  | _ :: _ :: _, [_], _, hlength, _ => by simp at hlength

end CodeQuery.Text
