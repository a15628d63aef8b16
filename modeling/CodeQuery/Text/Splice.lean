/-
  CodeQuery.Text.Splice — replacing disjoint spans of a text.

  A patch names a span of a text and what stands there instead. `splice` is what a
  list of patches, in ascending order, means: the bytes between the spans, and each
  span's new text in its place. An editor that works in place applies patches from
  the last to the first, so that no patch moves the span of one still to come
  (`replaceRange` after `replaceRange`).

  The two agree where the patches start at different places. Where one patch only puts
  text in and another takes text away from the same place on, they agree while the
  insertion is applied second; applied first, it moves what the other is to take.
  `applyAll_iff` says for which lists of disjoint patches the editor gives what they
  mean.
-/

import CodeQuery.Data.StableSort
import CodeQuery.Text.Bytes
import Mathlib.Data.Prod.Lex

namespace CodeQuery.Text

open CodeQuery.Data

structure Patch where
  start : Nat
  stop : Nat
  text : Str
  deriving DecidableEq, Repr

/-- `String::replace_range`, which panics (`none`) off a character boundary. -/
def replaceRange (s : Str) (p : Patch) : Option Str :=
  if p.start ≤ p.stop ∧ p.stop ≤ s.length ∧ isCharBoundary s p.start ∧ isCharBoundary s p.stop then
    some (s.take p.start ++ p.text ++ s.drop p.stop)
  else none

theorem replaceRange_inside {s t : Str} {p : Patch} (h : replaceRange s p = some t) :
    p.start ≤ p.stop ∧ p.stop ≤ s.length := by
  unfold replaceRange at h
  split at h
  · rename_i hp
    exact ⟨hp.1, hp.2.1⟩
  · cases h

/-- The text from position `pos` on, with the spans of the patches replaced. -/
def spliceFrom : Nat → List Patch → Str → Str
  | _, [], s => s
  | pos, p :: ps, s => s.take (p.start - pos) ++ p.text ++ spliceFrom p.stop ps (s.drop (p.stop - pos))

/-- `s` with the spans of the patches, which come in ascending order, replaced. -/
def splice (ps : List Patch) (s : Str) : Str := spliceFrom 0 ps s

/-- The patch lies in `s`, on character boundaries, and its text is a text of its own. -/
structure Patch.Fits (s : Str) (p : Patch) : Prop where
  ordered : p.start ≤ p.stop
  inside : p.stop ≤ s.length
  startBoundary : isCharBoundary s p.start = true
  stopBoundary : isCharBoundary s p.stop = true
  textStarts : ∀ b, p.text.head? = some b → isContinuation b = false

@[simp] theorem splice_nil (s : Str) : splice [] s = s := rfl

/-! ## Patches that start at one place -/

/-- One patch ends where the other starts, or before. -/
def Patch.Disjoint (p q : Patch) : Prop := p.stop ≤ q.start ∨ q.stop ≤ p.start

/-- By start, and at one start what is only put in comes first. -/
def Patch.key (p : Patch) : ℕ ×ₗ ℕ := toLex (p.start, p.stop)

/-- Patches in the order of what they mean; of two that are put in at one place, the one that
    comes first in the list. -/
def inOrder (ps : List Patch) : List Patch := stableSort Patch.key ps

/-- The texts of the patches that start at a place, one behind the other. -/
def textsAt (pos : Nat) (ps : List Patch) : Str := (ps.filter (·.start = pos)).flatMap Patch.text

def Patch.span (s : Str) (p : Patch) : Str := (s.drop p.start).take (p.stop - p.start)

/-- With other text put in where it starts, a patch cuts off as much as it spans: of a length that
    is a character boundary, and so that the text is what it would have been, after all. -/
def Patch.CutsItsOwn (s : Str) (p : Patch) (put : Str) : Prop :=
  isCharBoundary (put ++ p.span s) (p.stop - p.start) = true ∧
    p.text ++ (put ++ p.span s).drop (p.stop - p.start) = put ++ p.text

/-- A patch that takes text away takes what it spans, whatever the patches applied before it, the
    last one first, put in where it starts. -/
def Patch.Undisturbed (s : Str) (p : Patch) (before : List Patch) : Prop :=
  p.start < p.stop → textsAt p.start before = [] ∨ p.CutsItsOwn s (textsAt p.start before)

def AllUndisturbed (s : Str) : List Patch → Prop
  | [] => True
  | p :: ps => p.Undisturbed s ps ∧ AllUndisturbed s ps

theorem allUndisturbed_iff {s : Str} {ps : List Patch} :
    AllUndisturbed s ps ↔ ∀ l p before, ps = l ++ p :: before → p.Undisturbed s before := by
  induction ps with
  | nil => simp [AllUndisturbed]
  | cons q ps ih =>
    rw [AllUndisturbed, ih]
    constructor
    · rintro ⟨hq, hps⟩ l p before heq
      cases l with
      | nil =>
        obtain ⟨rfl, rfl⟩ := List.cons.inj heq
        exact hq
      | cons x l => exact hps l p before (List.cons.inj heq).2
    · intro h
      exact ⟨h [] q ps rfl, fun l p before heq => h (q :: l) p before (by rw [heq]; rfl)⟩

/-- Only patches of one start disturb each other. -/
theorem allUndisturbed_filter {s : Str} {ps : List Patch} :
    AllUndisturbed s ps ↔ ∀ pos, AllUndisturbed s (ps.filter (·.start = pos)) := by
  induction ps with
  | nil => simp [AllUndisturbed]
  | cons p ps ih =>
    have hsame : textsAt p.start (ps.filter (·.start = p.start)) = textsAt p.start ps := by
      rw [textsAt, List.filter_filter]
      simp only [Bool.and_self]
      rfl
    rw [AllUndisturbed, ih]
    constructor
    · intro h pos
      by_cases hpos : p.start = pos
      · rw [List.filter_cons_of_pos (by simpa using hpos), AllUndisturbed]
        subst hpos
        exact ⟨by rw [Patch.Undisturbed, hsame]; exact h.1, h.2 _⟩
      · rw [List.filter_cons_of_neg (by simpa using hpos)]
        exact h.2 pos
    · intro h
      have hown := h p.start
      rw [List.filter_cons_of_pos (by simp), AllUndisturbed, Patch.Undisturbed, hsame] at hown
      refine ⟨hown.1, fun pos => ?_⟩
      have hpos := h pos
      by_cases heq : p.start = pos
      · rw [List.filter_cons_of_pos (by simpa using heq)] at hpos
        exact hpos.2
      · rwa [List.filter_cons_of_neg (by simpa using heq)] at hpos

theorem allUndisturbed_congr {s : Str} {ps ps' : List Patch}
    (h : ∀ pos, ps.filter (·.start = pos) = ps'.filter (·.start = pos)) : AllUndisturbed s ps ↔ AllUndisturbed s ps' := by
  rw [allUndisturbed_filter, @allUndisturbed_filter s ps']
  simp only [h]

/-- The order of what patches mean is that of the starts, and of the list under one start. -/
theorem inOrder_congr {ps ps' : List Patch} (h : ∀ pos, ps.filter (·.start = pos) = ps'.filter (·.start = pos)) :
    inOrder ps = inOrder ps' := by
  have hkey : ∀ (l : List Patch) (k : ℕ ×ₗ ℕ), l.filter (·.key = k) =
      (l.filter (·.start = (ofLex k).1)).filter (·.key = k) := by
    intro l k
    rw [List.filter_filter]
    refine List.filter_congr fun p _ => ?_
    rw [Bool.eq_iff_iff, Bool.and_eq_true, decide_eq_true_iff, decide_eq_true_iff]
    exact ⟨fun hk => ⟨hk, hk ▸ rfl⟩, fun hk => hk.1⟩
  rw [inOrder, inOrder, stableSort_eq_iff]
  intro k
  rw [hkey, h, ← hkey]

/-! ## Character boundaries -/

/-- The byte at a boundary inside the text is no continuation byte. -/
theorem boundary_byte {s : Str} {pos : Nat} {b : UInt8} (h : isCharBoundary s pos = true) (hpos : 0 < pos)
    (hget : s[pos]? = some b) : isContinuation b = false := by
  have hlt : pos < s.length := (List.getElem?_eq_some_iff.mp hget).1
  simp only [isCharBoundary, Bool.or_eq_true, beq_iff_eq, hget, Option.any_some, Bool.not_eq_true'] at h
  rcases h with (h | h) | h
  · omega
  · omega
  · exact h

theorem isCharBoundary_of_tail {s t : Str} (h : ∀ b, t.head? = some b → 0 < s.length → isContinuation b = false) :
    isCharBoundary (s ++ t) s.length = true := by
  cases t with
  | nil => simp [isCharBoundary]
  | cons b t =>
    rcases Nat.eq_zero_or_pos s.length with h0 | h0
    · simp [isCharBoundary, h0]
    · simp [isCharBoundary, h b rfl h0]

/-- The text does not begin within a character. -/
def StartsChar (t : Str) : Prop := ∀ b, t.head? = some b → isContinuation b = false

theorem StartsChar.append {t u : Str} (ht : StartsChar t) (hu : StartsChar u) : StartsChar (t ++ u) := by
  intro b hb
  cases t with
  | nil => exact hu b hb
  | cons x t => exact ht b hb

theorem StartsChar.take {t : Str} (ht : StartsChar t) (n : Nat) : StartsChar (t.take n) := by
  intro b hb
  rw [List.head?_take] at hb
  split at hb
  · cases hb
  · exact ht b hb

theorem startsChar_drop {s : Str} {pos : Nat} (h : isCharBoundary s pos = true) (hpos : 0 < pos) :
    StartsChar (s.drop pos) := by
  intro b hb
  rw [List.head?_drop] at hb
  exact boundary_byte h hpos hb

theorem isCharBoundary_append {s t : Str} (h : 0 < s.length → StartsChar t) :
    isCharBoundary (s ++ t) s.length = true :=
  isCharBoundary_of_tail fun b hb hpos => h hpos b hb

theorem isCharBoundary_cut {u v : Str} {n : Nat} (hn : n < u.length) :
    isCharBoundary (u ++ v) n = isCharBoundary u n := by
  have hget : (u ++ v)[n]? = u[n]? := List.getElem?_append_left hn
  have hne : (n == (u ++ v).length) = false := by
    rw [beq_eq_false_iff_ne, List.length_append]
    omega
  have hne' : (n == u.length) = false := by
    rw [beq_eq_false_iff_ne]
    omega
  rw [isCharBoundary, isCharBoundary, hget, hne, hne']

theorem isCharBoundary_shift {s t : Str} {n : Nat} (h : 0 < n) :
    isCharBoundary (s ++ t) (s.length + n) = isCharBoundary t n := by
  have hget : (s ++ t)[s.length + n]? = t[n]? := by
    rw [List.getElem?_append_right (Nat.le_add_right _ _), Nat.add_sub_cancel_left]
  have hzero : (s.length + n == 0) = (n == 0) := by
    rw [Bool.eq_iff_iff, beq_iff_eq, beq_iff_eq]
    omega
  have hend : (s.length + n == (s ++ t).length) = (n == t.length) := by
    rw [Bool.eq_iff_iff, beq_iff_eq, beq_iff_eq, List.length_append]
    omega
  rw [isCharBoundary, isCharBoundary, hget, hzero, hend]

theorem Patch.Fits.startsText {s : Str} {p : Patch} (h : p.Fits s) : StartsChar p.text := h.textStarts

/-- A patch at the end of the first of two parts, or in the second. -/
theorem replaceRange_append {s t : Str} {p : Patch} (hstart : p.start = s.length)
    (hstop : p.stop - p.start ≤ t.length) (hle : p.start ≤ p.stop) (ht : 0 < s.length → StartsChar t) :
    replaceRange (s ++ t) p =
      if p.start = p.stop ∨ isCharBoundary t (p.stop - p.start) = true then
        some (s ++ (p.text ++ t.drop (p.stop - p.start)))
      else none := by
  obtain ⟨n, hn⟩ : ∃ n, p.stop = s.length + n := ⟨p.stop - s.length, by omega⟩
  have hsub : p.stop - p.start = n := by omega
  have hboundary : isCharBoundary (s ++ t) p.start = true := hstart ▸ isCharBoundary_append ht
  have hinside : p.stop ≤ (s ++ t).length := by
    rw [List.length_append]
    omega
  have htake : (s ++ t).take p.start = s := by rw [hstart, List.take_left]
  have hdrop : (s ++ t).drop p.stop = t.drop n := by rw [hn, List.drop_length_add_append]
  have hsame : isCharBoundary (s ++ t) p.stop = true ↔ p.start = p.stop ∨ isCharBoundary t n = true := by
    rcases Nat.eq_zero_or_pos n with rfl | hpos
    · have heq : p.start = p.stop := by omega
      rw [← heq]
      simp [hboundary]
    · have hne : ¬ p.start = p.stop := by omega
      rw [hn, isCharBoundary_shift hpos]
      simp [← hn, hne]
  rw [replaceRange, hsub]
  simp only [hle, hinside, hboundary, hsame, htake, hdrop, true_and, List.append_assoc]

/-! ## What the patches mean -/

theorem key_le_iff {p q : Patch} :
    p.key ≤ q.key ↔ p.start < q.start ∨ p.start = q.start ∧ p.stop ≤ q.stop := by
  rw [Patch.key, Patch.key, Prod.Lex.toLex_le_toLex]

theorem inOrder_cons {p : Patch} {ps : List Patch} (h : ∀ q ∈ ps, p.key ≤ q.key) :
    inOrder (p :: ps) = p :: inOrder ps :=
  List.insertionSort_cons_of_forall_rel _ h

/-- What is put in at the first place of all comes first. -/
theorem inOrder_insertions {c : Nat} {ins rest : List Patch} (hins : ∀ q ∈ ins, q.start = c ∧ q.stop = c)
    (hrest : ∀ q ∈ rest, c < q.start) : inOrder (ins ++ rest) = ins ++ inOrder rest := by
  induction ins with
  | nil => rfl
  | cons p ins ih =>
    obtain ⟨⟨hstart, hstop⟩, hins⟩ := List.forall_mem_cons.mp hins
    rw [List.cons_append, inOrder_cons, ih hins, List.cons_append]
    intro q hq
    rw [key_le_iff]
    rcases List.mem_append.mp hq with hq | hq
    · have := hins q hq
      omega
    · have := hrest q hq
      omega

/-- A patch that takes text away comes behind what is put in where it starts. -/
theorem inOrder_behind {p : Patch} {ins rest : List Patch} (hlt : p.start < p.stop)
    (hins : ∀ q ∈ ins, q.start = p.start ∧ q.stop = p.start) (hrest : ∀ q ∈ rest, p.start < q.start) :
    inOrder (p :: (ins ++ rest)) = ins ++ p :: inOrder rest := by
  have hskip : ∀ l : List Patch, (∀ q ∈ l, q.start = p.start ∧ q.stop = p.start) → ∀ r,
      (l ++ r).orderedInsert (·.key ≤ ·.key) p = l ++ r.orderedInsert (·.key ≤ ·.key) p := by
    intro l hl r
    induction l with
    | nil => rfl
    | cons q l ih =>
      obtain ⟨hq, hl⟩ := List.forall_mem_cons.mp hl
      have hnot : ¬ p.key ≤ q.key := by
        rw [key_le_iff]
        omega
      rw [List.cons_append, List.orderedInsert_of_not_le (fun a b : Patch => a.key ≤ b.key) _ hnot, ih hl,
        List.cons_append]
  rw [inOrder, stableSort, List.insertionSort_cons]
  show (inOrder (ins ++ rest)).orderedInsert _ p = _
  rw [inOrder_insertions hins hrest, hskip ins hins]
  have hcons := @inOrder_cons p rest fun q hq => key_le_iff.mpr (.inl (hrest q hq))
  rw [← hcons]
  rfl

theorem spliceFrom_cons {s : Str} {pos : Nat} {p : Patch} {ps : List Patch} (hpos : pos ≤ p.start)
    (hle : p.start ≤ p.stop) :
    spliceFrom pos (p :: ps) (s.drop pos) =
      (s.drop pos).take (p.start - pos) ++ (p.text ++ spliceFrom p.stop ps (s.drop p.stop)) := by
  have hskip : (s.drop pos).drop (p.stop - pos) = s.drop p.stop := by
    rw [List.drop_drop]
    congr 1
    omega
  rw [spliceFrom, hskip, List.append_assoc]

theorem spliceFrom_insertions {s : Str} {pos : Nat} {p : Patch} {ins ps : List Patch} (hpos : pos ≤ p.start)
    (hle : p.start ≤ p.stop) (hins : ∀ q ∈ ins, q.start = p.start ∧ q.stop = p.start) :
    spliceFrom pos (ins ++ p :: ps) (s.drop pos) =
      (s.drop pos).take (p.start - pos) ++
        (ins.flatMap Patch.text ++ (p.text ++ spliceFrom p.stop ps (s.drop p.stop))) := by
  induction ins generalizing pos with
  | nil => exact spliceFrom_cons hpos hle
  | cons q ins ih =>
    obtain ⟨⟨hstart, hstop⟩, hins⟩ := List.forall_mem_cons.mp hins
    rw [List.cons_append, spliceFrom_cons (by omega) (by omega), hstop, ih le_rfl hins, Nat.sub_self, List.take_zero,
      List.nil_append, hstart, List.flatMap_cons, List.append_assoc]

/-! ## In place, at one start as they come -/

section Outcome

-- an editor that replaces a span as long as it lies in the text
variable {apply : Patch → Str → Option Str}

/-- What an editor gives, which leaves the text before `pos`: none if a patch is disturbed and cuts
    a character, else a text as long as what the patches mean, and that text if none is disturbed. -/
def Outcome (s : Str) (pos : Nat) (ps : List Patch) : Option Str → Prop
  | none => ¬ AllUndisturbed s ps
  | some t => ∃ t', t = s.take pos ++ t' ∧ t'.length = (spliceFrom pos (inOrder ps) (s.drop pos)).length ∧
      (0 < pos → StartsChar t') ∧ (t' = spliceFrom pos (inOrder ps) (s.drop pos) ↔ AllUndisturbed s ps)

theorem take_split {s : Str} {pos c : Nat} (h : pos ≤ c) : s.take c = s.take pos ++ (s.drop pos).take (c - pos) := by
  rw [← List.take_add]
  congr 1
  omega

/-- Patches from a place on are those that start there, and the others. -/
theorem split_start {c : Nat} {ps : List Patch} (hge : ∀ q ∈ ps, c ≤ q.start)
    (hsorted : ps.Pairwise (·.start ≤ ·.start)) :
    ∃ ins rest, ps = ins ++ rest ∧ (∀ q ∈ ins, q.start = c) ∧ ∀ q ∈ rest, c < q.start := by
  induction ps with
  | nil => exact ⟨[], [], rfl, by simp, by simp⟩
  | cons p ps ih =>
    obtain ⟨hp, hge⟩ := List.forall_mem_cons.mp hge
    obtain ⟨hfirst, hsorted⟩ := List.pairwise_cons.mp hsorted
    rcases Nat.eq_or_lt_of_le hp with heq | hlt
    · obtain ⟨ins, rest, rfl, hins, hrest⟩ := ih hge hsorted
      exact ⟨p :: ins, rest, rfl, List.forall_mem_cons.mpr ⟨heq.symm, hins⟩, hrest⟩
    · refine ⟨[], p :: ps, rfl, by simp, List.forall_mem_cons.mpr ⟨hlt, fun q hq => ?_⟩⟩
      exact Nat.lt_of_lt_of_le hlt (hfirst q hq)

theorem textsAt_insertions {c : Nat} {ins rest : List Patch} (hins : ∀ q ∈ ins, q.start = c)
    (hrest : ∀ q ∈ rest, c < q.start) :
    textsAt c (ins ++ rest) = ins.flatMap Patch.text := by
  have h₁ : ins.filter (·.start = c) = ins := List.filter_eq_self.mpr fun q hq => decide_eq_true (hins q hq)
  have h₂ : rest.filter (·.start = c) = [] := List.filter_eq_nil_iff.mpr fun q hq => by
    have := hrest q hq
    simp only [decide_eq_true_eq]
    omega
  rw [textsAt, List.filter_append, h₁, h₂, List.append_nil]

theorem allUndisturbed_insertions {s : Str} {ins rest : List Patch} (hins : ∀ q ∈ ins, q.start = q.stop) :
    AllUndisturbed s (ins ++ rest) ↔ AllUndisturbed s rest := by
  induction ins with
  | nil => rfl
  | cons q ins ih =>
    obtain ⟨hq, hins⟩ := List.forall_mem_cons.mp hins
    rw [List.cons_append, AllUndisturbed, ih hins]
    exact and_iff_right fun hlt => absurd hq (by omega)

theorem outcome_nil {s : Str} {pos : Nat} (hboundary : isCharBoundary s pos = true) :
    Outcome s pos [] (some s) :=
  ⟨s.drop pos, (List.take_append_drop pos s).symm, rfl, fun h0 => startsChar_drop hboundary h0,
    iff_of_true rfl trivial⟩

variable (happly : ∀ p t, p.start ≤ p.stop → p.stop ≤ t.length → apply p t = replaceRange t p)
include happly

/-- One insertion after the other at one place. -/
theorem applyAll_insertions {s u : Str} {ins : List Patch}
    (hins : ∀ q ∈ ins, q.start = s.length ∧ q.stop = s.length) (htexts : ∀ q ∈ ins, StartsChar q.text)
    (hu : 0 < s.length → StartsChar u) :
    ins.foldrM apply (s ++ u) = some (s ++ (ins.flatMap Patch.text ++ u)) ∧
      (0 < s.length → StartsChar (ins.flatMap Patch.text ++ u)) := by
  induction ins with
  | nil => exact ⟨rfl, hu⟩
  | cons q ins ih =>
    obtain ⟨⟨hstart, hstop⟩, hins⟩ := List.forall_mem_cons.mp hins
    obtain ⟨htext, htexts⟩ := List.forall_mem_cons.mp htexts
    obtain ⟨hfold, hstarts⟩ := ih hins htexts
    have hle : q.stop ≤ (s ++ (ins.flatMap Patch.text ++ u)).length := by
      rw [List.length_append]
      omega
    constructor
    · rw [List.foldrM_cons, hfold, Option.bind_eq_bind, Option.bind_some, happly _ _ (by omega) hle,
        replaceRange_append hstart (by omega) (by omega) hstarts, if_pos (.inl (by omega)), hstart, hstop, Nat.sub_self,
        List.drop_zero, List.flatMap_cons, List.append_assoc]
    · intro hpos
      rw [List.flatMap_cons, List.append_assoc]
      exact htext.append (hstarts hpos)

/-- The first patch only puts text in. -/
theorem outcome_insertion {s : Str} {pos : Nat} {p : Patch} {ps : List Patch} (hp : p.Fits s) (hpos : pos ≤ p.start)
    (hsame : p.start = p.stop) (hge : ∀ q ∈ ps, q.Fits s ∧ p.start ≤ q.start)
    (hboundary : isCharBoundary s pos = true) (h : Outcome s p.start ps (ps.foldrM apply s)) :
    Outcome s pos (p :: ps) ((p :: ps).foldrM apply s) := by
  have hall : AllUndisturbed s (p :: ps) ↔ AllUndisturbed s ps := by
    rw [AllUndisturbed]
    exact and_iff_right fun hlt => absurd hsame (by omega)
  rw [List.foldrM_cons, Option.bind_eq_bind]
  cases hfold : ps.foldrM apply s with
  | none =>
    rw [hfold] at h
    exact hall.not.mpr h
  | some t =>
    rw [hfold] at h
    obtain ⟨t', rfl, hlength, hstarts, hmeans⟩ := h
    have hinside := hp.inside
    have hlen : (s.take p.start).length = p.start := by
      rw [List.length_take]
      omega
    have hfirst : ∀ q ∈ ps, p.key ≤ q.key := by
      intro q hq
      obtain ⟨hfits, hstart⟩ := hge q hq
      have hordered := hfits.ordered
      rw [key_le_iff]
      omega
    have hspliced : spliceFrom pos (inOrder (p :: ps)) (s.drop pos) =
        (s.drop pos).take (p.start - pos) ++ (p.text ++ spliceFrom p.start (inOrder ps) (s.drop p.start)) := by
      rw [inOrder_cons hfirst, spliceFrom_cons hpos hp.ordered, ← hsame]
    have happlied : apply p (s.take p.start ++ t') = some (s.take p.start ++ (p.text ++ t')) := by
      rw [happly _ _ hp.ordered (by rw [List.length_append]; omega),
        replaceRange_append hlen.symm (by omega) hp.ordered fun h0 => hstarts (hlen ▸ h0), if_pos (.inl hsame),
        ← hsame, Nat.sub_self, List.drop_zero]
    rw [Option.bind_some, happlied]
    refine ⟨(s.drop pos).take (p.start - pos) ++ (p.text ++ t'), ?_, ?_, ?_, ?_⟩
    · rw [take_split hpos, List.append_assoc]
    · rw [hspliced, List.length_append, List.length_append, List.length_append, List.length_append, hlength]
    · intro h0
      exact ((startsChar_drop hboundary h0).take _).append (hp.startsText.append (hstarts (by omega)))
    · rw [hspliced, List.append_right_inj, List.append_right_inj, hmeans, hall]

/-- The first patch takes text away, behind what is put in where it starts. -/
theorem outcome_replacement {s : Str} {pos : Nat} {p : Patch} {ins rest : List Patch} (hp : p.Fits s)
    (hpos : pos ≤ p.start) (hlt : p.start < p.stop)
    (hins : ∀ q ∈ ins, q.Fits s ∧ q.start = p.start ∧ q.stop = p.start)
    (hrest : ∀ q ∈ rest, p.stop ≤ q.start) (hboundary : isCharBoundary s pos = true)
    (h : Outcome s p.stop rest (rest.foldrM apply s)) :
    Outcome s pos (p :: (ins ++ rest)) ((p :: (ins ++ rest)).foldrM apply s) := by
  have hbehind : ∀ q ∈ rest, p.start < q.start := fun q hq => Nat.lt_of_lt_of_le hlt (hrest q hq)
  have hput : textsAt p.start (ins ++ rest) = ins.flatMap Patch.text :=
    textsAt_insertions (fun q hq => (hins q hq).2.1) hbehind
  have hall : AllUndisturbed s (p :: (ins ++ rest)) ↔
      (ins.flatMap Patch.text = [] ∨ p.CutsItsOwn s (ins.flatMap Patch.text)) ∧ AllUndisturbed s rest := by
    rw [AllUndisturbed, Patch.Undisturbed, hput, allUndisturbed_insertions fun q hq => by have := (hins q hq).2; omega]
    exact and_congr_left fun _ => ⟨fun hu => hu hlt, fun hu _ => hu⟩
  rw [List.foldrM_cons, List.foldrM_append, Option.bind_eq_bind]
  cases hfold : rest.foldrM apply s with
  | none =>
    rw [hfold] at h
    exact fun hdone => h (hall.mp hdone).2
  | some t =>
    rw [hfold] at h
    obtain ⟨t', rfl, hlength, hstarts, hmeans⟩ := h
    have hinside := hp.inside
    have hlen : (s.take p.start).length = p.start := by
      rw [List.length_take]
      omega
    have hspan : (p.span s).length = p.stop - p.start := by
      rw [Patch.span, List.length_take, List.length_drop]
      omega
    have hstop : s.take p.stop = s.take p.start ++ p.span s := take_split (Nat.le_of_lt hlt)
    have hbehindStarts : StartsChar t' := hstarts (by omega)
    have hspanStarts : 0 < (s.take p.start).length → StartsChar (p.span s ++ t') := fun h0 =>
      ((startsChar_drop hp.startBoundary (hlen ▸ h0)).take _).append hbehindStarts
    obtain ⟨hput', hputStarts⟩ := applyAll_insertions happly
      (fun q hq => ⟨(hins q hq).2.1.trans hlen.symm, (hins q hq).2.2.trans hlen.symm⟩)
      (fun q hq => (hins q hq).1.startsText) hspanStarts
    have hspliced : spliceFrom pos (inOrder (p :: (ins ++ rest))) (s.drop pos) =
        (s.drop pos).take (p.start - pos) ++
          (ins.flatMap Patch.text ++ (p.text ++ spliceFrom p.stop (inOrder rest) (s.drop p.stop))) := by
      rw [inOrder_behind hlt (fun q hq => (hins q hq).2) hbehind,
        spliceFrom_insertions hpos hp.ordered fun q hq => (hins q hq).2]
    rw [Option.bind_some, hstop, List.append_assoc, hput', Option.bind_some]
    -- what the patch cuts is as long as its span
    set put := ins.flatMap Patch.text with hputDef
    have hcutLength : p.stop - p.start ≤ (put ++ (p.span s ++ t')).length := by
      rw [List.length_append, List.length_append]
      omega
    rw [happly _ _ hp.ordered (by rw [List.length_append]; omega),
      replaceRange_append hlen.symm hcutLength hp.ordered hputStarts]
    have hdrop : (put ++ (p.span s ++ t')).drop (p.stop - p.start) =
        (put ++ p.span s).drop (p.stop - p.start) ++ t' := by
      rw [← List.append_assoc, List.drop_append_of_le_length]
      rw [List.length_append]
      omega
    have hcut : (p.start = p.stop ∨ isCharBoundary (put ++ (p.span s ++ t')) (p.stop - p.start) = true) ↔
        put = [] ∨ isCharBoundary (put ++ p.span s) (p.stop - p.start) = true := by
      rw [or_iff_right (by omega)]
      rcases eq_or_ne put [] with hnil | hne
      · rw [hnil, List.nil_append, ← hspan]
        exact iff_of_true (isCharBoundary_append fun _ => hbehindStarts) (.inl rfl)
      · have hpos' := List.length_pos_iff.mpr hne
        rw [or_iff_right hne, ← List.append_assoc, isCharBoundary_cut]
        rw [List.length_append]
        omega
    have hremains : ((put ++ p.span s).drop (p.stop - p.start)).length = put.length := by
      rw [List.length_drop, List.length_append]
      omega
    have hnilDrop : put = [] → (put ++ p.span s).drop (p.stop - p.start) = [] := fun hnil => by
      rw [hnil, List.nil_append, ← hspan, List.drop_length]
    simp only [hcut, hdrop]
    split
    next hok =>
      refine ⟨(s.drop pos).take (p.start - pos) ++
        (p.text ++ ((put ++ p.span s).drop (p.stop - p.start) ++ t')), ?_, ?_, ?_, ?_⟩
      · rw [take_split hpos, List.append_assoc]
      · rw [hspliced]
        simp only [List.length_append, hremains, hlength]
        omega
      · intro h0
        refine ((startsChar_drop hboundary h0).take _).append (hp.startsText.append ?_)
        have hdropStarts : StartsChar ((put ++ p.span s).drop (p.stop - p.start)) := by
          rcases hok with hnil | hok
          · rw [hnilDrop hnil]
            intro b hb
            cases hb
          · exact startsChar_drop hok (by omega)
        exact hdropStarts.append hbehindStarts
      · rw [hspliced, List.append_right_inj, hall, ← hmeans]
        have hsplit : p.text ++ ((put ++ p.span s).drop (p.stop - p.start) ++ t') =
              put ++ (p.text ++ spliceFrom p.stop (inOrder rest) (s.drop p.stop)) ↔
            p.text ++ (put ++ p.span s).drop (p.stop - p.start) = put ++ p.text ∧
              t' = spliceFrom p.stop (inOrder rest) (s.drop p.stop) := by
          rw [← List.append_assoc, ← List.append_assoc put]
          constructor
          · intro heq
            refine List.append_inj heq ?_
            rw [List.length_append, List.length_append, hremains, Nat.add_comm]
          · rintro ⟨h₁, h₂⟩
            rw [h₁, h₂]
        rw [hsplit]
        refine and_congr_left fun _ => ⟨fun heq => ?_, fun hcuts => ?_⟩
        · exact hok.imp id fun hb => ⟨hb, heq⟩
        · rcases hcuts with hnil | hcuts
          · rw [hnilDrop hnil, hnil, List.append_nil, List.nil_append]
          · exact hcuts.2
    next hno =>
      intro hdone
      exact hno ((hall.mp hdone).1.imp id fun hcuts => hcuts.1)

/-- Disjoint patches in place, from the last start to the first, those of one start as they come. -/
theorem applyAll_outcome {s : Str} : ∀ (n : Nat) (ps : List Patch) (pos : Nat), ps.length ≤ n →
    (∀ p ∈ ps, p.Fits s ∧ pos ≤ p.start) → ps.Pairwise (·.start ≤ ·.start) →
    ps.Pairwise Patch.Disjoint → isCharBoundary s pos = true →
    Outcome s pos ps (ps.foldrM apply s) := by
  intro n
  induction n with
  | zero =>
    intro ps pos hn _ _ _ hboundary
    obtain rfl := List.length_eq_zero_iff.mp (Nat.le_zero.mp hn)
    exact outcome_nil hboundary
  | succ n ih =>
    intro ps pos hn hfits hsorted hdisjoint hboundary
    cases ps with
    | nil => exact outcome_nil hboundary
    | cons p ps =>
      obtain ⟨⟨hp, hpos⟩, hfits⟩ := List.forall_mem_cons.mp hfits
      obtain ⟨hfirst, hsorted⟩ := List.pairwise_cons.mp hsorted
      obtain ⟨hpart, hdisjoint⟩ := List.pairwise_cons.mp hdisjoint
      rw [List.length_cons] at hn
      rcases Nat.eq_or_lt_of_le hp.ordered with hsame | hlt
      · have hge : ∀ q ∈ ps, q.Fits s ∧ p.start ≤ q.start := fun q hq => ⟨(hfits q hq).1, hfirst q hq⟩
        exact outcome_insertion happly hp hpos hsame hge hboundary
          (ih ps p.start (by omega) hge hsorted hdisjoint hp.startBoundary)
      · obtain ⟨ins, rest, rfl, hins, hrest⟩ := split_start hfirst hsorted
        have hins' : ∀ q ∈ ins, q.Fits s ∧ q.start = p.start ∧ q.stop = p.start := by
          intro q hq
          have hfit := (hfits q (List.mem_append_left _ hq)).1
          have hordered := hfit.ordered
          have hstart := hins q hq
          refine ⟨hfit, hstart, ?_⟩
          rcases hpart q (List.mem_append_left _ hq) with hd | hd <;> omega
        have hrest' : ∀ q ∈ rest, p.stop ≤ q.start := by
          intro q hq
          have hordered := (hfits q (List.mem_append_right _ hq)).1.ordered
          have hstart := hrest q hq
          rcases hpart q (List.mem_append_right _ hq) with hd | hd <;> omega
        have hlength : rest.length ≤ n := by
          rw [List.length_append] at hn
          omega
        exact outcome_replacement happly hp hpos hlt hins' hrest' hboundary
          (ih rest p.stop hlength (fun q hq => ⟨(hfits q (List.mem_append_right _ hq)).1, hrest' q hq⟩)
            (List.pairwise_append.mp hsorted).2.1 (List.pairwise_append.mp hdisjoint).2.1 hp.stopBoundary)

/-- Disjoint patches in place give a text as long as what they mean, or cut a character; it is what
    they mean if and only if none is disturbed. -/
theorem applyAll_iff {s : Str} {ps : List Patch} (hfits : ∀ p ∈ ps, p.Fits s)
    (hsorted : ps.Pairwise (·.start ≤ ·.start)) (hdisjoint : ps.Pairwise Patch.Disjoint) :
    (ps.foldrM apply s = some (splice (inOrder ps) s) ↔ AllUndisturbed s ps) ∧
      ∀ t, ps.foldrM apply s = some t → t.length = (splice (inOrder ps) s).length := by
  have h := applyAll_outcome happly ps.length ps 0 le_rfl (fun p hp => ⟨hfits p hp, Nat.zero_le _⟩) hsorted
    hdisjoint rfl
  cases hfold : ps.foldrM apply s with
  | none =>
    rw [hfold] at h
    exact ⟨iff_of_false (by simp) h, by simp⟩
  | some t =>
    rw [hfold] at h
    obtain ⟨t', rfl, hlength, -, hmeans⟩ := h
    rw [Option.some.injEq]
    refine ⟨hmeans, fun u hu => ?_⟩
    cases hu
    exact hlength

end Outcome

end CodeQuery.Text
