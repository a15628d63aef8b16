/-
  CodeQuery.Cli.FramedBody — the framed output of `body` (`output.rs`).

  A frame is a header line and, under it, the symbol's body as it stands in the source.
  Nothing of a body is escaped, so one that has a header line behind an empty line reads as
  two frames (`a_header_in_a_body_is_read_as_a_frame`). Without such bodies, with headers
  of one line and without spaces in paths, the output tells the frames
  (`framed_bodies_differ`).
-/

import CodeQuery.Core.PathText
import CodeQuery.Core.Query
import CodeQuery.Core.SymbolKind
import CodeQuery.Data.Blocks
import CodeQuery.Text.Words

namespace CodeQuery.Cli

open CodeQuery.Core CodeQuery.Text CodeQuery.Data

/-! ## The output -/

def formatFrameHeader (s : Symbol) : Str :=
  str "@@ " ++ str s.file.text ++ str ":" ++ str (toString s.line) ++ str ":" ++ str (toString s.column) ++ str " " ++
    str s.kind.text ++ str " " ++ s.name ++ str " @@"

def formatMetaHeader (resolution : Resolution) (completeness : Completeness) (total : Nat) (note : Option Str) : Str :=
  str "@@ meta resolution=" ++ str resolution.text ++ str " completeness=" ++ str completeness.text ++ str " total=" ++
    str (toString total) ++
    (match note with
      | some n => str " note=\"" ++ n ++ str "\""
      | none => []) ++ str " @@"

def prependMetaFramed (header content : Str) : Str :=
  if content.isEmpty then header else header ++ str "\n\n" ++ content

/-- A header and what stands under it. -/
def frame (s : Symbol) : Str :=
  match s.body with
  | some body => formatFrameHeader s ++ str "\n" ++ body
  | none => formatFrameHeader s

def formatBodyFramed (symbols : List Symbol) : Str :=
  prependMetaFramed (formatMetaHeader .syntactic .exhaustive symbols.length none)
    ((str "\n\n").intercalate (symbols.map frame))

/-! ## What frames show -/

/-- A symbol as its frame shows it. -/
structure Shown where
  file : Path
  line : Nat
  column : Nat
  kind : SymbolKind
  name : Str
  body : Option Str
  deriving DecidableEq

def shown (s : Symbol) : Shown := ⟨s.file, s.line, s.column, s.kind, s.name, s.body⟩

def IsFrameHeader (line : Str) : Prop := ∃ s, line = formatFrameHeader s

/-- A symbol whose frame can be told: the header is one line with no space in the path,
    and no frame header stands behind an empty line of the body. -/
structure Frameable (s : Symbol) : Prop where
  isPath : ∃ t, s.file = .ofString t
  path : ' ' ∉ s.file.text.toList ∧ '\n' ∉ s.file.text.toList
  name : lf ∉ s.name
  body : ∀ body, s.body = some body → ∀ before header rest, body.splitOn lf = before ++ [] :: header :: rest →
    ¬IsFrameHeader header

/-! ## Headers -/

/-- Up to its first place, an element tells what is before and behind it. -/
theorem append_cons_inj {α : Type*} {a : α} {xs ys s t : List α} (hx : a ∉ xs) (hy : a ∉ ys)
    (h : xs ++ a :: s = ys ++ a :: t) : xs = ys ∧ s = t := by
  induction xs generalizing ys with
  | nil =>
    cases ys with
    | nil => exact ⟨rfl, (List.cons.inj h).2⟩
    | cons y ys => exact absurd ((List.cons.inj h).1 ▸ List.mem_cons_self) hy
  | cons x xs ih =>
    cases ys with
    | nil => exact absurd ((List.cons.inj h).1 ▸ List.mem_cons_self) hx
    | cons y ys =>
      obtain ⟨hxy, htail⟩ := List.cons.inj h
      obtain ⟨hxs, hst⟩ := ih (List.not_mem_of_not_mem_cons hx) (List.not_mem_of_not_mem_cons hy) htail
      exact ⟨by rw [hxy, hxs], hst⟩

theorem append_cons_inj_last {α : Type*} {a : α} {xs ys s t : List α} (hs : a ∉ s) (ht : a ∉ t)
    (h : xs ++ a :: s = ys ++ a :: t) : xs = ys ∧ s = t := by
  have hreverse := congrArg List.reverse h
  simp only [List.reverse_append, List.reverse_cons, List.append_assoc, List.singleton_append] at hreverse
  have hparts := append_cons_inj (by simpa using hs) (by simpa using ht) hreverse
  exact ⟨List.reverse_injective hparts.2, List.reverse_injective hparts.1⟩

theorem not_mem_digits {b : UInt8} {c : Char} (hb : b.toNat < 128) (hc : c.val.toNat = b.toNat) (hdigit : c.isDigit = false)
    (n : Nat) : b ∉ str (toString n) := by
  intro h
  have hmem : c ∈ (Nat.repr n).toList := ascii_mem_str hb hc h
  rw [Nat.toList_repr] at hmem
  have htrue := Nat.isDigit_of_mem_toDigits (by decide) (by decide) hmem
  rw [hdigit] at htrue
  cases htrue

theorem str_toString_inj {m n : Nat} (h : str (toString m) = str (toString n)) : m = n :=
  toString_nat_inj (str_injective h)

theorem kind_text_plain (k : SymbolKind) : ' ' ∉ k.text.toList ∧ '\n' ∉ k.text.toList := by
  cases k <;> decide

/-- The place, the kind and the name of a header. -/
theorem formatFrameHeader_eq (s : Symbol) : formatFrameHeader s = str "@@ " ++
    (((str s.file.text ++ 58 :: str (toString s.line)) ++ 58 :: str (toString s.column)) ++
      32 :: (str s.kind.text ++ 32 :: (s.name ++ str " @@"))) := by
  have hcolon : str ":" = [58] := by decide
  have hspace : str " " = [32] := by decide
  simp only [formatFrameHeader, hcolon, hspace, List.append_assoc, List.cons_append, List.nil_append]

theorem formatFrameHeader_inj {s t : Symbol} (hs : Frameable s) (ht : Frameable t)
    (h : formatFrameHeader s = formatFrameHeader t) :
    s.file = t.file ∧ s.line = t.line ∧ s.column = t.column ∧ s.kind = t.kind ∧ s.name = t.name := by
  have hnumber : ∀ n : Nat, 58 ∉ str (toString n) ∧ 32 ∉ str (toString n) := fun n =>
    ⟨not_mem_digits (by decide) (show ':'.val.toNat = _ by decide) (by decide) n,
      not_mem_digits (by decide) (show ' '.val.toNat = _ by decide) (by decide) n⟩
  have hplace : ∀ {u}, Frameable u →
      32 ∉ (str u.file.text ++ 58 :: str (toString u.line)) ++ 58 :: str (toString u.column) := by
    intro u hu hmem
    rcases List.mem_append.mp hmem with hmem | hmem
    · rcases List.mem_append.mp hmem with hmem | hmem
      · exact hu.path.1 (ascii_mem_str (by decide) (by decide) hmem)
      · exact (hnumber u.line).2 ((List.mem_cons.mp hmem).resolve_left (by decide))
    · exact (hnumber u.column).2 ((List.mem_cons.mp hmem).resolve_left (by decide))
  have hkind : ∀ k : SymbolKind, 32 ∉ str k.text := fun k hmem =>
    (kind_text_plain k).1 (ascii_mem_str (by decide) (by decide) hmem)
  rw [formatFrameHeader_eq, formatFrameHeader_eq, List.append_cancel_left_eq] at h
  -- the place ends at the first space, the kind at the next
  obtain ⟨hplaces, hrest⟩ := append_cons_inj (hplace hs) (hplace ht) h
  obtain ⟨hkinds, hnames⟩ := append_cons_inj (hkind _) (hkind _) hrest
  -- the line and the column stand behind the last two colons
  obtain ⟨hfiles, hcolumns⟩ := append_cons_inj_last (hnumber _).1 (hnumber _).1 hplaces
  obtain ⟨hfiles, hlines⟩ := append_cons_inj_last (hnumber _).1 (hnumber _).1 hfiles
  obtain ⟨p, hp⟩ := hs.isPath
  obtain ⟨q, hq⟩ := ht.isPath
  refine ⟨?_, str_toString_inj hlines, str_toString_inj hcolumns, SymbolKind.text_injective (str_injective hkinds),
    List.append_cancel_right hnames⟩
  have htext := str_injective hfiles
  rw [hp, hq] at htext ⊢
  rw [← Path.ofString_text, htext, Path.ofString_text]

/-! ## Frames as lines -/

def frameLines (s : Symbol) : List Str := formatFrameHeader s :: (s.body.map (·.splitOn lf)).getD []

theorem formatFrameHeader_oneLine {s : Symbol} (h : Frameable s) : lf ∉ formatFrameHeader s := by
  have hnumber : ∀ n : Nat, lf ∉ str (toString n) :=
    not_mem_digits (by decide) (show '\n'.val.toNat = _ by decide) (by decide)
  have hpath : lf ∉ str s.file.text := fun hmem => h.path.2 (lf_mem_str hmem)
  have hkind : lf ∉ str s.kind.text := fun hmem => (kind_text_plain s.kind).2 (lf_mem_str hmem)
  have hparts : lf ∉ str "@@ " ∧ lf ∉ str ":" ∧ lf ∉ str " " ∧ lf ∉ str " @@" := by decide
  simp only [formatFrameHeader, List.mem_append, hnumber, hpath, hkind, hparts, h.name, or_self, not_false_eq_true]

theorem frame_lines {s : Symbol} (h : Frameable s) : (frame s).splitOn lf = frameLines s := by
  have honeLine := formatFrameHeader_oneLine h
  rw [frame, frameLines]
  cases s.body with
  | none => exact List.splitOn_eq_singleton honeLine
  | some body =>
    have hlf : str "\n" = [lf] := by decide
    change (formatFrameHeader s ++ str "\n" ++ body).splitOn lf = formatFrameHeader s :: body.splitOn lf
    rw [hlf, List.append_assoc]
    exact List.splitOn_append_cons_self_of_not_mem honeLine body

theorem formatFrameHeader_ne_nil (s : Symbol) : formatFrameHeader s ≠ [] := by
  rw [formatFrameHeader_eq]
  simp

theorem frame_isBlock {s : Symbol} (h : Frameable s) : Blocks.IsBlock IsFrameHeader [] (frameLines s) where
  head := ⟨formatFrameHeader s, rfl, s, rfl⟩
  uncut before t heq hhead := by
    cases before with
    | nil => exact formatFrameHeader_ne_nil s (List.cons.inj heq).1
    | cons first before =>
      obtain ⟨header, hheader, hhead⟩ := hhead
      cases t with
      | nil => cases hheader
      | cons x t =>
        obtain rfl : x = header := Option.some.inj hheader
        cases hbody : s.body with
        | none =>
          rw [frameLines, hbody] at heq
          exact absurd (List.cons.inj heq).2 (by simp)
        | some body =>
          rw [frameLines, hbody] at heq
          exact h.body body hbody before x t (List.cons.inj heq).2 hhead

/-- The content's lines are those of the frames, with an empty one between two. -/
theorem content_lines {frames : List Str} (hne : frames ≠ []) :
    ((str "\n\n").intercalate frames).splitOn lf = [[]].intercalate (frames.map (·.splitOn lf)) := by
  have hgap : str "\n\n" = [lf, lf] := by decide
  induction frames with
  | nil => exact absurd rfl hne
  | cons f fs ih =>
    cases fs with
    | nil => simp
    | cons g gs =>
      have hrest := ih (List.cons_ne_nil g gs)
      have hblank : ∀ t : Str, (lf :: t).splitOn lf = [] :: t.splitOn lf :=
        List.splitOn_append_cons_self_of_not_mem (List.not_mem_nil : lf ∉ ([] : Str))
      rw [List.intercalate_cons_cons, hgap, List.append_assoc, List.cons_append, List.singleton_append,
        List.splitOn_append_cons_self, hblank, ← hgap, hrest]
      change _ = [[]].intercalate (f.splitOn lf :: g.splitOn lf :: gs.map (·.splitOn lf))
      rw [List.intercalate_cons_cons]
      simp

/-! ## Frames are told -/

theorem formatMetaHeader_oneLine (resolution : Resolution) (completeness : Completeness) (total : Nat) :
    lf ∉ formatMetaHeader resolution completeness total none := by
  have hnumber : lf ∉ str (toString total) :=
    not_mem_digits (by decide) (show '\n'.val.toNat = _ by decide) (by decide) total
  have hresolution : lf ∉ str resolution.text := by cases resolution <;> decide
  have hcompleteness : lf ∉ str completeness.text := by cases completeness <;> decide
  have hparts : lf ∉ str "@@ meta resolution=" ∧ lf ∉ str " completeness=" ∧ lf ∉ str " total=" ∧ lf ∉ str " @@" := by
    decide
  simp only [formatMetaHeader, List.mem_append, hnumber, hresolution, hcompleteness, hparts, List.not_mem_nil, or_self,
    not_false_eq_true]

/-- The header of an output is its first line, so it tells the content. -/
theorem prependMetaFramed_inj {header header' content content' : Str} (hone : lf ∉ header) (hone' : lf ∉ header')
    (h : prependMetaFramed header content = prependMetaFramed header' content') : content = content' := by
  have hgap : str "\n\n" = [lf, lf] := by decide
  have hself : ∀ header, prependMetaFramed header [] = header := fun _ => rfl
  have hsplit : ∀ {header content : Str}, content ≠ [] →
      prependMetaFramed header content = header ++ lf :: lf :: content := by
    intro header content hne
    rw [prependMetaFramed, if_neg (by simpa using hne), hgap, List.append_assoc]
    rfl
  by_cases hnil : content = []
  · by_cases hnil' : content' = []
    · rw [hnil, hnil']
    · rw [hnil, hself, hsplit hnil'] at h
      exact absurd (h ▸ List.mem_append_right _ List.mem_cons_self) hone
  · by_cases hnil' : content' = []
    · rw [hnil', hself, hsplit hnil] at h
      exact absurd (h ▸ List.mem_append_right _ List.mem_cons_self) hone'
    · rw [hsplit hnil, hsplit hnil'] at h
      exact (List.cons.inj (append_cons_inj hone hone' h).2).2

theorem shown_eq_of_lines {s t : Symbol} (hs : Frameable s) (ht : Frameable t) (h : frameLines s = frameLines t) :
    shown s = shown t := by
  obtain ⟨hheader, hbody⟩ := List.cons.inj h
  obtain ⟨hfile, hline, hcolumn, hkind, hname⟩ := formatFrameHeader_inj hs ht hheader
  have hbodies : s.body = t.body := by
    cases hb : s.body with
    | none =>
      cases hb' : t.body with
      | none => rfl
      | some body' =>
        rw [hb, hb'] at hbody
        exact absurd hbody.symm (List.splitOn_ne_nil lf body')
    | some body =>
      cases hb' : t.body with
      | none =>
        rw [hb, hb'] at hbody
        exact absurd hbody (List.splitOn_ne_nil lf body)
      | some body' =>
        rw [hb, hb'] at hbody
        have hjoin := congrArg ([lf].intercalate ·) hbody
        simpa using hjoin
  simp only [shown, hfile, hline, hcolumn, hkind, hname, hbodies]

theorem frame_ne_nil (s : Symbol) : frame s ≠ [] := by
  have hheader := formatFrameHeader_ne_nil s
  unfold frame
  split
  · simp [hheader]
  · exact hheader

theorem content_eq_nil {symbols : List Symbol} (h : (str "\n\n").intercalate (symbols.map frame) = []) : symbols = [] := by
  cases symbols with
  | nil => rfl
  | cons s symbols =>
    have hframe := frame_ne_nil s
    cases symbols with
    | nil => exact absurd (by simpa using h) hframe
    | cons t symbols =>
      rw [List.map_cons, List.map_cons, List.intercalate_cons_cons] at h
      simp [hframe] at h

/-- What one map tells, another does that it determines. -/
theorem map_eq_of_map_eq {α β γ : Type*} {f : α → β} {g : α → γ} {l l' : List α}
    (hfg : ∀ s ∈ l, ∀ t ∈ l', f s = f t → g s = g t) (h : l.map f = l'.map f) : l.map g = l'.map g := by
  induction l generalizing l' with
  | nil => rw [List.map_eq_nil_iff.mp h.symm]
  | cons s l ih =>
    cases l' with
    | nil => cases h
    | cons t l' =>
      obtain ⟨hfirst, hrest⟩ := List.cons.inj h
      rw [List.map_cons, List.map_cons, hfg s List.mem_cons_self t List.mem_cons_self hfirst,
        ih (fun s hs t ht => hfg s (List.mem_cons_of_mem _ hs) t (List.mem_cons_of_mem _ ht)) hrest]

/-- Symbols that their frames show differently have different outputs. -/
theorem framed_bodies_differ {symbols symbols' : List Symbol} (h : ∀ s ∈ symbols, Frameable s)
    (h' : ∀ s ∈ symbols', Frameable s) (hdiffer : symbols.map shown ≠ symbols'.map shown) :
    formatBodyFramed symbols ≠ formatBodyFramed symbols' := by
  intro heq
  have hcontent := prependMetaFramed_inj (formatMetaHeader_oneLine _ _ _) (formatMetaHeader_oneLine _ _ _) heq
  by_cases hnil : symbols = []
  · rw [hnil] at hcontent hdiffer
    rw [content_eq_nil hcontent.symm] at hdiffer
    exact hdiffer rfl
  by_cases hnil' : symbols' = []
  · rw [hnil'] at hcontent
    exact hnil (content_eq_nil hcontent)
  have hlines : ∀ {l : List Symbol}, l ≠ [] → (∀ s ∈ l, Frameable s) →
      ((str "\n\n").intercalate (l.map frame)).splitOn lf = [[]].intercalate (l.map frameLines) := by
    intro l hne hl
    rw [content_lines (by simpa using hne), List.map_map]
    refine congrArg _ (List.map_congr_left fun s hs => ?_)
    exact frame_lines (hl s hs)
  have hblocks : ∀ {l : List Symbol}, (∀ s ∈ l, Frameable s) →
      ∀ b ∈ l.map frameLines, Blocks.IsBlock IsFrameHeader [] b := by
    intro l hl b hb
    obtain ⟨s, hs, rfl⟩ := List.mem_map.mp hb
    exact frame_isBlock (hl s hs)
  have hgap : ¬IsFrameHeader [] := fun ⟨s, hs⟩ => formatFrameHeader_ne_nil s hs.symm
  have hframes : symbols.map frameLines = symbols'.map frameLines := by
    refine Blocks.join_inj hgap (by simpa using hnil) (by simpa using hnil') (hblocks h) (hblocks h') ?_
    rw [← hlines hnil h, ← hlines hnil' h', hcontent]
  exact hdiffer (map_eq_of_map_eq (fun s hs t ht => shown_eq_of_lines (h s hs) (h' t ht)) hframes)

/-! ## Outputs that agree -/

def functionAt (file : Path) (line : Nat) (name body : String) : Symbol :=
  ⟨str name, .function, file, line, 0, line, .private_, [], none, some (str body), none⟩

theorem functionAt_frameable {name body : String} (line : Nat) (hname : lf ∉ str name) (hbody : lf ∉ str body) :
    Frameable (functionAt [.normal "a.rs"] line name body) where
  isPath := ⟨"a.rs", show [Component.normal "a.rs"] = _ by decide⟩
  path := show ' ' ∉ (Path.text [.normal "a.rs"]).toList ∧ '\n' ∉ (Path.text [.normal "a.rs"]).toList by decide
  name := hname
  body := by
    intro b hb before header rest heq
    cases hb
    rw [List.splitOn_eq_singleton hbody] at heq
    have hlength := congrArg List.length heq
    simp only [List.length_cons, List.length_nil, List.length_append] at hlength
    omega

theorem framed_bodies_differ_names :
    formatBodyFramed [functionAt [.normal "a.rs"] 1 "f" "x"] ≠ formatBodyFramed [functionAt [.normal "a.rs"] 1 "g" "x"] :=
  framed_bodies_differ (List.forall_mem_singleton.mpr (functionAt_frameable 1 (by decide) (by decide)))
    (List.forall_mem_singleton.mpr (functionAt_frameable 1 (by decide) (by decide))) (by decide)

/-- A body with a header line behind an empty line is read as a frame; so is the front of
    a name with a space behind a path, and the end of a name with a line feed. What is
    not shown is not told. -/
theorem a_header_in_a_body_is_read_as_a_frame :
    (let file : Path := [.normal "a.rs"]
      let symbols := [functionAt file 1 "f" "x", functionAt file 5 "g" "y\n\n@@ a.rs:9:0 function h @@\nz"]
      let symbols' := [functionAt file 1 "f" "x\n\n@@ a.rs:5:0 function g @@\ny", functionAt file 9 "h" "z"]
      symbols.map shown ≠ symbols'.map shown ∧ formatBodyFramed symbols = formatBodyFramed symbols') ∧
    (let symbol := functionAt [.normal "a"] 1 "f:3:0 function g" "x"
      let symbol' := functionAt [.normal "a:1:0 function f"] 3 "g" "x"
      shown symbol ≠ shown symbol' ∧ formatBodyFramed [symbol] = formatBodyFramed [symbol']) ∧
    (let symbol := functionAt [.normal "a.rs"] 1 "f @@\nx" "y"
      let symbol' := functionAt [.normal "a.rs"] 1 "f" "x @@\ny"
      shown symbol ≠ shown symbol' ∧ formatBodyFramed [symbol] = formatBodyFramed [symbol']) ∧
    (let symbol := functionAt [.normal "a.rs"] 1 "f" "x"
      let symbol' := { symbol with endLine := 2 }
      symbol.endLine ≠ symbol'.endLine ∧ formatBodyFramed [symbol] = formatBodyFramed [symbol']) := by
  decide

end CodeQuery.Cli
