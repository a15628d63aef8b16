/-
  CodeQuery.Lsp.Framing — the framing of the stdio transport, read back.

  A frame is a text with its length in front, among any other header lines. The header
  loop skips those (`headerLoop_other`), takes the length (`headerLoop_contentLength`)
  and stops at the blank line, so a frame is read exactly (`readMessage_frame`),
  whatever its text holds and whatever follows it.
-/

import CodeQuery.Lsp.Transport

namespace CodeQuery.Lsp

open CodeQuery.Text CodeQuery.Data.Frames

/-! ## Frames -/

/-- Visible ASCII but the colon. -/
def isTokenChar (c : Char) : Bool := 0x21 ≤ c.toNat && c.toNat ≤ 0x7E && c != ':'

/-- A well-formed header line other than the length. -/
structure HeaderLine where
  name : String
  value : String
  nonempty : name.toList ≠ []
  token : ∀ c ∈ name.toList, isTokenChar c = true
  other : name ≠ "Content-Length"
  oneLine : '\n' ∉ value.toList

def HeaderLine.text (h : HeaderLine) : String := h.name ++ (":" ++ (h.value ++ "\r"))

def HeaderLine.bytes (h : HeaderLine) : Str := str (h.text ++ "\n")

def contentLengthText (n : Nat) : String := "Content-Length: " ++ (toString n ++ "\r")

theorem contentLengthText_eq (n : Nat) : contentLengthText n = "Content-Length: " ++ (toString n ++ "\r") := rfl

/-- A message on the stream; no text is longer than `isize::MAX` bytes. -/
structure Frame where
  before : List HeaderLine
  after : List HeaderLine
  body : String
  bounded : (str body).length ≤ isizeMax

def Frame.encode (f : Frame) : Str :=
  f.before.flatMap HeaderLine.bytes ++ str (contentLengthText (str f.body).length ++ "\n") ++
    f.after.flatMap HeaderLine.bytes ++ str "\r\n" ++ str f.body

def Frame.plain (json : String) (h : (str json).length ≤ isizeMax) : Frame := ⟨[], [], json, h⟩

/-- With no further header lines a frame is what `write_message` writes. -/
theorem encode_plain {json : String} (h : (str json).length ≤ isizeMax) :
    (Frame.plain json h).encode = writeMessage json := by
  have h1 : str "\r\n\r\n" = str "\r" ++ (str "\n" ++ str "\r\n") := by decide
  simp only [Frame.plain, Frame.encode, writeMessage, contentLengthText_eq, List.flatMap_nil, List.nil_append,
    List.append_nil, str_append, List.append_assoc, h1]

/-! ## The header loop -/

theorem isWhitespace_of_isTokenChar {c : Char} (h : isTokenChar c = true) : isWhitespace c = false := by
  simp only [isTokenChar, Bool.and_eq_true, decide_eq_true_eq] at h
  simp only [isWhitespace, Bool.or_eq_false_iff, Bool.and_eq_false_iff, decide_eq_false_iff_not, beq_eq_false_iff_ne]
  omega

/-- What stands before a first colon is determined. -/
theorem prefix_colon {a b t : List Char} (ha : ':' ∉ a) (hb : ':' ∉ b) (h : a ++ [':'] <+: b ++ ':' :: t) :
    a = b := by
  induction a generalizing b with
  | nil =>
    cases b with
    | nil => rfl
    | cons c b =>
      obtain ⟨r, hr⟩ := h
      have hc : ':' = c := (List.cons.inj hr).1
      exact absurd (hc ▸ List.mem_cons_self ..) hb
  | cons c a ih =>
    cases b with
    | nil =>
      obtain ⟨r, hr⟩ := h
      have hc : c = ':' := (List.cons.inj hr).1
      exact absurd (hc ▸ List.mem_cons_self ..) ha
    | cons d b =>
      obtain ⟨hcd, htail⟩ := List.cons_prefix_cons.mp h
      rw [hcd, ih (fun hm => ha (List.mem_cons_of_mem _ hm)) (fun hm => hb (List.mem_cons_of_mem _ hm)) htail]

theorem HeaderLine.colon_not_mem (h : HeaderLine) : ':' ∉ h.name.toList :=
  fun hm => absurd (h.token _ hm) (by decide)

/-- A further header line, trimmed: its name, the colon, and a part of what follows. -/
theorem HeaderLine.trim_text (h : HeaderLine) : ∃ t, trim (h.text ++ "\n").toList = h.name.toList ++ ':' :: t := by
  obtain ⟨c, cs, hn⟩ := List.exists_cons_of_ne_nil h.nonempty
  have hc : isWhitespace c = false := isWhitespace_of_isTokenChar (h.token c (by rw [hn]; simp))
  have hl : (h.text ++ "\n").toList = h.name.toList ++ ':' :: (h.value.toList ++ ['\r', '\n']) := by
    simp [HeaderLine.text]
  refine ⟨trimEnd (h.value.toList ++ ['\r', '\n']), ?_⟩
  have hstart : trimStart (h.name.toList ++ ':' :: (h.value.toList ++ ['\r', '\n'])) =
      h.name.toList ++ ':' :: (h.value.toList ++ ['\r', '\n']) := by
    rw [hn, List.cons_append, trimStart_head hc]
  rw [hl, trim, hstart, trimEnd_append_cons _ _ (by decide)]

theorem headerLoop_other (h : HeaderLine) (contentLength : Option Nat) (rest : List Str) :
    headerLoop contentLength (h.bytes :: rest) = headerLoop contentLength rest := by
  obtain ⟨t, ht⟩ := h.trim_text
  have hne : (trim (h.text ++ "\n").toList).isEmpty = false := by
    rw [ht]; cases h.name.toList <;> rfl
  have hstrip : stripPrefix "Content-Length:".toList (trim (h.text ++ "\n").toList) = none := by
    unfold stripPrefix
    rw [if_neg]
    intro hp
    rw [List.isPrefixOf_iff_prefix, ht] at hp
    have hname : "Content-Length".toList = h.name.toList :=
      prefix_colon (by decide) h.colon_not_mem hp
    exact h.other (String.toList_injective hname).symm
  conv => lhs; unfold headerLoop
  simp only [HeaderLine.bytes, fromUtf8_str, hne, Bool.false_eq_true, if_false, hstrip]

theorem trim_contentLength (n : Nat) :
    trim (contentLengthText n ++ "\n").toList = "Content-Length: ".toList ++ Nat.toDigits 10 n := by
  obtain ⟨ds, d, hd⟩ : ∃ ds d, Nat.toDigits 10 n = ds ++ [d] :=
    ⟨_, _, (List.dropLast_append_getLast Nat.toDigits_ne_nil).symm⟩
  have hdigit : d.isDigit = true :=
    Nat.isDigit_of_mem_toDigits (by decide) (by decide) (by rw [hd]; simp : d ∈ Nat.toDigits 10 n)
  have hl : (contentLengthText n ++ "\n").toList =
      ("Content-Length: ".toList ++ ds) ++ d :: ['\r', '\n'] := by
    simp [contentLengthText_eq, hd]
  have hstart : trimStart (("Content-Length: ".toList ++ ds) ++ d :: ['\r', '\n']) =
      ("Content-Length: ".toList ++ ds) ++ d :: ['\r', '\n'] := trimStart_head (by decide)
  have hend : ∀ c ∈ ['\r', '\n'], isWhitespace c = true := List.all_eq_true.mp (by decide)
  rw [hl, trim, hstart, trimEnd_blanks (isWhitespace_of_isDigit hdigit) hend, hd, List.append_assoc]

theorem trim_digits (n : Nat) : trim (' ' :: Nat.toDigits 10 n) = Nat.toDigits 10 n := by
  obtain ⟨ds, d, hd⟩ : ∃ ds d, Nat.toDigits 10 n = ds ++ [d] :=
    ⟨_, _, (List.dropLast_append_getLast Nat.toDigits_ne_nil).symm⟩
  have hall : ∀ c ∈ Nat.toDigits 10 n, isWhitespace c = false :=
    fun c hc => isWhitespace_of_isDigit (Nat.isDigit_of_mem_toDigits (by decide) (by decide) hc)
  have hstart : trimStart (' ' :: Nat.toDigits 10 n) = Nat.toDigits 10 n := by
    rw [show trimStart (' ' :: Nat.toDigits 10 n) = trimStart (Nat.toDigits 10 n) from rfl]
    obtain ⟨c, cs, hc⟩ := List.exists_cons_of_ne_nil (Nat.toDigits_ne_nil : Nat.toDigits 10 n ≠ [])
    rw [hc, trimStart_head (hall c (by rw [hc]; simp))]
  rw [trim, hstart, hd]
  exact trimEnd_blanks (hall d (by rw [hd]; simp)) (by simp)

theorem headerLoop_contentLength {n : Nat} (hn : n < 2 ^ 64) (contentLength : Option Nat) (rest : List Str) :
    headerLoop contentLength (str (contentLengthText n ++ "\n") :: rest) = headerLoop (some n) rest := by
  have htrim := trim_contentLength n
  have hne : (trim (contentLengthText n ++ "\n").toList).isEmpty = false := by rw [htrim]; rfl
  have hstrip : stripPrefix "Content-Length:".toList (trim (contentLengthText n ++ "\n").toList) =
      some (' ' :: Nat.toDigits 10 n) := by
    rw [htrim]
    have hsplit : "Content-Length: ".toList ++ Nat.toDigits 10 n =
        "Content-Length:".toList ++ ' ' :: Nat.toDigits 10 n := by simp
    have hp : ("Content-Length:".toList).isPrefixOf ("Content-Length:".toList ++ ' ' :: Nat.toDigits 10 n) = true :=
      List.isPrefixOf_iff_prefix.mpr (List.prefix_append _ _)
    rw [hsplit, stripPrefix, if_pos hp, List.drop_left]
  conv => lhs; unfold headerLoop
  simp only [fromUtf8_str, hne, Bool.false_eq_true, if_false, hstrip, trim_digits, parseUsize_toDigits hn]

theorem headerLoop_blank (n : Nat) (rest : List Str) : headerLoop (some n) (str "\r\n" :: rest) = (.ok n, rest) := by
  conv => lhs; unfold headerLoop
  simp only [fromUtf8_str, show (trim "\r\n".toList).isEmpty = true by decide, if_true]

/-! ## The stream, piece by piece -/

theorem HeaderLine.oneLine_text (h : HeaderLine) : '\n' ∉ h.text.toList := by
  have hname : '\n' ∉ h.name.toList := fun hm => absurd (h.token _ hm) (by decide)
  simp [HeaderLine.text, hname, h.oneLine]

theorem splitInclusive_headers (hs : List HeaderLine) (s : Str) :
    splitInclusive (hs.flatMap HeaderLine.bytes ++ s) = hs.map HeaderLine.bytes ++ splitInclusive s := by
  induction hs with
  | nil => rfl
  | cons h hs ih =>
    rw [List.flatMap_cons, List.append_assoc, HeaderLine.bytes, splitInclusive_str h.oneLine_text, ih]
    rfl

theorem headerLoop_others (hs : List HeaderLine) (contentLength : Option Nat) (rest : List Str) :
    headerLoop contentLength (hs.map HeaderLine.bytes ++ rest) = headerLoop contentLength rest := by
  induction hs with
  | nil => rfl
  | cons h hs ih => rw [List.map_cons, List.cons_append, headerLoop_other, ih]

theorem oneLine_contentLength (n : Nat) : '\n' ∉ (contentLengthText n).toList := by
  have hdigits : '\n' ∉ Nat.toDigits 10 n := fun hm =>
    absurd (Nat.isDigit_of_mem_toDigits (by decide) (by decide) hm) (by decide)
  simp [contentLengthText_eq, hdigits]

theorem readHeaders_frame (f : Frame) (rest : Str) :
    readHeaders (f.encode ++ rest) = (.ok (str f.body).length, str f.body ++ rest) := by
  have hlen : (str f.body).length < 2 ^ 64 := by have := f.bounded; simp only [isizeMax] at this; omega
  have hblank : splitInclusive (str "\r\n" ++ (str f.body ++ rest)) =
      str "\r\n" :: splitInclusive (str f.body ++ rest) :=
    splitInclusive_str (t := "\r") (by decide) _
  have hsplit : splitInclusive (f.encode ++ rest) = f.before.map HeaderLine.bytes ++
      str (contentLengthText (str f.body).length ++ "\n") :: (f.after.map HeaderLine.bytes ++
        str "\r\n" :: splitInclusive (str f.body ++ rest)) := by
    simp only [Frame.encode, List.append_assoc]
    rw [splitInclusive_headers, splitInclusive_str (oneLine_contentLength _), splitInclusive_headers, hblank]
  rw [readHeaders, hsplit, headerLoop_others, headerLoop_contentLength hlen, headerLoop_others, headerLoop_blank]
  simp only [splitInclusive_flatten]

/-- A frame is read exactly. -/
theorem readMessage_frame : Exact (fun _ => True) Frame.encode Frame.body readMessage := by
  intro f _ rest
  have hlen : ¬ isizeMax < (str f.body).length := by have := f.bounded; omega
  have hexact : readExact (str f.body).length (str f.body ++ rest) = (.ok (str f.body), rest) := by
    simp [readExact]
  simp only [readMessage, readHeaders_frame, hlen, if_false, hexact, fromUtf8_str]

/-- Messages written one after the other, each among any further header lines, are read
    back in order; each read leaves the stream at the next frame, the last at its end. -/
theorem frames_read_back (fs : List Frame) :
    (∀ json h, (Frame.plain json h).encode = writeMessage json) ∧
      readMany readMessage fs.length (fs.flatMap Frame.encode) = (expected Frame.encode Frame.body [] fs, none) ∧
      (expected Frame.encode Frame.body [] fs).map Prod.fst = fs.map Frame.body :=
  ⟨fun _ h => encode_plain h, by simpa using readMessage_frame.readMany fs [] (fun _ _ => trivial), expected_values ..⟩

end CodeQuery.Lsp
