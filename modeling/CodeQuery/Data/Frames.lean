/-
  CodeQuery.Data.Frames — messages framed one after the other on a stream.

  A writer puts frames on a stream and a reader takes values off it. `Exact` is what
  the two must agree on, frame by frame: whatever follows, the reader returns the
  frame's value and leaves what follows. Reading a run of frames then returns their
  values in order, and each read leaves the stream at the next frame
  (`Exact.readMany`).
-/

import Mathlib.Data.List.Basic

namespace CodeQuery.Data.Frames

variable {β φ μ ε : Type}

/-- A read: its value or error, and the stream it leaves. -/
abbrev Read (β μ ε : Type) := List β → Except ε μ × List β

/-- Up to `n` reads, each value with the stream its read leaves; the first error ends
    them. -/
def readMany (read : Read β μ ε) : Nat → List β → List (μ × List β) × Option ε
  | 0, _ => ([], none)
  | n + 1, s =>
    match read s with
    | (.error e, _) => ([], some e)
    | (.ok m, rest) =>
      let (ms, e) := readMany read n rest
      ((m, rest) :: ms, e)

/-- What the reads of frames must return: their values, each with the frames behind it
    and the rest. -/
def expected (encode : φ → List β) (value : φ → μ) (rest : List β) : List φ → List (μ × List β)
  | [] => []
  | f :: fs => (value f, fs.flatMap encode ++ rest) :: expected encode value rest fs

/-- The reader takes a good frame off the stream, and no more. -/
def Exact (good : φ → Prop) (encode : φ → List β) (value : φ → μ) (read : Read β μ ε) : Prop :=
  ∀ f, good f → ∀ rest, read (encode f ++ rest) = (.ok (value f), rest)

theorem Exact.readMany {good : φ → Prop} {encode : φ → List β} {value : φ → μ} {read : Read β μ ε}
    (h : Exact good encode value read) : ∀ (fs : List φ) (rest : List β), (∀ f ∈ fs, good f) →
      Frames.readMany read fs.length (fs.flatMap encode ++ rest) = (expected encode value rest fs, none)
  | [], _, _ => rfl
  | f :: fs, rest, hg => by
    have hf := h f (hg f (List.mem_cons_self ..))
    have ih := Exact.readMany h fs rest fun x hx => hg x (List.mem_cons_of_mem _ hx)
    simp only [List.flatMap_cons, List.append_assoc, List.length_cons, Frames.readMany, hf, ih, expected]

theorem expected_values (encode : φ → List β) (value : φ → μ) (rest : List β) (fs : List φ) :
    (expected encode value rest fs).map Prod.fst = fs.map value := by
  induction fs with
  | nil => rfl
  | cons f fs ih => simp [expected, ih]

end CodeQuery.Data.Frames
