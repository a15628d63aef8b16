/-
  CodeQuery.Data.FileTable — names of files and the files they name.

  A name is linked to a file, by number, and a file keeps its bytes when the name is
  removed or linked to another file: who has it open goes on writing to it. Opening
  for a write creates the file or empties the one there is; the write then puts its
  bytes over what the file holds by that time. No two names are linked to one file, so
  what is done under one name leaves the others' files alone (`Holds`).
-/

import Mathlib.Logic.Function.Basic

namespace CodeQuery.Data

structure FileTable (ν β : Type) where
  link : ν → Option Nat
  content : Nat → List β
  next : Nat
  lt_next : ∀ n i, link n = some i → i < next
  link_inj : ∀ n m i, link n = some i → link m = some i → n = m

namespace FileTable

variable {ν β : Type}

def empty : FileTable ν β := ⟨fun _ => none, fun _ => [], 0, by simp, by simp⟩

def read (t : FileTable ν β) (n : ν) : Option (List β) := (t.link n).map t.content

/-- The file that opening a name gives. -/
def handle (t : FileTable ν β) (n : ν) : Nat := (t.link n).getD t.next

theorem handle_eq {t : FileTable ν β} {n : ν} {i : Nat} (h : t.link n = some i) : t.handle n = i := by
  simp [handle, h]

theorem handle_eq_next {t : FileTable ν β} {n : ν} (h : t.link n = none) : t.handle n = t.next := by
  simp [handle, h]

/-- Bytes written from the start of a file that is open. -/
def write (t : FileTable ν β) (i : Nat) (bytes : List β) : FileTable ν β :=
  { t with content := Function.update t.content i (bytes ++ (t.content i).drop bytes.length) }

/-- The names of a set are removed. -/
def removeWhere (t : FileTable ν β) (gone : ν → Bool) : FileTable ν β where
  link n := if gone n then none else t.link n
  content := t.content
  next := t.next
  lt_next n i h := by
    split at h
    · cases h
    · exact t.lt_next n i h
  link_inj n m i hn hm := by
    split at hn
    · cases hn
    · split at hm
      · cases hm
      · exact t.link_inj n m i hn hm

/-- The name is linked to the file, which holds these bytes. -/
def Holds (t : FileTable ν β) (n : ν) (i : Nat) (bytes : List β) : Prop := t.link n = some i ∧ t.content i = bytes

section Holds

variable {t : FileTable ν β} {n m : ν} {i j : Nat} {bytes : List β}

theorem Holds.read (h : t.Holds n i bytes) : t.read n = some bytes := by
  simp [FileTable.read, h.1, h.2]

theorem Holds.ne (h : t.Holds n i bytes) {other : List β} (ho : t.Holds m j other) (hne : n ≠ m) : i ≠ j := by
  intro heq
  subst heq
  exact hne (t.link_inj n m i h.1 ho.1)

/-- A write to a file that is still empty leaves just its bytes. -/
theorem Holds.write (h : t.Holds n i []) (bytes : List β) : (t.write i bytes).Holds n i bytes :=
  ⟨h.1, by simp [FileTable.write, h.2]⟩

theorem Holds.write_ne (h : t.Holds n i bytes) (hne : i ≠ j) (other : List β) : (t.write j other).Holds n i bytes :=
  ⟨h.1, by simp [FileTable.write, hne, h.2]⟩

theorem Holds.removeWhere (h : t.Holds n i bytes) {gone : ν → Bool} (hn : gone n = false) :
    (t.removeWhere gone).Holds n i bytes :=
  ⟨by simp [FileTable.removeWhere, hn, h.1], h.2⟩

theorem read_removeWhere {gone : ν → Bool} (hn : gone n = true) : (t.removeWhere gone).read n = none := by
  simp [FileTable.read, removeWhere, hn]

end Holds

/-- The file of another name is not the one opened. -/
theorem link_ne_handle (t : FileTable ν β) {n m : ν} (hne : m ≠ n) : t.link m ≠ some (t.handle n) := by
  intro h
  cases hn : t.link n with
  | none =>
    rw [handle_eq_next hn] at h
    exact Nat.lt_irrefl _ (t.lt_next m _ h)
  | some i =>
    rw [handle_eq hn] at h
    exact hne (t.link_inj m n i h hn)

variable [DecidableEq ν]

/-- `O_CREAT | O_TRUNC`. -/
def openTruncate (t : FileTable ν β) (n : ν) : FileTable ν β where
  link := Function.update t.link n (some (t.handle n))
  content := Function.update t.content (t.handle n) []
  next := max t.next (t.handle n + 1)
  lt_next m i h := by
    by_cases hm : m = n
    · subst hm
      rw [Function.update_self] at h
      cases h
      omega
    · rw [Function.update_of_ne hm] at h
      have := t.lt_next m i h
      omega
  link_inj m k i hm hk := by
    by_cases hmn : m = n
    · by_cases hkn : k = n
      · exact hmn.trans hkn.symm
      · subst hmn
        rw [Function.update_self] at hm
        rw [Function.update_of_ne hkn, ← hm] at hk
        exact absurd hk (t.link_ne_handle hkn)
    · by_cases hkn : k = n
      · subst hkn
        rw [Function.update_self] at hk
        rw [Function.update_of_ne hmn, ← hk] at hm
        exact absurd hm (t.link_ne_handle hmn)
      · rw [Function.update_of_ne hmn] at hm
        rw [Function.update_of_ne hkn] at hk
        exact t.link_inj m k i hm hk

def remove (t : FileTable ν β) (n : ν) : FileTable ν β := t.removeWhere (· == n)

theorem openTruncate_holds (t : FileTable ν β) (n : ν) : (t.openTruncate n).Holds n (t.handle n) [] :=
  ⟨by simp [openTruncate], by simp [openTruncate]⟩

theorem Holds.openTruncate_ne {t : FileTable ν β} {n m : ν} {i : Nat} {bytes : List β} (h : t.Holds n i bytes)
    (hne : n ≠ m) : (t.openTruncate m).Holds n i bytes := by
  have hi : i ≠ t.handle m := fun heq => t.link_ne_handle hne (heq ▸ h.1)
  exact ⟨by simp [openTruncate, hne, h.1], by simp [openTruncate, hi, h.2]⟩

end FileTable

end CodeQuery.Data
