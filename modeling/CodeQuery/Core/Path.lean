/-
  CodeQuery.Core.Path — file system paths, as `std::path` compares them.

  A path is its components: comparison, `starts_with`, `strip_prefix` and `join` all
  go by component, so `a//b`, `a/./b` and `a/b/` are the path `a/b`. A leading `.`
  stays a component of its own (`./a` does not start with `a`), and so does `..`.
-/

import Mathlib.Data.Prod.Lex
import Mathlib.Data.List.Lex
import Mathlib.Data.String.Basic

namespace CodeQuery.Core

inductive Component where
  | rootDir
  | curDir
  | parentDir
  | normal (name : String)
  deriving DecidableEq, Repr

/-- The order of the variants, then of the name. -/
def Component.key : Component → ℕ ×ₗ String
  | .rootDir => toLex (0, "")
  | .curDir => toLex (1, "")
  | .parentDir => toLex (2, "")
  | .normal n => toLex (3, n)

theorem Component.key_injective : Function.Injective Component.key := by
  intro a b h
  cases a <;> cases b <;> simp_all [Component.key]

instance : LinearOrder Component := LinearOrder.lift' Component.key Component.key_injective

abbrev Path := List Component

namespace Path

/-- No root and no leading `.`: what `strip_prefix` leaves. -/
def Plain (p : Path) : Prop := p.head? ≠ some .rootDir ∧ p.head? ≠ some .curDir

instance (p : Path) : Decidable p.Plain := inferInstanceAs (Decidable (_ ∧ _))

/-- `PathBuf::from`: a separator in front is the root; a `.` counts only in front, and
    separators in a row are one. -/
def ofString (s : String) : Path :=
  let parts := s.toList.splitOn '/'
  let names := (parts.filter fun n => n ≠ [] ∧ n ≠ ['.']).map fun n =>
    if n = ['.', '.'] then Component.parentDir else .normal (String.ofList n)
  match s.toList.head?, parts.head? with
  | some '/', _ => .rootDir :: names
  | _, some ['.'] => .curDir :: names
  | _, _ => names

def isRelative (p : Path) : Bool := p.head? != some .rootDir

/-- `Path::join`: an absolute path replaces; else the components follow, and a `.` in
    the middle disappears. -/
def join (p q : Path) : Path :=
  match q with
  | .rootDir :: _ => q
  | .curDir :: t => if p.isEmpty then q else p ++ t
  | _ => p ++ q

def startsWith (p base : Path) : Bool := base.isPrefixOf p

def stripPrefix (p base : Path) : Option Path := if base.isPrefixOf p then some (p.drop base.length) else none

def fileName (p : Path) : Option String :=
  match p.getLast? with
  | some (.normal n) => some n
  | _ => none

/-- `Path::extension`: what follows the last dot of the file name, unless that dot is
    its first character or it has none. -/
def extension (p : Path) : Option String := do
  let n ← p.fileName
  let (ext, rest) := n.toList.reverse.span (· != '.')
  match rest with
  | [] | [_] => none
  | _ => some (String.ofList ext.reverse)

theorem join_plain {p q : Path} (h : q.Plain) : p.join q = p ++ q := by
  unfold join
  split
  · simp [Plain] at h
  · simp [Plain] at h
  · rfl

theorem join_plain_inj {p q r : Path} (hq : q.Plain) (hr : r.Plain) : p.join q = p.join r ↔ q = r := by
  rw [join_plain hq, join_plain hr, List.append_cancel_left_eq]

/-- A file name is read from the last component, so joining a directory in front leaves it. -/
theorem fileName_join (p : Path) {q : Path} (h : q.fileName.isSome = true) : (p.join q).fileName = q.fileName := by
  have hlast : ∀ r : Path, r ≠ [] → (p ++ r).fileName = r.fileName := by
    intro r hr
    simp only [fileName, List.getLast?_append_of_ne_nil _ hr]
  unfold join
  split
  · rfl
  · rename_i t
    split
    · rfl
    · have ht : t ≠ [] := by
        intro hnil
        simp [fileName, hnil] at h
      rw [hlast t ht, fileName, fileName, List.getLast?_cons_of_ne_nil ht]
  · refine hlast q ?_
    intro hnil
    simp [fileName, hnil] at h

theorem extension_join (p : Path) {q : Path} (h : q.extension.isSome = true) : (p.join q).extension = q.extension := by
  have hname : q.fileName.isSome = true := by
    cases hq : q.fileName with
    | none => simp [extension, hq] at h
    | some n => rfl
  simp only [extension, fileName_join p hname]

example : ofString "/a/./b//../c/" = [.rootDir, .normal "a", .normal "b", .parentDir, .normal "c"] := by decide

/-- A dotfile has no extension, and a name with several dots has the last one. -/
example : extension [.normal "src", .normal "a.test.ts"] = some "ts" ∧ extension [.normal ".rs"] = none := by decide

end Path

end CodeQuery.Core
