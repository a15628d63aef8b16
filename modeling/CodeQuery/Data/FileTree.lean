/-
  CodeQuery.Data.FileTree — directories, files and symbolic links; how a path is looked up
  and what a recursive delete goes through.

  A place is the names from the root down to an entry, through directories alone. A path
  is a text; `walk` looks its parts up one after the other, expanding links as it meets
  them, up to a number of links. A path of two pieces is looked up piece by piece
  (`walk_append`). `postorder` lists an entry's places in the order in which they can be
  deleted: each is an entry's (`mem_postorder`), and none comes twice
  (`postorder_nodup`).
-/

import Mathlib.Data.List.Infix
import Mathlib.Data.List.Nodup
import Mathlib.Data.String.Basic

namespace CodeQuery.Data.FileTree

inductive Tree where
  | file
  | link (target : String)
  | dir (entries : List (String × Tree))

abbrev Place := List String

/-- The entry at a place below a tree. -/
def Tree.at : Tree → Place → Option Tree
  | t, [] => some t
  | .dir entries, name :: rest => (entries.lookup name).bind (·.at rest)
  | _, _ :: _ => none

/-- The tree with nothing left in the directory at a place. -/
def Tree.cleared : Tree → Place → Tree
  | .dir _, [] => .dir []
  | .dir entries, name :: rest =>
    .dir (entries.map fun entry => if entry.1 = name then (entry.1, entry.2.cleared rest) else entry)
  | t, _ => t

def Tree.isLink : Tree → Bool
  | .link _ => true
  | _ => false

def Tree.isDir : Tree → Bool
  | .dir _ => true
  | _ => false

mutual

/-- No directory has two entries of one name. -/
def Tree.Unique : Tree → Prop
  | .dir entries => (entries.map Prod.fst).Nodup ∧ UniqueAll entries
  | _ => True

def UniqueAll : List (String × Tree) → Prop
  | [] => True
  | (_, t) :: entries => t.Unique ∧ UniqueAll entries

end

theorem lookup_mem {name : String} {t : Tree} : ∀ {entries : List (String × Tree)}, entries.lookup name = some t →
    name ∈ entries.map Prod.fst
  | [], h => by cases h
  | (other, _) :: entries, h => by
    rw [List.lookup_cons] at h
    split at h
    · rename_i heq
      rw [beq_iff_eq.mp heq]
      exact List.mem_cons_self
    · exact List.mem_cons_of_mem _ (lookup_mem h)

@[simp] theorem Tree.at_nil (t : Tree) : t.at [] = some t := by
  cases t <;> rfl

theorem Tree.at_append : ∀ (t : Tree) (a b : Place), t.at (a ++ b) = (t.at a).bind (·.at b)
  | t, [], b => by simp
  | .file, name :: a, b => rfl
  | .link target, name :: a, b => rfl
  | .dir entries, name :: a, b => by
    rw [List.cons_append, Tree.at, Tree.at]
    cases entries.lookup name with
    | none => rfl
    | some t => exact Tree.at_append t a b

theorem Tree.at_below_not_dir {t : Tree} (h : t.isDir = false) {rest : Place} (hrest : (t.at rest).isSome = true) :
    rest = [] := by
  cases rest with
  | nil => rfl
  | cons name rest =>
    cases t with
    | file => cases hrest
    | link target => cases hrest
    | dir entries => cases h

/-! ## Lookup -/

/-- The parts of a path, between its separators. -/
def parts (path : String) : List String := (path.toList.splitOn '/').map String.ofList

def isAbsolute (path : String) : Bool := path.toList.head? == some '/'

/-- Where the lookup of a path starts. -/
def start (here : Place) (path : String) : Place := if isAbsolute path then [] else here

/-- A part that stays where it is. -/
def isDot (part : String) : Bool := part == "" || part == "."

section Walk

variable (root : Tree) (follow : Bool)

/-- The lookup of parts one after the other; `expand` goes on from a link's target. A link
    at the end is followed when `follow` says so. -/
def walkParts (links : Nat) (expand : Place → List String → Option (Place × Nat)) :
    Place → List String → Option (Place × Nat)
  | here, [] => some (here, links)
  | here, part :: rest =>
    match root.at here with
    | some (.dir _) =>
      if isDot part then walkParts links expand here rest
      else if part = ".." then walkParts links expand here.dropLast rest
      else
        match root.at (here ++ [part]) with
        | none => none
        | some (.link target) =>
          if rest.isEmpty && !follow then some (here ++ [part], links)
          else expand (start here target) (parts target ++ rest)
        | some _ => walkParts links expand (here ++ [part]) rest
    | _ => none

/-- The lookup with a number of links that may be expanded; the place it ends at, and how
    many may still be. -/
def walk : Nat → Place → List String → Option (Place × Nat)
  | 0 => walkParts root follow 0 fun _ _ => none
  | links + 1 => walkParts root follow (links + 1) (walk links)

end Walk

section Append

variable {root : Tree} {follow : Bool}

theorem walkParts_append {links : Nat} {expand expand' : Place → List String → Option (Place × Nat)} {qs : List String}
    (hqs : qs ≠ [])
    (hexpand : ∀ here ps, expand here (ps ++ qs) = (expand' here ps).bind fun (here, links) => walk root follow links here qs)
    (hlast : ∀ here, walkParts root follow links expand here qs = walk root follow links here qs) :
    ∀ (here : Place) (ps : List String), walkParts root follow links expand here (ps ++ qs) =
      (walkParts root true links expand' here ps).bind fun (here, links) => walk root follow links here qs
  | here, [] => hlast here
  | here, part :: ps => by
    have ih := fun here => walkParts_append hqs hexpand hlast here ps
    rw [List.cons_append, walkParts, walkParts]
    cases hhere : root.at here with
    | none => rfl
    | some t =>
      cases t with
      | file => rfl
      | link target => rfl
      | dir entries =>
        simp only
        split
        · exact ih here
        · split
          · exact ih _
          · cases hnext : root.at (here ++ [part]) with
            | none => rfl
            | some next =>
              cases next with
              | file => exact ih _
              | dir entries => exact ih _
              | link target =>
                have hne : (ps ++ qs).isEmpty = false := by simp [hqs]
                simp only [hne, Bool.false_and, Bool.false_eq_true, if_false, Bool.not_true, Bool.and_false,
                  ← List.append_assoc]
                exact hexpand _ _

/-- A path of two pieces: the first is looked up to its end, the second from there. -/
theorem walk_append {qs : List String} (hqs : qs ≠ []) : ∀ (links : Nat) (here : Place) (ps : List String),
    walk root follow links here (ps ++ qs) =
      (walk root true links here ps).bind fun (here, links) => walk root follow links here qs
  | 0, here, ps => by
    rw [walk, walk]
    exact walkParts_append hqs (fun _ _ => rfl) (fun _ => by rw [walk]) here ps
  | links + 1, here, ps => by
    rw [walk, walk]
    exact walkParts_append hqs (walk_append hqs links) (fun _ => by rw [walk]) here ps

end Append

/-! ## A child -/

/-- Parts that stay where they are. -/
theorem walkParts_dots {root : Tree} {follow : Bool} {links : Nat} {expand : Place → List String → Option (Place × Nat)}
    {here place : Place} {left : Nat} : ∀ {ps : List String}, (∀ p ∈ ps, isDot p = true) →
      walkParts root follow links expand here ps = some (place, left) → place = here
  | [], _, h => (Prod.mk.inj (Option.some.inj h)).1.symm
  | part :: ps, hps, h => by
    obtain ⟨hpart, hps⟩ := List.forall_mem_cons.mp hps
    rw [walkParts] at h
    split at h
    · rw [if_pos hpart] at h
      exact walkParts_dots hps h
    · cases h

/-- Parts that name one child lead to it, or to where its link does when more follows. -/
theorem walkParts_child {root : Tree} {links : Nat} {expand : Place → List String → Option (Place × Nat)}
    {here place : Place} {left : Nat} {name : String} (hname : name ≠ "..") : ∀ {ps : List String},
      ps.filter (!isDot ·) = [name] → walkParts root false links expand here ps = some (place, left) →
        place = here ++ [name] ∨ (root.at (here ++ [name])).any Tree.isLink = true ∧ ps.getLast?.any isDot = true
  | [], hps, _ => by cases hps
  | part :: ps, hps, h => by
    rw [walkParts] at h
    split at h
    · by_cases hdot : isDot part = true
      · rw [if_pos hdot] at h
        rw [List.filter_cons_of_neg (by simp [hdot])] at hps
        have hlast : (part :: ps).getLast? = ps.getLast? := by
          rw [List.getLast?_cons_of_ne_nil]
          rintro rfl
          cases hps
        rw [hlast]
        exact walkParts_child hname hps h
      · rw [List.filter_cons_of_pos (by simp [hdot])] at hps
        obtain ⟨rfl, hdots⟩ := List.cons.inj hps
        have hrest : ∀ p ∈ ps, isDot p = true := by simpa using List.filter_eq_nil_iff.mp hdots
        rw [if_neg hdot, if_neg hname] at h
        split at h
        · cases h
        · rename_i target hlink
          by_cases hempty : ps.isEmpty = true
          · rw [if_pos (by simp [hempty])] at h
            exact .inl (Prod.mk.inj (Option.some.inj h)).1.symm
          · refine .inr ⟨by rw [hlink]; rfl, ?_⟩
            have hne : ps ≠ [] := fun hnil => hempty (by rw [hnil]; rfl)
            rw [List.getLast?_cons_of_ne_nil hne, List.getLast?_eq_getLast_of_ne_nil hne]
            exact hrest _ (List.getLast_mem hne)
        · exact .inl (walkParts_dots hrest h)
    · cases h

theorem walk_child {root : Tree} {links : Nat} {here place : Place} {left : Nat} {name : String} (hname : name ≠ "..")
    {ps : List String} (hps : ps.filter (!isDot ·) = [name]) (h : walk root false links here ps = some (place, left)) :
    place = here ++ [name] ∨ (root.at (here ++ [name])).any Tree.isLink = true ∧ ps.getLast?.any isDot = true := by
  cases links with
  | zero => exact walkParts_child hname hps h
  | succ links => exact walkParts_child hname hps h

/-! ## Deletion -/

mutual

/-- The places of an entry in the order of a recursive delete: what is in a directory
    goes before it. -/
def postorder (here : Place) : Tree → List Place
  | .dir entries => postorderAll here entries ++ [here]
  | _ => [here]

def postorderAll (here : Place) : List (String × Tree) → List Place
  | [] => []
  | (name, t) :: entries => postorder (here ++ [name]) t ++ postorderAll here entries

end

mutual

/-- Each place is that of an entry. -/
theorem mem_postorder {here x : Place} : ∀ {t : Tree}, t.Unique → x ∈ postorder here t →
    ∃ rest, x = here ++ rest ∧ (t.at rest).isSome = true
  | .file, _, h => ⟨[], by simpa [postorder] using h, rfl⟩
  | .link _, _, h => ⟨[], by simpa [postorder] using h, rfl⟩
  | .dir entries, hu, h => by
    rcases List.mem_append.mp h with h | h
    · obtain ⟨name, rest, t, rfl, hlookup, hrest⟩ := mem_postorderAll hu.1 hu.2 h
      exact ⟨name :: rest, rfl, by rw [Tree.at, hlookup]; exact hrest⟩
    · exact ⟨[], by simpa using h, rfl⟩

theorem mem_postorderAll {here x : Place} : ∀ {entries : List (String × Tree)}, (entries.map Prod.fst).Nodup →
    UniqueAll entries → x ∈ postorderAll here entries →
      ∃ name rest t, x = here ++ name :: rest ∧ entries.lookup name = some t ∧ (t.at rest).isSome = true
  | [], _, _, h => by cases h
  | (name, t) :: entries, hnodup, hu, h => by
    obtain ⟨hnot, hnodup⟩ := List.nodup_cons.mp hnodup
    rcases List.mem_append.mp h with h | h
    · obtain ⟨rest, rfl, hrest⟩ := mem_postorder hu.1 h
      exact ⟨name, rest, t, by simp, by simp, hrest⟩
    · obtain ⟨other, rest, t', rfl, hlookup, hrest⟩ := mem_postorderAll hnodup hu.2 h
      refine ⟨other, rest, t', rfl, ?_, hrest⟩
      have hne : other ≠ name := by
        rintro rfl
        exact hnot (lookup_mem hlookup)
      rw [List.lookup_cons, beq_eq_false_iff_ne.mpr hne]
      exact hlookup

end

mutual

/-- No place comes twice. -/
theorem postorder_nodup (here : Place) : ∀ {t : Tree}, t.Unique → (postorder here t).Nodup
  | .file, _ => List.nodup_singleton here
  | .link _, _ => List.nodup_singleton here
  | .dir entries, hu => by
    rw [postorder]
    refine List.nodup_append.mpr ⟨postorderAll_nodup here hu.1 hu.2, List.nodup_singleton here, ?_⟩
    rintro x hx y hy rfl
    obtain ⟨name, rest, _, hplace, -⟩ := mem_postorderAll hu.1 hu.2 hx
    rw [List.mem_singleton.mp hy] at hplace
    exact absurd (List.self_eq_append_right.mp hplace) (List.cons_ne_nil _ _)

theorem postorderAll_nodup (here : Place) : ∀ {entries : List (String × Tree)}, (entries.map Prod.fst).Nodup →
    UniqueAll entries → (postorderAll here entries).Nodup
  | [], _, _ => List.nodup_nil
  | (name, t) :: entries, hnodup, hu => by
    obtain ⟨hnot, hnodup⟩ := List.nodup_cons.mp hnodup
    rw [postorderAll]
    refine List.nodup_append.mpr ⟨postorder_nodup _ hu.1, postorderAll_nodup here hnodup hu.2, ?_⟩
    rintro x hx y hy rfl
    obtain ⟨rest, hfirst, -⟩ := mem_postorder hu.1 hx
    obtain ⟨other, rest', _, hsecond, hlookup, -⟩ := mem_postorderAll hnodup hu.2 hy
    -- the two would be under one name
    rw [hfirst, List.append_assoc, List.append_cancel_left_eq] at hsecond
    have hname : name = other := (List.cons.inj hsecond).1
    exact hnot (hname ▸ lookup_mem hlookup)

end

mutual

theorem unique_at : ∀ {t u : Tree} {place : Place}, t.Unique → t.at place = some u → u.Unique
  | t, u, [], h, hat => by
    rw [Tree.at_nil] at hat
    exact Option.some.inj hat ▸ h
  | .file, _, _ :: _, _, hat => by cases hat
  | .link _, _, _ :: _, _, hat => by cases hat
  | .dir entries, u, name :: rest, h, hat => by
    rw [Tree.at] at hat
    obtain ⟨t, hlookup, hat⟩ := Option.bind_eq_some_iff.mp hat
    exact unique_at (unique_lookup h.2 hlookup) hat

theorem unique_lookup : ∀ {entries : List (String × Tree)} {name : String} {t : Tree}, UniqueAll entries →
    entries.lookup name = some t → t.Unique
  | [], _, _, _, h => by cases h
  | (other, u) :: entries, name, t, hu, h => by
    rw [List.lookup_cons] at h
    split at h
    · exact Option.some.inj h ▸ hu.1
    · exact unique_lookup hu.2 h

end

end CodeQuery.Data.FileTree
