/-
  CodeQuery.Cli.GrammarRemove — removing a language package
  (`codequery-cli/src/commands/grammar.rs`, `run_remove`).

  The argument is joined to the languages directory as it is, and what is there is deleted
  with all below it. An argument that names a child leads to the child; with a separator
  or a dot behind it, to where the child's link leads; and any other to anywhere
  (`confined_iff`), the languages directory itself included
  (`an_empty_argument_removes_every_package`).
-/

import CodeQuery.Cli.Grammar
import CodeQuery.Data.FileTree

namespace CodeQuery.Cli.Grammar

open CodeQuery.Data.FileTree

/-! ## The command -/

/-- A file system, and what it lets the command do: find out whether a path exists, and
    delete an entry. -/
structure FileSystem where
  root : Tree
  unique : root.Unique
  cwd : Place
  canStat : Bool
  canRemove : Place → Bool

/-- `PathBuf::join`: an absolute path replaces, and an empty one leaves a separator at the
    end. -/
def joinPath (base path : String) : String :=
  if isAbsolute path then path
  else if base.toList.isEmpty || base.toList.getLast? == some '/' then base ++ path
  else base ++ "/" ++ path

/-- `languages_dir`, below `data_dir`. -/
def languagesDir (dataDir : String) : String := joinPath dataDir "languages"

section Command

variable (fs : FileSystem)

/-- The number of links that a lookup may expand. -/
def maxLinks : Nat := 40

def lookup (follow : Bool) (path : String) : Option Place :=
  (walk fs.root follow maxLinks (start fs.cwd path) (parts path)).map (·.1)

/-- `Path::exists`. -/
def pathExists (path : String) : Bool := fs.canStat && (lookup fs true path).isSome

/-- A path's parts without the separators at its end. -/
def body (path : String) : List String := ((parts path).reverse.dropWhile (· == "")).reverse

/-- The directory itself can go: the path ends in its name, separators aside, and not in
    that of a link to it. -/
def endsInName (path : String) (place : Place) : Bool :=
  (body path).getLast?.any (fun last => !isDot last && last != "..") &&
    (walk fs.root false maxLinks (start fs.cwd path) (body path)).map (·.1) == some place

/-- The path goes through what is deleted, and cannot be followed to its end afterwards. -/
def leadsNowhere (path : String) (place : Place) : Bool :=
  (walk (fs.root.cleared place) true maxLinks (start fs.cwd path) (body path).dropLast).isNone

/-- What `remove_dir_all` deletes, in order, and whether that is all: a link goes as
    itself, and a file is an error. A directory that is not found at the end counts as
    deleted. -/
def removeDirAll (path : String) : List Place × Bool :=
  match lookup fs false path with
  | none => ([], false)
  | some place =>
    match fs.root.at place with
    | some (.link _) => ([place], true)
    | some (.dir entries) =>
      if leadsNowhere fs path place then (postorderAll place entries, true)
      else if endsInName fs path place then (postorder place (.dir entries), true)
      else (postorderAll place entries, false)
    | _ => ([], false)

/-- The result, and the places whose entries are gone; the first entry that cannot be
    deleted ends the deletion. -/
def runRemove (dataDir : Option String) (language : String) : Except GrammarError ExitCode × List Place :=
  match dataDir with
  | none => (.error .noLanguagesDir, [])
  | some dataDir =>
    let pkgDir := joinPath (languagesDir dataDir) language
    if !pathExists fs pkgDir then (.ok .success, [])
    else
      let (order, complete) := removeDirAll fs pkgDir
      (if complete && order.all fs.canRemove then .ok .success else .error (.remove language), order.takeWhile fs.canRemove)

/-! ## What is promised -/

/-- The argument is the name of a child, separators and dots aside. -/
def Names (argument name : String) : Prop :=
  isAbsolute argument = false ∧ (parts argument).filter (!isDot ·) = [name] ∧ name ≠ ".."

/-- Nothing goes but one child of the languages directory, the one that the argument
    names, and what is in it. -/
def Confined (dataDir : Option String) (argument : String) : Prop :=
  (runRemove fs dataDir argument).2 = [] ∨
    ∃ dir here name, dataDir = some dir ∧ lookup fs true (languagesDir dir) = some here ∧ Names argument name ∧
      ∀ place ∈ (runRemove fs dataDir argument).2, here ++ [name] <+: place

/-- The command ends before it deletes anything. -/
def Inert (dataDir : Option String) (argument : String) : Prop :=
  ∀ dir, dataDir = some dir → pathExists fs (joinPath (languagesDir dir) argument) = true →
    (removeDirAll fs (joinPath (languagesDir dir) argument)).1.head?.all (!fs.canRemove ·) = true

/-- The argument goes on behind a child that is a link. -/
def GoesThrough (argument : String) (child : Place) : Prop :=
  (parts argument).getLast?.any isDot = true ∧ (fs.root.at child).any Tree.isLink = true

/-- The deletion comes to the place first, and no further. -/
def OnlyDeletes (order : List Place) (place : Place) : Prop :=
  ∃ rest, order = place :: rest ∧ fs.canRemove place = true ∧ rest.head?.all (!fs.canRemove ·) = true

/-! ## The path of a package -/

theorem languagesDir_getLast? (dataDir : String) : (languagesDir dataDir).toList.getLast? = some 's' := by
  have hrelative : isAbsolute "languages" = false := by decide
  rw [languagesDir, joinPath, hrelative]
  simp only [Bool.false_eq_true, if_false]
  split <;> simp [List.getLast?_append]

theorem languagesDir_ne_nil (dataDir : String) : (languagesDir dataDir).toList ≠ [] := by
  intro hnil
  have hlast := languagesDir_getLast? dataDir
  rw [hnil] at hlast
  cases hlast

theorem joinPath_languagesDir {argument : String} (h : isAbsolute argument = false) (dataDir : String) :
    joinPath (languagesDir dataDir) argument = languagesDir dataDir ++ "/" ++ argument := by
  have hne : (languagesDir dataDir).toList.isEmpty = false := List.isEmpty_eq_false_iff.mpr (languagesDir_ne_nil dataDir)
  rw [joinPath, h, languagesDir_getLast?, hne]
  rfl

theorem parts_join (base argument : String) : parts (base ++ "/" ++ argument) = parts base ++ parts argument := by
  have hslash : "/".toList = ['/'] := by decide
  rw [parts, String.toList_append, String.toList_append, hslash, List.append_assoc, List.singleton_append,
    List.splitOn_append_cons_self, List.map_append]
  rfl

theorem start_join {base : String} (h : base.toList ≠ []) (here : Place) (argument : String) :
    start here (base ++ "/" ++ argument) = start here base := by
  obtain ⟨c, rest, hbase⟩ := List.exists_cons_of_ne_nil h
  simp [start, isAbsolute, hbase]

theorem parts_ne_nil (path : String) : parts path ≠ [] := by
  rw [parts, Ne, List.map_eq_nil_iff]
  exact List.splitOn_ne_nil _ _

/-- An argument that is not absolute is looked up from the languages directory. -/
theorem lookup_joinPath {argument : String} (h : isAbsolute argument = false) {dataDir : String} {here : Place}
    (hhere : lookup fs true (languagesDir dataDir) = some here) :
    ∃ links, lookup fs false (joinPath (languagesDir dataDir) argument) =
      (walk fs.root false links here (parts argument)).map (·.1) := by
  obtain ⟨⟨_, links⟩, hwalk, rfl⟩ := Option.map_eq_some_iff.mp hhere
  refine ⟨links, ?_⟩
  rw [joinPath_languagesDir h, lookup, parts_join, start_join (languagesDir_ne_nil dataDir),
    walk_append (parts_ne_nil argument), hwalk]
  rfl

/-! ## What is deleted -/

theorem removeDirAll_cases (path : String) :
    (removeDirAll fs path).1 = [] ∨
      ∃ place t, lookup fs false path = some place ∧ fs.root.at place = some t ∧
        ((removeDirAll fs path).1 = postorder place t ∨
          ∃ entries, t = .dir entries ∧ (removeDirAll fs path).1 = postorderAll place entries) := by
  rw [removeDirAll]
  split
  · exact .inl rfl
  · rename_i place hplace
    split
    · rename_i target hat
      exact .inr ⟨place, .link target, hplace, hat, .inl rfl⟩
    · rename_i entries hat
      refine .inr ⟨place, .dir entries, hplace, hat, ?_⟩
      split
      · exact .inr ⟨entries, rfl, rfl⟩
      · split
        · exact .inl rfl
        · exact .inr ⟨entries, rfl, rfl⟩
    · exact .inl rfl

/-- What is deleted are entries at the place of the path and below. -/
theorem removeDirAll_below {path : String} {x : Place} (hx : x ∈ (removeDirAll fs path).1) :
    ∃ place rest, lookup fs false path = some place ∧ x = place ++ rest ∧ (fs.root.at x).isSome = true := by
  rcases removeDirAll_cases fs path with hnil | ⟨place, t, hplace, hat, horder⟩
  · rw [hnil] at hx
    cases hx
  · have hunique := unique_at fs.unique hat
    suffices h : ∃ rest, x = place ++ rest ∧ (t.at rest).isSome = true by
      obtain ⟨rest, rfl, hrest⟩ := h
      exact ⟨place, rest, hplace, rfl, by rwa [Tree.at_append, hat]⟩
    rcases horder with horder | ⟨entries, rfl, horder⟩
    · exact mem_postorder hunique (horder ▸ hx)
    · obtain ⟨name, rest, u, rfl, hlookup, hrest⟩ := mem_postorderAll hunique.1 hunique.2 (horder ▸ hx)
      exact ⟨name :: rest, rfl, by rw [Tree.at, hlookup]; exact hrest⟩

theorem takeWhile_nil_iff {order : List Place} {p : Place → Bool} :
    order.takeWhile p = [] ↔ order.head?.all (!p ·) = true := by
  cases order with
  | nil => simp
  | cons x rest => by_cases h : p x = true <;> simp [h]

theorem removeDirAll_nodup (path : String) : (removeDirAll fs path).1.Nodup := by
  rcases removeDirAll_cases fs path with hnil | ⟨place, t, -, hat, horder | ⟨entries, rfl, horder⟩⟩
  · rw [hnil]
    exact List.nodup_nil
  · rw [horder]
    exact postorder_nodup place (unique_at fs.unique hat)
  · rw [horder]
    have hunique := unique_at fs.unique hat
    exact postorderAll_nodup place hunique.1 hunique.2

theorem runRemove_deletes {dataDir : Option String} {argument : String} {x : Place}
    (hx : x ∈ (runRemove fs dataDir argument).2) :
    ∃ dir, dataDir = some dir ∧ pathExists fs (joinPath (languagesDir dir) argument) = true ∧
      (runRemove fs dataDir argument).2 = (removeDirAll fs (joinPath (languagesDir dir) argument)).1.takeWhile fs.canRemove := by
  cases dataDir with
  | none => cases hx
  | some dir =>
    refine ⟨dir, rfl, ?_⟩
    rw [runRemove] at hx ⊢
    by_cases hexists : pathExists fs (joinPath (languagesDir dir) argument) = true
    · exact ⟨hexists, by simp [hexists]⟩
    · simp [hexists] at hx

/-- Nothing is deleted exactly when the command ends before. -/
theorem runRemove_nil_iff (dataDir : Option String) (argument : String) :
    (runRemove fs dataDir argument).2 = [] ↔ Inert fs dataDir argument := by
  cases dataDir with
  | none => exact iff_of_true rfl fun dir hdir => by cases hdir
  | some dir =>
    have hinert : Inert fs (some dir) argument ↔ (pathExists fs (joinPath (languagesDir dir) argument) = true →
        (removeDirAll fs (joinPath (languagesDir dir) argument)).1.head?.all (!fs.canRemove ·) = true) :=
      ⟨fun h => h dir rfl, fun h dir' hdir => by cases hdir; exact h⟩
    rw [hinert, runRemove]
    by_cases hexists : pathExists fs (joinPath (languagesDir dir) argument) = true
    · simp only [hexists, Bool.not_true, Bool.false_eq_true, if_false, true_imp_iff]
      exact takeWhile_nil_iff
    · simp [hexists]

/-! ## Confinement -/

theorem eq_singleton_of_nodup {order : List Place} {place x : Place} (hnodup : order.Nodup) (h : ∀ y ∈ order, y = place)
    (hx : x ∈ order) : order = [place] := by
  by_contra hne
  obtain ⟨y, hy, hplace⟩ | hnil := (hnodup.ne_singleton_iff place).mp hne |>.symm
  · exact hplace (h y hy)
  · rw [hnil] at hx
    cases hx

theorem onlyDeletes_iff {order : List Place} {place : Place} :
    OnlyDeletes fs order place ↔ order.takeWhile fs.canRemove = [place] := by
  cases order with
  | nil => simp [OnlyDeletes]
  | cons x rest =>
    by_cases hx : fs.canRemove x = true
    · rw [List.takeWhile_cons_of_pos hx, List.cons_eq_cons, takeWhile_nil_iff]
      constructor
      · intro h
        obtain ⟨rest', horder, -, hrest⟩ := h
        obtain ⟨rfl, rfl⟩ := List.cons.inj horder
        exact ⟨rfl, hrest⟩
      · intro h
        obtain ⟨rfl, hrest⟩ := h
        exact ⟨rest, rfl, hx, hrest⟩
    · rw [List.takeWhile_cons_of_neg hx]
      refine iff_of_false ?_ (by simp)
      intro h
      obtain ⟨rest', horder, hplace, -⟩ := h
      obtain ⟨rfl, -⟩ := List.cons.inj horder
      exact hx hplace

/-- Below a link there is nothing. -/
theorem eq_of_below_link {fs : FileSystem} {child x : Place} (hlink : (fs.root.at child).any Tree.isLink = true)
    (hx : (fs.root.at x).isSome = true) (hbelow : child <+: x) : x = child := by
  obtain ⟨rest, rfl⟩ := hbelow
  obtain ⟨t, hat, ht⟩ := (Option.any_eq_true _ _).mp hlink
  rw [Tree.at_append, hat] at hx
  have hdir : t.isDir = false := by
    cases t with
    | link target => rfl
    | file => cases ht
    | dir entries => cases ht
  rw [Tree.at_below_not_dir hdir hx, List.append_nil]

section Child

variable {fs} {dir argument : String} {here : Place} {name : String}

/-- An argument that names a child and does not go on behind its link leads to the child. -/
theorem below_child (hhere : lookup fs true (languagesDir dir) = some here) (hnames : Names argument name)
    (hthrough : ¬ GoesThrough fs argument (here ++ [name])) {x : Place}
    (hx : x ∈ (removeDirAll fs (joinPath (languagesDir dir) argument)).1) : here ++ [name] <+: x := by
  obtain ⟨hrelative, hparts, hname⟩ := hnames
  obtain ⟨place, rest, hplace, rfl, -⟩ := removeDirAll_below fs hx
  obtain ⟨links, hlookup⟩ := lookup_joinPath fs hrelative hhere
  rw [hlookup] at hplace
  obtain ⟨⟨_, left⟩, hwalk, rfl⟩ := Option.map_eq_some_iff.mp hplace
  rcases walk_child hname hparts hwalk with hchild | ⟨hlink, hdot⟩
  · exact hchild ▸ List.prefix_append _ rest
  · exact absurd ⟨hdot, hlink⟩ hthrough

/-- What goes is all in the child when the argument ends at it, or when the deletion ends
    behind the child's link. -/
theorem deletes_below_child_iff (hhere : lookup fs true (languagesDir dir) = some here) (hnames : Names argument name)
    (hne : (runRemove fs (some dir) argument).2 ≠ []) :
    (∀ x ∈ (runRemove fs (some dir) argument).2, here ++ [name] <+: x) ↔
      ¬ GoesThrough fs argument (here ++ [name]) ∨
        OnlyDeletes fs (removeDirAll fs (joinPath (languagesDir dir) argument)).1 (here ++ [name]) := by
  obtain ⟨x₀, hx₀⟩ := List.exists_mem_of_ne_nil _ hne
  obtain ⟨dir', hdir, -, hdeletes⟩ := runRemove_deletes fs hx₀
  obtain rfl := Option.some.inj hdir
  rw [hdeletes] at hx₀ ⊢
  rw [onlyDeletes_iff]
  set order := (removeDirAll fs (joinPath (languagesDir dir) argument)).1 with horder
  have hsub : ∀ x ∈ order.takeWhile fs.canRemove, x ∈ order := fun x hx => (List.takeWhile_sublist _).subset hx
  constructor
  · intro hbelow
    rw [or_iff_not_imp_left, not_not]
    intro h
    obtain ⟨-, hlink⟩ := h
    have heq : ∀ x ∈ order.takeWhile fs.canRemove, x = here ++ [name] := by
      intro x hx
      obtain ⟨_, _, _, _, hthere⟩ := removeDirAll_below fs (hsub x hx)
      exact eq_of_below_link hlink hthere (hbelow x hx)
    have hnodup : (order.takeWhile fs.canRemove).Nodup := (removeDirAll_nodup fs _).sublist (List.takeWhile_sublist _)
    exact eq_singleton_of_nodup hnodup heq hx₀
  · intro h
    rcases h with hthrough | honly
    · intro x hx
      exact below_child hhere hnames hthrough (hsub x hx)
    · intro x hx
      rw [honly, List.mem_singleton] at hx
      exact hx ▸ List.prefix_rfl

end Child

/-- A removal is confined exactly when it ends before anything is deleted, or its argument
    names a child and does not lead away through it. -/
theorem confined_iff (dataDir : Option String) (argument : String) :
    Confined fs dataDir argument ↔
      Inert fs dataDir argument ∨
        ∃ dir here name, dataDir = some dir ∧ lookup fs true (languagesDir dir) = some here ∧ Names argument name ∧
          (¬ GoesThrough fs argument (here ++ [name]) ∨
            OnlyDeletes fs (removeDirAll fs (joinPath (languagesDir dir) argument)).1 (here ++ [name])) := by
  rw [Confined, ← runRemove_nil_iff]
  by_cases hnil : (runRemove fs dataDir argument).2 = []
  · exact iff_of_true (.inl hnil) (.inl hnil)
  · refine or_congr_right (exists₃_congr fun dir here name => and_congr_right ?_)
    rintro rfl
    refine and_congr_right fun hhere => and_congr_right fun hnames => ?_
    exact deletes_below_child_iff hhere hnames hnil

end Command

/-! ## An argument that leads elsewhere -/

/-- A languages directory with one package. -/
def onePackage : FileSystem where
  root := .dir [("data", .dir [("languages", .dir [("lua", .dir [("plugin.toml", .file)])])])]
  unique := by simp [Tree.Unique, UniqueAll]
  cwd := []
  canStat := true
  canRemove := fun _ => true

/-- Without a name the languages directory goes, and every package with it. -/
theorem an_empty_argument_removes_every_package : ¬ Confined onePackage (some "/data") "" := by
  intro h
  rcases h with hnil | ⟨dir, here, name, -, -, ⟨-, hparts, -⟩, -⟩
  · revert hnil
    decide +kernel
  · have hnone : (parts "").filter (!isDot ·) = [] := by decide +kernel
    rw [hnone] at hparts
    cases hparts

end CodeQuery.Cli.Grammar
