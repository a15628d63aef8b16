/-
  CodeQuery.Cli.GrammarUpdate — what an update keeps (see `CodeQuery.Cli.Grammar`).

  The loop removes each package and then tries to get it again. Failures to remove or to
  create a directory end the loop, so that the packages behind are as they were; all
  others are no errors, and the loop goes on with the package gone
  (`an_update_loses_a_package`). `kept_iff` says on which outcomes every package is there
  afterwards, as it was or new.
-/

import CodeQuery.Cli.Grammar

namespace CodeQuery.Cli.Grammar

section Update

variable {α : Type}

/-! ## One package -/

/-- The package is as it was, or as it was extracted. -/
def Kept (o : Reinstallation α) (old : α) (after : Option α) : Prop :=
  after = some old ∨ ∃ registry new, o = .removed ⟨registry, .extracted new⟩ ∧ after = some new

/-- Removing the package fails and leaves it whole; or it is removed, in the registry,
    and extracted, or what a failed extraction leaves is what was there. -/
def Survives (name : String) (old : α) : Reinstallation α → Prop
  | .removalFailed left => left = some old
  | .removed ⟨registry, fetch⟩ =>
    (∃ languages, registry = some languages ∧ name ∈ languages) ∧
      ((∃ new, fetch = .extracted new) ∨ fetch = .extractFailed (some old))

/-- An error ends the loop at the package. -/
def stops (name : String) : Reinstallation α → Bool
  | .removalFailed _ => true
  | .removed ⟨none, _⟩ => true
  | .removed ⟨some languages, .createFailed⟩ => languages.contains name
  | .removed _ => false

theorem leave_lookup (dir : Packages α) (name : String) (left : Option α) : (leave dir name left).lookup name = left := by
  cases left with
  | none => exact AList.lookup_erase name dir
  | some content => exact AList.lookup_insert dir

theorem leave_lookup_ne {name other : String} (h : other ≠ name) (dir : Packages α) (left : Option α) :
    (leave dir name left).lookup other = dir.lookup other := by
  cases left with
  | none => exact AList.lookup_erase_ne h
  | some content => exact AList.lookup_insert_ne h

theorem runInstall_lookup_ne {name other : String} (h : other ≠ name) (i : Installation α) (dir : Packages α) :
    (runInstall i name dir).2.lookup other = dir.lookup other := by
  unfold runInstall
  repeat' split
  all_goals first | rfl | exact leave_lookup_ne h dir _

/-- What an installation makes of a package that is not there. -/
def installed (name : String) : Installation α → Option α
  | ⟨none, _⟩ => none
  | ⟨some languages, fetch⟩ =>
    if languages.contains name then
      match fetch with
      | .extractFailed left => left
      | .extracted content => some content
      | _ => none
    else none

theorem runInstall_lookup {name : String} {dir : Packages α} (h : dir.lookup name = none) (i : Installation α) :
    (runInstall i name dir).2.lookup name = installed name i := by
  obtain ⟨_ | languages, fetch⟩ := i
  · exact h
  · by_cases hknown : name ∈ languages
    · cases fetch <;> simp [runInstall, installed, hknown, h, leave_lookup]
    · simp [runInstall, installed, hknown, h]

/-- One turn of the loop. -/
def reinstall (name : String) (o : Reinstallation α) (dir : Packages α) : Packages α :=
  match o with
  | .removalFailed left => leave dir name left
  | .removed i => (runInstall i name (leave dir name none)).2

theorem reinstall_lookup_ne {name other : String} (h : other ≠ name) (o : Reinstallation α) (dir : Packages α) :
    (reinstall name o dir).lookup other = dir.lookup other := by
  cases o with
  | removalFailed left => exact leave_lookup_ne h dir left
  | removed i => exact (runInstall_lookup_ne h i _).trans (leave_lookup_ne h dir none)

theorem reinstall_kept_iff (name : String) (old : α) (o : Reinstallation α) (dir : Packages α) :
    Kept o old ((reinstall name o dir).lookup name) ↔ Survives name old o := by
  cases o with
  | removalFailed left => simp [Kept, Survives, reinstall, leave_lookup]
  | removed i =>
    obtain ⟨registry, fetch⟩ := i
    rw [reinstall, runInstall_lookup (leave_lookup dir name none)]
    cases registry with
    | none => simp [Kept, Survives, installed]
    | some languages =>
      by_cases hknown : name ∈ languages
      · cases fetch <;> simp [Kept, Survives, installed, hknown]
      · simp [Kept, Survives, installed, hknown]

/-! ## The loop -/

/-- The packages that the loop comes to. -/
def reached (outcome : String → Reinstallation α) : List String → List String
  | [] => []
  | name :: names => name :: if stops name (outcome name) then [] else reached outcome names

theorem runInstall_error_iff {name : String} {dir : Packages α} (h : dir.lookup name = none) (i : Installation α) :
    (∃ e, (runInstall i name dir).1 = .error e) ↔ stops name (.removed i) = true := by
  obtain ⟨_ | languages, fetch⟩ := i
  · simp [runInstall, stops]
  · by_cases hknown : name ∈ languages
    · cases fetch <;> simp [runInstall, stops, hknown, h]
    · cases fetch <;> simp [runInstall, stops, hknown]

theorem updateLoop_cons (outcome : String → Reinstallation α) (name : String) (names : List String) (dir : Packages α) :
    (updateLoop outcome (name :: names) dir).2 =
      if stops name (outcome name) then reinstall name (outcome name) dir
      else (updateLoop outcome names (reinstall name (outcome name) dir)).2 := by
  rw [updateLoop]
  cases houtcome : outcome name with
  | removalFailed left => rfl
  | removed i =>
    have herror := runInstall_error_iff (leave_lookup dir name none) i
    simp only [reinstall]
    rcases hinstall : runInstall i name (leave dir name none) with ⟨_ | _, dir'⟩
    · rw [if_pos (herror.mp ⟨_, by rw [hinstall]⟩)]
    · rw [if_neg]
      rintro hstops
      obtain ⟨e, he⟩ := herror.mpr hstops
      rw [hinstall] at he
      cases he

/-- The loop leaves other packages alone. -/
theorem updateLoop_lookup_ne {outcome : String → Reinstallation α} {other : String} :
    ∀ {names : List String} (dir : Packages α), other ∉ names →
      (updateLoop outcome names dir).2.lookup other = dir.lookup other
  | [], _, _ => rfl
  | name :: names, dir, h => by
    obtain ⟨hne, hrest⟩ := List.ne_and_not_mem_of_not_mem_cons h
    rw [updateLoop_cons]
    split
    · exact reinstall_lookup_ne hne _ dir
    · rw [updateLoop_lookup_ne _ hrest]
      exact reinstall_lookup_ne hne _ dir

theorem reached_subset {outcome : String → Reinstallation α} {name : String} : ∀ {names : List String},
    name ∈ reached outcome names → name ∈ names
  | [], h => h
  | m :: names, h => by
    rw [reached] at h
    rcases List.mem_cons.mp h with rfl | h
    · exact List.mem_cons_self
    · split at h
      · cases h
      · exact List.mem_cons_of_mem _ (reached_subset h)

/-- Every package of the loop is kept exactly when those that it comes to survive. -/
theorem updateLoop_kept_iff {outcome : String → Reinstallation α} : ∀ {names : List String} (dir : Packages α), names.Nodup →
    ((∀ name ∈ names, ∀ old, dir.lookup name = some old →
        Kept (outcome name) old ((updateLoop outcome names dir).2.lookup name)) ↔
      ∀ name ∈ reached outcome names, ∀ old, dir.lookup name = some old → Survives name old (outcome name))
  | [], _, _ => by simp [reached]
  | name :: names, dir, hnodup => by
    obtain ⟨hnot, hnodup⟩ := List.nodup_cons.mp hnodup
    have hother : ∀ other ∈ names, (reinstall name (outcome name) dir).lookup other = dir.lookup other := by
      intro other hmem
      refine reinstall_lookup_ne ?_ _ dir
      rintro rfl
      exact hnot hmem
    rw [updateLoop_cons, reached, List.forall_mem_cons, List.forall_mem_cons]
    by_cases hstops : stops name (outcome name) = true
    · rw [if_pos hstops, if_pos hstops]
      refine and_congr (forall₂_congr fun old _ => reinstall_kept_iff name old _ dir) (iff_of_true ?_ (by simp))
      intro other hmem old hold
      exact .inl ((hother other hmem).trans hold)
    · rw [if_neg hstops, if_neg hstops, updateLoop_lookup_ne _ hnot]
      refine and_congr (forall₂_congr fun old _ => reinstall_kept_iff name old _ dir) ?_
      have ih := @updateLoop_kept_iff outcome names (reinstall name (outcome name) dir) hnodup
      constructor
      · intro hall other hmem old hold
        have hthere := hother other (reached_subset hmem)
        refine ih.mp (fun m hm old' hold' => hall m hm old' (hother m hm ▸ hold')) other hmem old (hthere.trans hold)
      · intro hall other hmem old hold
        refine ih.mpr (fun m hm old' hold' => hall m hm old' (hother m (reached_subset hm) ▸ hold')) other hmem old
          ((hother other hmem).trans hold)

theorem findInstalled_nodup (dir : Packages α) : (findInstalled dir).Nodup :=
  (List.mergeSort_perm _ _).nodup_iff.mpr dir.keys_nodup

theorem mem_findInstalled {dir : Packages α} {name : String} : name ∈ findInstalled dir ↔ (dir.lookup name).isSome = true := by
  rw [findInstalled, List.mem_mergeSort, AList.lookup_isSome]
  exact AList.mem_keys.symm

/-- The packages that an update comes to. -/
def reachedBy (u : Update α) (dir : Packages α) : List String :=
  if u.hasDir && u.registry.isSome then reached u.outcome (findInstalled dir) else []

theorem runUpdate_packages (u : Update α) (dir : Packages α) : (runUpdate u dir).2 =
    if u.hasDir && u.registry.isSome then (updateLoop u.outcome (findInstalled dir) dir).2 else dir := by
  unfold runUpdate
  cases u.hasDir with
  | false => rfl
  | true =>
    cases hregistry : u.registry with
    | none => by_cases hempty : (findInstalled dir).isEmpty = true <;> simp [hempty]
    | some languages =>
      by_cases hempty : (findInstalled dir).isEmpty = true
      · rw [List.isEmpty_iff.mp hempty]
        rfl
      · simp only [hempty]
        rcases updateLoop u.outcome (findInstalled dir) dir with ⟨_ | _, dir'⟩ <;> simp

/-- After an update every package that was there is there, old or new, exactly when each
    one that it comes to survives. -/
theorem kept_iff (u : Update α) (dir : Packages α) :
    (∀ name old, dir.lookup name = some old → Kept (u.outcome name) old ((runUpdate u dir).2.lookup name)) ↔
      ∀ name ∈ reachedBy u dir, ∀ old, dir.lookup name = some old → Survives name old (u.outcome name) := by
  rw [runUpdate_packages, reachedBy]
  by_cases hloop : (u.hasDir && u.registry.isSome) = true
  · rw [if_pos hloop, if_pos hloop, ← updateLoop_kept_iff dir (findInstalled_nodup dir)]
    constructor
    · exact fun hall name _ => hall name
    · intro hall name old hold
      exact hall name (mem_findInstalled.mpr (by rw [hold]; rfl)) old hold
  · rw [if_neg hloop, if_neg hloop]
    exact iff_of_true (fun name old hold => .inl hold) (by simp)

end Update

/-! ## A package that is gone -/

/-- One package, the network is down: the update removes it and cannot get it again. -/
theorem an_update_loses_a_package :
    ¬ ∀ name old, (AList.singleton "lua" 1 : Packages Nat).lookup name = some old →
      Kept (.removed ⟨some ["lua"], .downloadFailed⟩) old
        ((runUpdate ⟨true, some ["lua"], fun _ => .removed ⟨some ["lua"], .downloadFailed⟩⟩
          (AList.singleton "lua" 1 : Packages Nat)).2.lookup name) := by
  intro h
  rcases h "lua" 1 rfl with hkept | ⟨_, _, hkept, -⟩
  · revert hkept
    decide +kernel
  · cases hkept

end CodeQuery.Cli.Grammar
