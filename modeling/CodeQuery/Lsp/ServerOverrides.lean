/-
  CodeQuery.Lsp.ServerOverrides — the overrides of the registry of language servers
  (`codequery-lsp/src/config.rs`; the registry itself is in `CodeQuery.Lsp.Daemon`).

  The overrides come from a map whose keys name languages, several of them one language,
  and are merged in the order in which the map is gone through; the environment comes
  last. So each language's server comes from the overrides of its own names alone
  (`configFor_withOverrides`), and the order shows through exactly where these disagree
  (`merges_by_precedence_iff`); `two_names_of_rust_disagree` is such a map.
-/

import CodeQuery.Data.LastGiven
import CodeQuery.Lsp.Daemon

namespace CodeQuery.Lsp

open CodeQuery.Core CodeQuery.Data

/-! ## Overrides -/

/-- An entry of the map, from `.cq.toml`. -/
structure LspServerOverride where
  binary : Option String
  args : Option (List String)
  deriving DecidableEq, Repr

/-- The fields that an override gives replace those of a config. -/
def ServerConfig.merge (config : ServerConfig) (o : LspServerOverride) : ServerConfig :=
  { config with binary := o.binary.getD config.binary, args := o.args.getD config.args }

/-- The config is changed where it stands; without one, an override with a binary makes
    one. -/
def applyOverride (configs : List (Language × ServerConfig)) (lang : Language) (o : LspServerOverride) :
    List (Language × ServerConfig) :=
  match configs.findIdx? (·.1 == lang) with
  | some i => configs.modify i fun entry => (entry.1, entry.2.merge o)
  | none =>
    match o.binary with
    | some binary => configs ++ [(lang, ⟨binary, o.args.getD [], []⟩)]
    | none => configs

def envVarLanguages : List (Language × String) :=
  [(.rust, "RUST"), (.typeScript, "TYPESCRIPT"), (.javaScript, "JAVASCRIPT"), (.python, "PYTHON"), (.go, "GO"),
    (.c, "C"), (.cpp, "CPP"), (.java, "JAVA"), (.ruby, "RUBY"), (.cSharp, "CSHARP"), (.swift, "SWIFT"),
    (.kotlin, "KOTLIN"), (.php, "PHP"), (.zig, "ZIG"), (.lua, "LUA"), (.bash, "BASH")]

/-- The loop over the map, in the order in which it is gone through. -/
def applyMap (configs : List (Language × ServerConfig)) (overrides : List (String × LspServerOverride)) :
    List (Language × ServerConfig) :=
  overrides.foldl (fun configs entry =>
    match Language.fromName entry.1 with
    | some lang => applyOverride configs lang entry.2
    | none => configs) configs

/-- The override of a variable. -/
def envOverride (binary : String) : LspServerOverride := ⟨some binary, none⟩

/-- The loop over the variables. -/
def applyEnv (env : String → Option String) (languages : List (Language × String))
    (configs : List (Language × ServerConfig)) : List (Language × ServerConfig) :=
  languages.foldl (fun configs entry =>
    match env ("CQ_LSP_" ++ entry.2) with
    | some binary => applyOverride configs entry.1 (envOverride binary)
    | none => configs) configs

def withOverrides (env : String → Option String) (overrides : List (String × LspServerOverride)) :
    List (Language × ServerConfig) :=
  applyEnv env envVarLanguages (applyMap builtinConfigs overrides)

/-! ## One language -/

/-- An override of a language's config, which it may not have. -/
def mergeInto : Option ServerConfig → LspServerOverride → Option ServerConfig
  | some config, o => some (config.merge o)
  | none, o => o.binary.map fun binary => ⟨binary, o.args.getD [], []⟩

def mergeAll (config : Option ServerConfig) (os : List LspServerOverride) : Option ServerConfig := os.foldl mergeInto config

/-- The overrides whose keys name the language. -/
def namedFor (lang : Language) (overrides : List (String × LspServerOverride)) : List LspServerOverride :=
  overrides.filterMap fun entry => if Language.fromName entry.1 = some lang then some entry.2 else none

/-- The language's variable. -/
def envBinary (env : String → Option String) (lang : Language) : Option String :=
  (envVarLanguages.find? (·.1 == lang)).bind fun entry => env ("CQ_LSP_" ++ entry.2)

theorem applyOverride_self (entry : Language × ServerConfig) (configs : List (Language × ServerConfig)) (o : LspServerOverride) :
    applyOverride (entry :: configs) entry.1 o = (entry.1, entry.2.merge o) :: configs := by
  simp [applyOverride, List.findIdx?_cons]

theorem applyOverride_cons {entry : Language × ServerConfig} {lang : Language} (h : entry.1 ≠ lang)
    (configs : List (Language × ServerConfig)) (o : LspServerOverride) :
    applyOverride (entry :: configs) lang o = entry :: applyOverride configs lang o := by
  unfold applyOverride
  rw [List.findIdx?_cons, beq_false_of_ne h]
  cases configs.findIdx? (·.1 == lang) with
  | some i => rfl
  | none => cases o.binary <;> rfl

theorem configFor_cons (entry : Language × ServerConfig) (configs : List (Language × ServerConfig)) (l : Language) :
    configFor (entry :: configs) l = if entry.1 = l then some entry.2 else configFor configs l := by
  by_cases h : entry.1 = l <;> simp [configFor, h]

/-- An override changes the config of its own language. -/
theorem configFor_applyOverride (configs : List (Language × ServerConfig)) (lang l : Language) (o : LspServerOverride) :
    configFor (applyOverride configs lang o) l =
      if lang = l then mergeInto (configFor configs l) o else configFor configs l := by
  induction configs with
  | nil =>
    cases hbinary : o.binary with
    | none => simp [applyOverride, configFor, mergeInto, hbinary]
    | some binary => by_cases hl : lang = l <;> simp [applyOverride, configFor, mergeInto, hbinary, hl]
  | cons entry configs ih =>
    by_cases hentry : entry.1 = lang
    · rw [← hentry, applyOverride_self, configFor_cons, configFor_cons]
      by_cases hl : entry.1 = l
      · rw [if_pos hl, if_pos hl, if_pos hl]
        rfl
      · rw [if_neg hl, if_neg hl, if_neg hl]
    · rw [applyOverride_cons hentry, configFor_cons, configFor_cons, ih]
      by_cases hl : entry.1 = l
      · have hne : lang ≠ l := fun h => hentry (hl.trans h.symm)
        rw [if_pos hl, if_pos hl, if_neg hne]
      · rw [if_neg hl, if_neg hl]

theorem configFor_applyMap (configs : List (Language × ServerConfig)) (overrides : List (String × LspServerOverride))
    (l : Language) : configFor (applyMap configs overrides) l = mergeAll (configFor configs l) (namedFor l overrides) := by
  induction overrides generalizing configs with
  | nil => rfl
  | cons entry overrides ih =>
    have hcons : applyMap configs (entry :: overrides) = applyMap (match Language.fromName entry.1 with
        | some lang => applyOverride configs lang entry.2
        | none => configs) overrides := rfl
    have hnamed : namedFor l (entry :: overrides) =
        (if Language.fromName entry.1 = some l then [entry.2] else []) ++ namedFor l overrides := by
      rw [namedFor, List.filterMap_cons]
      split <;> simp_all [namedFor]
    rw [hcons, ih, hnamed]
    cases hname : Language.fromName entry.1 with
    | none => rfl
    | some lang =>
      dsimp only
      rw [configFor_applyOverride]
      by_cases hl : lang = l
      · rw [if_pos hl, if_pos (congrArg some hl)]
        rfl
      · rw [if_neg hl, if_neg (by simpa using hl)]
        rfl

theorem configFor_applyEnv (env : String → Option String) (languages : List (Language × String))
    (configs : List (Language × ServerConfig)) (l : Language) :
    configFor (applyEnv env languages configs) l = mergeAll (configFor configs l) (languages.filterMap fun entry =>
      if entry.1 = l then (env ("CQ_LSP_" ++ entry.2)).map envOverride else none) := by
  induction languages generalizing configs with
  | nil => rfl
  | cons entry languages ih =>
    have hcons : applyEnv env (entry :: languages) configs = applyEnv env languages (match env ("CQ_LSP_" ++ entry.2) with
        | some binary => applyOverride configs entry.1 (envOverride binary)
        | none => configs) := rfl
    rw [hcons, ih, List.filterMap_cons]
    cases hset : env ("CQ_LSP_" ++ entry.2) with
    | none => simp
    | some binary =>
      dsimp only
      rw [configFor_applyOverride]
      by_cases hl : entry.1 = l
      · rw [if_pos hl, if_pos hl]
        rfl
      · rw [if_neg hl, if_neg hl]

/-- In a list of distinct keys a key has one entry at most. -/
theorem filterMap_key {α : Type} {languages : List (Language × String)} (hnodup : (languages.map (·.1)).Nodup) (l : Language)
    (f : String → Option α) : (languages.filterMap fun entry => if entry.1 = l then f entry.2 else none) =
      ((languages.find? (·.1 == l)).bind fun entry => f entry.2).toList := by
  induction languages with
  | nil => rfl
  | cons entry languages ih =>
    rw [List.map_cons, List.nodup_cons] at hnodup
    rw [List.filterMap_cons, List.find?_cons]
    by_cases hl : entry.1 = l
    · have hrest : (languages.filterMap fun entry => if entry.1 = l then f entry.2 else none) = [] := by
        rw [List.filterMap_eq_nil_iff]
        intro e he
        rw [if_neg]
        intro hkey
        exact hnodup.1 (List.mem_map.mpr ⟨e, he, hkey.trans hl.symm⟩)
      rw [if_pos hl, hrest, beq_iff_eq.mpr hl]
      cases h : f entry.2 <;> simp [h]
    · rw [if_neg hl, beq_false_of_ne hl]
      exact ih hnodup.2

/-- Every language has one variable at most. -/
theorem envVarLanguages_filterMap (env : String → Option String) (l : Language) :
    (envVarLanguages.filterMap fun entry => if entry.1 = l then (env ("CQ_LSP_" ++ entry.2)).map envOverride else none) =
      ((envBinary env l).map envOverride).toList := by
  have h := filterMap_key (by decide : (envVarLanguages.map (·.1)).Nodup) l fun suffix =>
    (env ("CQ_LSP_" ++ suffix)).map envOverride
  rw [h, envBinary, Option.map_bind]
  rfl

/-- A language's config is made of its default, of the overrides that name it, and of its
    variable. -/
theorem configFor_withOverrides (env : String → Option String) (overrides : List (String × LspServerOverride))
    (l : Language) : configFor (withOverrides env overrides) l =
      mergeAll (mergeAll (configFor builtinConfigs l) (namedFor l overrides)) ((envBinary env l).map envOverride).toList := by
  rw [withOverrides, configFor_applyEnv, configFor_applyMap, envVarLanguages_filterMap]

/-! ## Merging -/

section Merging

variable {os : List LspServerOverride}

theorem mergeAll_append (config : Option ServerConfig) (os os' : List LspServerOverride) :
    mergeAll config (os ++ os') = mergeAll (mergeAll config os) os' := List.foldl_append

/-- A config takes the last field given. -/
theorem mergeAll_some (config : ServerConfig) (os : List LspServerOverride) : mergeAll (some config) os =
    some { config with
      binary := (lastGiven (·.binary) os).getD config.binary, args := (lastGiven (·.args) os).getD config.args } := by
  induction os using List.reverseRecOn with
  | nil => rfl
  | append_singleton os o ih =>
    rw [mergeAll_append, ih, lastGiven_append, lastGiven_append, lastGiven_singleton, lastGiven_singleton]
    have hmerge : mergeAll (some (⟨(lastGiven (·.binary) os).getD config.binary, (lastGiven (·.args) os).getD config.args,
        config.env⟩ : ServerConfig)) [o] = some (ServerConfig.merge ⟨_, _, config.env⟩ o) := rfl
    rw [hmerge]
    cases hbinary : o.binary <;> cases hargs : o.args <;> simp [ServerConfig.merge, hbinary, hargs]

theorem mergeAll_none (h : ∀ o ∈ os, o.binary = none) : mergeAll none os = none := by
  induction os with
  | nil => rfl
  | cons o os ih =>
    obtain ⟨ho, hos⟩ := List.forall_mem_cons.mp h
    have hcons : mergeAll none (o :: os) = mergeAll (mergeInto none o) os := rfl
    rw [hcons, mergeInto, ho]
    exact ih hos

/-- Without a config, the first override with a binary makes one, and what is in front of it
    is lost. -/
theorem mergeAll_first {o : LspServerOverride} {binary : String} {before behind : List LspServerOverride}
    (hbefore : ∀ o' ∈ before, o'.binary = none) (ho : o.binary = some binary) :
    mergeAll none (before ++ o :: behind) = some
      ⟨(lastGiven (·.binary) (o :: behind)).getD binary, (lastGiven (·.args) (o :: behind)).getD [], []⟩ := by
  have hcons : mergeAll none (o :: behind) = mergeAll (mergeInto none o) behind := rfl
  have hbinary : lastGiven (·.binary) (o :: behind) = (lastGiven (·.binary) behind).or (some binary) := by
    rw [← List.singleton_append, lastGiven_append, lastGiven_singleton, ho]
  have hargs : lastGiven (·.args) (o :: behind) = (lastGiven (·.args) behind).or o.args := by
    rw [← List.singleton_append, lastGiven_append, lastGiven_singleton]
  rw [mergeAll_append, mergeAll_none hbefore, hcons, mergeInto, ho, Option.map_some, mergeAll_some, hbinary, hargs]
  cases lastGiven (·.binary) behind <;> cases lastGiven (·.args) behind <;> rfl

/-- The overrides up to the first with a binary. -/
theorem exists_first_binary (h : ∃ o ∈ os, o.binary ≠ none) : ∃ before o behind binary, os = before ++ o :: behind ∧
    (∀ o' ∈ before, o'.binary = none) ∧ o.binary = some binary := by
  induction os with
  | nil => simp at h
  | cons o os ih =>
    cases ho : o.binary with
    | some binary => exact ⟨[], o, os, binary, rfl, by simp, ho⟩
    | none =>
      have hrest : ∃ o' ∈ os, o'.binary ≠ none := by simpa [ho] using h
      obtain ⟨before, o', behind, binary, rfl, hbefore, ho'⟩ := ih hrest
      exact ⟨o :: before, o', behind, binary, rfl, List.forall_mem_cons.mpr ⟨ho, hbefore⟩, ho'⟩

theorem mergeAll_eq_none_iff {config : Option ServerConfig} :
    mergeAll config os = none ↔ config = none ∧ ∀ o ∈ os, o.binary = none := by
  cases config with
  | some config => simp [mergeAll_some]
  | none =>
    by_cases h : ∃ o ∈ os, o.binary ≠ none
    · obtain ⟨before, o, behind, binary, rfl, hbefore, ho⟩ := exists_first_binary h
      rw [mergeAll_first hbefore ho]
      refine iff_of_false (by simp) ?_
      intro hall
      rw [hall.2 o (by simp)] at ho
      cases ho
    · have hall : ∀ o ∈ os, o.binary = none := by simpa using h
      exact iff_of_true (mergeAll_none hall) ⟨rfl, hall⟩

end Merging

/-! ## Precedence -/

section Precedence

variable (env : String → Option String) (overrides : List (String × LspServerOverride))

def defaultConfig (l : Language) : Option ServerConfig := configFor builtinConfigs l

def defaultArgs (l : Language) : List String := ((defaultConfig l).map (·.args)).getD []

def defaultEnv (l : Language) : List (String × String) := ((defaultConfig l).map (·.env)).getD []

/-- An override gives the field, or none does and it is the default's. -/
def IsGiven {α : Type} (field : LspServerOverride → Option α) (os : List LspServerOverride) (default : Option α) (x : α) : Prop :=
  (∃ o ∈ os, field o = some x) ∨ (∀ o ∈ os, field o = none) ∧ default = some x

/-- The binary is that of the variable, of an override or of the default, in this order;
    the arguments are those of an override or of the default. -/
structure Precedence (os : List LspServerOverride) (l : Language) (config : ServerConfig) : Prop where
  binary : match envBinary env l with
    | some binary => config.binary = binary
    | none => IsGiven (·.binary) os ((defaultConfig l).map (·.binary)) config.binary
  args : IsGiven (·.args) os (some (defaultArgs l)) config.args
  env : config.env = defaultEnv l

/-- In whatever order the map is gone through, a language's config is the same and keeps to
    the precedence; there is none without a default and a binary. -/
def MergesByPrecedence : Prop := ∀ l, ∃ result : Option ServerConfig,
  (∀ order, order.Perm overrides → configFor (withOverrides env order) l = result) ∧
    (∀ config, result = some config → Precedence env (namedFor l overrides) l config) ∧
      (result = none ↔ defaultConfig l = none ∧ ∀ o ∈ namedFor l overrides, o.binary = none)

/-- The overrides that name a language agree on its binary, unless its variable is set, and
    on its arguments; and without a default, arguments that come without a binary are none
    or come with one as well. -/
structure NamesAgree (os : List LspServerOverride) (l : Language) : Prop where
  binary : envBinary env l ≠ none ∨ Agree (·.binary) os
  args : Agree (·.args) os
  kept : defaultConfig l = none → ∀ o ∈ os, o.binary = none → ∀ args, o.args = some args →
    args = [] ∨ ∃ o' ∈ os, o'.binary ≠ none ∧ o'.args ≠ none

variable {env overrides}

theorem defaultConfig_of_envBinary {l : Language} {binary : String} (h : envBinary env l = some binary) :
    defaultConfig l ≠ none := by
  intro hnone
  cases l <;> simp [defaultConfig, configFor, builtinConfigs, envBinary, envVarLanguages] at hnone h

theorem NamesAgree.perm {os os' : List LspServerOverride} {l : Language} (h : NamesAgree env os l) (hperm : os'.Perm os) :
    NamesAgree env os' l := by
  refine ⟨h.binary.imp_right fun hb => hb.perm hperm, h.args.perm hperm, ?_⟩
  intro hdefault o ho hbinary args hargs
  refine (h.kept hdefault o (hperm.subset ho) hbinary args hargs).imp_right ?_
  intro hcase
  obtain ⟨o', ho', hgives⟩ := hcase
  exact ⟨o', hperm.symm.subset ho', hgives⟩

/-- Where the names agree, nothing that matters comes in front of the first binary. -/
theorem lastGiven_args_eq {l : Language} {before behind : List LspServerOverride} {o : LspServerOverride}
    (h : NamesAgree env (before ++ o :: behind) l) (hdefault : defaultConfig l = none)
    (hbefore : ∀ o' ∈ before, o'.binary = none) :
    (lastGiven (·.args) (o :: behind)).getD [] = (lastGiven (·.args) (before ++ o :: behind)).getD [] := by
  rw [lastGiven_append]
  cases hgiven : lastGiven (·.args) (o :: behind) with
  | some args => rfl
  | none =>
    cases hlost : lastGiven (·.args) before with
    | none => rfl
    | some args =>
      obtain ⟨o', ho', hargs⟩ := mem_of_lastGiven hlost
      rcases h.kept hdefault o' (List.mem_append_left _ ho') (hbefore o' ho') args hargs with rfl | ⟨o'', ho'', hb, ha⟩
      · rfl
      · rcases List.mem_append.mp ho'' with hmem | hmem
        · exact absurd (hbefore o'' hmem) hb
        · exact absurd (lastGiven_eq_none_iff.mp hgiven o'' hmem) ha

theorem mergeAll_agreed {os : List LspServerOverride} {l : Language} (h : NamesAgree env os l)
    (hconfig : ¬ (defaultConfig l = none ∧ ∀ o ∈ os, o.binary = none)) :
    ∃ binary, mergeAll (defaultConfig l) os =
        some ⟨binary, (lastGiven (·.args) os).getD (defaultArgs l), defaultEnv l⟩ ∧
      (lastGiven (·.binary) os).or ((defaultConfig l).map (·.binary)) = some binary := by
  cases hdefault : defaultConfig l with
  | some config =>
    refine ⟨(lastGiven (·.binary) os).getD config.binary, ?_, ?_⟩
    · rw [mergeAll_some, defaultArgs, defaultEnv, hdefault]
      rfl
    · cases lastGiven (·.binary) os <;> rfl
  | none =>
    have hbinary : ∃ o ∈ os, o.binary ≠ none := by simpa [hdefault] using hconfig
    obtain ⟨before, o, behind, binary, rfl, hbefore, ho⟩ := exists_first_binary hbinary
    have hall : lastGiven (·.binary) (before ++ o :: behind) = lastGiven (·.binary) (o :: behind) := by
      rw [lastGiven_append, lastGiven_eq_none_iff.mpr hbefore, Option.or_none]
    rw [mergeAll_first hbefore ho, lastGiven_args_eq h hdefault hbefore, defaultArgs, defaultEnv, hdefault, hall]
    refine ⟨_, rfl, ?_⟩
    cases hlast : lastGiven (·.binary) (o :: behind) with
    | some last => rfl
    | none =>
      rw [lastGiven_eq_none_iff.mp hlast o List.mem_cons_self] at ho
      cases ho

/-- The variable replaces the binary of a config. -/
theorem mergeAll_variable (config : ServerConfig) (l : Language) :
    mergeAll (some config) ((envBinary env l).map envOverride).toList =
      some { config with binary := (envBinary env l).getD config.binary } := by
  cases envBinary env l <;> rfl

theorem namedFor_perm {order : List (String × LspServerOverride)} (h : order.Perm overrides) (l : Language) :
    (namedFor l order).Perm (namedFor l overrides) := h.filterMap _

/-- What the languages' configs are where their names agree. -/
theorem configFor_agreed {l : Language} (h : NamesAgree env (namedFor l overrides) l)
    (hconfig : ¬ (defaultConfig l = none ∧ ∀ o ∈ namedFor l overrides, o.binary = none)) :
    ∃ binary, (lastGiven (·.binary) (namedFor l overrides)).or ((defaultConfig l).map (·.binary)) = some binary ∧
      ∀ order, order.Perm overrides → configFor (withOverrides env order) l =
        some ⟨(envBinary env l).getD binary, (lastGiven (·.args) (namedFor l overrides)).getD (defaultArgs l), defaultEnv l⟩ := by
  obtain ⟨binary, -, hbinary⟩ := mergeAll_agreed h hconfig
  refine ⟨binary, hbinary, ?_⟩
  intro order horder
  have hperm := namedFor_perm horder l
  have hconfig' : ¬ (defaultConfig l = none ∧ ∀ o ∈ namedFor l order, o.binary = none) := fun hcase =>
    hconfig ⟨hcase.1, fun o ho => hcase.2 o (hperm.symm.subset ho)⟩
  obtain ⟨binary', hmerge, hbinary'⟩ := mergeAll_agreed (h.perm hperm) hconfig'
  rw [configFor_withOverrides]
  have hstart : mergeAll (configFor builtinConfigs l) (namedFor l order) = mergeAll (defaultConfig l) (namedFor l order) := rfl
  rw [hstart, hmerge, mergeAll_variable, lastGiven_perm h.args hperm]
  rcases h.binary with hset | hagree
  · obtain ⟨value, hvalue⟩ := Option.ne_none_iff_exists'.mp hset
    rw [hvalue]
    rfl
  · rw [lastGiven_perm hagree hperm, hbinary] at hbinary'
    cases hbinary'
    rfl

theorem isGiven_of_lastGiven {α : Type} {field : LspServerOverride → Option α} {os : List LspServerOverride}
    {default : Option α} {x : α} (h : (lastGiven field os).or default = some x) : IsGiven field os default x := by
  cases hlast : lastGiven field os with
  | some y =>
    rw [hlast] at h
    cases h
    exact .inl (mem_of_lastGiven hlast)
  | none =>
    rw [hlast] at h
    exact .inr ⟨lastGiven_eq_none_iff.mp hlast, h⟩

/-- A language without a default and a binary has no config. -/
theorem configFor_none {l : Language} (h : defaultConfig l = none ∧ ∀ o ∈ namedFor l overrides, o.binary = none)
    {order : List (String × LspServerOverride)} (horder : order.Perm overrides) :
    configFor (withOverrides env order) l = none := by
  have hmerge : mergeAll (configFor builtinConfigs l) (namedFor l order) = none :=
    mergeAll_eq_none_iff.mpr ⟨h.1, fun o ho => h.2 o ((namedFor_perm horder l).subset ho)⟩
  rw [configFor_withOverrides, hmerge]
  cases hset : envBinary env l with
  | none => rfl
  | some binary => exact absurd h.1 (defaultConfig_of_envBinary hset)

/-- Where the names agree, the overrides are merged by their precedence. -/
theorem merges_of_agree (h : ∀ l, (defaultConfig l ≠ none ∨ ∃ o ∈ namedFor l overrides, o.binary ≠ none) →
    NamesAgree env (namedFor l overrides) l) : MergesByPrecedence env overrides := by
  intro l
  by_cases hnone : defaultConfig l = none ∧ ∀ o ∈ namedFor l overrides, o.binary = none
  · refine ⟨none, fun order horder => configFor_none hnone horder, ?_, iff_of_true rfl hnone⟩
    intro config hconfig
    cases hconfig
  · have hsome : defaultConfig l ≠ none ∨ ∃ o ∈ namedFor l overrides, o.binary ≠ none := by
      by_cases hdefault : defaultConfig l = none
      · exact .inr (by simpa [hdefault] using hnone)
      · exact .inl hdefault
    obtain ⟨binary, hbinary, horders⟩ := configFor_agreed (h l hsome) hnone
    refine ⟨_, horders, fun config hconfig => ?_, iff_of_false (by simp) hnone⟩
    cases hconfig
    refine ⟨?_, isGiven_of_lastGiven ?_, rfl⟩
    · cases envBinary env l with
      | some value => rfl
      | none => exact isGiven_of_lastGiven hbinary
    · cases lastGiven (·.args) (namedFor l overrides) <;> rfl

/-! ## The order shows -/

/-- The map can be gone through so that an override of a language comes last. -/
theorem exists_order_last {l : Language} {o : LspServerOverride} (ho : o ∈ namedFor l overrides) :
    ∃ order os, order.Perm overrides ∧ namedFor l order = os ++ [o] := by
  obtain ⟨entry, hentry, hnames⟩ := List.mem_filterMap.mp ho
  obtain ⟨rest, hperm⟩ := exists_perm_concat hentry
  refine ⟨rest ++ [entry], namedFor l rest, hperm, ?_⟩
  rw [namedFor, List.filterMap_append, List.filterMap_cons, hnames]
  rfl

/-- The config of a language is what its overrides made, with the variable's binary. -/
theorem configFor_eq_some {l : Language} {order : List (String × LspServerOverride)} {config : ServerConfig}
    (h : configFor (withOverrides env order) l = some config) :
    ∃ merged, mergeAll (defaultConfig l) (namedFor l order) = some merged ∧
      config = { merged with binary := (envBinary env l).getD merged.binary } := by
  cases hmerged : mergeAll (defaultConfig l) (namedFor l order) with
  | none =>
    rw [configFor_none (mergeAll_eq_none_iff.mp hmerged) (List.Perm.refl order)] at h
    cases h
  | some merged =>
    have hstart : mergeAll (configFor builtinConfigs l) (namedFor l order) = some merged := hmerged
    rw [configFor_withOverrides, hstart, mergeAll_variable] at h
    exact ⟨merged, rfl, (Option.some.inj h).symm⟩

/-- An override that comes last gives its fields, but for a binary that the variable
    replaces. -/
theorem configFor_last {l : Language} {os : List LspServerOverride} {o : LspServerOverride}
    {order : List (String × LspServerOverride)} (hnamed : namedFor l order = os ++ [o]) {config : ServerConfig}
    (hconfig : configFor (withOverrides env order) l = some config) :
    (∀ args, o.args = some args → config.args = args) ∧
      (envBinary env l = none → ∀ binary, o.binary = some binary → config.binary = binary) := by
  obtain ⟨merged, hmerged, rfl⟩ := configFor_eq_some hconfig
  rw [hnamed, mergeAll_append] at hmerged
  have hlast : mergeInto (mergeAll (defaultConfig l) os) o = some merged := hmerged
  have hfields : (∀ args, o.args = some args → merged.args = args) ∧ ∀ binary, o.binary = some binary →
    merged.binary = binary := by
    cases hbefore : mergeAll (defaultConfig l) os with
    | some before =>
      rw [hbefore] at hlast
      cases hlast
      exact ⟨fun args hargs => by simp [ServerConfig.merge, hargs],
        fun binary hbinary => by simp [ServerConfig.merge, hbinary]⟩
    | none =>
      rw [hbefore] at hlast
      obtain ⟨binary, hbinary, rfl⟩ := Option.map_eq_some_iff.mp hlast
      refine ⟨fun args hargs => by simp [hargs], fun binary' hbinary' => ?_⟩
      rw [hbinary] at hbinary'
      exact Option.some.inj hbinary'
  refine ⟨hfields.1, fun hunset binary hbinary => ?_⟩
  rw [hunset]
  exact hfields.2 binary hbinary

theorem namedFor_filter (p : LspServerOverride → Bool) (l : Language) :
    namedFor l (overrides.filter fun entry => p entry.2) = (namedFor l overrides).filter p := by
  unfold namedFor
  rw [List.filterMap_filter, List.filter_filterMap]
  refine List.filterMap_congr ?_
  intro entry _
  by_cases hname : Language.fromName entry.1 = some l
  · cases hp : p entry.2 <;> simp [hname, hp, Option.filter_some]
  · simp [hname]

/-- The map can be gone through so that overrides with a binary come last. -/
theorem exists_order_binaries_last (l : Language) : ∃ order, order.Perm overrides ∧
    namedFor l order = (namedFor l overrides).filter (·.binary.isNone) ++
      (namedFor l overrides).filter (!·.binary.isNone) := by
  refine ⟨overrides.filter (·.2.binary.isNone) ++ overrides.filter (!·.2.binary.isNone),
    List.filter_append_perm _ overrides, ?_⟩
  have happend : ∀ xs ys, namedFor l (xs ++ ys) = namedFor l xs ++ namedFor l ys := fun xs ys => List.filterMap_append
  rw [happend, namedFor_filter (·.binary.isNone), namedFor_filter (!·.binary.isNone)]

/-- Without a default, arguments that come in front of every binary are lost. -/
theorem configFor_lost {l : Language} (hdefault : defaultConfig l = none)
    (hplain : ∀ o ∈ namedFor l overrides, o.binary ≠ none → o.args = none) {order : List (String × LspServerOverride)}
    (hnamed : namedFor l order = (namedFor l overrides).filter (·.binary.isNone) ++
      (namedFor l overrides).filter (!·.binary.isNone)) {config : ServerConfig}
    (hconfig : configFor (withOverrides env order) l = some config) : config.args = [] := by
  obtain ⟨merged, hmerged, rfl⟩ := configFor_eq_some hconfig
  have hfront : mergeAll none ((namedFor l overrides).filter (·.binary.isNone)) = none :=
    mergeAll_none fun o ho => Option.isNone_iff_eq_none.mp (List.mem_filter.mp ho).2
  rw [hdefault, hnamed, mergeAll_append, hfront] at hmerged
  have hbinary : ∃ o ∈ (namedFor l overrides).filter (!·.binary.isNone), o.binary ≠ none := by
    by_contra hnone
    have hnone' : mergeAll none ((namedFor l overrides).filter (!·.binary.isNone)) = none :=
      mergeAll_none (by simpa using hnone)
    rw [hnone'] at hmerged
    cases hmerged
  obtain ⟨before, o, behind, binary, hsplit, hbefore, ho⟩ := exists_first_binary hbinary
  rw [hsplit, mergeAll_first hbefore ho] at hmerged
  have hargs : lastGiven (·.args) (o :: behind) = none := by
    rw [lastGiven_eq_none_iff]
    intro o' ho'
    have hmem : o' ∈ (namedFor l overrides).filter (!·.binary.isNone) := by
      rw [hsplit]
      exact List.mem_append_right _ ho'
    obtain ⟨hmem, hgives⟩ := List.mem_filter.mp hmem
    rw [Bool.not_eq_true', ← Bool.not_eq_true, Option.isNone_iff_eq_none] at hgives
    exact hplain o' hmem hgives
  cases hmerged
  simp [hargs]

theorem agree_of_merges (h : MergesByPrecedence env overrides) {l : Language}
    (hsome : defaultConfig l ≠ none ∨ ∃ o ∈ namedFor l overrides, o.binary ≠ none) :
    NamesAgree env (namedFor l overrides) l := by
  obtain ⟨result, horders, -, hnone⟩ := h l
  have hresult : result ≠ none := by
    intro hcase
    obtain ⟨hdefault, hbinary⟩ := hnone.mp hcase
    rcases hsome with hd | ⟨o, ho, hb⟩
    · exact hd hdefault
    · exact hb (hbinary o ho)
  obtain ⟨config, rfl⟩ := Option.ne_none_iff_exists'.mp hresult
  -- each override may come last, and the config is the same
  have hlast : ∀ o ∈ namedFor l overrides, (∀ args, o.args = some args → config.args = args) ∧
      (envBinary env l = none → ∀ binary, o.binary = some binary → config.binary = binary) := by
    intro o ho
    obtain ⟨order, os, hperm, hnamed⟩ := exists_order_last ho
    exact configFor_last hnamed (horders order hperm)
  refine ⟨?_, ?_, ?_⟩
  · by_cases hset : envBinary env l = none
    · refine .inr fun o ho o' ho' binary binary' hb hb' => ?_
      rw [← (hlast o ho).2 hset binary hb, ← (hlast o' ho').2 hset binary' hb']
    · exact .inl hset
  · intro o ho o' ho' args args' ha ha'
    rw [← (hlast o ho).1 args ha, ← (hlast o' ho').1 args' ha']
  · intro hdefault o ho hbinary args hargs
    by_cases hplain : ∀ o' ∈ namedFor l overrides, o'.binary ≠ none → o'.args = none
    · obtain ⟨order, hperm, hnamed⟩ := @exists_order_binaries_last overrides l
      have hlost := configFor_lost hdefault hplain hnamed (horders order hperm)
      rw [(hlast o ho).1 args hargs] at hlost
      exact .inl hlost
    · push Not at hplain
      exact .inr hplain

/-- The overrides are merged by their precedence, in every order, exactly where those that
    name one language agree. -/
theorem merges_by_precedence_iff (env : String → Option String) (overrides : List (String × LspServerOverride)) :
    MergesByPrecedence env overrides ↔
      ∀ l, (defaultConfig l ≠ none ∨ ∃ o ∈ namedFor l overrides, o.binary ≠ none) →
        NamesAgree env (namedFor l overrides) l :=
  ⟨fun h _ hsome => agree_of_merges h hsome, merges_of_agree⟩

/-- Two names of Rust with a binary each: the one that is gone through last decides. -/
theorem two_names_of_rust_disagree :
    configFor (withOverrides (fun _ => none) [("rust", ⟨some "a", none⟩), ("rs", ⟨some "b", none⟩)]) .rust =
        some ⟨"b", [], []⟩ ∧
      configFor (withOverrides (fun _ => none) [("rs", ⟨some "b", none⟩), ("rust", ⟨some "a", none⟩)]) .rust =
        some ⟨"a", [], []⟩ ∧
      ¬ MergesByPrecedence (fun _ => none) [("rust", ⟨some "a", none⟩), ("rs", ⟨some "b", none⟩)] := by
  have hfirst : configFor (withOverrides (fun _ => none) [("rust", ⟨some "a", none⟩), ("rs", ⟨some "b", none⟩)]) .rust =
      some ⟨"b", [], []⟩ := by decide
  have hsecond : configFor (withOverrides (fun _ => none) [("rs", ⟨some "b", none⟩), ("rust", ⟨some "a", none⟩)]) .rust =
      some ⟨"a", [], []⟩ := by decide
  refine ⟨hfirst, hsecond, ?_⟩
  intro h
  obtain ⟨result, horders, -⟩ := h .rust
  have hboth := horders [("rs", ⟨some "b", none⟩), ("rust", ⟨some "a", none⟩)] (List.Perm.swap _ _ _)
  rw [← horders _ (List.Perm.refl _), hfirst, hsecond] at hboth
  exact absurd hboth (by decide)

end Precedence

end CodeQuery.Lsp
