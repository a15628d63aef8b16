/-
  CodeQuery.Data.CommandLine — argument lists by the usual convention.

  An argument that begins with a hyphen is an option, but for the hyphen alone; a table
  says which options there are and which take the next argument as their value, which is
  no option itself. Behind two hyphens nothing is an option.

  A list that is to be read as options with values and arguments behind them is read so
  exactly when none of the values and arguments looks like an option
  (`parse_options_iff`, `parse_arguments_iff` and its forms with an option at the end).
-/

import Mathlib.Data.List.Basic

namespace CodeQuery.Data

/-! ## Parsing -/

inductive Arity where
  | flag
  | value
  deriving DecidableEq, Repr

structure CommandLine where
  /-- The options with their values. -/
  options : List (String × Option String)
  arguments : List String
  deriving DecidableEq, Repr

namespace CommandLine

def addOption (name : String) (value : Option String) (c : CommandLine) : CommandLine :=
  { c with options := (name, value) :: c.options }

def addArgument (a : String) (c : CommandLine) : CommandLine := { c with arguments := a :: c.arguments }

end CommandLine

def looksLikeOption (a : String) : Bool := a.toList.head? = some '-' && a != "-"

/-- An option and its value in one argument, with an equals sign between them. -/
def inlineValue (arity : String → Option Arity) (a : String) : Option (String × String) :=
  let name := String.ofList (a.toList.takeWhile (· ≠ '='))
  match a.toList.dropWhile (· ≠ '=') with
  | _ :: value => if arity name = some .value then some (name, String.ofList value) else none
  | [] => none

/-- `none` when an option is not known or its value is missing. -/
def parse (arity : String → Option Arity) : List String → Option CommandLine
  | [] => some ⟨[], []⟩
  | a :: rest =>
    if a = "--" then some ⟨[], rest⟩
    else if looksLikeOption a then
      match arity a with
      | some .flag => (parse arity rest).map (·.addOption a none)
      | some .value =>
        match rest with
        | [] => none
        | v :: rest => if looksLikeOption v then none else (parse arity rest).map (·.addOption a (some v))
      | none =>
        match inlineValue arity a with
        | some (name, v) => (parse arity rest).map (·.addOption name (some v))
        | none => none
    else (parse arity rest).map (·.addArgument a)

section Parse

variable {arity : String → Option Arity}

theorem parse_nil : parse arity [] = some ⟨[], []⟩ := rfl

theorem ne_dashes_of_plain {a : String} (h : looksLikeOption a = false) : a ≠ "--" := by
  rintro rfl
  cases h

theorem parse_plain {a : String} (h : looksLikeOption a = false) (rest : List String) :
    parse arity (a :: rest) = (parse arity rest).map (·.addArgument a) := by
  rw [parse.eq_def]
  simp [h, ne_dashes_of_plain h]

theorem parse_option {a : String} (hlooks : looksLikeOption a = true) (hne : a ≠ "--") (rest : List String) :
    parse arity (a :: rest) =
      match arity a with
      | some .flag => (parse arity rest).map (·.addOption a none)
      | some .value =>
        match rest with
        | [] => none
        | v :: rest => if looksLikeOption v then none else (parse arity rest).map (·.addOption a (some v))
      | none =>
        match inlineValue arity a with
        | some (name, v) => (parse arity rest).map (·.addOption name (some v))
        | none => none := by
  rw [parse.eq_def]
  simp only [hne, hlooks, if_false, if_true]

theorem parse_dashes (rest : List String) : parse arity ("--" :: rest) = some ⟨[], rest⟩ := by
  rw [parse.eq_def]
  simp only [if_true]

theorem parse_flag {a : String} (hlooks : looksLikeOption a = true) (hne : a ≠ "--") (h : arity a = some .flag)
    (rest : List String) : parse arity (a :: rest) = (parse arity rest).map (·.addOption a none) := by
  rw [parse_option hlooks hne, h]

theorem parse_plain_iff {a : String} (h : looksLikeOption a = false) {rest xs : List String}
    {options : List (String × Option String)} :
    parse arity (a :: rest) = some ⟨options, a :: xs⟩ ↔ parse arity rest = some ⟨options, xs⟩ := by
  rw [parse_plain h, Option.map_eq_some_iff]
  constructor
  · intro h
    obtain ⟨c, hc, he⟩ := h
    cases c
    simp only [CommandLine.addArgument, CommandLine.mk.injEq, List.cons.injEq, true_and] at he
    rwa [he.1, he.2] at hc
  · intro h
    exact ⟨_, h, rfl⟩

theorem parse_flag_iff {a : String} (hlooks : looksLikeOption a = true) (hne : a ≠ "--") (h : arity a = some .flag)
    {rest xs : List String} {options : List (String × Option String)} :
    parse arity (a :: rest) = some ⟨(a, none) :: options, xs⟩ ↔ parse arity rest = some ⟨options, xs⟩ := by
  rw [parse_flag hlooks hne h, Option.map_eq_some_iff]
  constructor
  · intro h
    obtain ⟨c, hc, he⟩ := h
    cases c
    simp only [CommandLine.addOption, CommandLine.mk.injEq, List.cons.injEq, true_and] at he
    rwa [he.1, he.2] at hc
  · intro h
    exact ⟨_, h, rfl⟩

theorem parse_value {a : String} (hlooks : looksLikeOption a = true) (hne : a ≠ "--") (h : arity a = some .value)
    (v : String) (rest : List String) : parse arity (a :: v :: rest) =
      if looksLikeOption v then none else (parse arity rest).map (·.addOption a (some v)) := by
  rw [parse_option hlooks hne, h]

/-- What is no option at the head of the list is not among its arguments. -/
theorem arguments_of_option {a : String} {rest : List String} {c : CommandLine} (hlooks : looksLikeOption a = true)
    (hrest : ∀ rest' c', rest'.length ≤ rest.length → parse arity rest' = some c' → List.Sublist c'.arguments rest')
    (h : parse arity (a :: rest) = some c) : List.Sublist c.arguments rest := by
  by_cases hdashes : a = "--"
  · rw [hdashes, parse_dashes] at h
    cases h
    exact List.Sublist.refl rest
  · rw [parse_option hlooks hdashes] at h
    split at h
    · obtain ⟨c', hc', rfl⟩ := Option.map_eq_some_iff.mp h
      exact hrest rest c' (Nat.le_refl _) hc'
    · cases rest with
      | nil => cases h
      | cons v rest =>
        dsimp only at h
        split at h
        · cases h
        · obtain ⟨c', hc', rfl⟩ := Option.map_eq_some_iff.mp h
          exact (hrest rest c' (Nat.le_succ _) hc').cons v
    · split at h
      · obtain ⟨c', hc', rfl⟩ := Option.map_eq_some_iff.mp h
        exact hrest rest c' (Nat.le_refl _) hc'
      · cases h

theorem arguments_sublist_of_length (n : Nat) : ∀ (l : List String) (c : CommandLine), l.length ≤ n →
    parse arity l = some c → List.Sublist c.arguments l := by
  induction n with
  | zero =>
    intro l c hlen h
    cases List.length_eq_zero_iff.mp (Nat.le_zero.mp hlen)
    cases h
    exact List.Sublist.refl []
  | succ n ih =>
    intro l c hlen h
    cases l with
    | nil =>
      cases h
      exact List.Sublist.refl []
    | cons a rest =>
      rw [List.length_cons] at hlen
      cases hlooks : looksLikeOption a with
      | true =>
        refine (arguments_of_option hlooks ?_ h).cons a
        intro rest' c' hle hc'
        exact ih rest' c' (by omega) hc'
      | false =>
        rw [parse_plain hlooks] at h
        obtain ⟨c', hc', rfl⟩ := Option.map_eq_some_iff.mp h
        exact (ih rest c' (by omega) hc').cons_cons a

/-- The arguments are some of what is in the list. -/
theorem arguments_sublist {l : List String} {c : CommandLine} (h : parse arity l = some c) : List.Sublist c.arguments l :=
  arguments_sublist_of_length l.length l c (Nat.le_refl _) h

theorem arguments_sublist_tail {a : String} {rest : List String} {c : CommandLine} (hlooks : looksLikeOption a = true)
    (h : parse arity (a :: rest) = some c) : List.Sublist c.arguments rest :=
  arguments_of_option hlooks (fun _ _ _ => arguments_sublist) h

/-! ## Options with values -/

/-- The options as they stand in the list. -/
def optionTokens (opts : List (String × String)) : List String := opts.flatMap fun o => [o.1, o.2]

/-- Options with values in front are read as such exactly when no value looks like an
    option. -/
theorem parse_options_iff {opts : List (String × String)}
    (hopts : ∀ o ∈ opts, looksLikeOption o.1 = true ∧ o.1 ≠ "--" ∧ arity o.1 = some .value) {rest : List String}
    {c : CommandLine} :
    parse arity (optionTokens opts ++ rest) = some ⟨opts.map (fun o => (o.1, some o.2)) ++ c.options, c.arguments⟩ ↔
      (∀ o ∈ opts, looksLikeOption o.2 = false) ∧ parse arity rest = some c := by
  induction opts with
  | nil => simp [optionTokens]
  | cons o opts ih =>
    obtain ⟨⟨hlooks, hne, harity⟩, hopts⟩ := List.forall_mem_cons.mp hopts
    have htokens : optionTokens (o :: opts) ++ rest = o.1 :: o.2 :: (optionTokens opts ++ rest) := rfl
    rw [htokens, parse_value hlooks hne harity, List.forall_mem_cons, and_assoc, ← ih hopts]
    cases hvalue : looksLikeOption o.2 with
    | true => simp
    | false =>
      simp only [Bool.false_eq_true, if_false, true_and, Option.map_eq_some_iff]
      constructor
      · intro h
        obtain ⟨c', hc', he⟩ := h
        rw [hc']
        cases c'
        simp only [CommandLine.addOption, List.map_cons, List.cons_append, CommandLine.mk.injEq, List.cons.injEq,
          true_and] at he
        rw [he.1, he.2]
      · intro h
        exact ⟨_, h, rfl⟩

/-! ## Arguments -/

/-- Arguments are read as such exactly when none looks like an option. -/
theorem parse_arguments_iff {xs : List String} :
    parse arity xs = some ⟨[], xs⟩ ↔ ∀ x ∈ xs, looksLikeOption x = false := by
  induction xs with
  | nil => simp [parse_nil]
  | cons x xs ih =>
    rw [List.forall_mem_cons, ← ih]
    cases hlooks : looksLikeOption x with
    | true =>
      refine iff_of_false (fun h => ?_) (by simp)
      have hlen := (arguments_sublist_tail hlooks h).length_le
      exact absurd hlen (Nat.not_succ_le_self _)
    | false =>
      rw [parse_plain_iff hlooks]
      simp

/-- A list that is its tail with an element behind has no other element. -/
theorem eq_of_cons_eq_concat {α : Type*} {f : α} {l : List α} {x : α} (h : x :: l = l ++ [f]) : x = f := by
  induction l generalizing x with
  | nil => exact (List.cons.inj h).1
  | cons y l ih =>
    obtain ⟨rfl, htail⟩ := List.cons.inj h
    exact ih htail

theorem parse_arguments_flag_iff {f : String} (hf : looksLikeOption f = true) (hne : f ≠ "--") (harity : arity f = some .flag)
    {xs : List String} :
    parse arity (xs ++ [f]) = some ⟨[(f, none)], xs⟩ ↔ ∀ x ∈ xs, looksLikeOption x = false := by
  induction xs with
  | nil => simp [parse_flag hf hne harity, parse_nil, CommandLine.addOption]
  | cons x xs ih =>
    rw [List.forall_mem_cons, ← ih, List.cons_append]
    cases hlooks : looksLikeOption x with
    | true =>
      refine iff_of_false (fun h => ?_) (by simp)
      have hsub := arguments_sublist_tail hlooks h
      have heq : x :: xs = xs ++ [f] := hsub.eq_of_length (by simp)
      -- so `x` is the flag, which the rest would have to give as an argument
      obtain rfl := eq_of_cons_eq_concat heq
      rw [parse_flag_iff hf hne harity, ← heq, parse_arguments_iff] at h
      rw [h x List.mem_cons_self] at hlooks
      cases hlooks
    | false =>
      rw [parse_plain_iff hlooks]
      simp

/-- One argument with an option and its value behind. -/
theorem parse_argument_value_iff {n x v : String} (hn : looksLikeOption n = true) (hne : n ≠ "--")
    (harity : arity n = some .value) : parse arity [x, n, v] = some ⟨[(n, some v)], [x]⟩ ↔
      looksLikeOption x = false ∧ looksLikeOption v = false := by
  cases hlooks : looksLikeOption x with
  | true =>
    refine iff_of_false (fun h => ?_) (by simp)
    have hrest : ∀ c, parse arity [n, v] = some c → c.arguments = [] := by
      intro c hc
      rw [parse_value hn hne harity] at hc
      split at hc
      · cases hc
      · cases hc
        rfl
    by_cases hdashes : x = "--"
    · rw [hdashes, parse_dashes] at h
      cases h
    · rw [parse_option hlooks hdashes] at h
      split at h
      · obtain ⟨c, hc, he⟩ := Option.map_eq_some_iff.mp h
        cases congrArg CommandLine.options he
      · dsimp only at h
        rw [hn, if_pos rfl] at h
        cases h
      · split at h
        · obtain ⟨c, hc, he⟩ := Option.map_eq_some_iff.mp h
          have harguments := congrArg CommandLine.arguments he
          simp [CommandLine.addOption, hrest c hc] at harguments
        · cases h
  | false =>
    rw [parse_plain hlooks, parse_value hn hne harity, parse_nil]
    cases looksLikeOption v <;> simp [CommandLine.addArgument, CommandLine.addOption]

end Parse

end CodeQuery.Data
