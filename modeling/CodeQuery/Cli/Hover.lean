/-
  CodeQuery.Cli.Hover — the enclosing symbol of the hover command
  (`codequery-cli/src/commands/hover.rs`), and that of context (see
  `CodeQuery.Cli.Context`).

  Both hand out references into the forest: a symbol and the place it stands at. Hover
  overwrites what it found with every later symbol that contains the line, deeper or
  not; context keeps the first of the longest chains.

  - `hover_context_agree_iff`: they name the same symbol exactly when, on the way down
    through the last symbol of each level that contains the line, none before it has as
    long a chain below it.
  - `a_later_symbol_hides_a_deeper_one`: a method and a function on one line.
-/

import CodeQuery.Cli.Context

namespace CodeQuery.Cli.Hover

open CodeQuery.Core CodeQuery.Cli.Context

/-- Where a symbol stands in a forest: the index of each sibling on the way down. -/
abbrev Place := List Nat

/-- `&'a Symbol`. -/
structure SymbolRef where
  place : Place
  symbol : Symbol

/-! ## The search of hover -/

section Search

variable (targetLine : Nat)

mutual

/-- The body of the loop of `find_enclosing_recursive`. -/
def findEnclosingAt (place : Place) (best : Option SymbolRef) : Symbol → Option SymbolRef
  | symbol@⟨_, _, _, line, _, endLine, _, children, _, _, _⟩ =>
    if line ≤ targetLine ∧ targetLine ≤ endLine then findEnclosingRecursive place 0 (some ⟨place, symbol⟩) children
    else best

/-- The siblings from an index on. -/
def findEnclosingRecursive (above : Place) (index : Nat) (best : Option SymbolRef) : List Symbol → Option SymbolRef
  | [] => best
  | symbol :: symbols =>
    findEnclosingRecursive above (index + 1) (findEnclosingAt (above ++ [index]) best symbol) symbols

end

def findEnclosingSymbol (symbols : List Symbol) : Option SymbolRef := findEnclosingRecursive targetLine [] 0 none symbols

/-! ## The search of context, with references -/

/-- The first of the longest. -/
def longer {α : Type} (best chain : List α) : List α := if best.length < chain.length then chain else best

mutual

def chainAt (place : Place) : Symbol → List SymbolRef
  | symbol@⟨_, _, _, line, _, endLine, _, children, _, _, _⟩ =>
    if line ≤ targetLine ∧ targetLine ≤ endLine then ⟨place, symbol⟩ :: chainFrom place 0 children else []

def chainFrom (above : Place) (index : Nat) : List Symbol → List SymbolRef
  | [] => []
  | symbol :: symbols => longer (chainAt (above ++ [index]) symbol) (chainFrom above (index + 1) symbols)

end

/-- The chain of context, with the place of each symbol on it. -/
def enclosingChain (symbols : List Symbol) : List SymbolRef := chainFrom targetLine [] 0 symbols

end Search

section Longer

variable {α β : Type}

theorem longer_assoc (a b c : List α) : longer (longer a b) c = longer a (longer b c) := by
  unfold longer
  split_ifs <;> first | rfl | omega

theorem longer_append (pre a b : List α) : longer (pre ++ a) (pre ++ b) = pre ++ longer a b := by
  unfold longer
  simp only [List.length_append, Nat.add_lt_add_iff_left]
  split <;> rfl

theorem longer_map (f : α → β) (a b : List α) : longer (a.map f) (b.map f) = (longer a b).map f := by
  unfold longer
  simp only [List.length_map]
  split <;> rfl

theorem longer_of_le {a b : List α} (h : b.length ≤ a.length) : longer a b = a := if_neg (Nat.not_lt_of_le h)

theorem length_longer (a b : List α) : (longer a b).length = max a.length b.length := by
  unfold longer
  split <;> omega

theorem length_le_longer_left (a b : List α) : a.length ≤ (longer a b).length := by
  rw [length_longer]
  exact Nat.le_max_left _ _

theorem length_le_longer_right (a b : List α) : b.length ≤ (longer a b).length := by
  rw [length_longer]
  exact Nat.le_max_right _ _

theorem longer_self_append (a b : List α) : longer a (a ++ b) = a ++ b := by
  unfold longer
  split
  · rfl
  · rename_i hlt
    rw [List.length_append] at hlt
    rw [List.eq_nil_of_length_eq_zero (show b.length = 0 by omega), List.append_nil]

end Longer

section Chains

variable {targetLine : Nat}

theorem chainAt_of_contains {place : Place} {symbol : Symbol} (h : Contains targetLine symbol) :
    chainAt targetLine place symbol = ⟨place, symbol⟩ :: chainFrom targetLine place 0 symbol.children := by
  cases symbol
  rw [chainAt]
  exact if_pos h

theorem chainAt_of_not_contains {place : Place} {symbol : Symbol} (h : ¬ Contains targetLine symbol) :
    chainAt targetLine place symbol = [] := by
  cases symbol
  rw [chainAt]
  exact if_neg h

mutual

theorem walkSymbol_eq (place : Place) {currentChain bestChain : List Symbol} (hle : currentChain.length ≤ bestChain.length) :
    ∀ symbol, walkSymbol targetLine currentChain bestChain symbol =
      longer bestChain (currentChain ++ (chainAt targetLine place symbol).map SymbolRef.symbol)
  | ⟨name, kind, file, line, column, endLine, visibility, children, doc, body, signature⟩ => by
    rw [walkSymbol, chainAt]
    by_cases hin : line ≤ targetLine ∧ targetLine ≤ endLine
    · rw [if_pos hin, if_pos hin]
      change walkSymbols targetLine _ (longer bestChain _) children = _
      rw [walkSymbols_eq place 0 (length_le_longer_right _ _) children, longer_assoc, longer_self_append,
        List.append_assoc]
      rfl
    · rw [if_neg hin, if_neg hin, List.map_nil, List.append_nil, longer_of_le hle]

/-- The walk keeps the longer of the best chain and the first of the longest here. -/
theorem walkSymbols_eq (above : Place) (index : Nat) {currentChain bestChain : List Symbol}
    (hle : currentChain.length ≤ bestChain.length) : ∀ symbols,
    walkSymbols targetLine currentChain bestChain symbols =
      longer bestChain (currentChain ++ (chainFrom targetLine above index symbols).map SymbolRef.symbol)
  | [] => by
    rw [walkSymbols, chainFrom, List.map_nil, List.append_nil, longer_of_le hle]
  | symbol :: symbols => by
    have hfirst := walkSymbol_eq (above ++ [index]) hle symbol
    rw [walkSymbols, walkSymbols_eq above (index + 1) (hfirst ▸ hle.trans (length_le_longer_left _ _)) symbols, hfirst,
      longer_assoc, longer_append, longer_map, chainFrom]

end

/-- Without the places it is the chain of context. -/
theorem map_chainFrom (above : Place) (index : Nat) (symbols : List Symbol) :
    (chainFrom targetLine above index symbols).map SymbolRef.symbol = findEnclosingChain targetLine symbols := by
  rw [findEnclosingChain, walkSymbols_eq above index le_rfl, List.nil_append]
  unfold longer
  split
  · rfl
  · rename_i hlt
    exact List.eq_nil_of_length_eq_zero (by simpa using hlt)

theorem length_chainFrom (above : Place) (index : Nat) (symbols : List Symbol) :
    (chainFrom targetLine above index symbols).length = (findEnclosingChain targetLine symbols).length := by
  rw [← map_chainFrom above index, List.length_map]

theorem length_chainAt_le {symbols : List Symbol} {symbol : Symbol} (hmem : symbol ∈ symbols) (hin : Contains targetLine symbol)
    (above : Place) (index : Nat) :
    (findEnclosingChain targetLine symbol.children).length + 1 ≤ (chainFrom targetLine above index symbols).length := by
  have hle := length_le_findEnclosingChain (.cons hmem hin (@findEnclosingChain_chain targetLine symbol.children))
  rwa [← length_chainFrom above index] at hle

/-- Some chain is as long as the longest, and starts at a symbol that contains the line. -/
theorem exists_length_chainFrom {symbols : List Symbol} {above : Place} {index : Nat}
    (hne : chainFrom targetLine above index symbols ≠ []) :
    ∃ symbol ∈ symbols, Contains targetLine symbol ∧ (chainFrom targetLine above index symbols).length ≤
      (findEnclosingChain targetLine symbol.children).length + 1 := by
  have hchain := @findEnclosingChain_chain targetLine symbols
  rw [length_chainFrom]
  rw [← List.length_pos_iff, length_chainFrom, List.length_pos_iff] at hne
  generalize findEnclosingChain targetLine symbols = chain at hchain hne
  cases hchain with
  | nil => exact absurd rfl hne
  | cons hmem hin hrest => exact ⟨_, hmem, hin, Nat.succ_le_succ (length_le_findEnclosingChain hrest)⟩

theorem chainFrom_eq_nil_iff {above : Place} {index : Nat} {symbols : List Symbol} :
    chainFrom targetLine above index symbols = [] ↔ ∀ symbol ∈ symbols, ¬ Contains targetLine symbol := by
  constructor
  · intro hnil symbol hmem hin
    have hle := length_chainAt_le hmem hin above index
    rw [hnil] at hle
    exact absurd hle (Nat.not_succ_le_zero _)
  · intro hnone
    by_contra hne
    obtain ⟨symbol, hmem, hin, -⟩ := exists_length_chainFrom hne
    exact hnone symbol hmem hin

end Chains

/-! ## What hover finds -/

section Found

variable {targetLine : Nat}

mutual

theorem findEnclosingAt_or (place : Place) (best : Option SymbolRef) : ∀ symbol,
    findEnclosingAt targetLine place best symbol = (findEnclosingAt targetLine place none symbol).or best
  | ⟨name, kind, file, line, column, endLine, visibility, children, doc, body, signature⟩ => by
    rw [findEnclosingAt, findEnclosingAt]
    by_cases hin : line ≤ targetLine ∧ targetLine ≤ endLine
    · rw [if_pos hin, if_pos hin, findEnclosingRecursive_or place 0 (some _) children, Option.or_assoc, Option.some_or]
    · rw [if_neg hin, if_neg hin, Option.none_or]

/-- What was found before stays only where nothing is found. -/
theorem findEnclosingRecursive_or (above : Place) (index : Nat) (best : Option SymbolRef) : ∀ symbols,
    findEnclosingRecursive targetLine above index best symbols =
      (findEnclosingRecursive targetLine above index none symbols).or best
  | [] => by rw [findEnclosingRecursive, findEnclosingRecursive, Option.none_or]
  | symbol :: symbols => by
    rw [findEnclosingRecursive, findEnclosingRecursive,
      findEnclosingRecursive_or above (index + 1) (findEnclosingAt targetLine (above ++ [index]) best symbol) symbols,
      findEnclosingRecursive_or above (index + 1) (findEnclosingAt targetLine (above ++ [index]) none symbol) symbols,
      findEnclosingAt_or (above ++ [index]) best symbol, Option.or_assoc]

end

theorem findEnclosingRecursive_cons (above : Place) (index : Nat) (symbol : Symbol) (symbols : List Symbol) :
    findEnclosingRecursive targetLine above index none (symbol :: symbols) =
      (findEnclosingRecursive targetLine above (index + 1) none symbols).or
        (findEnclosingAt targetLine (above ++ [index]) none symbol) := by
  rw [findEnclosingRecursive, findEnclosingRecursive_or]

theorem findEnclosingAt_of_contains {place : Place} {symbol : Symbol} (h : Contains targetLine symbol) :
    findEnclosingAt targetLine place none symbol =
      (findEnclosingRecursive targetLine place 0 none symbol.children).or (some ⟨place, symbol⟩) := by
  cases symbol
  rw [findEnclosingAt, ← findEnclosingRecursive_or]
  exact if_pos h

theorem findEnclosingAt_of_not_contains {place : Place} {symbol : Symbol} (h : ¬ Contains targetLine symbol) :
    findEnclosingAt targetLine place none symbol = none := by
  cases symbol
  rw [findEnclosingAt]
  exact if_neg h

theorem findEnclosingRecursive_eq_none_iff {above : Place} {index : Nat} {symbols : List Symbol} :
    findEnclosingRecursive targetLine above index none symbols = none ↔ ∀ symbol ∈ symbols, ¬ Contains targetLine symbol := by
  induction symbols generalizing index with
  | nil => simp [findEnclosingRecursive]
  | cons symbol symbols ih =>
    rw [findEnclosingRecursive_cons, Option.or_eq_none_iff, ih, List.forall_mem_cons, and_comm]
    by_cases hin : Contains targetLine symbol
    · simp [findEnclosingAt_of_contains hin, hin]
    · simp [findEnclosingAt_of_not_contains hin, hin]

end Found

/-! ## Places -/

section Places

variable {targetLine : Nat}

/-- Among these siblings, or below one of them. -/
def Within (above : Place) (index : Nat) (place : Place) : Prop := ∃ i rest, index ≤ i ∧ place = above ++ i :: rest

theorem Within.succ {above : Place} {index : Nat} {place : Place} (h : Within above (index + 1) place) :
    Within above index place := by
  obtain ⟨i, rest, hle, hplace⟩ := h
  exact ⟨i, rest, Nat.le_of_succ_le hle, hplace⟩

/-- A place below a sibling is none of the later ones. -/
theorem Within.not_below {above : Place} {index : Nat} {place : Place} (h : Within above (index + 1) place) :
    ¬ above ++ [index] <+: place := by
  intro hbelow
  obtain ⟨i, rest, hle, rfl⟩ := h
  obtain ⟨more, hmore⟩ := hbelow
  rw [List.append_assoc, List.append_cancel_left_eq, List.singleton_append, List.cons.injEq] at hmore
  omega

mutual

theorem place_chainAt (place : Place) : ∀ symbol, ∀ r ∈ chainAt targetLine place symbol, place <+: r.place
  | ⟨name, kind, file, line, column, endLine, visibility, children, doc, body, signature⟩, r, hr => by
    rw [chainAt] at hr
    split at hr
    · rcases List.mem_cons.mp hr with rfl | hr
      · exact List.prefix_rfl
      · obtain ⟨i, rest, -, hplace⟩ := place_chainFrom place 0 children r hr
        exact ⟨i :: rest, hplace.symm⟩
    · cases hr

theorem place_chainFrom (above : Place) (index : Nat) : ∀ symbols, ∀ r ∈ chainFrom targetLine above index symbols,
    Within above index r.place
  | [], r, hr => by cases hr
  | symbol :: symbols, r, hr => by
    rw [chainFrom, longer] at hr
    split at hr
    · exact (place_chainFrom above (index + 1) symbols r hr).succ
    · obtain ⟨rest, hrest⟩ := place_chainAt (above ++ [index]) symbol r hr
      exact ⟨index, rest, le_rfl, by rw [← hrest, List.append_assoc, List.singleton_append]⟩

end

mutual

theorem place_findEnclosingAt (place : Place) : ∀ symbol, ∀ r ∈ findEnclosingAt targetLine place none symbol,
    place <+: r.place
  | ⟨name, kind, file, line, column, endLine, visibility, children, doc, body, signature⟩, r, hr => by
    rw [findEnclosingAt] at hr
    split at hr
    · rw [findEnclosingRecursive_or, Option.mem_def, Option.or_eq_some_iff] at hr
      rcases hr with hr | ⟨-, hr⟩
      · obtain ⟨i, rest, -, hplace⟩ := place_findEnclosingRecursive place 0 children r hr
        exact ⟨i :: rest, hplace.symm⟩
      · cases hr
        exact List.prefix_rfl
    · cases hr

theorem place_findEnclosingRecursive (above : Place) (index : Nat) : ∀ symbols,
    ∀ r ∈ findEnclosingRecursive targetLine above index none symbols, Within above index r.place
  | [], r, hr => by cases hr
  | symbol :: symbols, r, hr => by
    rw [findEnclosingRecursive_cons, Option.mem_def, Option.or_eq_some_iff] at hr
    rcases hr with hr | ⟨-, hr⟩
    · exact (place_findEnclosingRecursive above (index + 1) symbols r hr).succ
    · obtain ⟨rest, hrest⟩ := place_findEnclosingAt (above ++ [index]) symbol r hr
      exact ⟨index, rest, le_rfl, by rw [← hrest, List.append_assoc, List.singleton_append]⟩

end

end Places

/-! ## Agreement -/

section Agreement

variable (targetLine : Nat)

/-- Each chain below the one symbol is shorter than some chain below the other. -/
def Shallower (earlier symbol : Symbol) : Prop :=
  ∀ chain, Chain targetLine earlier.children chain → ∃ deeper, Chain targetLine symbol.children deeper ∧
    chain.length < deeper.length

/-- Nobody contains the line, or the last who does is deeper than those before, and so it
    is among its children. -/
inductive LastDeepest : List Symbol → Prop where
  | nobody {symbols : List Symbol} : (∀ symbol ∈ symbols, ¬ Contains targetLine symbol) → LastDeepest symbols
  | last {before after : List Symbol} {symbol : Symbol} : Contains targetLine symbol →
      (∀ later ∈ after, ¬ Contains targetLine later) →
      (∀ earlier ∈ before, Contains targetLine earlier → Shallower targetLine earlier symbol) →
      LastDeepest symbol.children → LastDeepest (before ++ symbol :: after)

variable {targetLine}

theorem shallower_iff {earlier symbol : Symbol} : Shallower targetLine earlier symbol ↔
    (findEnclosingChain targetLine earlier.children).length < (findEnclosingChain targetLine symbol.children).length := by
  constructor
  · intro h
    obtain ⟨deeper, hdeeper, hlt⟩ := h _ (findEnclosingChain_chain _)
    exact hlt.trans_le (length_le_findEnclosingChain hdeeper)
  · intro h chain hchain
    exact ⟨_, findEnclosingChain_chain _, (length_le_findEnclosingChain hchain).trans_lt h⟩

theorem length_chainAt {place : Place} {symbol : Symbol} (h : Contains targetLine symbol) :
    (chainAt targetLine place symbol).length = (findEnclosingChain targetLine symbol.children).length + 1 := by
  rw [chainAt_of_contains h, List.length_cons, length_chainFrom]

/-- In front of someone who contains the line, a symbol is shallower than the last one. -/
theorem LastDeepest.tail {symbol : Symbol} {symbols : List Symbol} {above : Place} {index : Nat}
    (h : LastDeepest targetLine (symbol :: symbols)) (hsome : chainFrom targetLine above (index + 1) symbols ≠ []) :
    LastDeepest targetLine symbols ∧
      (chainAt targetLine (above ++ [index]) symbol).length < (chainFrom targetLine above (index + 1) symbols).length := by
  generalize hall : symbol :: symbols = all at h
  cases h with
  | nobody hnone =>
    rw [← hall, List.forall_mem_cons] at hnone
    exact absurd (chainFrom_eq_nil_iff.mpr hnone.2) hsome
  | @last before after last hin hafter hbefore hbelow =>
    cases before with
    | nil =>
      obtain ⟨rfl, rfl⟩ := List.cons.inj hall
      exact absurd (chainFrom_eq_nil_iff.mpr hafter) hsome
    | cons first before =>
      obtain ⟨rfl, rfl⟩ := List.cons.inj hall
      rw [List.forall_mem_cons] at hbefore
      refine ⟨.last hin hafter hbefore.2 hbelow, ?_⟩
      by_cases hfirst : Contains targetLine symbol
      · have hmem : last ∈ before ++ last :: after := List.mem_append_right before List.mem_cons_self
        have hle := length_chainAt_le hmem hin above (index + 1)
        rw [length_chainAt hfirst]
        exact (Nat.succ_lt_succ (shallower_iff.mp (hbefore.1 hfirst))).trans_le hle
      · rw [chainAt_of_not_contains hfirst]
        exact List.length_pos_iff.mpr hsome

/-- The longest of the other chains starts at the last one, so a shorter one in front of
    them is of a shallower symbol. -/
theorem LastDeepest.cons {symbol : Symbol} {symbols : List Symbol} {above : Place} {index : Nat}
    (h : LastDeepest targetLine symbols) (hsome : chainFrom targetLine above (index + 1) symbols ≠ [])
    (hlt : (chainAt targetLine (above ++ [index]) symbol).length < (chainFrom targetLine above (index + 1) symbols).length) :
    LastDeepest targetLine (symbol :: symbols) := by
  cases h with
  | nobody hnone => exact absurd (chainFrom_eq_nil_iff.mpr hnone) hsome
  | @last before after last hin hafter hbefore hbelow =>
    refine @LastDeepest.last _ (symbol :: before) _ _ hin hafter ?_ hbelow
    rw [List.forall_mem_cons]
    refine ⟨fun hfirst => shallower_iff.mpr ?_, hbefore⟩
    obtain ⟨other, hother, hotherIn, hle⟩ := exists_length_chainFrom hsome
    rw [length_chainAt hfirst] at hlt
    rcases List.mem_append.mp hother with hother | hother
    · have := shallower_iff.mp (hbefore other hother hotherIn)
      omega
    · rcases List.mem_cons.mp hother with rfl | hother
      · omega
      · exact absurd hotherIn (hafter other hother)

/-- Nobody behind it contains the line. -/
theorem lastDeepest_cons_of_last {symbol : Symbol} {symbols : List Symbol} (hin : Contains targetLine symbol)
    (hafter : ∀ later ∈ symbols, ¬ Contains targetLine later) :
    LastDeepest targetLine (symbol :: symbols) ↔ LastDeepest targetLine symbol.children := by
  constructor
  · intro h
    generalize hall : symbol :: symbols = all at h
    cases h with
    | nobody hnone => exact absurd hin (hnone symbol (hall ▸ List.mem_cons_self))
    | @last before after last hlast _ _ hbelow =>
      cases before with
      | nil =>
        obtain ⟨rfl, -⟩ := List.cons.inj hall
        exact hbelow
      | cons first before =>
        obtain ⟨-, rfl⟩ := List.cons.inj hall
        exact absurd hlast (hafter last (List.mem_append_right before List.mem_cons_self))
  · intro h
    exact @LastDeepest.last _ [] symbols symbol hin hafter (fun _ hmem => absurd hmem List.not_mem_nil) h

mutual

theorem agreeAt_iff (place : Place) : ∀ symbol, Contains targetLine symbol →
    (findEnclosingAt targetLine place none symbol = (chainAt targetLine place symbol).getLast? ↔
      LastDeepest targetLine symbol.children)
  | ⟨name, kind, file, line, column, endLine, visibility, children, doc, body, signature⟩, hin => by
    have hnone : findEnclosingRecursive targetLine place 0 none children = none ↔
        (chainFrom targetLine place 0 children).getLast? = none := by
      rw [findEnclosingRecursive_eq_none_iff, List.getLast?_eq_none_iff, chainFrom_eq_nil_iff]
    have hbelow := agreeFrom_iff place 0 children
    rw [findEnclosingAt_of_contains hin, chainAt_of_contains hin, List.getLast?_cons, ← hbelow]
    generalize findEnclosingRecursive targetLine place 0 none children = found at hnone
    generalize (chainFrom targetLine place 0 children).getLast? = last at hnone
    cases found <;> cases last <;> simp_all

theorem agreeFrom_iff (above : Place) (index : Nat) : ∀ symbols,
    (findEnclosingRecursive targetLine above index none symbols = (chainFrom targetLine above index symbols).getLast? ↔
      LastDeepest targetLine symbols)
  | [] => iff_of_true rfl (.nobody fun _ h => absurd h List.not_mem_nil)
  | symbol :: symbols => by
    rw [findEnclosingRecursive_cons, chainFrom]
    by_cases hsome : chainFrom targetLine above (index + 1) symbols = []
    · -- the symbol is the last that can contain the line
      have hafter := chainFrom_eq_nil_iff.mp hsome
      rw [hsome, findEnclosingRecursive_eq_none_iff.mpr hafter, Option.none_or, longer_of_le (Nat.zero_le _)]
      by_cases hin : Contains targetLine symbol
      · rw [agreeAt_iff (above ++ [index]) symbol hin, lastDeepest_cons_of_last hin hafter]
      · rw [findEnclosingAt_of_not_contains hin, chainAt_of_not_contains hin]
        exact iff_of_true rfl (.nobody (List.forall_mem_cons.mpr ⟨hin, hafter⟩))
    · -- hover finds somebody behind the symbol
      obtain ⟨r, hr⟩ : ∃ r, findEnclosingRecursive targetLine above (index + 1) none symbols = some r := by
        rw [← Option.ne_none_iff_exists', Ne, findEnclosingRecursive_eq_none_iff, ← chainFrom_eq_nil_iff]
        exact hsome
      have hiff : LastDeepest targetLine (symbol :: symbols) ↔ LastDeepest targetLine symbols ∧
          (chainAt targetLine (above ++ [index]) symbol).length < (chainFrom targetLine above (index + 1) symbols).length :=
        ⟨fun h => h.tail hsome, fun h => h.1.cons hsome h.2⟩
      rw [hiff, ← agreeFrom_iff above (index + 1) symbols, hr, Option.some_or]
      by_cases hlt : (chainAt targetLine (above ++ [index]) symbol).length <
          (chainFrom targetLine above (index + 1) symbols).length
      · rw [longer, if_pos hlt, and_iff_left hlt]
      · rw [longer, if_neg hlt]
        refine iff_of_false (fun heq => ?_) fun h => hlt h.2
        have hbehind := place_findEnclosingRecursive above (index + 1) symbols r hr
        exact hbehind.not_below (place_chainAt _ symbol r (List.mem_of_getLast? heq.symm))

end

/-- For every forest and line, hover's symbol is the last of context's chain, and none
    exactly when that is empty, if and only if the last symbol of each level that
    contains the line is deeper than those before it. -/
theorem hover_context_agree_iff (symbols : List Symbol) (targetLine : Nat) :
    (enclosingChain targetLine symbols).map SymbolRef.symbol = findEnclosingChain targetLine symbols ∧
      (findEnclosingSymbol targetLine symbols = (enclosingChain targetLine symbols).getLast? ↔
        LastDeepest targetLine symbols) := ⟨map_chainFrom [] 0 symbols, agreeFrom_iff [] 0 symbols⟩

/-! ## A method and a function on one line -/

/-- A function on a line, with those in it. -/
def onLine (name : String) (column : Nat) (children : List Symbol) : Symbol where
  name := Text.str name
  kind := .function
  file := [.normal "a.rs"]
  line := 1
  column := column
  endLine := 1
  visibility := .private_
  children := children
  doc := none
  body := none
  signature := none

/-- `impl S { fn a() {} } fn b() {}`. -/
def oneLine : List Symbol := [{ onLine "S" 0 [onLine "a" 9 []] with kind := .impl }, onLine "b" 21 []]

/-- Hover names the function, context the method. -/
theorem a_later_symbol_hides_a_deeper_one :
    (findEnclosingSymbol 1 oneLine).map (·.symbol.name) = some (Text.str "b") ∧
      (findEnclosingChain 1 oneLine).map (·.name) = [Text.str "S", Text.str "a"] ∧
      findEnclosingSymbol 1 oneLine ≠ (enclosingChain 1 oneLine).getLast? := by
  refine ⟨by decide, by decide, fun heq => ?_⟩
  have hname := congrArg (Option.map (·.symbol.name)) heq
  exact absurd hname (by decide)

end Agreement

end CodeQuery.Cli.Hover
