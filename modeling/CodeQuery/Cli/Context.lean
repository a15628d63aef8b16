/-
  CodeQuery.Cli.Context — the enclosing chain of the context command
  (`codequery-cli/src/commands/context.rs`).

  The walk goes below a symbol only where its lines contain the asked one, and keeps the
  longest chain so far; of several chains of one length the first stays. Siblings may
  overlap: the walk goes into each of them.

  Proved of every forest and line (`findEnclosingChain_longest`): what is found is a
  chain from a top-level symbol, child by child, each containing the line; none is
  longer; and it is empty only where no top-level symbol contains the line.
-/

import CodeQuery.Core.Symbol

namespace CodeQuery.Cli.Context

open CodeQuery.Core

section Walk

variable (targetLine : Nat)

mutual

/-- The body of the loop of `walk_symbols`: the best chain after one symbol. -/
def walkSymbol (currentChain bestChain : List Symbol) : Symbol → List Symbol
  | symbol@⟨_, _, _, line, _, endLine, _, children, _, _, _⟩ =>
    if line ≤ targetLine ∧ targetLine ≤ endLine then
      let currentChain := currentChain ++ [symbol]
      let bestChain := if bestChain.length < currentChain.length then currentChain else bestChain
      walkSymbols currentChain bestChain children
    else bestChain

def walkSymbols (currentChain bestChain : List Symbol) : List Symbol → List Symbol
  | [] => bestChain
  | symbol :: symbols => walkSymbols currentChain (walkSymbol currentChain bestChain symbol) symbols

end

/-- From the outermost symbol to the innermost. -/
def findEnclosingChain (symbols : List Symbol) : List Symbol := walkSymbols targetLine [] [] symbols

/-! ## Chains -/

/-- The symbol's lines contain the target. -/
def Contains (symbol : Symbol) : Prop := symbol.line ≤ targetLine ∧ targetLine ≤ symbol.endLine

/-- A chain of symbols that contain the line: one of these symbols, one of its children,
    and so on down. -/
inductive Chain : List Symbol → List Symbol → Prop where
  | nil (symbols : List Symbol) : Chain symbols []
  | cons {symbols : List Symbol} {symbol : Symbol} {chain : List Symbol} :
      symbol ∈ symbols → Contains targetLine symbol → Chain symbol.children chain → Chain symbols (symbol :: chain)

end Walk

section Longest

variable {targetLine : Nat}

theorem Chain.mono {symbols symbols' chain : List Symbol} (hsub : symbols ⊆ symbols') (h : Chain targetLine symbols chain) :
    Chain targetLine symbols' chain := by
  cases h with
  | nil => exact .nil _
  | cons hmem hcontains hrest => exact .cons (hsub hmem) hcontains hrest

variable (targetLine) in
/-- What a walk leaves as the best chain: the one before it, or the current one with a
    chain of its symbols behind. Neither that before it nor any of these is longer. -/
structure Walked (symbols currentChain bestChain result : List Symbol) : Prop where
  source : result = bestChain ∨ ∃ chain, chain ≠ [] ∧ Chain targetLine symbols chain ∧ result = currentChain ++ chain
  best_le : bestChain.length ≤ result.length
  longest : ∀ chain, chain ≠ [] → Chain targetLine symbols chain → (currentChain ++ chain).length ≤ result.length

theorem Walked.nil (currentChain bestChain : List Symbol) :
    Walked targetLine [] currentChain bestChain bestChain where
  source := .inl rfl
  best_le := le_rfl
  longest chain hne h := by
    cases h with
    | nil => exact absurd rfl hne
    | cons hmem _ _ => cases hmem

theorem Walked.skip {symbol : Symbol} (currentChain bestChain : List Symbol) (hout : ¬ Contains targetLine symbol) :
    Walked targetLine [symbol] currentChain bestChain bestChain where
  source := .inl rfl
  best_le := le_rfl
  longest chain hne h := by
    cases h with
    | nil => exact absurd rfl hne
    | cons hmem hcontains _ =>
      rw [List.mem_singleton.mp hmem] at hcontains
      exact absurd hcontains hout

/-- The walk of a containing symbol: the current chain with it, then its children. -/
theorem Walked.enter {symbol : Symbol} {currentChain bestChain result : List Symbol} (hin : Contains targetLine symbol)
    (h : Walked targetLine symbol.children (currentChain ++ [symbol])
      (if bestChain.length < (currentChain ++ [symbol]).length then currentChain ++ [symbol] else bestChain) result) :
    Walked targetLine [symbol] currentChain bestChain result := by
  obtain ⟨hsource, hbest, hlongest⟩ := h
  have hmem : symbol ∈ [symbol] := List.mem_singleton_self symbol
  refine ⟨?_, ?_, ?_⟩
  · rcases hsource with hbefore | ⟨chain, -, hchain, hresult⟩
    · by_cases hlonger : bestChain.length < (currentChain ++ [symbol]).length
      · rw [if_pos hlonger] at hbefore
        exact .inr ⟨[symbol], List.cons_ne_nil _ _, .cons hmem hin (.nil _), hbefore⟩
      · rw [if_neg hlonger] at hbefore
        exact .inl hbefore
    · refine .inr ⟨symbol :: chain, List.cons_ne_nil _ _, .cons hmem hin hchain, ?_⟩
      rw [hresult, List.append_assoc, List.singleton_append]
  · split at hbest
    · omega
    · exact hbest
  · intro chain hne hchain
    cases hchain with
    | nil => exact absurd rfl hne
    | @cons _ own rest hown _ hrest =>
      rw [List.mem_singleton.mp hown] at hrest ⊢
      by_cases hend : rest = []
      · rw [hend]
        split at hbest
        · exact hbest
        · omega
      · have hle := hlongest rest hend hrest
        rwa [List.append_assoc, List.singleton_append] at hle

/-- One symbol, then those after it. -/
theorem Walked.trans {symbol : Symbol} {symbols currentChain bestChain middle result : List Symbol}
    (hfirst : Walked targetLine [symbol] currentChain bestChain middle)
    (hrest : Walked targetLine symbols currentChain middle result) :
    Walked targetLine (symbol :: symbols) currentChain bestChain result := by
  refine ⟨?_, hfirst.best_le.trans hrest.best_le, ?_⟩
  · rcases hrest.source with hmiddle | ⟨chain, hne, hchain, hresult⟩
    · rw [hmiddle]
      rcases hfirst.source with hbefore | ⟨chain, hne, hchain, hresult⟩
      · exact .inl hbefore
      · exact .inr ⟨chain, hne, hchain.mono (by simp), hresult⟩
    · exact .inr ⟨chain, hne, hchain.mono (List.subset_cons_self _ _), hresult⟩
  · intro chain hne hchain
    cases hchain with
    | nil => exact absurd rfl hne
    | cons hmem hcontains hbelow =>
      rcases List.mem_cons.mp hmem with rfl | hmem
      · have hlongest := hfirst.longest _ hne (.cons (List.mem_singleton_self _) hcontains hbelow)
        exact hlongest.trans hrest.best_le
      · exact hrest.longest _ hne (.cons hmem hcontains hbelow)

mutual

theorem walkSymbol_walked (currentChain bestChain : List Symbol) : ∀ symbol,
    Walked targetLine [symbol] currentChain bestChain
      (walkSymbol targetLine currentChain bestChain symbol)
  | ⟨name, kind, file, line, column, endLine, visibility, children, doc, body, signature⟩ => by
    rw [walkSymbol]
    by_cases hin : line ≤ targetLine ∧ targetLine ≤ endLine
    · rw [if_pos hin]
      exact .enter hin (walkSymbols_walked _ _ children)
    · rw [if_neg hin]
      exact .skip _ _ hin

theorem walkSymbols_walked (currentChain bestChain : List Symbol) : ∀ symbols,
    Walked targetLine symbols currentChain bestChain
      (walkSymbols targetLine currentChain bestChain symbols)
  | [] => .nil _ _
  | symbol :: symbols => by
    rw [walkSymbols]
    exact .trans (walkSymbol_walked _ _ symbol) (walkSymbols_walked _ _ symbols)

end

/-- What is found is a chain from the top down. -/
theorem findEnclosingChain_chain (symbols : List Symbol) :
    Chain targetLine symbols (findEnclosingChain targetLine symbols) := by
  unfold findEnclosingChain
  rcases (@walkSymbols_walked targetLine [] [] symbols).source with hnone | ⟨chain, -, hchain, hresult⟩
  · rw [hnone]
    exact .nil _
  · rw [hresult]
    exact hchain

/-- No chain is longer. -/
theorem length_le_findEnclosingChain {symbols chain : List Symbol} (h : Chain targetLine symbols chain) :
    chain.length ≤ (findEnclosingChain targetLine symbols).length := by
  by_cases hne : chain = []
  · rw [hne]
    exact Nat.zero_le _
  · exact (@walkSymbols_walked targetLine [] [] symbols).longest chain hne h

/-- For every forest and line: the result is a chain of containing symbols from the top
    down, as long as any, and empty only where no top-level symbol contains the line. -/
theorem findEnclosingChain_longest (symbols : List Symbol) (targetLine : Nat) :
    Chain targetLine symbols (findEnclosingChain targetLine symbols) ∧
      (∀ chain, Chain targetLine symbols chain → chain.length ≤ (findEnclosingChain targetLine symbols).length) ∧
      (findEnclosingChain targetLine symbols = [] ↔ ∀ symbol ∈ symbols, ¬ Contains targetLine symbol) := by
  have hchain : Chain targetLine symbols (findEnclosingChain targetLine symbols) := findEnclosingChain_chain symbols
  refine ⟨hchain, fun chain => length_le_findEnclosingChain, fun hempty symbol hmem hin => ?_, fun hnone => ?_⟩
  · have hone := length_le_findEnclosingChain (.cons hmem hin (.nil _))
    rw [hempty] at hone
    exact absurd hone (Nat.not_succ_le_zero 0)
  · generalize findEnclosingChain targetLine symbols = chain at hchain
    cases hchain with
    | nil => rfl
    | cons hmem hin _ => exact absurd hin (hnone _ hmem)

end Longest

end CodeQuery.Cli.Context
