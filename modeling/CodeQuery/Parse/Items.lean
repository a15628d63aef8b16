/-
  CodeQuery.Parse.Items — what stands in a file and what an extractor yields of it.

  An item is known by its name and its range, a symbol likewise; a chain is an item
  behind those that enclose it, the outermost first. An extractor that yields some of the
  chains of a tree yields all of them exactly when it leaves none out
  (`map_filter_eq_map_iff`).
-/

import CodeQuery.Index.Extracted

namespace CodeQuery.Parse

open CodeQuery.Core CodeQuery.Text

/-- A name, when it can be read, and where its item starts and ends. -/
structure Label where
  name : Option Str
  line : Nat
  column : Nat
  endLine : Nat
  deriving DecidableEq, Repr

/-- The item at a node. -/
def Node.label (name : Option Str) (n : Node) : Label :=
  ⟨name, n.startPosition.row + 1, n.startPosition.column, n.endPosition.row + 1⟩

def symbolLabel (s : Symbol) : Label := ⟨some s.name, s.line, s.column, s.endLine⟩

def Definition.label (d : Definition) : Label := d.node.label (some d.name)

theorem symbolLabel_toSymbol (texts : Definition → Texts) (file : Path) (d : Definition) :
    symbolLabel (d.toSymbol texts file) = d.label := by
  cases d
  rw [Definition.toSymbol]
  rfl

/-! ## Chains -/

mutual

/-- A symbol and those below it, each behind the symbols that it is under. -/
def symbolChains : Symbol → List (List Symbol)
  | s@⟨_, _, _, _, _, _, _, children, _, _, _⟩ => [s] :: (symbolChainsAll children).map (s :: ·)

def symbolChainsAll : List Symbol → List (List Symbol)
  | [] => []
  | s :: ss => symbolChains s ++ symbolChainsAll ss

end

mutual

def Definition.chains : Definition → List (List Definition)
  | d@⟨_, _, _, _, children⟩ => [d] :: (chainsAll children).map (d :: ·)

def chainsAll : List Definition → List (List Definition)
  | [] => []
  | d :: ds => d.chains ++ chainsAll ds

end

section Chains

variable (texts : Definition → Texts) (file : Path)

mutual

theorem symbolChains_toSymbol : ∀ d : Definition,
    symbolChains (d.toSymbol texts file) = d.chains.map (List.map (Definition.toSymbol texts file))
  | ⟨name, kind, node, place, children⟩ => by
    rw [Definition.chains, Definition.toSymbol, symbolChains, symbolChainsAll_toSymbols children]
    simp [Definition.toSymbol]

/-- The chains of the symbols are those of the definitions. -/
theorem symbolChainsAll_toSymbols : ∀ ds : List Definition,
    symbolChainsAll (toSymbols texts file ds) = (chainsAll ds).map (List.map (Definition.toSymbol texts file))
  | [] => rfl
  | d :: ds => by
    rw [toSymbols, symbolChainsAll, chainsAll, List.map_append, symbolChains_toSymbol d, symbolChainsAll_toSymbols ds]

end

end Chains

theorem chainsAll_append (ds ds' : List Definition) : chainsAll (ds ++ ds') = chainsAll ds ++ chainsAll ds' := by
  induction ds with
  | nil => rfl
  | cons d ds ih =>
    rw [List.cons_append, chainsAll, chainsAll, ih, List.append_assoc]

/-! ## Some and all -/

/-- What is yielded of some items is what would be yielded of all exactly when they are all. -/
theorem map_filter_eq_map_iff {α β : Type*} (p : α → Bool) (f : α → β) (items : List α) :
    (items.filter p).map f = items.map f ↔ ∀ a ∈ items, p a = true := by
  constructor
  · intro h
    have hlength := congrArg List.length h
    rw [List.length_map, List.length_map] at hlength
    exact List.length_filter_eq_length_iff.mp hlength
  · intro h
    rw [List.filter_eq_self.mpr h]

end CodeQuery.Parse
