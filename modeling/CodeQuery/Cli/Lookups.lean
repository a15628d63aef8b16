/-
  CodeQuery.Cli.Lookups — the narrow lookup of a name beside the wide one.

  `collectMatchingSymbols` looks at the symbols of a file and at their children, the index
  at every depth. They agree but for impl blocks exactly when no symbol of that name is
  deeper and no child of that name is an impl block (`lookups_agree_iff`). A method of a
  C++ class in a namespace is deeper: `a_method_in_a_namespace_is_not_found`.
-/

import CodeQuery.Cli.Common
import Mathlib.Data.List.Flatten

namespace CodeQuery.Cli

open CodeQuery.Core CodeQuery.Text CodeQuery.Index

/-! ## Lists part by part -/

/-- Parts that are each within their own are all the same once the wholes are. -/
theorem eq_of_flatMap_eq {α β : Type*} {l : List α} {f g : α → List β} (h : ∀ a ∈ l, (f a).Sublist (g a))
    (heq : l.flatMap f = l.flatMap g) : ∀ a ∈ l, f a = g a := by
  induction l with
  | nil => exact fun a ha => absurd ha List.not_mem_nil
  | cons a l ih =>
    rw [List.flatMap_cons, List.flatMap_cons] at heq
    have hsub := h a List.mem_cons_self
    have hrest := List.Sublist.flatMap_right l fun b hb => h b (List.mem_cons_of_mem _ hb)
    have hlength := congrArg List.length heq
    rw [List.length_append, List.length_append] at hlength
    have hfirst : f a = g a := hsub.eq_of_length (by have := hsub.length_le; have := hrest.length_le; omega)
    rw [hfirst, List.append_cancel_left_eq] at heq
    intro b hb
    rcases List.mem_cons.mp hb with rfl | hb
    · exact hfirst
    · exact ih (fun b hb => h b (List.mem_cons_of_mem _ hb)) heq b hb

/-! ## The two lookups -/

section Lookups

variable (name : Str)

def isMatch (s : Symbol) : Bool := s.name = name ∧ s.kind ≠ .impl

/-- What the index finds for the name below the symbols, but impl blocks. -/
def wideMatches (symbols : List Symbol) : List Symbol := (SymbolIndex.flattenAll symbols).filter (isMatch name)

theorem wideMatches_eq (symbols : List Symbol) : wideMatches name symbols =
    symbols.flatMap fun s => (if isMatch name s then [s] else []) ++ wideMatches name s.children := by
  rw [wideMatches, SymbolIndex.flattenAll_eq, List.filter_flatMap]
  congr 1
  funext s
  rw [List.filter_cons, wideMatches]
  split <;> rfl

theorem wideMatches_findByName (fs : FileSymbols) :
    ((SymbolIndex.fromScan [fs]).findByName name).filter (·.kind ≠ .impl) = wideMatches name fs.symbols := by
  rw [SymbolIndex.findByName_fromScan, List.flatMap_singleton, List.filter_filter, wideMatches]
  congr 1
  funext s
  simp [isMatch, Bool.and_comm]

theorem filter_isMatch_sublist (symbols : List Symbol) : (symbols.filter (isMatch name)).Sublist (wideMatches name symbols) := by
  induction symbols with
  | nil => exact List.Sublist.refl _
  | cons s symbols ih =>
    rw [wideMatches_eq, List.flatMap_cons, ← wideMatches_eq, List.filter_cons]
    by_cases hs : isMatch name s = true
    · rw [if_pos hs, if_pos hs]
      exact (ih.trans (List.sublist_append_right _ _)).cons_cons s
    · rw [if_neg hs, if_neg hs]
      exact ih.trans (List.sublist_append_right _ _)

/-- The symbols right in a list are all the matches when none is below. -/
theorem filter_isMatch_eq_iff (symbols : List Symbol) :
    symbols.filter (isMatch name) = wideMatches name symbols ↔ ∀ s ∈ symbols, wideMatches name s.children = [] := by
  have hfilter : symbols.filter (isMatch name) = symbols.flatMap fun s => if isMatch name s then [s] else [] := by
    rw [← List.flatMap_singleton' symbols, List.filter_flatMap]
    simp [List.filter_cons]
  rw [hfilter, wideMatches_eq]
  constructor
  · intro heq s hs
    have hsame := eq_of_flatMap_eq (fun s _ => List.sublist_append_left _ (wideMatches name s.children)) heq s hs
    simpa using hsame
  · intro h
    refine List.flatMap_congr fun s hs => ?_
    rw [h s hs, List.append_nil]

theorem wideMatches_eq_nil_iff (symbols : List Symbol) : wideMatches name symbols = [] ↔
    ∀ deep ∈ SymbolIndex.flattenAll symbols, deep.name = name → deep.kind = .impl := by
  rw [wideMatches, List.filter_eq_nil_iff]
  simp [isMatch]

/-- With no impl block of the name among them, the children of that name are the matches. -/
theorem collectMatchingSymbols_eq {symbols : List Symbol}
    (himpl : ∀ s ∈ symbols, ∀ c ∈ s.children, c.name = name → c.kind ≠ .impl) :
    collectMatchingSymbols symbols name =
      symbols.flatMap fun s => (if isMatch name s then [s] else []) ++ s.children.filter (isMatch name) := by
  have hown : ∀ s : Symbol, (s.kind ≠ .impl ∧ s.name = name) ↔ isMatch name s = true := by
    intro s
    simp [isMatch, and_comm]
  refine List.flatMap_congr fun s hs => ?_
  simp only [hown]
  congr 1
  refine List.filter_congr fun c hc => ?_
  have hkind := himpl s hs c hc
  simp only [isMatch, decide_eq_decide]
  exact ⟨fun hname => ⟨hname, hkind hname⟩, fun h => h.1⟩

/-- A child of the name is found narrowly, so where that is what the index finds it is no
    impl block. -/
theorem no_impl_of_eq {symbols : List Symbol} (heq : collectMatchingSymbols symbols name = wideMatches name symbols) :
    ∀ s ∈ symbols, ∀ c ∈ s.children, c.name = name → c.kind ≠ .impl := by
  intro s hs c hc hname
  have hfound : c ∈ collectMatchingSymbols symbols name :=
    List.mem_flatMap.mpr ⟨s, hs, List.mem_append_right _ (List.mem_filter.mpr ⟨hc, by simpa using hname⟩)⟩
  rw [heq, wideMatches] at hfound
  have hmatch := (List.mem_filter.mp hfound).2
  simp only [isMatch, decide_eq_true_eq] at hmatch
  exact hmatch.2

/-- For every forest and name, the narrow lookup finds what the index finds but impl blocks
    if and only if no child of that name is an impl block and nothing of that name but impl
    blocks is deeper. -/
theorem lookups_agree_iff (fs : FileSymbols) :
    collectMatchingSymbols fs.symbols name = ((SymbolIndex.fromScan [fs]).findByName name).filter (·.kind ≠ .impl) ↔
      ∀ s ∈ fs.symbols, ∀ c ∈ s.children, (c.name = name → c.kind ≠ .impl) ∧
        ∀ deep ∈ SymbolIndex.flattenAll c.children, deep.name = name → deep.kind = .impl := by
  rw [wideMatches_findByName]
  constructor
  · intro heq
    have himpl := no_impl_of_eq name heq
    rw [collectMatchingSymbols_eq name himpl, wideMatches_eq] at heq
    have hparts := eq_of_flatMap_eq
      (fun s _ => (List.Sublist.refl _).append (filter_isMatch_sublist name s.children)) heq
    intro s hs c hc
    refine ⟨himpl s hs c hc, (wideMatches_eq_nil_iff name c.children).mp ?_⟩
    exact (filter_isMatch_eq_iff name s.children).mp (List.append_cancel_left (hparts s hs)) c hc
  · intro h
    rw [collectMatchingSymbols_eq name fun s hs c hc => (h s hs c hc).1, wideMatches_eq]
    refine List.flatMap_congr fun s hs => ?_
    congr 1
    refine (filter_isMatch_eq_iff name s.children).mpr fun c hc => ?_
    exact (wideMatches_eq_nil_iff name c.children).mpr (h s hs c hc).2

/-! A C++ class in a namespace: `namespace n { class C { void m(); }; }`. -/

def methodM : Symbol := ⟨str "m", .method, [.normal "a.cpp"], 1, 24, 1, .private_, [], none, some (str "void m();"), none⟩

def classC : Symbol := ⟨str "C", .class_, [.normal "a.cpp"], 1, 14, 1, .public_, [methodM], none, none, none⟩

def namespaceN : Symbol := ⟨str "n", .module_, [.normal "a.cpp"], 1, 0, 1, .public_, [classC], none, none, none⟩

def cppFile : FileSymbols := ⟨[.normal "a.cpp"], [namespaceN], [], .leaf "translation_unit" none 0 0 0 0 true⟩

/-- The index finds the method, the narrow lookup does not. -/
theorem a_method_in_a_namespace_is_not_found :
    collectMatchingSymbols cppFile.symbols (str "m") = [] ∧
      (((SymbolIndex.fromScan [cppFile]).findByName (str "m")).filter (·.kind ≠ .impl)).map Symbol.name = [str "m"] := by
  rw [wideMatches_findByName]
  have hnarrow : (collectMatchingSymbols cppFile.symbols (str "m")).map Symbol.name = [] := by decide
  exact ⟨List.map_eq_nil_iff.mp hnarrow, by decide⟩

end Lookups

end CodeQuery.Cli
