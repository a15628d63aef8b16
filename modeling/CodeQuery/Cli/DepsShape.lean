/-
  CodeQuery.Cli.DepsShape — the list of dependencies (see `CodeQuery.Cli.Deps`).

  The names are listed once each, without the symbol's own, in the order in which the
  extraction first yields them (`dependencies_shape`); what the resolver returns lies in
  the symbol's lines. The order is that of the text for every language but Rust: there the
  target of a call is pushed before the receiver that stands in front of it
  (`a_method_is_listed_before_its_receiver`).
-/

import CodeQuery.Cli.Deps
import CodeQuery.Index.RefsOrdered

namespace CodeQuery.Cli.Deps

open CodeQuery.Core CodeQuery.Parse CodeQuery.Text CodeQuery.Index CodeQuery.Data CodeQuery.Resolve
open CodeQuery.Resolve.Warnings

section Shape

variable (alnum : Char → Bool) (source : Str) (bodyRefs : List Reference)

/-- A use of the one name stands in the text before all uses of the other. -/
def UsedBefore (first second : Str) : Prop :=
  ∃ use ∈ bodyRefs, nameOf alnum source use = some first ∧
    ∀ r ∈ bodyRefs, nameOf alnum source r = some second → placeOf use < placeOf r

/-- The entry is made of the reference, and none to the name is extracted before it. -/
def FirstYielded (dep : Dependency) (use : Reference) : Prop :=
  nameOf alnum source use = some dep.name ∧ dep.kind = refKindLabel use.kind ∧
    ∃ before after, bodyRefs = before ++ use :: after ∧ ∀ r ∈ before, nameOf alnum source r ≠ some dep.name

variable {alnum source bodyRefs} {L : Library} {I : Installed L} {scan : List FileSymbols} {target : Symbol}
  {symbol : String} {deps : List Dependency}

theorem forall₂_firstYielded :
    List.Forall₂ (FirstYielded alnum source bodyRefs)
      ((firsts (nameOf alnum source) [str symbol] bodyRefs).map fun e => syntacticDependency scan e.1 e.2.kind)
      ((firsts (nameOf alnum source) [str symbol] bodyRefs).map Prod.snd) := by
  rw [List.forall₂_map_left_iff, List.forall₂_map_right_iff, List.forall₂_same]
  intro e he
  exact ⟨(firsts_key e he).1, rfl, firsts_first he⟩

/-- In the body of a language other than Rust the references come one after the other. -/
theorem bodyReferences_ordered {tree : Node} {language : Language} (hlanguage : language ≠ .rust)
    (hwf : tree.WellFormed) (hlocated : tree.Located source) :
    (bodyReferences source tree target language).Pairwise fun a b => placeOf a < placeOf b :=
  (extractReferences_ordered hlanguage hwf hlocated).sublist List.filter_sublist

theorem names_usedBefore (hordered : bodyRefs.Pairwise fun a b => placeOf a < placeOf b) :
    ((firsts (nameOf alnum source) [str symbol] bodyRefs).map Prod.fst).Pairwise
      (UsedBefore alnum source bodyRefs) := by
  rw [List.pairwise_map]
  refine (firsts_sorted hordered).imp_of_mem ?_
  intro e f he hf hbefore
  exact ⟨e.2, (firsts_sublist _ _ _).subset (List.mem_map_of_mem he), (firsts_key e he).1, hbefore⟩

/-- For every scan, symbol, body and resolver: the names are distinct and without the
    symbol's; they are listed by their first references, in the order of the extraction,
    and but for Rust in that of the text; and the resolved references are in the target's
    file and lines. -/
theorem dependencies_shape (h : dependencies alnum I scan target symbol source bodyRefs = some deps) :
    (deps.map Dependency.name).Nodup ∧ str symbol ∉ deps.map Dependency.name ∧
      (∃ uses : List Reference, uses.Sublist bodyRefs ∧ List.Forall₂ (FirstYielded alnum source bodyRefs) deps uses) ∧
      (∀ tree language, language ≠ .rust → tree.WellFormed → tree.Located source →
        bodyRefs = bodyReferences source tree target language →
          (deps.map Dependency.name).Pairwise (UsedBefore alnum source bodyRefs)) ∧
      ∀ result, resolveDeps alnum I scan target.file (target.line, target.endLine) symbol = some result →
        ∀ r ∈ result.references, r.refFile = target.file ∧ target.line ≤ r.refLine ∧ r.refLine ≤ target.endLine := by
  have hnames : deps.map Dependency.name = (firsts (nameOf alnum source) [str symbol] bodyRefs).map Prod.fst := by
    rw [dependencies_eq h, List.map_map]
    rfl
  refine ⟨?_, ?_, ?_, ?_, ?_⟩
  · rw [hnames]
    exact firsts_nodup _ _
  · intro hself
    exact ((mem_names_iff h).mp hself).1 rfl
  · refine ⟨_, firsts_sublist (nameOf alnum source) [str symbol] bodyRefs, ?_⟩
    rw [dependencies_eq h]
    exact forall₂_firstYielded
  · rintro tree language hlanguage hwf hlocated rfl
    rw [hnames]
    exact names_usedBefore (bodyReferences_ordered hlanguage hwf hlocated)
  · intro result hresult r hr
    obtain ⟨hfile, hfirst, hlast, -⟩ := resolveDeps_within hresult r hr
    exact ⟨hfile, hfirst, hlast⟩

end Shape

/-! ## A method on a result -/

def noRules : Installed definesG := ⟨fun _ => false, fun _ => none, fun _ _ => 0⟩

/-- The tree of `fn f() { g().h() }`. -/
def methodTree : Node :=
  ⟨"source_file", none, 0, 18, ⟨0, 0⟩, ⟨0, 18⟩, true, false, false,
    [⟨"function_item", none, 0, 18, ⟨0, 0⟩, ⟨0, 18⟩, true, false, false,
      [.leaf "identifier" (some "name") 0 3 3 1 true,
       ⟨"block", some "body", 7, 18, ⟨0, 7⟩, ⟨0, 18⟩, true, false, false,
        [⟨"call_expression", none, 9, 16, ⟨0, 9⟩, ⟨0, 16⟩, true, false, false,
          [⟨"field_expression", some "function", 9, 14, ⟨0, 9⟩, ⟨0, 14⟩, true, false, false,
            [⟨"call_expression", some "value", 9, 12, ⟨0, 9⟩, ⟨0, 12⟩, true, false, false,
              [.leaf "identifier" (some "function") 0 9 9 1 true, .leaf "arguments" (some "arguments") 0 10 10 2 true]⟩,
             .leaf "field_identifier" (some "field") 0 13 13 1 true]⟩,
           .leaf "arguments" (some "arguments") 0 14 14 2 true]⟩]⟩]⟩]⟩

def methodSource : Str := str "fn f() { g().h() }"

def methodFile : FileSymbols := ⟨[.normal "a.rs"], [functionIn "f" "a.rs" 1], methodSource, methodTree⟩

def methodRefs : List Reference := bodyReferences methodSource methodTree (functionIn "f" "a.rs" 1) .rust

def methodDependencies : List Dependency := [⟨str "h", "call", none, .syntactic⟩, ⟨str "g", "call", none, .syntactic⟩]

theorem dependencies_of_method :
    dependencies Char.isAlphanum noRules [methodFile] (functionIn "f" "a.rs" 1) "f" methodSource methodRefs =
      some methodDependencies := by decide

/-- `g` stands before `h`, and is listed behind it. -/
theorem a_method_is_listed_before_its_receiver :
    ∃ deps, dependencies Char.isAlphanum noRules [methodFile] (functionIn "f" "a.rs" 1) "f" methodSource methodRefs =
        some deps ∧
      ¬ (deps.map Dependency.name).Pairwise (UsedBefore Char.isAlphanum methodSource methodRefs) := by
  refine ⟨methodDependencies, dependencies_of_method, ?_⟩
  intro hordered
  obtain ⟨use, huse, hname, hbefore⟩ := (List.pairwise_cons.mp hordered).1 (str "g") (List.mem_singleton_self _)
  have hrefs : methodRefs = [⟨[.normal "a.rs"], 1, 13, .call, methodSource, some (str "f"), some .function⟩,
      ⟨[.normal "a.rs"], 1, 9, .call, methodSource, some (str "f"), some .function⟩] := by rfl
  rw [hrefs] at huse hbefore
  have hlt := hbefore _ (List.mem_cons_of_mem _ List.mem_cons_self) (by decide)
  rcases List.mem_cons.mp huse with rfl | huse
  · exact absurd hlt (by decide)
  · rw [List.mem_singleton.mp huse] at hlt
    exact lt_irrefl _ hlt

theorem dependencies_shape_method :
    (methodDependencies.map Dependency.name).Nodup ∧ str "f" ∉ methodDependencies.map Dependency.name := by
  obtain ⟨hnodup, hself, -⟩ := dependencies_shape dependencies_of_method
  exact ⟨hnodup, hself⟩

end CodeQuery.Cli.Deps
