/-
  CodeQuery.Core.Query — how an answer was found (`codequery-core/src/query.rs`).
-/

namespace CodeQuery.Core

inductive Resolution where
  | syntactic
  | resolved
  | semantic
  deriving DecidableEq, Repr

def Resolution.text : Resolution → String
  | syntactic => "syntactic"
  | resolved => "resolved"
  | semantic => "semantic"

inductive Completeness where
  | exhaustive
  | bestEffort
  deriving DecidableEq, Repr

def Completeness.text : Completeness → String
  | exhaustive => "exhaustive"
  | bestEffort => "best_effort"

end CodeQuery.Core
