/-
  CodeQuery.Resolve.Types — resolved references (`codequery-resolve/src/types.rs`).
-/

import CodeQuery.Core.Path
import CodeQuery.Core.Query
import CodeQuery.Text.Bytes

namespace CodeQuery.Resolve

open CodeQuery.Core CodeQuery.Text

structure ResolvedReference where
  refFile : Path
  /-- 1-based. -/
  refLine : Nat
  /-- 0-based. -/
  refColumn : Nat
  symbol : Str
  defFile : Option Path
  defLine : Option Nat
  defColumn : Option Nat
  resolution : Resolution
  deriving DecidableEq, Repr

namespace ResolvedReference

/-- Where the reference is. -/
def location (r : ResolvedReference) : Path × Nat × Nat := (r.refFile, r.refLine, r.refColumn)

end ResolvedReference

structure ResolutionResult where
  references : List ResolvedReference
  warnings : List String
  deriving DecidableEq, Repr

end CodeQuery.Resolve
