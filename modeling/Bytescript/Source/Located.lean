/-
Things found at a place in the source text.
-/
import Bytescript.Source.Span

namespace Bytescript

/-- A value with the part of the source text it belongs to. -/
structure Located (α : Type) where
  value : α
  span : Span
  deriving DecidableEq, Repr

end Bytescript
