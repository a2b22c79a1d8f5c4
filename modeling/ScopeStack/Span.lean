/-!
# Source spans

A span is a region of source text by line and column, both counted from one.
Its short form names the place where it starts.
-/

namespace ScopeStack

/-- A region of source text. -/
structure Span where
  line : Nat
  column : Nat
  endLine : Nat
  endColumn : Nat
deriving DecidableEq, Repr

namespace Span

/-- The span of a single position. -/
def point (line column : Nat) : Span := ⟨line, column, line, column⟩

/-- The start of a span as `line:column`. -/
def text (span : Span) : String := toString span.line ++ ":" ++ toString span.column

end Span

end ScopeStack
