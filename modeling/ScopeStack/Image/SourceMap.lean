import ScopeStack.Span

/-!
# Source maps

A source map says which function the code at an address belongs to.
-/

namespace ScopeStack

/-- The code of one function. -/
structure SourceMapEntry where
  label : String
  address : Int
  size : Int
  span : Option Span
deriving DecidableEq, Repr

/-- The functions of an image in the order of their code. -/
structure SourceMap where
  entries : List SourceMapEntry
deriving DecidableEq, Repr

namespace SourceMap

/-- The first entry whose code contains an address. -/
def find? (sourceMap : SourceMap) (address : Int) : Option SourceMapEntry :=
  sourceMap.entries.find? fun entry =>
    entry.address ≤ address && address < entry.address + entry.size

end SourceMap

end ScopeStack
