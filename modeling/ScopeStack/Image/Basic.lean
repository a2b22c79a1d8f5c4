import ScopeStack.Image.SourceMap
import ScopeStack.Instr
import ScopeStack.Program

/-!
# Images

An image is a compiled program: its code, its data, which follow the code in
memory, and what is known about where both come from.
-/

namespace ScopeStack

/-- A compiled program. -/
structure Image where
  code : Code
  data : Data
  sourceMap : SourceMap
  /-- The code of each node. -/
  nodeCode : Table Code
  /-- The data of each node that has some. -/
  nodeData : Table Data

end ScopeStack
