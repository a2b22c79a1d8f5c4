import ScopeStack.Text.Decimal

/-!
# Frames and accesses

While a function runs it has a frame. The frame pointer points at the access
link, the frame pointer of the function that lexically encloses it. The
parameters are above the link; below it are the caller's frame pointer and the
return address, and below these the local variables.

```text
  4 * i      parameter number i
  0          access link
  -4, -8     frame pointer of the caller, return address
  below      local variables
```
-/

namespace ScopeStack

/-- The place of a parameter or local variable in its function's frame. -/
structure RelAccess where
  /-- Distance from the frame pointer. -/
  offset : Int
  /-- Nesting depth of the definition. -/
  depth : Nat
  size : Int
  /-- Flat initializer; parameters have none. -/
  inits : Option (List Int)
  name : String
deriving DecidableEq, Repr

/-- The place of a global variable. -/
structure AbsAccess where
  label : String
  size : Int
  /-- Flat initializer. -/
  inits : List Int
deriving DecidableEq, Repr

/-- The place of a variable or parameter. -/
inductive Access where
  | abs (access : AbsAccess)
  | rel (access : RelAccess)
deriving DecidableEq, Repr

namespace Access

/-- The number of bytes of a variable. -/
def size : Access → Int
  | .abs access => access.size
  | .rel access => access.size

/-- The flat initializer of a variable. -/
def inits? : Access → Option (List Int)
  | .abs access => some access.inits
  | .rel access => access.inits

end Access

/-- The frame of a function. -/
structure Frame where
  /-- The label of the function. -/
  name : String
  depth : Nat
  /-- Bytes of the parameters and the access link. -/
  parsSize : Int
  /-- Bytes of the header and the local variables. -/
  varsSize : Int
  pars : List RelAccess
  vars : List RelAccess
deriving DecidableEq, Repr

namespace Frame

/-- The bytes of the frame pointer of the caller and the return address. -/
def headerSize : Int := 8

/-- The bytes of the local variables alone. -/
def localsSize (frame : Frame) : Int := frame.varsSize - headerSize

/-- A frame on one line. -/
def text (frame : Frame) : String :=
  frame.name ++ " (depth=" ++ toString frame.depth ++ " pars=" ++ Decimal.text frame.parsSize ++
    " vars=" ++ Decimal.text frame.varsSize ++ ")"

end Frame

end ScopeStack
