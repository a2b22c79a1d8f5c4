import ScopeStack.Emission.Basic

/-!
# Code of expressions

The code of an expression pushes its value. The code of a place, a variable or
a dereferenced pointer, pushes its address. Operands are evaluated from left
to right and the arguments of a call from right to left, so that the first
argument ends up next to the access link.
-/

namespace ScopeStack.Emission

/-- Push the frame pointer of the frame that is a number of access links
away. -/
def framePointer (hops : Nat) : List Instr := .regn .fp :: List.replicate hops .load

/-- Code for a constant. A text becomes a data block that ends in a zero
word. -/
def emitAtom (context : Context) (id : NodeId) (atom : Atom) : Emit Code := do
  let span := context.span? id
  match atom.kind with
  | .int =>
    let value ← (Literal.readInt atom.lexeme).mapError EmissionError.literal
    return codeAt span [.push value]
  | .char =>
    let value ← (Literal.readChar atom.lexeme).mapError EmissionError.literal
    return codeAt span [.push value]
  | .str =>
    let words ← (Literal.readText atom.lexeme).mapError EmissionError.literal
    let label ← freshConstant
    addData id (dataAt span (block label (words ++ [0])))
    return codeAt span [.name label]

/-- Code for the address of a variable. -/
def emitVariable (context : Context) (id : NodeId) : Emit Code := do
  if !context.program.isPlace id then throw (.notPlace (context.span id))
  let span := context.span? id
  let target ← context.definition id
  match ← context.access target with
  | .abs access => recorded id (codeAt span [.name access.label])
  | .rel access =>
    let hops ← context.hops access.depth
    recorded id (codeAt span (framePointer hops ++ [.push access.offset, .binary .add]))

mutual

/-- Code for the value of an expression. -/
def emitValue (context : Context) : Expr → Emit Code
  | .atom id atom => do
    let code ← emitAtom context id atom
    recorded id code
  | .var id _ => do
    let place ← emitVariable context id
    recorded id (place ++ codeAt (context.span? id) [.load])
  | .call id _ args => do
    let span := context.span? id
    let target ← context.definition id
    let frame ← context.frame target
    let pushed ← emitArgs context args
    -- A function at the top level does not use its access link.
    let hops ← if frame.depth ≤ 1 then pure 0 else context.hops (frame.depth - 1)
    recorded id
      (pushed ++ codeAt span (framePointer hops ++ [.name frame.name, .call (some frame.name)]))
  | .unary id op operand => do
    let span := context.span? id
    match op with
    | .plus =>
      let code ← emitValue context operand
      recorded id code
    | .not =>
      let code ← emitValue context operand
      recorded id (code ++ codeAt span [.unary .not])
    | .minus =>
      let code ← emitValue context operand
      recorded id (code ++ codeAt span [.unary .neg])
    | .valueAt =>
      let code ← emitValue context operand
      recorded id (code ++ codeAt span [.load])
    | .addressOf =>
      match operand with
      | .var use _ =>
        let place ← emitVariable context use
        recorded id place
      | _ => throw (.notAddressable (context.span id))
  | .binary id op first second => do
    let left ← emitValue context first
    let right ← emitValue context second
    recorded id (left ++ right ++ codeAt (context.span? id) [.binary op])

/-- Code that pushes arguments, the last one first. -/
def emitArgs (context : Context) : List Expr → Emit Code
  | [] => pure []
  | arg :: rest => do
    let later ← emitArgs context rest
    let code ← emitValue context arg
    return later ++ code

end

/-- Code for the address of a place. -/
def emitPlace (context : Context) : Expr → Emit Code
  | .var id _ => emitVariable context id
  | .unary id .valueAt pointer => do
    if !context.program.isPlace id then throw (.notPlace (context.span id))
    let code ← emitValue context pointer
    recorded id code
  | other => throw (.notPlace (context.span other.id))

end ScopeStack.Emission
