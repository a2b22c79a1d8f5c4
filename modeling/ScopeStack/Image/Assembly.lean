import ScopeStack.Emission.Statement
import ScopeStack.Image.Basic

/-!
# Assembling an image

The code of an image starts by initializing the global variables, calling the
entry point and leaving the machine. The code of the functions follows, outer
functions before those nested in them, and the data blocks are in the order in
which emission met them.
-/

namespace ScopeStack

namespace Emission

/-- Emit a global variable: room for it, its initializer, and the code that
expands one into the other. -/
def emitGlobal (context : Context) (declared : VarDef) : Emit Unit := do
  match ← context.access declared.id with
  | .rel _ => throw (.relativeGlobal declared.name)
  | .abs access =>
    let span := context.span? declared.id
    let label ← freshConstant
    addData declared.id
      (dataAt span (.label access.label :: .size access.size :: block label access.inits))
    record declared.id (codeAt span [.name access.label, .name label, .init])

/-- Emit the definitions at the top level. -/
def emitTop (context : Context) : List Def → Emit Unit
  | [] => pure ()
  | .var declared :: rest => do
    emitGlobal context declared
    emitTop context rest
  | .fn function :: rest => do
    emitFunction context function
    emitTop context rest

/-- The code that initializes the global variables. -/
def globalCode (code : Table Code) : List Def → Code
  | [] => []
  | .fn _ :: rest => globalCode code rest
  | .var declared :: rest => (code[declared.id]?).getD [] ++ globalCode code rest

/-- The code at address zero: initialize the global variables, call the entry
point and exit with code zero. -/
def startCode (context : Context) (code : Table Code) : Except EmissionError Code := do
  match context.program.entry? with
  | none => throw .noEntryPoint
  | some main =>
    let frame ← context.frame main.id
    return globalCode code context.program.defs ++
      codeAt none
        [.push 0, .name frame.name, .call (some frame.name),
          .push 0, .push 0, .name Service.exit.name, .call none]

/-- The label that a function's code starts with. -/
def codeLabel (function : FunDef) (code : Code) : String :=
  ((code.head?).bind fun line => line.item.label?).getD function.name

/-- The code of functions, one after another. -/
def functionCode (table : Table Code) (functions : List FunDef) : Code :=
  functions.flatMap fun function => (table[function.id]?).getD []

/-- Where the code of functions is, if it starts at a given address. -/
def functionEntries (context : Context) (table : Table Code) :
    Int → List FunDef → List SourceMapEntry
  | _, [] => []
  | address, function :: rest =>
    match table[function.id]? with
    | none => functionEntries context table address rest
    | some own =>
      ⟨codeLabel function own, address, own.size, context.span? function.id⟩ ::
        functionEntries context table (address + own.size) rest

/-- The data of nodes in a given order. -/
def orderedData (table : Table Data) (order : List NodeId) : Data :=
  order.flatMap fun id => (table[id]?).getD []

end Emission

open Emission in
/-- The image of a program under a layout. -/
def Image.ofProgram (program : Program) (layout : Layout) : Except EmissionError Image := do
  let context : Context := ⟨program, layout, []⟩
  let ((), progress) ← (emitTop context program.defs).run .empty
  let start ← startCode context progress.code
  return {
    code := start ++ functionCode progress.code program.functions
    data := orderedData progress.data progress.dataOrder
    sourceMap := ⟨functionEntries context progress.code start.size program.functions⟩
    nodeCode := progress.code
    nodeData := progress.data }

end ScopeStack
