import ScopeStack.Frame
import ScopeStack.Initializer
import ScopeStack.LabelSet
import ScopeStack.Program
import ScopeStack.Service

/-!
# Layout

The layout of a program gives every function a frame and every variable and
parameter a place. Global variables get a label; parameters lie above the
access link of their function's frame; the local variables of all blocks of a
function follow one another downward from the frame header, in the order in
which they are defined. Functions nested in a function have frames of their
own and take no part in this.

Labels are reserved for the global variables first and then for the functions
that have a body, each qualified by the label of the function around it.
-/

namespace ScopeStack

/-- Frames of functions and places of variables, by the number of the
definition. -/
structure Layout where
  frames : Table Frame
  accesses : Table Access

namespace Layout

/-- The layout of no definitions. -/
def empty : Layout := ⟨∅, ∅⟩

/-- What has been laid out so far. -/
structure Progress where
  layout : Layout
  labels : LabelSet

/-- A step of laying out a program. -/
abbrev Build := StateT Progress (Except LayoutError)

/-- The local variables of a function so far, and the offset of the lowest. -/
structure Locals where
  vars : List RelAccess
  bottom : Int
deriving DecidableEq, Repr

/-- A frame without local variables. -/
def Locals.empty : Locals := ⟨[], -Frame.headerSize⟩

/-- Reserve a label for a base name. -/
def reserveLabel (base : String) : Build String :=
  modifyGet fun progress =>
    let (label, labels) := progress.labels.reserve base
    (label, { progress with labels })

/-- Record the place of a variable or parameter. -/
def setAccess (id : NodeId) (access : Access) : Build Unit :=
  modify fun progress =>
    { progress with
      layout := { progress.layout with accesses := progress.layout.accesses.insert id access } }

/-- Record the frame of a function. -/
def setFrame (id : NodeId) (frame : Frame) : Build Unit :=
  modify fun progress =>
    { progress with
      layout := { progress.layout with frames := progress.layout.frames.insert id frame } }

/-- The flat initializer of a variable and the number of bytes it fills. -/
def measure (declared : VarDef) : Except LayoutError (List Int × Int) := do
  let flat ← Initializer.flatten declared.items
  let size ← (Initializer.byteSize flat).mapError .initializer
  return (flat, size)

/-- The places of parameters, from number `index` on. -/
def paramAccesses (depth : Nat) : Nat → List Param → List RelAccess
  | _, [] => []
  | index, param :: rest =>
    { offset := 4 * (index + 1), depth, size := 4, inits := none, name := param.name } ::
      paramAccesses depth (index + 1) rest

/-- Record the places of parameters. -/
def setParams : List Param → List RelAccess → Build Unit
  | param :: params, access :: accesses => do
    setAccess param.id (.rel access)
    setParams params accesses
  | _, _ => pure ()

/-- Lay out a local variable below those before it. -/
def layLocal (depth : Nat) (declared : VarDef) (locals : Locals) : Build Locals := do
  let (flat, size) ← measure declared
  let offset := locals.bottom - size
  let access : RelAccess := { offset, depth, size, inits := some flat, name := declared.name }
  setAccess declared.id (.rel access)
  return ⟨locals.vars ++ [access], offset⟩

/-- The base name for the label of a function. -/
def qualify (outer : Option String) (name : String) : String :=
  match outer with
  | some label => label ++ "." ++ name
  | none => name

mutual

/-- Lay out what a statement defines. Definitions in a block are one level
deeper than the block. -/
def layStmt (label : String) (depth : Nat) : Stmt → Locals → Build Locals
  | .expr _ _, locals => pure locals
  | .assign _ _ _, locals => pure locals
  | .cond _ _ yes no, locals => do
    let locals ← layStmts label depth yes locals
    layStmts label depth no locals
  | .loop _ _ body, locals => layStmts label depth body locals
  | .block _ defs body, locals => do
    let locals ← layDefs label (depth + 1) defs locals
    layStmts label (depth + 1) body locals

/-- Lay out what statements define. -/
def layStmts (label : String) (depth : Nat) : List Stmt → Locals → Build Locals
  | [], locals => pure locals
  | stmt :: rest, locals => do
    let locals ← layStmt label depth stmt locals
    layStmts label depth rest locals

/-- Lay out the definitions of a block in the function with a given label. -/
def layDefs (label : String) (depth : Nat) : List Def → Locals → Build Locals
  | [], locals => pure locals
  | .fn function :: rest, locals => do
    layFunction (some label) depth function
    layDefs label depth rest locals
  | .var declared :: rest, locals => do
    let locals ← layLocal depth declared locals
    layDefs label depth rest locals

/-- Lay out a function and all that it defines. A function without a body
keeps its plain name. -/
def layFunction (outer : Option String) (depth : Nat) : FunDef → Build Unit
  | ⟨id, name, params, body⟩ => do
    let label ← if body.isEmpty then pure name else reserveLabel (qualify outer name)
    let pars := paramAccesses (depth + 1) 0 params
    setParams params pars
    let locals ← layStmts label (depth + 1) body .empty
    setFrame id
      { name := label
        depth := depth + 1
        parsSize := 4 * pars.length + 4
        varsSize := -locals.bottom
        pars
        vars := locals.vars }

end

/-- Reserve the labels of the global variables. -/
def reserveGlobals : List Def → Table String → Build (Table String)
  | [], globals => pure globals
  | .fn _ :: rest, globals => reserveGlobals rest globals
  | .var declared :: rest, globals => do
    let label ← reserveLabel declared.name
    reserveGlobals rest (globals.insert declared.id label)

/-- Lay out a global variable. -/
def layGlobal (globals : Table String) (declared : VarDef) : Build Unit := do
  let (flat, size) ← measure declared
  let label := globals.getD declared.id declared.name
  setAccess declared.id (.abs { label, size, inits := flat })

/-- Lay out the definitions at the top level. -/
def layTop (globals : Table String) : List Def → Build Unit
  | [] => pure ()
  | .fn function :: rest => do
    layFunction none 0 function
    layTop globals rest
  | .var declared :: rest => do
    layGlobal globals declared
    layTop globals rest

/-- Lay out a list of definitions. -/
def layProgram (defs : List Def) : Build Unit := do
  let globals ← reserveGlobals defs ∅
  layTop globals defs

/-- The labels that no definition can have: the names of the services. -/
def serviceLabels : LabelSet := ⟨Service.all.map Service.name⟩

/-- The layout of a program. -/
def ofProgram (program : Program) : Except LayoutError Layout := do
  let ((), progress) ← (layProgram program.defs).run ⟨empty, serviceLabels⟩
  return progress.layout

end Layout

end ScopeStack
