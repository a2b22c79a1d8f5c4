import ScopeStack.Instr
import ScopeStack.Layout

/-!
# The state of code emission

Code is emitted node by node. The state keeps the code and the data of every
node emitted so far, the order in which nodes contributed data, and the
numbers of the next branch and the next constant. What a node looks up in the
program and its layout is in the context, together with the frames of the
functions around it.
-/

namespace ScopeStack

/-- An attribute that emission relies on. -/
inductive Attribute where
  | definition
  | frame
  | access
deriving DecidableEq, Repr

/-- The name of an attribute in messages. -/
def Attribute.name : Attribute → String
  | .definition => "definition"
  | .frame => "frame"
  | .access => "access"

/-- Why a program cannot be compiled. -/
inductive EmissionError where
  /-- A node lacks an attribute. -/
  | missing (what : Attribute) (node : NodeId)
  /-- An expression does not designate a place. -/
  | notPlace (span : Span)
  /-- The address of something other than a variable is taken. -/
  | notAddressable (span : Span)
  /-- No function to start in. -/
  | noEntryPoint
  /-- A constant is misspelled. -/
  | literal (cause : LiteralError)
  /-- The layout gives a global variable a place in a frame. -/
  | relativeGlobal (name : String)
  /-- The layout gives a local variable a place outside its frame. -/
  | absoluteLocal (name : String)
  /-- The layout puts a definition outside all functions around its use. -/
  | noEnclosingFrame (depth : Nat)
deriving DecidableEq, Repr

namespace EmissionError

/-- What is wrong with the program. -/
def message : EmissionError → String
  | .missing what node => "missing " ++ what.name ++ " for node " ++ node.text
  | .notPlace span => "not an lvalue at " ++ span.text
  | .notAddressable span => "cannot take the address at " ++ span.text
  | .noEntryPoint => "program has no top-level function " ++ entryPoint
  | .literal cause => cause.message
  | .relativeGlobal name =>
    "internal codegen error: global " ++ name ++ " has a frame-relative access"
  | .absoluteLocal name =>
    "internal codegen error: local " ++ name ++ " has an absolute access"
  | .noEnclosingFrame depth =>
    "internal codegen error: no enclosing frame at depth " ++ toString depth

/-- The number of the error. -/
def code : EmissionError → DiagnosticCode
  | .missing _ _ => ⟨200⟩
  | .notPlace _ => ⟨201⟩
  | .notAddressable _ => ⟨202⟩
  | .noEntryPoint => ⟨203⟩
  | .literal cause => cause.code
  | .relativeGlobal _ => ⟨299⟩
  | .absoluteLocal _ => ⟨299⟩
  | .noEnclosingFrame _ => ⟨299⟩

/-- The place in the source that the error points at. -/
def span? : EmissionError → Option Span
  | .notPlace span => some span
  | .notAddressable span => some span
  | _ => none

/-- The error as it is reported. -/
def toDiagnostic (error : EmissionError) : Diagnostic :=
  Diagnostic.ofCode error.code error.message error.span?

end EmissionError

namespace Emission

/-- What has been emitted so far. -/
structure Progress where
  code : Table Code
  data : Table Data
  /-- The nodes that contributed data, in order. -/
  dataOrder : List NodeId
  nextBranch : Nat
  nextConstant : Nat

/-- Nothing has been emitted. -/
def Progress.empty : Progress := ⟨∅, ∅, [], 0, 0⟩

/-- A step of emitting code. -/
abbrev Emit := StateT Progress (Except EmissionError)

/-- What code is emitted from: the program, its layout, and the frames of the
functions around the current node, innermost first. -/
structure Context where
  program : Program
  layout : Layout
  frames : List Frame

namespace Context

/-- Where a node stands in the source. -/
def span? (context : Context) (id : NodeId) : Option Span := context.program.location? id

/-- Where a node stands in the source, for a message. -/
def span (context : Context) (id : NodeId) : Span := (context.span? id).getD (Span.point 0 0)

/-- The definition that a use refers to. -/
def definition (context : Context) (id : NodeId) : Except EmissionError NodeId :=
  match context.program.definition? id with
  | some target => .ok target
  | none => .error (.missing .definition id)

/-- The frame of a function. -/
def frame (context : Context) (id : NodeId) : Except EmissionError Frame :=
  match context.layout.frames[id]? with
  | some frame => .ok frame
  | none => .error (.missing .frame id)

/-- The place of a variable or parameter. -/
def access (context : Context) (id : NodeId) : Except EmissionError Access :=
  match context.layout.accesses[id]? with
  | some access => .ok access
  | none => .error (.missing .access id)

/-- The number of access links to follow from the current frame to the frame
that owns definitions of a given depth: the innermost that is not deeper. -/
def hops (context : Context) (depth : Nat) : Except EmissionError Nat :=
  match context.frames.findIdx? fun frame => frame.depth ≤ depth with
  | some hops => .ok hops
  | none => .error (.noEnclosingFrame depth)

/-- The context inside a function with a given frame. -/
def enter (context : Context) (frame : Frame) : Context :=
  { context with frames := frame :: context.frames }

end Context

/-- Take the number of the next branching statement. -/
def freshBranch : Emit Nat :=
  modifyGet fun progress =>
    (progress.nextBranch, { progress with nextBranch := progress.nextBranch + 1 })

/-- Take the label of the next constant. -/
def freshConstant : Emit String :=
  modifyGet fun progress =>
    (":" ++ toString progress.nextConstant,
      { progress with nextConstant := progress.nextConstant + 1 })

/-- Record the code of a node. -/
def record (id : NodeId) (code : Code) : Emit Unit :=
  modify fun progress => { progress with code := progress.code.insert id code }

/-- Record the code of a node and pass it on. -/
def recorded (id : NodeId) (code : Code) : Emit Code := do
  record id code
  return code

/-- Add the data of a node. -/
def addData (id : NodeId) (data : Data) : Emit Unit :=
  modify fun progress =>
    { progress with
      data := progress.data.insert id data
      dataOrder := progress.dataOrder ++ [id] }

/-- Labelled data words. -/
def block (label : String) (words : List Int) : List Datum :=
  .label label :: words.map .data

end Emission

end ScopeStack
