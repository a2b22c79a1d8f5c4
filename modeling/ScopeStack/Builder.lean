import ScopeStack.Literal
import ScopeStack.Program

/-!
# Building programs

Programs can be built node by node. The builder numbers the nodes in the order
in which they are made, places them side by side on the current line, and
fills the tables of attributes. Uses refer to definitions by number, so a
function can be called before its body exists.
-/

namespace ScopeStack

namespace Builder

/-- What has been built so far. -/
structure Progress where
  nextId : Nat
  line : Nat
  column : Nat
  locations : Table Span
  definitions : Table NodeId
  places : Table Bool
  /-- The names of functions, parameters and variables. -/
  names : Table String

/-- Nothing has been built. -/
def Progress.empty : Progress := ⟨0, 1, 0, ∅, ∅, ∅, ∅⟩

/-- A number was used that names no definition. -/
structure UnknownDefinition where
  id : NodeId
deriving DecidableEq, Repr

/-- What is wrong with the number. -/
def UnknownDefinition.message (error : UnknownDefinition) : String :=
  "no definition with id " ++ error.id.text

end Builder

/-- A step of building a program. -/
abbrev Builder := StateT Builder.Progress (Except Builder.UnknownDefinition)

namespace Builder

/-- Place the nodes made from now on on a line. -/
def line (number : Nat) : Builder Unit :=
  modify fun progress => { progress with line := number, column := 0 }

/-- Make a node. -/
def node : Builder NodeId :=
  modifyGet fun progress =>
    (progress.nextId,
      { progress with
        nextId := progress.nextId + 1
        column := progress.column + 1
        locations :=
          progress.locations.insert progress.nextId (Span.point progress.line (progress.column + 1)) })

/-- Make a node that defines a name. -/
def named (name : String) : Builder NodeId := do
  let id ← node
  modify fun progress => { progress with names := progress.names.insert id name }
  return id

/-- The name that a node defines. -/
def nameOf (id : NodeId) : Builder String := do
  match (← get).names[id]? with
  | some name => return name
  | none => throw ⟨id⟩

/-- Note whether an expression designates a place. -/
def markPlace (id : NodeId) (place : Bool) : Builder Unit :=
  modify fun progress => { progress with places := progress.places.insert id place }

/-- Note the definition that a use refers to. -/
def linkTo (id target : NodeId) : Builder Unit :=
  modify fun progress => { progress with definitions := progress.definitions.insert id target }

/-- Number a function, so that it can be called before it is built. -/
def reserveFunction (name : String) : Builder NodeId := named name

/-- Build a function that has been numbered. -/
def function (id : NodeId) (params : List Param) (body : List Stmt) : Builder Def := do
  let name ← nameOf id
  return .fn ⟨id, name, params, body⟩

/-- Build a parameter. -/
def param (name : String) : Builder Param := do
  return ⟨← named name, name⟩

/-- Build a variable. -/
def varDef (name : String) (items : List InitItem) : Builder Def := do
  return .var ⟨← named name, name, items⟩

/-- Build a constant with a given spelling. -/
def atom (kind : AtomKind) (lexeme : String) : Builder Atom := do
  return ⟨← node, kind, lexeme⟩

/-- Build an integer constant. -/
def intAtom (value : Int) : Builder Atom := atom .int (Literal.ofInt value)

/-- Build a character constant. -/
def charAtom (value : Char) : Builder Atom := atom .char (Literal.ofChar value)

/-- Build a string constant. -/
def textAtom (value : String) : Builder Atom := atom .str (Literal.ofText value)

/-- Build an element of an initializer. -/
def initItem (count : Int) (value : Atom) : Builder InitItem := do
  let id ← node
  let count ← intAtom count
  return ⟨id, count, value⟩

/-- Build the expression for a constant. -/
def atomExpr (atom : Atom) : Builder Expr := do
  markPlace atom.id false
  return .atom atom.id atom

/-- Build a use of a variable or parameter. -/
def use (target : NodeId) : Builder Expr := do
  let id ← node
  linkTo id target
  let name ← nameOf target
  markPlace id true
  return .var id name

/-- Build a call. -/
def call (target : NodeId) (args : List Expr) : Builder Expr := do
  let id ← node
  linkTo id target
  let name ← nameOf target
  markPlace id false
  return .call id name args

/-- Build an operation on one operand. -/
def unary (op : UnaryOp) (operand : Expr) : Builder Expr := do
  let id ← node
  markPlace id (op == .valueAt)
  return .unary id op operand

/-- Build an operation on two operands. -/
def binary (op : BinaryOp) (first second : Expr) : Builder Expr := do
  let id ← node
  markPlace id false
  return .binary id op first second

/-- Build an expression statement. -/
def exprStmt (value : Expr) : Builder Stmt := do
  return .expr (← node) value

/-- Build an assignment. -/
def assign (target source : Expr) : Builder Stmt := do
  return .assign (← node) target source

/-- Build a conditional statement. -/
def cond (test : Expr) (yes no : List Stmt) : Builder Stmt := do
  return .cond (← node) test yes no

/-- Build a loop. -/
def loop (test : Expr) (body : List Stmt) : Builder Stmt := do
  return .loop (← node) test body

/-- Build a block. -/
def block (defs : List Def) (body : List Stmt) : Builder Stmt := do
  return .block (← node) defs body

/-- The program with given definitions and the attributes found so far. -/
def Progress.finish (progress : Progress) (defs : List Def) : Program :=
  ⟨defs, progress.locations, progress.definitions, progress.places⟩

end Builder

end ScopeStack
