import ScopeStack.Operator

/-!
# Syntax trees

A program is a list of definitions. Functions nest: a `let` statement may
define variables and further functions for its own statements. Every node has
a number, by which attributes refer to it; nothing here requires the numbers
to be distinct.
-/

namespace ScopeStack

/-- The number of a node. -/
abbrev NodeId := Nat

/-- A node number as it is shown. -/
def NodeId.text (id : NodeId) : String := "#" ++ toString id

/-- The kinds of constants. -/
inductive AtomKind where
  | int
  | char
  | str
deriving DecidableEq, Repr

/-- A constant as it is spelled in the source. -/
structure Atom where
  id : NodeId
  kind : AtomKind
  lexeme : String
deriving DecidableEq, Repr

/-- An operator on one expression. -/
inductive UnaryOp where
  | not
  | plus
  | minus
  | addressOf
  | valueAt
deriving DecidableEq, Repr

/-- An expression. -/
inductive Expr where
  | atom (id : NodeId) (atom : Atom)
  | unary (id : NodeId) (op : UnaryOp) (operand : Expr)
  | binary (id : NodeId) (op : BinaryOp) (first second : Expr)
  | var (id : NodeId) (name : String)
  | call (id : NodeId) (name : String) (args : List Expr)

/-- The number of an expression. -/
def Expr.id : Expr → NodeId
  | .atom id _ | .unary id _ _ | .binary id _ _ _ | .var id _ | .call id _ _ => id

/-- One element of an initializer: a value and how often it is repeated. -/
structure InitItem where
  id : NodeId
  count : Atom
  value : Atom
deriving DecidableEq, Repr

/-- The definition of a variable. -/
structure VarDef where
  id : NodeId
  name : String
  items : List InitItem
deriving DecidableEq, Repr

/-- A parameter of a function. -/
structure Param where
  id : NodeId
  name : String
deriving DecidableEq, Repr

mutual

/-- A statement. -/
inductive Stmt where
  | expr (id : NodeId) (value : Expr)
  | assign (id : NodeId) (target source : Expr)
  | cond (id : NodeId) (test : Expr) (yes no : List Stmt)
  | loop (id : NodeId) (test : Expr) (body : List Stmt)
  | block (id : NodeId) (defs : List Def) (body : List Stmt)

/-- The definition of a function. A function without statements is provided
by the machine. -/
structure FunDef where
  id : NodeId
  name : String
  params : List Param
  body : List Stmt

/-- A definition. -/
inductive Def where
  | fn (function : FunDef)
  | var (declared : VarDef)

end

/-- The number of a statement. -/
def Stmt.id : Stmt → NodeId
  | .expr id _ | .assign id _ _ | .cond id _ _ _ | .loop id _ _ | .block id _ _ => id

/-- The function has no body of its own. -/
def FunDef.isExternal (function : FunDef) : Bool := function.body.isEmpty

/-- The number of a definition. -/
def Def.id : Def → NodeId
  | .fn function => function.id
  | .var declared => declared.id

/-- The name that a definition introduces. -/
def Def.name : Def → String
  | .fn function => function.name
  | .var declared => declared.name

mutual

/-- The functions defined inside a statement. Those of a block's statements
come before those that the block itself defines. -/
def Stmt.functions : Stmt → List FunDef
  | .expr _ _ => []
  | .assign _ _ _ => []
  | .cond _ _ yes no => functionsOfStmts yes ++ functionsOfStmts no
  | .loop _ _ body => functionsOfStmts body
  | .block _ defs body => functionsOfStmts body ++ functionsOfDefs defs

/-- The functions defined inside statements. -/
def functionsOfStmts : List Stmt → List FunDef
  | [] => []
  | stmt :: rest => stmt.functions ++ functionsOfStmts rest

/-- The functions among definitions, each followed by those inside it. -/
def functionsOfDefs : List Def → List FunDef
  | [] => []
  | .fn ⟨id, name, params, body⟩ :: rest =>
    ⟨id, name, params, body⟩ :: functionsOfStmts body ++ functionsOfDefs rest
  | .var _ :: rest => functionsOfDefs rest

end

mutual

/-- The statement leaves a value: it is an expression, or a block whose
statements end in one. -/
def Stmt.leavesValue : Stmt → Bool
  | .expr _ _ => true
  | .assign _ _ _ => false
  | .cond _ _ _ _ => false
  | .loop _ _ _ => false
  | .block _ _ body => leavesValue body

/-- The last statement leaves a value. -/
def leavesValue : List Stmt → Bool
  | [] => false
  | stmt :: rest => if rest.isEmpty then stmt.leavesValue else leavesValue rest

end

end ScopeStack
