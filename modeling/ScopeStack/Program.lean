import ScopeStack.Span
import ScopeStack.Syntax
import Std.Data.TreeMap

/-!
# Attributed programs

A program is its definitions together with what earlier analyses found out
about its nodes. The attributes are tables from node numbers; an entry
written later replaces an earlier one, and a table lists its entries by
number.
-/

namespace ScopeStack

/-- A table of attributes by node number. -/
abbrev Table (α : Type) := Std.TreeMap NodeId α

/-- The name of the function in which a program starts. -/
def entryPoint : String := "main"

/-- A program with its attributes. -/
structure Program where
  defs : List Def
  /-- Where a node stands in the source. -/
  locations : Table Span
  /-- The definition that a use refers to. -/
  definitions : Table NodeId
  /-- Whether an expression designates a place in memory. -/
  places : Table Bool

namespace Program

/-- Where a node stands in the source. -/
def location? (program : Program) (id : NodeId) : Option Span := program.locations[id]?

/-- The definition that a use refers to. -/
def definition? (program : Program) (id : NodeId) : Option NodeId := program.definitions[id]?

/-- Whether an expression is known to designate a place in memory. -/
def isPlace (program : Program) (id : NodeId) : Bool := program.places[id]? == some true

/-- All functions of a program, outer ones before those nested in them. -/
def functions (program : Program) : List FunDef := functionsOfDefs program.defs

/-- The function in which execution starts: the first at the top level that
has the entry point's name and a body. -/
def entry? (program : Program) : Option FunDef :=
  program.defs.findSome? fun
    | .fn function =>
      if function.name = entryPoint ∧ !function.isExternal then some function else none
    | .var _ => none

end Program

end ScopeStack
