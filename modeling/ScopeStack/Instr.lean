import ScopeStack.Operator
import ScopeStack.Span
import ScopeStack.Text.Decimal

/-!
# Instructions and data

The code of an image is a list of symbolic instructions and its data a list of
items. Labels take no room. An instruction with an operand takes five bytes,
every other instruction one byte, and a data word four.
-/

namespace ScopeStack

/-- A register that an instruction can read. -/
inductive Reg where
  | pc
  | fp
  | sp
deriving DecidableEq, Repr

/-- The name of a register. -/
def Reg.name : Reg → String
  | .pc => "PC"
  | .fp => "FP"
  | .sp => "SP"

/-- A symbolic instruction. -/
inductive Instr where
  /-- Bind a label to this address. -/
  | label (name : String)
  /-- Push a constant. -/
  | push (value : Int)
  /-- Push the address of a label or service. -/
  | name (target : String)
  /-- Pop an address and push the word there. -/
  | load
  /-- Pop an address and a word and store it there. -/
  | save
  /-- Pop a byte count and give up or reserve that much of the stack. -/
  | popn
  /-- Pop an operand and push the result. -/
  | unary (op : UnaryOper)
  /-- Pop two operands and push the result. -/
  | binary (op : BinaryOp)
  /-- Pop an address and go there. -/
  | ujmp
  /-- Pop two addresses and a condition and go to one of them. -/
  | cjmp
  /-- Pop an address and call what is there. -/
  | call (callee : Option String)
  /-- Return from a function. -/
  | retn (function : Option String)
  /-- Pop two addresses and expand the initializer at one to the other. -/
  | init
  /-- Push a register. -/
  | regn (reg : Reg)
deriving DecidableEq, Repr

namespace Instr

/-- The bytes that an instruction takes. -/
def size : Instr → Int
  | .label _ => 0
  | .push _ => 5
  | .name _ => 5
  | _ => 1

/-- A mnemonic with the function it refers to, if there is one. -/
def withName (mnemonic : String) : Option String → String
  | some function => mnemonic ++ " " ++ function
  | none => mnemonic

/-- An instruction as a listing shows it. -/
def text : Instr → String
  | .label bound => "LABEL " ++ bound
  | .push value => "PUSH " ++ Decimal.text value
  | .name target => "NAME " ++ target
  | .load => "LOAD"
  | .save => "SAVE"
  | .popn => "POPN"
  | .unary op => "OPER " ++ op.mnemonic
  | .binary op => "OPER " ++ op.mnemonic
  | .ujmp => "UJMP"
  | .cjmp => "CJMP"
  | .call callee => withName "CALL" callee
  | .retn function => withName "RETN" function
  | .init => "INIT"
  | .regn reg => "REGN " ++ reg.name

/-- The label that an instruction binds. -/
def label? : Instr → Option String
  | .label bound => some bound
  | _ => none

end Instr

/-- An item of the data segment. -/
inductive Datum where
  /-- Bind a label to this address. -/
  | label (name : String)
  /-- Leave room for a number of bytes. -/
  | size (bytes : Int)
  /-- A word with a value. -/
  | data (value : Int)
deriving DecidableEq, Repr

namespace Datum

/-- The bytes that an item takes. -/
def byteSize : Datum → Int
  | .label _ => 0
  | .size bytes => bytes
  | .data _ => 4

/-- An item as a listing shows it. -/
def text : Datum → String
  | .label bound => "LABEL " ++ bound
  | .size bytes => "SIZE " ++ Decimal.text bytes
  | .data value => "DATA " ++ Decimal.text value

/-- The label that an item binds. -/
def label? : Datum → Option String
  | .label bound => some bound
  | _ => none

end Datum

/-- Something with the place in the source that it stems from. -/
structure Located (α : Type) where
  item : α
  span : Option Span
deriving DecidableEq, Repr

/-- The code of a node, a function or an image. -/
abbrev Code := List (Located Instr)

/-- The data of a node or an image. -/
abbrev Data := List (Located Datum)

/-- Instructions that stem from one place. -/
def codeAt (span : Option Span) (instrs : List Instr) : Code := instrs.map (⟨·, span⟩)

/-- Data that stem from one place. -/
def dataAt (span : Option Span) (items : List Datum) : Data := items.map (⟨·, span⟩)

/-- The bytes that code takes. -/
def Code.size : Code → Int
  | [] => 0
  | line :: rest => line.item.size + Code.size rest

/-- The bytes that data take. -/
def Data.size : Data → Int
  | [] => 0
  | line :: rest => line.item.byteSize + Data.size rest

end ScopeStack
