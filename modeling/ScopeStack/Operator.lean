import ScopeStack.Word

/-!
# Operators

The operators of the language are the operators of the machine. Arithmetic
wraps at 32 bits, comparisons and connectives give one or zero, and only
division can fail.
-/

namespace ScopeStack

/-- An operator on two words. -/
inductive BinaryOp where
  | or
  | and
  | eq
  | ne
  | gt
  | lt
  | ge
  | le
  | add
  | sub
  | mul
  | div
  | mod
deriving DecidableEq, Repr

namespace BinaryOp

/-- The operator as it is written in a program. -/
def symbol : BinaryOp → String
  | .or => "||"
  | .and => "&&"
  | .eq => "=="
  | .ne => "!="
  | .gt => ">"
  | .lt => "<"
  | .ge => ">="
  | .le => "<="
  | .add => "+"
  | .sub => "-"
  | .mul => "*"
  | .div => "/"
  | .mod => "%"

/-- The operator as it is written in a listing. -/
def mnemonic : BinaryOp → String
  | .or => "OR"
  | .and => "AND"
  | .eq => "EQU"
  | .ne => "NEQ"
  | .gt => "GTH"
  | .lt => "LTH"
  | .ge => "GEQ"
  | .le => "LEQ"
  | .add => "ADD"
  | .sub => "SUB"
  | .mul => "MUL"
  | .div => "DIV"
  | .mod => "MOD"

/-- The operator compares its operands. -/
def isRelational : BinaryOp → Bool
  | .eq | .ne | .gt | .lt | .ge | .le => true
  | _ => false

/-- The value of an operator, or nothing for a division by zero. Division
truncates toward zero, and the remainder has the sign of the dividend. -/
def eval? (first second : Word) : BinaryOp → Option Word
  | .or => some (Word.ofBool (first != 0 || second != 0))
  | .and => some (Word.ofBool (first != 0 && second != 0))
  | .eq => some (Word.ofBool (first == second))
  | .ne => some (Word.ofBool (first != second))
  | .gt => some (Word.ofBool (decide (second < first)))
  | .lt => some (Word.ofBool (decide (first < second)))
  | .ge => some (Word.ofBool (decide (second ≤ first)))
  | .le => some (Word.ofBool (decide (first ≤ second)))
  | .add => some (first + second)
  | .sub => some (first - second)
  | .mul => some (first * second)
  | .div => if second = 0 then none else some (first / second)
  | .mod => if second = 0 then none else some (first % second)

end BinaryOp

/-- An operator of the machine on one word. -/
inductive UnaryOper where
  | not
  | neg
deriving DecidableEq, Repr

namespace UnaryOper

/-- The operator as it is written in a listing. -/
def mnemonic : UnaryOper → String
  | .not => "NOT"
  | .neg => "NEG"

/-- The value of an operator. -/
def eval (value : Word) : UnaryOper → Word
  | .not => Word.ofBool (value == 0)
  | .neg => -value

end UnaryOper

end ScopeStack
