import ScopeStack.Diagnostic
import ScopeStack.Text.Decimal
import ScopeStack.Text.Quoted
import ScopeStack.Text.Utf8

/-!
# Faults

A fault is the reason why an instruction cannot be carried out.
-/

namespace ScopeStack

/-- Why the machine stops. -/
inductive Fault where
  /-- An address outside data, heap and stack. -/
  | memoryFault (address : Int)
  /-- The stack would run into the heap. -/
  | stackOverflow
  /-- More is taken from the stack than there is. -/
  | stackUnderflow
  /-- No room for a block of the heap. -/
  | heapExhausted (size : Int)
  | divisionByZero
  /-- Execution reaches an address without an instruction. -/
  | invalidPc (address : Int)
  /-- The permitted number of instructions is used up. -/
  | stepLimit (limit : Nat)
  /-- The input has ended. -/
  | endOfInput
  /-- A word of the input is not a number. -/
  | badNumber (token : String)
  /-- A word of the input is not text. -/
  | badToken (cause : Utf8.Malformed)
  /-- A line of the input is not text. -/
  | badLine
  /-- The output does not take what is written. -/
  | outputFull
deriving DecidableEq, Repr

namespace Fault

/-- What went wrong. -/
def message : Fault → String
  | .memoryFault address => "memory fault at address " ++ Decimal.text address
  | .stackOverflow => "stack overflow"
  | .stackUnderflow => "stack underflow"
  | .heapExhausted size => "heap exhausted allocating " ++ Decimal.text size ++ " bytes"
  | .divisionByZero => "division by zero"
  | .invalidPc address => "no instruction at address " ++ Decimal.text address
  | .stepLimit limit => "step limit of " ++ toString limit ++ " instructions reached"
  | .endOfInput => "end of input"
  | .badNumber token => "bad integer input " ++ Quoted.quote token.toList
  | .badToken cause => "bad integer input " ++ Quoted.quote cause.message.toList
  | .badLine => "i/o error: stream did not contain valid UTF-8"
  | .outputFull => "i/o error: failed to write whole buffer"

/-- The number of the error. -/
def code : Fault → DiagnosticCode
  | .memoryFault _ => ⟨400⟩
  | .stackOverflow => ⟨401⟩
  | .stackUnderflow => ⟨400⟩
  | .heapExhausted _ => ⟨402⟩
  | .divisionByZero => ⟨403⟩
  | .invalidPc _ => ⟨404⟩
  | .stepLimit _ => ⟨405⟩
  | .endOfInput => ⟨406⟩
  | .badNumber _ => ⟨407⟩
  | .badToken _ => ⟨407⟩
  | .badLine => ⟨408⟩
  | .outputFull => ⟨408⟩

/-- The fault as it is reported. -/
def toDiagnostic (fault : Fault) : Diagnostic :=
  Diagnostic.ofCode fault.code fault.message none

end Fault

end ScopeStack
