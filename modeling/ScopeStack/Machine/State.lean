import ScopeStack.Machine.Memory
import ScopeStack.Machine.Stream

/-!
# The state of the machine

An operation either succeeds or faults, and both leave a state: a fault undoes
nothing of what the operation did before. The heap grows upward from the end
of the data and the stack downward from the top of memory.
-/

namespace ScopeStack

/-- The registers of the machine. -/
structure Registers where
  /-- Address of the next instruction. -/
  pc : Int
  /-- Frame pointer. -/
  fp : Int
  /-- Stack pointer: address of the topmost word. -/
  sp : Int
  /-- Heap pointer: end of the heap. -/
  hp : Int
deriving DecidableEq, Repr

/-- Whether the machine runs. -/
inductive Status where
  | running
  | halted (exitCode : Int)
deriving DecidableEq, Repr

/-- The state of the machine. -/
structure State where
  registers : Registers
  memory : Memory
  status : Status
  /-- Instructions carried out. -/
  steps : Nat
  input : List UInt8
  output : Output

/-- An operation of the machine. -/
abbrev Exec := EStateM Fault State

namespace Exec

/-- Give the result of a computation that can fault. -/
def ofExcept {α : Type} : Except Fault α → Exec α
  | .ok value => pure value
  | .error fault => throw fault

/-- Change the registers. -/
def setRegisters (change : Registers → Registers) : Exec Unit :=
  modify fun state => { state with registers := change state.registers }

/-- Go on at an address. -/
def jump (address : Int) : Exec Unit := setRegisters fun registers => { registers with pc := address }

/-- Read a word of memory. -/
def load (address : Int) : Exec Word := do
  ofExcept ((← get).memory.load address)

/-- Write a word of memory. -/
def store (address : Int) (value : Word) : Exec Unit := do
  let memory ← ofExcept ((← get).memory.store address value)
  modify fun state => { state with memory }

/-- Push a word. -/
def push (value : Word) : Exec Unit := do
  let registers := (← get).registers
  if registers.sp - 4 < registers.hp then throw .stackOverflow
  store (registers.sp - 4) value
  setRegisters fun registers => { registers with sp := registers.sp - 4 }

/-- Push an address. -/
def pushAddress (address : Int) : Exec Unit := push (Word.ofInt address)

/-- Pop a word. The stack ends where memory does. -/
def pop : Exec Word := do
  let state ← get
  if state.memory.size < state.registers.sp + 4 then throw .stackUnderflow
  let value ← load state.registers.sp
  setRegisters fun registers => { registers with sp := registers.sp + 4 }
  return value

/-- Pop a word and read it as an address, a size or a count. -/
def popInt : Exec Int := do
  return (← pop).toInt

/-- Write to the output. -/
def write (bytes : List UInt8) : Exec Unit := do
  let fits := (← get).output.fits bytes
  modify fun state => { state with output := state.output.write bytes }
  if !fits then throw .outputFull

/-- Take something from the input. -/
def read {α : Type} (reader : List UInt8 → Except Fault α × List UInt8) : Exec α := do
  let (result, rest) := reader (← get).input
  modify fun state => { state with input := rest }
  ofExcept result

/-- Do something a number of times. -/
def times : Nat → Exec Unit → Exec Unit
  | 0, _ => pure ()
  | count + 1, action => do
    action
    times count action

end Exec

end ScopeStack
