import ScopeStack.Executable

/-!
# Running a program

A step carries out one instruction. It counts as a step once the instruction
has been found, whether or not it faults. A machine that has halted stays as
it is. A run takes steps until the machine halts or faults, or until it has
taken as many as it was given.
-/

namespace ScopeStack

/-- How a run ends. -/
inductive Outcome where
  | exited (code : Int)
  | faulted (fault : Fault)
  /-- The machine could go on. -/
  | unfinished
deriving DecidableEq, Repr

namespace Executable

/-- The limit that a number of steps has reached. -/
def reachedLimit? (executable : Executable) (steps : Nat) : Option Nat :=
  executable.config.maxSteps.filter fun limit => limit ≤ steps

/-- Carry out the next instruction of a running machine. -/
def advance (executable : Executable) : Exec Unit := do
  let state ← get
  if let some limit := executable.reachedLimit? state.steps then throw (.stepLimit limit)
  match executable.slots[state.registers.pc]? with
  | none => throw (.invalidPc state.registers.pc)
  | some opcode =>
    modify fun state => { state with steps := state.steps + 1 }
    Exec.execute (state.registers.pc + opcode.size) opcode

/-- Take a step. -/
def step (executable : Executable) : Exec Status := do
  match (← get).status with
  | .halted exitCode => return .halted exitCode
  | .running =>
    executable.advance
    return (← get).status

/-- Take steps until the machine halts or faults, at most a given number. -/
def run (executable : Executable) : Nat → State → Outcome × State
  | 0, state => (.unfinished, state)
  | fuel + 1, state =>
    match executable.step.run state with
    | .ok (.halted exitCode) next => (.exited exitCode, next)
    | .ok .running next => executable.run fuel next
    | .error fault next => (.faulted fault, next)

end Executable

end ScopeStack
