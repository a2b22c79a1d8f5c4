import ScopeStack.Instr
import ScopeStack.Machine.Services

/-!
# Instructions as the machine carries them out

Loading replaces names by addresses, so the machine knows only one instruction
that pushes a constant, and no labels.
-/

namespace ScopeStack

/-- An instruction of the machine. -/
inductive Opcode where
  | push (value : Word)
  | load
  | save
  | popn
  | unary (op : UnaryOper)
  | binary (op : BinaryOp)
  | ujmp
  | cjmp
  | call
  | retn
  | init
  | regn (reg : Reg)
deriving DecidableEq, Repr

namespace Opcode

/-- The bytes that an instruction takes. -/
def size : Opcode → Int
  | .push _ => 5
  | _ => 1

end Opcode

namespace Exec

/-- Give up or reserve stack space. A positive byte count pops words until it
is used up; a negative one pushes zero words until it is reached, and if it is
not a multiple of four the last of them goes again. -/
def shiftStack (bytes : Int) : Exec Unit := do
  if bytes < 0 then
    times ((-bytes + 3) / 4).toNat (push 0)
    if bytes % 4 ≠ 0 then discard pop
  else times ((bytes + 3) / 4).toNat (discard pop)

/-- Copy words upward, one at a time. -/
def copyWords : Nat → Int → Int → Exec Unit
  | 0, _, _ => pure ()
  | count + 1, source, target => do
    store target (← load source)
    copyWords count (source + 4) (target + 4)

/-- Copy the same words a number of times, one copy after another. -/
def copyRuns (length : Nat) (source : Int) : Nat → Int → Exec Unit
  | 0, _ => pure ()
  | times + 1, target => do
    copyWords length source target
    copyRuns length source times (target + 4 * length)

/-- Expand the records of a flat initializer. A count or length below zero
counts as none, but a negative length still moves the place to read from. -/
def expandRecords : Nat → Int → Int → Exec Unit
  | 0, _, _ => pure ()
  | records + 1, source, target => do
    let count := (← load source).toInt
    let length := (← load (source + 4)).toInt
    let times := if length ≤ 0 then 0 else count.toNat
    copyRuns length.toNat (source + 8) times target
    expandRecords records (source + 8 + 4 * length) (target + 4 * (times * length))

/-- Expand the flat initializer at one address to another. -/
def expandInitializer (source target : Int) : Exec Unit := do
  let records := (← load source).toInt
  expandRecords records.toNat (source + 4) target

/-- Leave a function: drop its frame and its parameters, go back to the caller
and push the result. -/
def leave : Exec Unit := do
  let parsSize ← popInt
  let result ← pop
  let state ← get
  let fp := state.registers.fp
  if fp < state.registers.sp then throw .stackUnderflow
  let returnAddress := (← load (fp - 8)).toInt
  let callerFp := (← load (fp - 4)).toInt
  let sp := fp + parsSize + 4
  if state.memory.size < sp ∨ parsSize < 0 then throw .stackUnderflow
  setRegisters fun registers => { registers with pc := returnAddress, fp := callerFp, sp }
  push result

/-- Enter the function at an address; it returns to `next`. -/
def enter (target next : Int) : Exec Unit := do
  pushAddress (← get).registers.fp
  pushAddress next
  setRegisters fun registers => { registers with pc := target, fp := registers.sp + 8 }

/-- Call a function of the program, or a service at a negative address. -/
def callAt (target next : Int) : Exec Unit :=
  if target < 0 then
    match Service.ofAddress? target with
    | some service => callService next service
    | none => throw (.invalidPc target)
  else enter target next

/-- Carry out an instruction; `next` is the address of the one after it. -/
def execute (next : Int) : Opcode → Exec Unit
  | .push value => do
    push value
    jump next
  | .load => do
    let address ← popInt
    push (← load address)
    jump next
  | .save => do
    let address ← popInt
    let value ← pop
    store address value
    jump next
  | .popn => do
    let bytes ← popInt
    shiftStack bytes
    jump next
  | .unary op => do
    let value ← pop
    push (op.eval value)
    jump next
  | .binary op => do
    let second ← pop
    let first ← pop
    match op.eval? first second with
    | some value =>
      push value
      jump next
    | none => throw .divisionByZero
  | .ujmp => do
    let target ← popInt
    jump target
  | .cjmp => do
    let yes ← popInt
    let no ← popInt
    let condition ← pop
    jump (if condition ≠ 0 then yes else no)
  | .call => do
    let target ← popInt
    callAt target next
  | .retn => leave
  | .init => do
    let source ← popInt
    let target ← popInt
    expandInitializer source target
    jump next
  | .regn reg => do
    let registers := (← get).registers
    let value :=
      match reg with
      | .pc => registers.pc
      | .fp => registers.fp
      | .sp => registers.sp
    pushAddress value
    jump next

end Exec

end ScopeStack
