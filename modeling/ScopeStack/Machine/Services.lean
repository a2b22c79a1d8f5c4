import ScopeStack.Machine.State
import ScopeStack.Service

/-!
# What the services do

A service finds its arguments on the stack below an access link, which it does
not use. It leaves one word as its result, except that `exit` stops the
machine.
-/

namespace ScopeStack.Exec

/-- Store words one after another, and a zero word after them. -/
def storeText (address : Int) : List Char → Exec Unit
  | [] => store address 0
  | char :: rest => do
    store address (Word.ofInt char.toNat)
    storeText (address + 4) rest

/-- The character whose code is a word, or the replacement character. -/
def charOfWord (word : Word) : Char :=
  if (Word.bits word).isValidChar then Char.ofNat (Word.bits word) else '�'

/-- The characters of the words before the first zero word, after those seen
before, which are in reverse. A memory has no more words than it has bytes, so
a search of that length meets a zero word or the end. -/
def textFrom (memory : Memory) : Nat → Int → List Char → Except Fault (List Char)
  | 0, address, _ => .error (.memoryFault address)
  | count + 1, address, seen =>
    match memory.load address with
    | .error fault => .error fault
    | .ok word =>
      if word = 0 then .ok seen.reverse
      else textFrom memory count (address + 4) (charOfWord word :: seen)

/-- The text at an address. -/
def textAt (memory : Memory) (address : Int) : Except Fault (List Char) :=
  textFrom memory (memory.size + 1) address []

/-- Reserve a block at the end of the heap and make it zero. -/
def allocate (size : Int) : Exec Int := do
  let state ← get
  let address := state.registers.hp
  if size < 0 ∨ state.registers.sp < address + size then throw (.heapExhausted size)
  let memory ← ofExcept (state.memory.clear address size.toNat)
  modify fun state => { state with memory }
  setRegisters fun registers => { registers with hp := address + size }
  return address

/-- Stop the machine. -/
def halt (exitCode : Int) : Exec Unit :=
  modify fun state => { state with status := .halted exitCode }

/-- The result of a service, once its access link is gone; none if the machine
has stopped. -/
def serve : Service → Exec (Option Word)
  | .exit => do
    let exitCode ← popInt
    halt exitCode
    return none
  | .getint => return some (Word.ofInt (← read Input.readInt))
  | .putint => do
    let value ← popInt
    write (Utf8.encode (Decimal.render value))
    return some 1
  | .getstr => do
    let address ← popInt
    let line ← read Input.readLine
    storeText address line
    return some 1
  | .putstr => do
    let address ← popInt
    let text ← ofExcept (textAt (← get).memory address)
    write (Utf8.encode text)
    return some 1
  | .new => do
    let size ← popInt
    return some (Word.ofInt (← allocate size))
  | .del => do
    let _ ← pop
    return some 1

/-- Call a service; unless it stops the machine, execution goes on at
`next`. -/
def callService (next : Int) (service : Service) : Exec Unit := do
  let _ ← pop
  match ← serve service with
  | some result =>
    push result
    jump next
  | none => pure ()

end ScopeStack.Exec
