import ScopeStack.Machine.Run
import ScopeStack.Proofs.Machine.Memory
import ScopeStack.Proofs.Words

/-!
# Operations of a running machine

A running state is written with its program counter, frame pointer, stack
pointer and memory; the end of the heap and the streams, which few operations
change, are its `Ambient`. Each operation of the machine has a lemma that gives
the running state after it, on a stack that is `Stacked`: above the heap and
inside memory.
-/

namespace ScopeStack

/-- A fault of memory or of the input. -/
def Fault.OfAccess : Fault → Prop
  | .memoryFault _ => True
  | .endOfInput => True
  | .badNumber _ => True
  | .badToken _ => True
  | .badLine => True
  | _ => False

section Accesses

variable {memory : Memory} {address : Int} {fault : Fault}

/-- Loading fails with a fault of memory. -/
theorem Memory.ofAccess_of_load (failed : memory.load address = .error fault) :
    fault.OfAccess := by
  rw [load] at failed
  split at failed <;> cases failed
  trivial

/-- Storing fails with a fault of memory. -/
theorem Memory.ofAccess_of_store {value : Word}
    (failed : memory.store address value = .error fault) : fault.OfAccess := by
  rw [store] at failed
  split at failed <;> cases failed
  trivial

/-- Clearing fails with a fault of memory. -/
theorem Memory.ofAccess_of_clear {length : Nat}
    (failed : memory.clear address length = .error fault) : fault.OfAccess := by
  rw [clear] at failed
  split at failed <;> cases failed
  trivial

/-- Reading a text from memory fails with a fault of memory. -/
theorem Exec.ofAccess_of_textFrom {count : Nat} {seen : List Char}
    (failed : textFrom memory count address seen = .error fault) : fault.OfAccess := by
  induction count generalizing address seen with
  | zero =>
    cases failed
    trivial
  | succ count hypothesis =>
    rw [textFrom] at failed
    split at failed
    next other unreadable =>
      cases failed
      exact Memory.ofAccess_of_load unreadable
    · split at failed
      · cases failed
      · exact hypothesis failed

variable {input : List UInt8}

/-- Reading a word of the input fails with a fault of the input. -/
theorem Input.ofAccess_of_readToken (failed : (readToken input).1 = .error fault) :
    fault.OfAccess := by
  simp only [readToken] at failed
  split at failed
  · cases failed
    trivial
  · split at failed <;> cases failed
    trivial

/-- Reading a number fails with a fault of the input. -/
theorem Input.ofAccess_of_readInt (failed : (readInt input).1 = .error fault) :
    fault.OfAccess := by
  simp only [readInt, bind, Except.bind] at failed
  split at failed
  next other unread =>
    cases failed
    exact ofAccess_of_readToken unread
  · split at failed <;> cases failed
    trivial

/-- Reading a line fails with a fault of the input. -/
theorem Input.ofAccess_of_readLine (failed : (readLine input).1 = .error fault) :
    fault.OfAccess := by
  simp only [readLine] at failed
  split at failed
  · cases failed
    trivial
  · split at failed <;> cases failed
    trivial

end Accesses

/-- The end of the heap, the input that is left and the output so far. -/
structure Ambient where
  hp : Int
  input : List UInt8
  output : Output

/-- A state of a machine that runs. -/
def State.running (pc fp sp : Int) (memory : Memory) (ambient : Ambient) (steps : Nat) : State where
  registers := ⟨pc, fp, sp, ambient.hp⟩
  memory := memory
  status := .running
  steps := steps
  input := ambient.input
  output := ambient.output

/-- What a state says beside its program counter, frame, stack and memory. -/
def State.ambient (state : State) : Ambient := ⟨state.registers.hp, state.input, state.output⟩

/-- A state in which the machine runs is made of its parts. -/
theorem State.eq_running {state : State} (running : state.status = .running) :
    state = .running state.registers.pc state.registers.fp state.registers.sp state.memory
      state.ambient state.steps := by
  obtain ⟨registers, memory, status, steps, input, output⟩ := state
  obtain rfl := running
  rfl

/-- The stack lies between the heap and the end of memory. -/
structure Stacked (sp : Int) (memory : Memory) (ambient : Ambient) : Prop where
  code : memory.codeSize ≤ ambient.hp
  heap : ambient.hp ≤ sp
  top : sp ≤ memory.size

namespace Stacked

variable {sp : Int} {memory : Memory} {ambient : Ambient}

/-- A word of the stack can be read and written. -/
theorem addressable (stacked : Stacked sp memory ambient) {address : Int} (above : ambient.hp ≤ address)
    (inside : address + 4 ≤ memory.size) : memory.Addressable address 4 :=
  ⟨Int.le_trans stacked.code above, inside⟩

/-- The stack pointer may move inside the stack, and other memory of the same
extent may be looked at. -/
theorem moved (stacked : Stacked sp memory ambient) {other : Int} {after : Memory}
    (above : ambient.hp ≤ other) (inside : other ≤ memory.size) (size : after.size = memory.size)
    (codeSize : after.codeSize = memory.codeSize) : Stacked other after ambient where
  code := codeSize ▸ stacked.code
  heap := above
  top := size ▸ inside

/-- Popping leaves a stack. -/
theorem popped (stacked : Stacked sp memory ambient) {other : Int} (above : sp ≤ other)
    (inside : other ≤ memory.size) : Stacked other memory ambient :=
  stacked.moved (Int.le_trans stacked.heap above) inside rfl rfl

end Stacked

namespace Exec

section Run

variable {α β : Type} {state next : State}

/-- After an operation that succeeds the rest goes on. -/
theorem run_bind_of_ok {action : Exec α} {later : α → Exec β} {value : α}
    (done : action.run state = .ok value next) :
    (action >>= later).run state = (later value).run next := by
  simp only [EStateM.run, bind, EStateM.bind] at done ⊢
  rw [done]

/-- After an operation that faults the rest is not carried out. -/
theorem run_bind_of_error {action : Exec α} {later : α → Exec β} {fault : Fault}
    (failed : action.run state = .error fault next) :
    (action >>= later).run state = .error fault next := by
  simp only [EStateM.run, bind, EStateM.bind] at failed ⊢
  rw [failed]

/-- Looking at the state. -/
theorem run_get : (get : Exec State).run state = .ok state state := rfl

/-- Changing the state. -/
theorem run_modify (change : State → State) :
    (modify change : Exec Unit).run state = .ok () (change state) := rfl

end Run

variable {pc fp sp : Int} {memory : Memory} {ambient : Ambient} {steps : Nat}

/-- Going on at an address. -/
theorem run_jump (address : Int) :
    (jump address).run (.running pc fp sp memory ambient steps) =
      .ok () (.running address fp sp memory ambient steps) := rfl

/-- Loading a word that can be read. -/
theorem run_load {address : Int} (readable : memory.Addressable address 4) :
    (load address).run (.running pc fp sp memory ambient steps) =
      .ok (memory.word address) (.running pc fp sp memory ambient steps) := by
  rw [load, run_bind_of_ok run_get]
  dsimp only [State.running]
  rw [Memory.load, if_pos readable]
  rfl

/-- Loading a word that cannot be read. -/
theorem run_load_of_not_addressable {address : Int} (unreadable : ¬memory.Addressable address 4) :
    (load address).run (.running pc fp sp memory ambient steps) =
      .error (.memoryFault address) (.running pc fp sp memory ambient steps) := by
  rw [load, run_bind_of_ok run_get]
  dsimp only [State.running]
  rw [Memory.load, if_neg unreadable]
  rfl

/-- Storing a word where it can be written. -/
theorem run_store {address : Int} {value : Word} (writable : memory.Addressable address 4) :
    (store address value).run (.running pc fp sp memory ambient steps) =
      .ok () (.running pc fp sp (memory.setWord address value) ambient steps) := by
  rw [store, run_bind_of_ok run_get]
  dsimp only [State.running]
  rw [Memory.store, if_pos writable]
  rfl

/-- Pushing a word if there is room for it. -/
theorem run_push {value : Word} (room : ambient.hp ≤ sp - 4)
    (writable : memory.Addressable (sp - 4) 4) :
    (push value).run (.running pc fp sp memory ambient steps) =
      .ok () (.running pc fp (sp - 4) (memory.setWord (sp - 4) value) ambient steps) := by
  rw [push, run_bind_of_ok run_get]
  have fits : ¬sp - 4 < ambient.hp := by omega
  dsimp only [State.running]
  rw [if_neg fits]
  exact run_bind_of_ok (run_store writable)

/-- Pushing a word if there is no room for it. -/
theorem run_push_of_full {value : Word} (full : sp - 4 < ambient.hp) :
    (push value).run (.running pc fp sp memory ambient steps) =
      .error .stackOverflow (.running pc fp sp memory ambient steps) := by
  rw [push, run_bind_of_ok run_get]
  dsimp only [State.running]
  rw [if_pos full]
  rfl

/-- Popping a word that can be read. -/
theorem run_pop_of_addressable (readable : memory.Addressable sp 4) :
    pop.run (.running pc fp sp memory ambient steps) =
      .ok (memory.word sp) (.running pc fp (sp + 4) memory ambient steps) := by
  rw [pop, run_bind_of_ok run_get]
  have fits : ¬(memory.size : Int) < sp + 4 := Int.not_lt.mpr readable.2
  refine (congrArg (EStateM.run · _) (if_neg fits)).trans ?_
  exact run_bind_of_ok (run_load readable)

/-- Popping a word of the stack. -/
theorem run_pop (stacked : Stacked sp memory ambient) (inside : sp + 4 ≤ memory.size) :
    pop.run (.running pc fp sp memory ambient steps) =
      .ok (memory.word sp) (.running pc fp (sp + 4) memory ambient steps) :=
  run_pop_of_addressable (stacked.addressable stacked.heap inside)

/-- Popping a number that can be read. -/
theorem run_popInt_of_addressable (readable : memory.Addressable sp 4) :
    popInt.run (.running pc fp sp memory ambient steps) =
      .ok (memory.word sp).toInt (.running pc fp (sp + 4) memory ambient steps) := by
  rw [popInt, run_bind_of_ok (run_pop_of_addressable readable)]
  rfl

/-- Popping a number of the stack. -/
theorem run_popInt (stacked : Stacked sp memory ambient) (inside : sp + 4 ≤ memory.size) :
    popInt.run (.running pc fp sp memory ambient steps) =
      .ok (memory.word sp).toInt (.running pc fp (sp + 4) memory ambient steps) :=
  run_popInt_of_addressable (stacked.addressable stacked.heap inside)

/-- Popping a word that is not there. -/
theorem run_pop_of_empty (empty : memory.size < sp + 4) :
    pop.run (.running pc fp sp memory ambient steps) =
      .error .stackUnderflow (.running pc fp sp memory ambient steps) := by
  rw [pop, run_bind_of_ok run_get]
  exact congrArg (EStateM.run · _) (if_pos empty)

/-- Popping a number that is not there. -/
theorem run_popInt_of_empty (empty : memory.size < sp + 4) :
    popInt.run (.running pc fp sp memory ambient steps) =
      .error .stackUnderflow (.running pc fp sp memory ambient steps) :=
  run_bind_of_error (run_pop_of_empty empty)

/-- Writing what the output takes. -/
theorem run_write {bytes : List UInt8} (fits : ambient.output.fits bytes = true) :
    (write bytes).run (.running pc fp sp memory ambient steps) =
      .ok () (.running pc fp sp memory
        { ambient with output := ambient.output.write bytes } steps) := by
  rw [write, run_bind_of_ok run_get]
  dsimp only [State.running]
  rw [fits]
  rfl

/-- Writing what the output does not take. -/
theorem run_write_of_full {bytes : List UInt8} (full : ambient.output.fits bytes = false) :
    (write bytes).run (.running pc fp sp memory ambient steps) =
      .error .outputFull (.running pc fp sp memory
        { ambient with output := ambient.output.write bytes } steps) := by
  rw [write, run_bind_of_ok run_get]
  dsimp only [State.running]
  rw [full]
  rfl

/-- Reading what the input has. -/
theorem run_read {α : Type} {reader : List UInt8 → Except Fault α × List UInt8} {value : α}
    {rest : List UInt8} (found : reader ambient.input = (.ok value, rest)) :
    (read reader).run (.running pc fp sp memory ambient steps) =
      .ok value (.running pc fp sp memory { ambient with input := rest } steps) := by
  rw [read, run_bind_of_ok run_get]
  dsimp only [State.running]
  rw [found]
  rfl

/-- Reading what the input does not have. -/
theorem run_read_of_error {α : Type} {reader : List UInt8 → Except Fault α × List UInt8}
    {fault : Fault} {rest : List UInt8} (found : reader ambient.input = (.error fault, rest)) :
    (read reader).run (.running pc fp sp memory ambient steps) =
      .error fault (.running pc fp sp memory { ambient with input := rest } steps) := by
  rw [read, run_bind_of_ok run_get]
  dsimp only [State.running]
  rw [found]
  rfl

/-- Pushing a word where one has just been popped. -/
theorem run_push_back {value : Word} {steps : Nat} (stacked : Stacked sp memory ambient)
    (inside : sp + 4 ≤ memory.size) :
    (push value).run (.running pc fp (sp + 4) memory ambient steps) =
      .ok () (.running pc fp sp (memory.setWord sp value) ambient steps) := by
  have back : sp + 4 - 4 = sp := by omega
  have pushed := @run_push pc fp (sp + 4) memory ambient steps value
    (by rw [back]; exact stacked.heap)
    (by rw [back]; exact stacked.addressable stacked.heap inside)
  rwa [back] at pushed

section Instructions

variable {next : Int}

/-- The instruction that pushes a word. -/
theorem execute_push {value : Word} (room : ambient.hp ≤ sp - 4)
    (writable : memory.Addressable (sp - 4) 4) :
    (execute next (.push value)).run (.running pc fp sp memory ambient steps) =
      .ok () (.running next fp (sp - 4) (memory.setWord (sp - 4) value) ambient steps) := by
  rw [execute, run_bind_of_ok (run_push room writable), run_jump]

/-- The frame pointer is pushed like any other word. -/
theorem execute_regn :
    (execute next (.regn .fp)).run (.running pc fp sp memory ambient steps) =
      (do
        push (Word.ofInt fp)
        jump next : Exec Unit).run (.running pc fp sp memory ambient steps) := by
  rw [execute, run_bind_of_ok run_get]
  dsimp only [State.running]
  rw [pushAddress]

/-- The instruction that replaces an address by the word at it. -/
theorem execute_load (stacked : Stacked sp memory ambient) (inside : sp + 4 ≤ memory.size)
    (readable : memory.Addressable (memory.word sp).toInt 4) :
    (execute next .load).run (.running pc fp sp memory ambient steps) =
      .ok () (.running next fp sp (memory.setWord sp (memory.word (memory.word sp).toInt)) ambient
        steps) := by
  rw [execute, run_bind_of_ok (run_popInt stacked inside), run_bind_of_ok (run_load readable),
    run_bind_of_ok (run_push_back stacked inside), run_jump]

/-- The same instruction, with an address that cannot be read. -/
theorem execute_load_of_not_addressable (stacked : Stacked sp memory ambient)
    (inside : sp + 4 ≤ memory.size)
    (unreadable : ¬memory.Addressable (memory.word sp).toInt 4) :
    (execute next .load).run (.running pc fp sp memory ambient steps) =
      .error (.memoryFault (memory.word sp).toInt)
        (.running pc fp (sp + 4) memory ambient steps) := by
  rw [execute, run_bind_of_ok (run_popInt stacked inside)]
  exact run_bind_of_error (run_load_of_not_addressable unreadable)

/-- The instruction for an operator with one operand. -/
theorem execute_unary {op : UnaryOper} (stacked : Stacked sp memory ambient)
    (inside : sp + 4 ≤ memory.size) :
    (execute next (.unary op)).run (.running pc fp sp memory ambient steps) =
      .ok () (.running next fp sp (memory.setWord sp (op.eval (memory.word sp))) ambient steps) := by
  rw [execute, run_bind_of_ok (run_pop stacked inside),
    run_bind_of_ok (run_push_back stacked inside), run_jump]

/-- The topmost word is the second operand. -/
theorem execute_binary {op : BinaryOp} {value : Word} (stacked : Stacked sp memory ambient)
    (inside : sp + 8 ≤ memory.size)
    (defined : op.eval? (memory.word (sp + 4)) (memory.word sp) = some value) :
    (execute next (.binary op)).run (.running pc fp sp memory ambient steps) =
      .ok () (.running next fp (sp + 4) (memory.setWord (sp + 4) value) ambient steps) := by
  have higher : Stacked (sp + 4) memory ambient := stacked.popped (by omega) (by omega)
  rw [execute, run_bind_of_ok (run_pop stacked (by omega)),
    run_bind_of_ok (run_pop higher (by omega)), defined]
  exact run_bind_of_ok (run_push_back higher (by omega))

/-- The instruction for an operator with two operands that has no value for them. -/
theorem execute_binary_of_undefined {op : BinaryOp} (stacked : Stacked sp memory ambient)
    (inside : sp + 8 ≤ memory.size)
    (undefined : op.eval? (memory.word (sp + 4)) (memory.word sp) = none) :
    (execute next (.binary op)).run (.running pc fp sp memory ambient steps) =
      .error .divisionByZero (.running pc fp (sp + 4 + 4) memory ambient steps) := by
  have higher : Stacked (sp + 4) memory ambient := stacked.popped (by omega) (by omega)
  rw [execute, run_bind_of_ok (run_pop stacked (by omega)),
    run_bind_of_ok (run_pop higher (by omega)), undefined]
  rfl

end Instructions

end Exec

namespace Executable

variable {executable : Executable} {state : State}

/-- A machine that has stopped stays so. -/
theorem step_of_halted {exitCode : Int} (halted : state.status = .halted exitCode) :
    executable.step.run state = .ok (.halted exitCode) state := by
  refine (Exec.run_bind_of_ok Exec.run_get).trans ?_
  rw [halted]
  rfl

section Running

variable (running : state.status = .running)

include running

/-- A step of a running machine advances it. -/
theorem step_of_running :
    executable.step.run state =
      (do executable.advance; return (← get).status : Exec Status).run state := by
  refine (Exec.run_bind_of_ok Exec.run_get).trans ?_
  rw [running]

/-- A machine that has used up its steps takes none. -/
theorem step_of_limit {limit : Nat} (reached : executable.reachedLimit? state.steps = some limit) :
    executable.step.run state = .error (.stepLimit limit) state := by
  refine (step_of_running running).trans (Exec.run_bind_of_error ?_)
  refine (Exec.run_bind_of_ok Exec.run_get).trans ?_
  rw [reached]
  rfl

variable (allowed : executable.reachedLimit? state.steps = none)

include allowed

/-- A machine takes no step where there is no instruction. -/
theorem step_of_missing (missing : executable.slots[state.registers.pc]? = none) :
    executable.step.run state = .error (.invalidPc state.registers.pc) state := by
  refine (step_of_running running).trans (Exec.run_bind_of_error ?_)
  refine (Exec.run_bind_of_ok Exec.run_get).trans ?_
  rw [allowed, missing]
  rfl

/-- A step of a machine that has not reached its limit carries out the
instruction at its program counter. -/
theorem step_of_fetch {opcode : Opcode}
    (fetch : executable.slots[state.registers.pc]? = some opcode) :
    executable.step.run state =
      (do
        Exec.execute (state.registers.pc + opcode.size) opcode
        return (← get).status : Exec Status).run { state with steps := state.steps + 1 } := by
  have advances : executable.advance.run state =
      (Exec.execute (state.registers.pc + opcode.size) opcode).run
        { state with steps := state.steps + 1 } := by
    refine (Exec.run_bind_of_ok Exec.run_get).trans ?_
    rw [allowed, fetch]
    rfl
  refine (step_of_running running).trans ?_
  simp only [EStateM.run, bind, EStateM.bind] at advances ⊢
  rw [advances]

end Running

end Executable

end ScopeStack
