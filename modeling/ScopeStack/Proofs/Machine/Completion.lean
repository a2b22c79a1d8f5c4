import ScopeStack.Proofs.Machine.Operations

/-!
# Code that a machine gets through

`Executable.Completes` says that a machine without a limit on its steps carries out the
instructions between two addresses until it is at the second one, or faults for an expected
reason before. Unlike a `Watch`, this leaves no way out if the stack is full, so the rules for
instructions that push ask for room. They carry the property backward over an instruction.
-/

namespace ScopeStack

namespace Executable

/-- From a state, all instructions are those between two addresses until the machine arrives at
the second one in a state with a property, or faults for an expected reason. -/
inductive Completes (executable : Executable) (start stop : Int) (done : State → Prop)
    (expected : Fault → Prop) : State → Prop where
  | arrived {state : State} (finished : done state) :
      Completes executable start stop done expected state
  | faulted {state final : State} {fault : Fault} (low : start ≤ state.registers.pc)
      (high : state.registers.pc < stop) (failed : executable.step.run state = .error fault final)
      (expects : expected fault) : Completes executable start stop done expected state
  | advanced {state next : State} (low : start ≤ state.registers.pc)
      (high : state.registers.pc < stop) (stepped : executable.step.run state = .ok .running next)
      (later : Completes executable start stop done expected next) :
      Completes executable start stop done expected state

/-- Before each of a number of steps the machine is at an address between two others. -/
def StaysWithin (executable : Executable) (start stop : Int) (count : Nat) (state : State) : Prop :=
  ∀ earlier < count, ∃ middle, executable.run earlier state = (.unfinished, middle) ∧
    start ≤ middle.registers.pc ∧ middle.registers.pc < stop

variable {executable : Executable} {start stop : Int} {done : State → Prop}
  {expected : Fault → Prop}

/-- A run goes on after a step. -/
theorem run_of_running {state next : State}
    (stepped : executable.step.run state = .ok .running next) (count : Nat) :
    executable.run (count + 1) state = executable.run count next := by
  rw [run, stepped]

/-- The steps of a machine that completes a stretch of code. -/
theorem Completes.exists_run {state : State}
    (completes : executable.Completes start stop done expected state) :
    ∃ count, executable.StaysWithin start stop count state ∧
      ((∃ last, executable.run count state = (.unfinished, last) ∧ done last) ∨
        ∃ fault last, executable.run count state = (.faulted fault, last) ∧ expected fault) := by
  induction completes with
  | @arrived state finished =>
    exact ⟨0, fun _ less => absurd less (Nat.not_lt_zero _), .inl ⟨state, rfl, finished⟩⟩
  | @faulted state final fault low high failed expects =>
    refine ⟨1, fun earlier less => ?_, .inr ⟨fault, final, ?_, expects⟩⟩
    · obtain rfl := Nat.lt_one_iff.mp less
      exact ⟨state, rfl, low, high⟩
    · rw [run, failed]
  | @advanced state next low high stepped _ hypothesis =>
    obtain ⟨count, within, ends⟩ := hypothesis
    refine ⟨count + 1, fun earlier less => ?_, ?_⟩
    · cases earlier with
      | zero => exact ⟨state, rfl, low, high⟩
      | succ earlier =>
        rw [run_of_running stepped]
        exact within earlier (Nat.lt_of_succ_lt_succ less)
    · rw [run_of_running stepped]
      exact ends

section Rules

variable (unlimited : executable.config.maxSteps = none) {pc fp sp : Int} {memory : Memory}
  {ambient : Ambient} {opcode : Opcode} (fetch : executable.slots[pc]? = some opcode)
  (low : start ≤ pc) (high : pc < stop)

include unlimited fetch

/-- A machine without a limit carries out the instruction at its program counter. -/
theorem step_of_unlimited (steps : Nat) :
    executable.step.run (.running pc fp sp memory ambient steps) =
      (do
        Exec.execute (pc + opcode.size) opcode
        return (← get).status : Exec Status).run (.running pc fp sp memory ambient (steps + 1)) :=
  step_of_fetch rfl (by rw [reachedLimit?, unlimited, Option.filter_none]) fetch

include low high

/-- An instruction after which the machine runs on. -/
theorem completes_of_ok {pc' fp' sp' : Int} {memory' : Memory} {ambient' : Ambient}
    (ran : ∀ steps, (Exec.execute (pc + opcode.size) opcode).run
      (.running pc fp sp memory ambient steps) =
        .ok () (.running pc' fp' sp' memory' ambient' steps))
    (next : ∀ steps, executable.Completes start stop done expected
      (.running pc' fp' sp' memory' ambient' steps)) (steps : Nat) :
    executable.Completes start stop done expected (.running pc fp sp memory ambient steps) :=
  .advanced low high ((step_of_unlimited unlimited fetch steps).trans
    (Exec.run_bind_of_ok (ran (steps + 1)))) (next (steps + 1))

/-- An instruction that faults for an expected reason. -/
theorem completes_of_error {fault : Fault} {final : Nat → State}
    (failed : ∀ steps, (Exec.execute (pc + opcode.size) opcode).run
      (.running pc fp sp memory ambient steps) = .error fault (final steps))
    (expects : expected fault) (steps : Nat) :
    executable.Completes start stop done expected (.running pc fp sp memory ambient steps) :=
  .faulted low high ((step_of_unlimited unlimited fetch steps).trans
    (Exec.run_bind_of_error (failed (steps + 1)))) expects

end Rules

section Instructions

variable (unlimited : executable.config.maxSteps = none) {pc fp sp : Int} {memory : Memory}
  {ambient : Ambient} (stacked : Stacked sp memory ambient) (low : start ≤ pc) (high : pc < stop)

include unlimited stacked low high

/-- Pushing a word. -/
theorem completes_push {value : Word} (fetch : executable.slots[pc]? = some (.push value))
    (room : ambient.hp ≤ sp - 4)
    (next : ∀ after, Memory.Put memory (sp - 4) value after → Stacked (sp - 4) after ambient →
      ∀ steps, executable.Completes start stop done expected
        (.running (pc + 5) fp (sp - 4) after ambient steps)) (steps : Nat) :
    executable.Completes start stop done expected (.running pc fp sp memory ambient steps) := by
  have top := stacked.top
  have put := Memory.Put.setWord memory (sp - 4) value
  have below := stacked.moved room (by omega) put.outside.size put.outside.codeSize
  exact completes_of_ok unlimited fetch low high
    (fun _ => Exec.execute_push room (stacked.addressable room (by omega))) (next _ put below) steps

/-- Pushing the frame pointer. -/
theorem completes_regn (fetch : executable.slots[pc]? = some (.regn .fp))
    (room : ambient.hp ≤ sp - 4)
    (next : ∀ after, Memory.Put memory (sp - 4) (Word.ofInt fp) after →
      Stacked (sp - 4) after ambient → ∀ steps, executable.Completes start stop done expected
        (.running (pc + 1) fp (sp - 4) after ambient steps)) (steps : Nat) :
    executable.Completes start stop done expected (.running pc fp sp memory ambient steps) := by
  have top := stacked.top
  have put := Memory.Put.setWord memory (sp - 4) (Word.ofInt fp)
  have below := stacked.moved room (by omega) put.outside.size put.outside.codeSize
  refine completes_of_ok unlimited fetch low high (fun _ => ?_) (next _ put below) steps
  exact Exec.execute_regn.trans
    (Exec.execute_push room (stacked.addressable room (by omega)))

/-- Replacing the address on top of the stack by the word at it. -/
theorem completes_load (fetch : executable.slots[pc]? = some .load) (inside : sp + 4 ≤ memory.size)
    (next : memory.Addressable (memory.word sp).toInt 4 → ∀ after,
      Memory.Put memory sp (memory.word (memory.word sp).toInt) after → Stacked sp after ambient →
      ∀ steps, executable.Completes start stop done expected
        (.running (pc + 1) fp sp after ambient steps))
    (outside : ¬memory.Addressable (memory.word sp).toInt 4 →
      expected (.memoryFault (memory.word sp).toInt)) (steps : Nat) :
    executable.Completes start stop done expected (.running pc fp sp memory ambient steps) := by
  by_cases readable : memory.Addressable (memory.word sp).toInt 4
  · have put := Memory.Put.setWord memory sp (memory.word (memory.word sp).toInt)
    have same := stacked.moved stacked.heap stacked.top put.outside.size put.outside.codeSize
    exact completes_of_ok unlimited fetch low high
      (fun _ => Exec.execute_load stacked inside readable) (next readable _ put same) steps
  · exact completes_of_error unlimited fetch low high
      (fun _ => Exec.execute_load_of_not_addressable stacked inside readable) (outside readable)
      steps

/-- Replacing the word on top of the stack by the value of an operator. -/
theorem completes_unary {op : UnaryOper} (fetch : executable.slots[pc]? = some (.unary op))
    (inside : sp + 4 ≤ memory.size)
    (next : ∀ after, Memory.Put memory sp (op.eval (memory.word sp)) after →
      Stacked sp after ambient → ∀ steps, executable.Completes start stop done expected
        (.running (pc + 1) fp sp after ambient steps)) (steps : Nat) :
    executable.Completes start stop done expected (.running pc fp sp memory ambient steps) := by
  have put := Memory.Put.setWord memory sp (op.eval (memory.word sp))
  have same := stacked.moved stacked.heap stacked.top put.outside.size put.outside.codeSize
  exact completes_of_ok unlimited fetch low high (fun _ => Exec.execute_unary stacked inside)
    (next _ put same) steps

/-- Replacing the two topmost words by the value of an operator, of which the one below is the
first operand. -/
theorem completes_binary {op : BinaryOp} (fetch : executable.slots[pc]? = some (.binary op))
    (inside : sp + 8 ≤ memory.size)
    (next : ∀ value, op.eval? (memory.word (sp + 4)) (memory.word sp) = some value → ∀ after,
      Memory.Put memory (sp + 4) value after → Stacked (sp + 4) after ambient →
      ∀ steps, executable.Completes start stop done expected
        (.running (pc + 1) fp (sp + 4) after ambient steps))
    (undefined : op.eval? (memory.word (sp + 4)) (memory.word sp) = none →
      expected .divisionByZero) (steps : Nat) :
    executable.Completes start stop done expected (.running pc fp sp memory ambient steps) := by
  have higher : Stacked (sp + 4) memory ambient := stacked.popped (by omega) (by omega)
  cases result : op.eval? (memory.word (sp + 4)) (memory.word sp) with
  | some value =>
    have put := Memory.Put.setWord memory (sp + 4) value
    have same := higher.moved higher.heap higher.top put.outside.size put.outside.codeSize
    exact completes_of_ok unlimited fetch low high
      (fun _ => Exec.execute_binary stacked inside result) (next value result _ put same) steps
  | none =>
    exact completes_of_error unlimited fetch low high
      (fun _ => Exec.execute_binary_of_undefined stacked inside result) (undefined result) steps

end Instructions

end Executable

end ScopeStack
