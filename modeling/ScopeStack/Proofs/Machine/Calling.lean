import ScopeStack.Proofs.Machine.Heap

/-!
# Calling a service with an argument

A step that calls a service takes three words from the stack: the address of the
service, an access link and the argument. What the service then does decides
how the step ends. `CallsWith.step_of_ok` and `CallsWith.step_of_error` say this
once for every such service, and `CallsWith.puts` for those that write.
-/

namespace ScopeStack

/-- A write that fits adds all its bytes. -/
theorem Output.write_of_fits {output : Output} {bytes : List UInt8}
    (fits : output.fits bytes = true) :
    output.write bytes = { output with written := output.written ++ bytes } := by
  have whole : output.accepted bytes = bytes := by
    cases limited : output.limit with
    | none => simp only [accepted, limited]
    | some limit =>
      simp only [Output.fits, accepted, limited, beq_iff_eq, List.length_take] at fits ⊢
      exact List.take_of_length_le (by omega)
  rw [write, whole]

/-- A service has taken its operands from the stack. -/
def State.taken (state : State) : State :=
  { state with
    registers := { state.registers with sp := state.registers.sp + 12 }
    steps := state.steps + 1 }

/-- A service has returned one in place of its operands. -/
def State.answered (state : State) : State :=
  { state with
    registers :=
      { state.registers with pc := state.registers.pc + 1, sp := state.registers.sp + 8 }
    memory := state.memory.setWord (state.registers.sp + 8) 1
    steps := state.steps + 1 }

namespace Executable

variable {executable : Executable} {service : Service} {argument : Int} {state : State}

/-- The next step calls a service that finds an argument on the stack. The
registers are in order, as they are whenever a loaded program runs. -/
structure CallsWith (executable : Executable) (service : Service) (argument : Int)
    (state : State) : Prop extends executable.Calls service state where
  allowed : executable.reachedLimit? state.steps = none
  code : 0 ≤ state.memory.codeSize
  stacked : Stacked state.registers.sp state.memory state.ambient
  inside : state.registers.sp + 12 ≤ state.memory.size
  asked : (state.memory.word (state.registers.sp + 8)).toInt = argument

/-- The next step writes bytes and returns one; it fails if the output does not
take all of them. -/
def Puts (executable : Executable) (state : State) (bytes : List UInt8) : Prop :=
  executable.step.run state =
    if state.output.fits bytes then
      .ok .running { state.answered with
        output := { state.output with written := state.output.written ++ bytes } }
    else .error .outputFull { state.taken with output := state.output.write bytes }

namespace CallsWith

section Served

variable {body : Int → Exec (Option Word)} (calls : executable.CallsWith service argument state)
  (serves : Exec.serve service = Exec.popInt >>= body)

include calls

/-- The argument lies on the stack, below the address of the service and the
access link. -/
theorem stacked_argument : Stacked (state.registers.sp + 8) state.memory state.ambient :=
  calls.stacked.popped (by omega) (by have := calls.inside; omega)

/-- The state in which a service has taken its argument, written with its parts. -/
theorem taken_eq :
    state.taken = .running state.registers.pc state.registers.fp (state.registers.sp + 8 + 4)
      state.memory state.ambient (state.steps + 1) := by
  rw [show state.registers.sp + 8 + 4 = state.registers.sp + 12 by omega, State.taken]
  simp only [State.running, State.ambient, calls.running]

include serves

/-- A service that takes an argument goes on without it on the stack. -/
theorem run_serve :
    (Exec.serve service).run (.running state.registers.pc state.registers.fp
        (state.registers.sp + 8) state.memory state.ambient (state.steps + 1)) =
      (body argument).run state.taken := by
  have popped := @Exec.run_popInt state.registers.pc state.registers.fp _ _ _ (state.steps + 1)
    calls.stacked_argument (by have := calls.inside; omega)
  rw [serves, Exec.run_bind_of_ok popped, calls.asked, calls.taken_eq]

/-- A step fails as the service that it calls. -/
theorem step_of_error {fault : Fault} {final : State}
    (failed : (body argument).run state.taken = .error fault final) :
    executable.step.run state = .error fault final := by
  have called := @Watch.run_call_service state.registers.pc state.registers.fp _ _ _ _
    calls.stacked (by have := calls.inside; omega) calls.top (state.steps + 1)
  have served := (calls.run_serve serves).trans failed
  rw [State.eq_running calls.running]
  exact step_call_of_error calls.fetch calls.allowed (called.trans (Exec.run_bind_of_error served))

/-- A service may change memory and the streams. Its result takes the place of
the operands. -/
theorem step_of_ok {memory : Memory} {input : List UInt8} {output : Output}
    (done : (body argument).run state.taken =
      .ok (some 1) { state.taken with memory, input, output })
    (size : memory.size = state.memory.size) (codeSize : memory.codeSize = state.memory.codeSize) :
    executable.step.run state = .ok .running { state.answered with
      memory := memory.setWord (state.registers.sp + 8) 1, input, output } := by
  have inside := calls.inside
  have stacked : Stacked (state.registers.sp + 8) memory ⟨state.registers.hp, input, output⟩ :=
    ⟨codeSize ▸ calls.stacked_argument.code, calls.stacked_argument.heap,
      size ▸ calls.stacked_argument.top⟩
  have called := @Watch.run_call_service state.registers.pc state.registers.fp _ _ _ _
    calls.stacked (by omega) calls.top (state.steps + 1)
  have served := (calls.run_serve serves).trans done
  rw [calls.taken_eq] at served
  have pushed := @Exec.run_push_back state.registers.pc state.registers.fp _ _ _ 1
    (state.steps + 1) stacked (by omega)
  have answered := (called.trans (Exec.run_bind_of_ok served)).trans (Exec.run_bind_of_ok pushed)
  rw [State.eq_running calls.running]
  exact (step_call calls.fetch calls.allowed).trans (Exec.run_bind_of_ok answered)

end Served

/-- A service that does nothing but write. -/
theorem puts {body : Int → Exec (Option Word)} {bytes : List UInt8}
    (calls : executable.CallsWith service argument state)
    (serves : Exec.serve service = Exec.popInt >>= body)
    (writes : (body argument).run state.taken =
      (do Exec.write bytes; return some 1 : Exec (Option Word)).run state.taken) :
    executable.Puts state bytes := by
  rw [Puts]
  by_cases fits : state.output.fits bytes = true
  · rw [if_pos fits, ← Output.write_of_fits fits]
    have done : (body argument).run state.taken =
        .ok (some 1) { state.taken with output := state.output.write bytes } := by
      rw [writes, calls.taken_eq]
      exact Exec.run_bind_of_ok (Exec.run_write fits)
    exact calls.step_of_ok serves done rfl rfl
  · rw [if_neg fits]
    refine calls.step_of_error serves (writes.trans ?_)
    rw [calls.taken_eq]
    exact Exec.run_bind_of_error (Exec.run_write_of_full (Bool.not_eq_true _ ▸ fits))

end CallsWith

end Executable

/-- A program that is one call, in a small memory. -/
def Executable.calling : Executable where
  config := ⟨64, none⟩
  slots := (∅ : Std.TreeMap Int Opcode).insert 0 .call
  labels := ∅
  memory := .zero 64 1
  dataEnd := 4

/-- The machine is about to call a service with an argument, whatever else its
memory holds. -/
def State.calling (service : Service) (argument : Word) (memory : Memory) (input : List UInt8) :
    State where
  registers := ⟨0, 64, 52, 48⟩
  memory := (memory.setWord 52 (Word.ofInt service.address)).setWord 60 argument
  status := .running
  steps := 0
  input := input
  output := .empty none

/-- This machine is about to call a service with an argument. -/
theorem Executable.callsWith_calling (service : Service) (argument : Word) {memory : Memory}
    (size : memory.size = 64) (codeSize : memory.codeSize = 1) (input : List UInt8) :
    Executable.calling.CallsWith service argument.toInt
      (.calling service argument memory input) where
  running := rfl
  fetch := show calling.slots[(0 : Int)]? = some .call by decide +kernel
  top := by
    have fits : Word.Fits service.address := by cases service <;> decide
    have kept := (Memory.Put.setWord (memory.setWord 52 (Word.ofInt service.address)) 60
      argument).other (show (52 : Int) + 4 ≤ 60 ∨ 60 + 4 ≤ 52 by decide)
    dsimp only [State.calling]
    rw [kept, Memory.word_setWord, Word.toInt_ofInt fits]
  allowed := rfl
  code := by simp [State.calling, codeSize]
  stacked := ⟨by simp [State.calling, State.ambient, codeSize],
    by simp [State.calling, State.ambient], by simp [State.calling, size]⟩
  inside := by simp [State.calling, size]
  asked := by
    dsimp only [State.calling]
    rw [show (52 : Int) + 8 = 60 from rfl, Memory.word_setWord]

end ScopeStack
