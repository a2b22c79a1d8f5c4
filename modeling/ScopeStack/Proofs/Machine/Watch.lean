import ScopeStack.Proofs.Machine.Shift

/-!
# Watching a machine run

A machine that runs a program is watched for a number of steps together with
the calls that have not returned, its activations. A `Watch` is a property of
what is still to come that can be shown one step at a time: it holds of a state
if the state itself is good and either the property holds after one step, with
one step less to watch, or the machine stops in a way that is acceptable. Running
out of stack or of steps is always acceptable.

`Watch.At` speaks of a running state by its place in the code, its frame, its
stack and its memory. The rules below carry it backward over every instruction,
so that a proof about compiled code follows the code from its end to its start.
-/

namespace ScopeStack

/-- A call that has not returned. -/
structure Activation where
  /-- The address that was called. -/
  entry : Int
  /-- The frame pointer of the called function. -/
  base : Int
  returnAddress : Int
  /-- The frame pointer of the caller. -/
  callerBase : Int
deriving DecidableEq, Repr

/-- The activations after a step from a state: a call of a function of the
program adds one and a return takes the latest away. -/
def Executable.track (executable : Executable) (state : State) (live : List Activation) :
    List Activation :=
  match state.status, executable.slots[state.registers.pc]? with
  | .running, some .call =>
    let target := (state.memory.word state.registers.sp).toInt
    if target < 0 then live
    else
      ⟨target, state.registers.sp + 4, state.registers.pc + 1, state.registers.fp⟩ :: live
  | .running, some .retn => live.tail
  | _, _ => live

/-- A property of a machine that can be shown step by step. -/
structure Watch (executable : Executable) where
  /-- The property, of a state that is watched for a number of steps. -/
  holds : Nat → State → List Activation → Prop
  /-- What must be shown of the state before each step: its program counter, its
  frame pointer, its memory and the activations. -/
  good : Int → Int → Memory → List Activation → Prop
  /-- The outcomes with which the machine may stop. -/
  ends : Outcome → State → Prop
  /-- The number of steps matters. -/
  counted : Prop
  zero : ∀ {state live}, counted → holds 0 state live
  mono : ∀ {fewer more state live}, fewer ≤ more → holds more state live → holds fewer state live
  step : ∀ {count state next live},
    good state.registers.pc state.registers.fp state.memory live →
    executable.step.run state = .ok .running next →
    holds (count - 1) next (executable.track state live) → holds count state live
  halt : ∀ {count state next live code},
    good state.registers.pc state.registers.fp state.memory live →
    executable.step.run state = .ok (.halted code) next → next.status = .halted code →
    good next.registers.pc next.registers.fp next.memory (executable.track state live) →
    ends (.exited code) next → holds count state live
  fault : ∀ {count state next live fault},
    good state.registers.pc state.registers.fp state.memory live →
    executable.step.run state = .error fault next →
    ends (.faulted fault) next → holds count state live
  overflow : ∀ {state}, ends (.faulted .stackOverflow) state
  limit : ∀ {state limit}, executable.config.maxSteps = some limit →
    ends (.faulted (.stepLimit limit)) state

namespace Executable

variable {executable : Executable} {pc fp sp : Int} {memory : Memory} {ambient : Ambient}
  {opcode : Opcode}

/-- A step of a running machine meets its limit or carries out the instruction at
its program counter. -/
theorem step_cases (fetch : executable.slots[pc]? = some opcode) (steps : Nat) :
    (∃ limit, executable.config.maxSteps = some limit ∧
      executable.step.run (.running pc fp sp memory ambient steps) =
        .error (.stepLimit limit) (.running pc fp sp memory ambient steps)) ∨
    executable.step.run (.running pc fp sp memory ambient steps) =
      (do
        Exec.execute (pc + opcode.size) opcode
        return (← get).status : Exec Status).run (.running pc fp sp memory ambient (steps + 1)) := by
  cases reached : executable.reachedLimit? steps with
  | some limit =>
    exact .inl ⟨limit, (Option.filter_eq_some_iff.mp reached).1, step_of_limit rfl reached⟩
  | none => exact .inr (step_of_fetch rfl reached fetch)

end Executable

namespace Watch

variable {executable : Executable} (watch : Watch executable)

/-- The property holds of running states with a given program counter, frame
pointer, stack pointer, memory and ambient. -/
def At (count : Nat) (live : List Activation) (pc fp sp : Int) (memory : Memory)
    (ambient : Ambient) : Prop :=
  ∀ steps, watch.holds count (.running pc fp sp memory ambient steps) live

variable {watch} {count : Nat} {live : List Activation} {pc fp sp : Int} {memory : Memory}
  {ambient : Ambient}

/-- What is watched for a number of steps is watched for fewer. -/
theorem At.mono {fewer : Nat} (at_ : watch.At count live pc fp sp memory ambient)
    (le : fewer ≤ count) : watch.At fewer live pc fp sp memory ambient :=
  fun steps => watch.mono le (at_ steps)

section Instruction

variable {opcode : Opcode} (fetch : executable.slots[pc]? = some opcode)
  (good : watch.good pc fp memory live)

include fetch good

/-- An instruction after which the machine runs on. -/
theorem at_of_ok {pc' fp' sp' : Int} {memory' : Memory} {ambient' : Ambient}
    {live' : List Activation}
    (tracked : ∀ steps, executable.track (.running pc fp sp memory ambient steps) live = live')
    (ran : ∀ steps, (Exec.execute (pc + opcode.size) opcode).run
      (.running pc fp sp memory ambient steps) =
        .ok () (.running pc' fp' sp' memory' ambient' steps))
    (next : watch.At (count - 1) live' pc' fp' sp' memory' ambient') :
    watch.At count live pc fp sp memory ambient := by
  intro steps
  rcases executable.step_cases fetch steps with ⟨limit, limited, stops⟩ | stepped
  · exact watch.fault good stops (watch.limit limited)
  · refine watch.step good (stepped.trans (Exec.run_bind_of_ok (ran (steps + 1)))) ?_
    rw [tracked]
    exact next (steps + 1)

/-- An instruction that faults in a way that is acceptable. -/
theorem at_of_error
    (failed : ∀ steps, ∃ fault final, (Exec.execute (pc + opcode.size) opcode).run
      (.running pc fp sp memory ambient steps) = .error fault final ∧
        watch.ends (.faulted fault) final) :
    watch.At count live pc fp sp memory ambient := by
  intro steps
  rcases executable.step_cases fetch steps with ⟨limit, limited, stops⟩ | stepped
  · exact watch.fault good stops (watch.limit limited)
  · obtain ⟨fault, final, ran, ends⟩ := failed (steps + 1)
    exact watch.fault good (stepped.trans (Exec.run_bind_of_error ran)) ends

/-- An instruction that runs out of stack. -/
theorem at_of_overflow
    (failed : ∀ steps, ∃ final, (Exec.execute (pc + opcode.size) opcode).run
      (.running pc fp sp memory ambient steps) = .error .stackOverflow final) :
    watch.At count live pc fp sp memory ambient :=
  at_of_error fetch good fun steps =>
    (failed steps).elim fun final ran => ⟨.stackOverflow, final, ran, watch.overflow⟩

end Instruction

/-- Only calls and returns change the activations. -/
theorem track_eq {opcode : Opcode} (fetch : executable.slots[pc]? = some opcode)
    (noCall : opcode ≠ .call) (noReturn : opcode ≠ .retn) (steps : Nat) :
    executable.track (.running pc fp sp memory ambient steps) live = live := by
  simp only [Executable.track, State.running, fetch]
  cases opcode with
  | call => exact absurd rfl noCall
  | retn => exact absurd rfl noReturn
  | _ => rfl

section Rules

variable (stacked : Stacked sp memory ambient) (good : watch.good pc fp memory live)

include stacked good

/-- An instruction that pushes a word and goes on. -/
theorem at_pushed {opcode : Opcode} {value : Word} (fetch : executable.slots[pc]? = some opcode)
    (noCall : opcode ≠ .call) (noReturn : opcode ≠ .retn)
    (does : ∀ steps, (Exec.execute (pc + opcode.size) opcode).run
        (.running pc fp sp memory ambient steps) =
      (do
        Exec.push value
        Exec.jump (pc + opcode.size) : Exec Unit).run (.running pc fp sp memory ambient steps))
    (next : ∀ after, Memory.Put memory (sp - 4) value after → Stacked (sp - 4) after ambient →
      watch.At (count - 1) live (pc + opcode.size) fp (sp - 4) after ambient) :
    watch.At count live pc fp sp memory ambient := by
  have top := stacked.top
  by_cases room : ambient.hp ≤ sp - 4
  · have pushed := Memory.Put.setWord memory (sp - 4) value
    have below := stacked.moved room (by omega) pushed.outside.size pushed.outside.codeSize
    refine at_of_ok fetch good (track_eq fetch noCall noReturn) (fun steps => ?_)
      (next _ pushed below)
    rw [does, Exec.run_bind_of_ok (Exec.run_push room (stacked.addressable room (by omega))),
      Exec.run_jump]
  · refine at_of_overflow fetch good fun steps => ?_
    rw [does]
    exact ⟨_, Exec.run_bind_of_error (Exec.run_push_of_full (by omega))⟩

/-- Pushing a word. -/
theorem at_push {value : Word} (fetch : executable.slots[pc]? = some (.push value))
    (next : ∀ after, Memory.Put memory (sp - 4) value after → Stacked (sp - 4) after ambient →
      watch.At (count - 1) live (pc + 5) fp (sp - 4) after ambient) :
    watch.At count live pc fp sp memory ambient :=
  at_pushed stacked good fetch nofun nofun (fun _ => rfl) next

/-- Pushing the frame pointer. -/
theorem at_regn (fetch : executable.slots[pc]? = some (.regn .fp))
    (next : ∀ after, Memory.Put memory (sp - 4) (Word.ofInt fp) after →
      Stacked (sp - 4) after ambient →
      watch.At (count - 1) live (pc + 1) fp (sp - 4) after ambient) :
    watch.At count live pc fp sp memory ambient := by
  exact at_pushed stacked good fetch nofun nofun (fun _ => Exec.execute_regn) next

/-- Replacing the address on top of the stack by the word at it. -/
theorem at_load (fetch : executable.slots[pc]? = some .load) (inside : sp + 4 ≤ memory.size)
    (next : memory.Addressable (memory.word sp).toInt 4 → ∀ after,
      Memory.Put memory sp (memory.word (memory.word sp).toInt) after → Stacked sp after ambient →
      watch.At (count - 1) live (pc + 1) fp sp after ambient)
    (outside : ¬memory.Addressable (memory.word sp).toInt 4 → ∀ state : State,
      state.input = ambient.input → state.output = ambient.output →
      watch.ends (.faulted (.memoryFault (memory.word sp).toInt)) state) :
    watch.At count live pc fp sp memory ambient := by
  by_cases readable : memory.Addressable (memory.word sp).toInt 4
  · have put := Memory.Put.setWord memory sp (memory.word (memory.word sp).toInt)
    have same := stacked.moved stacked.heap stacked.top put.outside.size put.outside.codeSize
    exact at_of_ok fetch good (track_eq fetch nofun nofun)
      (fun _ => Exec.execute_load stacked inside readable) (next readable _ put same)
  · exact at_of_error fetch good fun steps =>
      ⟨_, .running pc fp (sp + 4) memory ambient steps,
        Exec.execute_load_of_not_addressable stacked inside readable, outside readable _ rfl rfl⟩

/-- Writing to the address on top of the stack the word below it. -/
theorem at_save (fetch : executable.slots[pc]? = some .save) (inside : sp + 8 ≤ memory.size)
    (writable : memory.Addressable (memory.word sp).toInt 4)
    (next : ∀ after, Memory.Put memory (memory.word sp).toInt (memory.word (sp + 4)) after →
      Stacked (sp + 8) after ambient →
      watch.At (count - 1) live (pc + 1) fp (sp + 8) after ambient) :
    watch.At count live pc fp sp memory ambient := by
  have heap := stacked.heap
  have put := Memory.Put.setWord memory (memory.word sp).toInt (memory.word (sp + 4))
  have higher : Stacked (sp + 4) memory ambient := stacked.popped (by omega) (by omega)
  have highest := stacked.moved (by omega) inside put.outside.size put.outside.codeSize
  refine at_of_ok fetch good (track_eq fetch nofun nofun) (fun steps => ?_) (next _ put highest)
  rw [Exec.execute, Exec.run_bind_of_ok (Exec.run_popInt stacked (by omega)),
    Exec.run_bind_of_ok (Exec.run_pop higher (by omega)),
    Exec.run_bind_of_ok (Exec.run_store writable), Int.add_assoc]
  rfl

/-- Replacing the word on top of the stack by the value of an operator. -/
theorem at_unary {op : UnaryOper} (fetch : executable.slots[pc]? = some (.unary op))
    (inside : sp + 4 ≤ memory.size)
    (next : ∀ after, Memory.Put memory sp (op.eval (memory.word sp)) after →
      Stacked sp after ambient → watch.At (count - 1) live (pc + 1) fp sp after ambient) :
    watch.At count live pc fp sp memory ambient := by
  have put := Memory.Put.setWord memory sp (op.eval (memory.word sp))
  have same := stacked.moved stacked.heap stacked.top put.outside.size put.outside.codeSize
  exact at_of_ok fetch good (track_eq fetch nofun nofun)
    (fun _ => Exec.execute_unary stacked inside) (next _ put same)

/-- Replacing the two topmost words by the value of an operator, of which the
one below is the first operand. -/
theorem at_binary {op : BinaryOp} (fetch : executable.slots[pc]? = some (.binary op))
    (inside : sp + 8 ≤ memory.size)
    (next : ∀ value, op.eval? (memory.word (sp + 4)) (memory.word sp) = some value → ∀ after,
      Memory.Put memory (sp + 4) value after → Stacked (sp + 4) after ambient →
      watch.At (count - 1) live (pc + 1) fp (sp + 4) after ambient)
    (undefined : op.eval? (memory.word (sp + 4)) (memory.word sp) = none → ∀ state : State,
      state.input = ambient.input → state.output = ambient.output →
      watch.ends (.faulted .divisionByZero) state) :
    watch.At count live pc fp sp memory ambient := by
  have higher : Stacked (sp + 4) memory ambient := stacked.popped (by omega) (by omega)
  cases result : op.eval? (memory.word (sp + 4)) (memory.word sp) with
  | some value =>
    have put := Memory.Put.setWord memory (sp + 4) value
    have same := higher.moved higher.heap higher.top put.outside.size put.outside.codeSize
    exact at_of_ok fetch good (track_eq fetch nofun nofun)
      (fun _ => Exec.execute_binary stacked inside result) (next value result _ put same)
  | none =>
    exact at_of_error fetch good fun steps =>
      ⟨_, .running pc fp (sp + 4 + 4) memory ambient steps,
        Exec.execute_binary_of_undefined stacked inside result, undefined result _ rfl rfl⟩

/-- Jumping to the address on top of the stack. -/
theorem at_ujmp {target : Int} (fetch : executable.slots[pc]? = some .ujmp)
    (inside : sp + 4 ≤ memory.size) (top : (memory.word sp).toInt = target)
    (next : watch.At (count - 1) live target fp (sp + 4) memory ambient) :
    watch.At count live pc fp sp memory ambient := by
  refine at_of_ok fetch good (track_eq fetch nofun nofun) (fun steps => ?_) next
  rw [Exec.execute, Exec.run_bind_of_ok (Exec.run_popInt stacked inside), top]
  rfl

/-- A conditional jump: the place for a condition that holds is on top, below it
the place for one that does not, and below that the condition. -/
theorem at_cjmp {yes no : Int} (fetch : executable.slots[pc]? = some .cjmp)
    (inside : sp + 12 ≤ memory.size) (top : (memory.word sp).toInt = yes)
    (below : (memory.word (sp + 4)).toInt = no)
    (next : watch.At (count - 1) live (if memory.word (sp + 8) ≠ 0 then yes else no) fp (sp + 12)
      memory ambient) :
    watch.At count live pc fp sp memory ambient := by
  have second : Stacked (sp + 4) memory ambient := stacked.popped (by omega) (by omega)
  have third : Stacked (sp + 8) memory ambient := stacked.popped (by omega) (by omega)
  refine at_of_ok fetch good (track_eq fetch nofun nofun) (fun steps => ?_) next
  have fourth := @Exec.run_popInt pc fp _ _ _ steps second (by omega)
  have fifth := @Exec.run_pop pc fp _ _ _ steps third (by omega)
  rw [show sp + 4 + 4 = sp + 8 by omega, below] at fourth
  rw [show sp + 8 + 4 = sp + 12 by omega] at fifth
  rw [Exec.execute, Exec.run_bind_of_ok (Exec.run_popInt stacked (by omega)), top,
    Exec.run_bind_of_ok fourth, Exec.run_bind_of_ok fifth]
  rfl

/-- Dropping one word. -/
theorem at_drop (fetch : executable.slots[pc]? = some .popn) (inside : sp + 8 ≤ memory.size)
    (top : memory.word sp = 4)
    (next : watch.At (count - 1) live (pc + 1) fp (sp + 8) memory ambient) :
    watch.At count live pc fp sp memory ambient := by
  have higher : Stacked (sp + 4) memory ambient := stacked.popped (by omega) (by omega)
  refine at_of_ok fetch good (track_eq fetch nofun nofun) (fun steps => ?_) next
  have dropped : (Exec.shiftStack 4).run (.running pc fp (sp + 4) memory ambient steps) =
      .ok () (.running pc fp (sp + 8) memory ambient steps) := by
    have popped := @Exec.run_pop pc fp _ _ _ steps higher (by omega)
    rw [show sp + 4 + 4 = sp + 8 by omega] at popped
    change (do discard Exec.pop; pure () : Exec Unit).run _ = _
    exact Exec.run_bind_of_ok (Exec.run_bind_of_ok popped)
  rw [Exec.execute, Exec.run_bind_of_ok (Exec.run_popInt stacked (by omega)), top,
    show ((4 : Word).toInt) = 4 from rfl, Exec.run_bind_of_ok dropped]
  rfl

/-- Reserving words. -/
theorem at_reserve {words : Nat} (fetch : executable.slots[pc]? = some .popn)
    (inside : sp + 4 ≤ memory.size) (fits : Word.Fits (-(4 * words)))
    (top : memory.word sp = Word.ofInt (-(4 * words)))
    (next : ∀ after, Memory.Outside (sp + 4 - 4 * words) (sp + 4) memory after →
      Stacked (sp + 4 - 4 * words) after ambient →
      watch.At (count - 1) live (pc + 1) fp (sp + 4 - 4 * words) after ambient) :
    watch.At count live pc fp sp memory ambient := by
  have higher : Stacked (sp + 4) memory ambient := stacked.popped (by omega) inside
  have popped (steps : Nat) := @Exec.run_popInt pc fp _ _ _ steps stacked inside
  rw [top, Word.toInt_ofInt fits] at popped
  rcases @Exec.run_shiftStack pc fp _ _ _ higher words with ⟨after, deeper, outside, ran⟩ | failed
  · refine at_of_ok fetch good (track_eq fetch nofun nofun) (fun steps => ?_)
      (next after outside deeper)
    rw [Exec.execute, Exec.run_bind_of_ok (popped steps), Exec.run_bind_of_ok (ran steps)]
    rfl
  · refine at_of_overflow fetch good fun steps => ?_
    obtain ⟨final, ran⟩ := failed steps
    rw [Exec.execute, Exec.run_bind_of_ok (popped steps)]
    exact ⟨final, Exec.run_bind_of_error ran⟩

/-- Entering a function of the program: the frame pointer of the caller and the
return address follow the access link on the stack. -/
theorem at_enter {target : Int} (fetch : executable.slots[pc]? = some .call)
    (inside : sp + 4 ≤ memory.size) (top : (memory.word sp).toInt = target) (start : 0 ≤ target)
    (next : ∀ middle after, Memory.Put memory sp (Word.ofInt fp) middle →
      Memory.Put middle (sp - 4) (Word.ofInt (pc + 1)) after → Stacked (sp - 4) after ambient →
      watch.At (count - 1) (⟨target, sp + 4, pc + 1, fp⟩ :: live) target (sp + 4) (sp - 4) after
        ambient) :
    watch.At count live pc fp sp memory ambient := by
  have upper := stacked.top
  have popped (steps : Nat) := @Exec.run_popInt pc fp _ _ _ steps stacked inside
  rw [top] at popped
  have put := Memory.Put.setWord memory sp (Word.ofInt fp)
  have same := stacked.moved stacked.heap stacked.top put.outside.size put.outside.codeSize
  have called (steps : Nat) : (Exec.execute (pc + 1) .call).run
      (.running pc fp sp memory ambient steps) = (do
        Exec.pushAddress (pc + 1)
        Exec.setRegisters fun registers =>
          { registers with pc := target, fp := registers.sp + 8 } : Exec Unit).run
        (.running pc fp sp (memory.setWord sp (Word.ofInt fp)) ambient steps) := by
    rw [Exec.execute, Exec.run_bind_of_ok (popped steps), Exec.callAt, if_neg (by omega), Exec.enter,
      Exec.run_bind_of_ok Exec.run_get]
    exact Exec.run_bind_of_ok (Exec.run_push_back stacked inside)
  by_cases room : ambient.hp ≤ sp - 4
  · have putAgain :=
      Memory.Put.setWord (memory.setWord sp (Word.ofInt fp)) (sp - 4) (Word.ofInt (pc + 1))
    have below := same.moved room (by rw [put.outside.size]; omega) putAgain.outside.size
      putAgain.outside.codeSize
    have tracked (steps : Nat) : executable.track (.running pc fp sp memory ambient steps) live =
        ⟨target, sp + 4, pc + 1, fp⟩ :: live := by
      simp only [Executable.track, State.running, fetch, top]
      exact if_neg (by omega)
    refine at_of_ok fetch good tracked (fun steps => ?_) (next _ _ put putAgain below)
    have writable := same.addressable room (by rw [put.outside.size]; omega)
    refine (called steps).trans ((Exec.run_bind_of_ok (Exec.run_push room writable)).trans ?_)
    simp only [Exec.setRegisters, Exec.run_modify, State.running]
    rw [show sp - 4 + 8 = sp + 4 by omega]
  · refine at_of_overflow fetch good fun steps => ?_
    exact ⟨_, (called steps).trans (Exec.run_bind_of_error (Exec.run_push_of_full (by omega)))⟩

/-- Leaving a function: its frame and its parameters are dropped and the result
takes their place. -/
theorem at_leave {parsSize returnAddress callerBase : Int}
    (fetch : executable.slots[pc]? = some .retn) (frame : sp + 16 ≤ fp)
    (inside : fp + parsSize + 4 ≤ memory.size) (sized : 0 ≤ parsSize)
    (top : (memory.word sp).toInt = parsSize)
    (returns : (memory.word (fp - 8)).toInt = returnAddress)
    (caller : (memory.word (fp - 4)).toInt = callerBase)
    (next : ∀ after, Memory.Put memory (fp + parsSize) (memory.word (sp + 4)) after →
      Stacked (fp + parsSize) after ambient →
      watch.At (count - 1) live.tail returnAddress callerBase (fp + parsSize) after ambient) :
    watch.At count live pc fp sp memory ambient := by
  have heap := stacked.heap
  have higher : Stacked (sp + 4) memory ambient := stacked.popped (by omega) (by omega)
  have highest : Stacked (fp + parsSize) memory ambient := stacked.popped (by omega) (by omega)
  have put := Memory.Put.setWord memory (fp + parsSize) (memory.word (sp + 4))
  have same := highest.moved highest.heap highest.top put.outside.size put.outside.codeSize
  have tracked (steps : Nat) : executable.track (.running pc fp sp memory ambient steps) live =
      live.tail := by
    simp only [Executable.track, State.running, fetch]
  refine at_of_ok fetch good tracked (fun steps => ?_) (next _ put same)
  have returnsAt := @Exec.run_load pc fp (sp + 4 + 4) _ ambient steps _
    (stacked.addressable (show ambient.hp ≤ fp - 8 by omega) (by omega))
  have callerAt := @Exec.run_load pc fp (sp + 4 + 4) _ ambient steps _
    (stacked.addressable (show ambient.hp ≤ fp - 4 by omega) (by omega))
  rw [Exec.execute, Exec.leave, Exec.run_bind_of_ok (Exec.run_popInt stacked (by omega)),
    Exec.run_bind_of_ok (Exec.run_pop higher (by omega)), Exec.run_bind_of_ok Exec.run_get, top]
  refine (congrArg (EStateM.run · _) (if_neg (show ¬fp < sp + 4 + 4 by omega))).trans ?_
  refine (Exec.run_bind_of_ok returnsAt).trans ((Exec.run_bind_of_ok callerAt).trans ?_)
  refine (congrArg (EStateM.run · _) (if_neg
    (show ¬((memory.size : Int) < fp + parsSize + 4 ∨ parsSize < 0) by omega))).trans ?_
  rw [returns, caller]
  refine (Exec.run_bind_of_ok (Exec.run_modify _)).trans ?_
  exact Exec.run_push_back highest inside

end Rules

end Watch

end ScopeStack
