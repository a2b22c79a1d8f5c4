import ScopeStack.Proofs.Machine.Registers
import ScopeStack.Proofs.Machine.Services

/-!
# The heap

Whatever code a machine runs, the blocks that it takes from the heap do not
overlap, and nothing reaches into them but a store to an address that the
program computes. A call of `new` clears the bytes between the old and the new
end of the heap and leaves the rest of the stack alone; it is refused exactly if
the block would reach into the stack or if its size is negative.
-/

namespace ScopeStack

namespace Executable

variable {executable : Executable}

/-- The next step calls a service. -/
structure Calls (executable : Executable) (service : Service) (state : State) : Prop where
  running : state.status = .running
  fetch : executable.slots[state.registers.pc]? = some .call
  top : (state.memory.word state.registers.sp).toInt = service.address

/-- The next step is a call of `new` that returns a block of a given size. The
block starts where the heap ends. -/
structure Allocates (executable : Executable) (state : State) (size : Int) : Prop where
  calls : executable.Calls .new state
  asked : (state.memory.word (state.registers.sp + 8)).toInt = size
  returns : ∃ status after, executable.step.run state = .ok status after

section New

variable {pc fp sp : Int} {memory : Memory} {ambient : Ambient} {steps : Nat}
  (fetch : executable.slots[pc]? = some .call)
  (allowed : executable.reachedLimit? steps = none)

include fetch allowed

/-- A step that carries out a call. -/
theorem step_call :
    executable.step.run (.running pc fp sp memory ambient steps) =
      (do
        Exec.execute (pc + 1) .call
        return (← get).status : Exec Status).run (.running pc fp sp memory ambient (steps + 1)) :=
  @step_of_fetch executable (.running pc fp sp memory ambient steps) rfl allowed .call fetch

/-- A step faults if the call that it carries out does. -/
theorem step_call_of_error {fault : Fault} {final : State}
    (failed : (Exec.execute (pc + 1) .call).run (.running pc fp sp memory ambient (steps + 1)) =
      .error fault final) :
    executable.step.run (.running pc fp sp memory ambient steps) = .error fault final :=
  (step_call fetch allowed).trans (Exec.run_bind_of_error failed)

variable (stacked : Stacked sp memory ambient)
  (top : (memory.word sp).toInt = Service.new.address)

include stacked top

/-- A call of `new` whose operands are not all on the stack fails. -/
theorem step_new_of_short (short : memory.size < sp + 12) :
    ∃ final, executable.step.run (.running pc fp sp memory ambient steps) =
      .error .stackUnderflow final := by
  by_cases first : sp + 4 ≤ memory.size
  · have popped := @Exec.run_popInt pc fp _ _ _ (steps + 1) stacked first
    rw [top] at popped
    by_cases second : sp + 8 ≤ memory.size
    · have call := @Watch.run_call_service pc fp _ _ _ _ stacked second top (steps + 1)
      have empty := @Exec.run_popInt_of_empty pc fp (sp + 8) memory ambient (steps + 1) (by omega)
      have failed := call.trans (Exec.run_bind_of_error (Exec.run_bind_of_error empty))
      exact ⟨_, step_call_of_error fetch allowed failed⟩
    · have empty := @Exec.run_pop_of_empty pc fp (sp + 4) memory ambient (steps + 1) (by omega)
      have failed : (Exec.execute (pc + 1) .call).run (.running pc fp sp memory ambient (steps + 1)) =
          .error .stackUnderflow (.running pc fp (sp + 4) memory ambient (steps + 1)) :=
        (Exec.run_bind_of_ok popped).trans (Exec.run_bind_of_error empty)
      exact ⟨_, step_call_of_error fetch allowed failed⟩
  · have empty := @Exec.run_popInt_of_empty pc fp sp memory ambient (steps + 1) (by omega)
    exact ⟨_, step_call_of_error fetch allowed (Exec.run_bind_of_error empty)⟩

end New

section Fenced

variable {fence : Fence} {state : State} {size : Int} (fenced : state.Fenced fence)
  (calls : executable.Calls .new state)

include fenced calls

/-- A call of `new` either has all its operands on the stack or fails. -/
theorem Calls.operands {status : Status} {after : State}
    (returns : executable.step.run state = .ok status after) :
    executable.reachedLimit? state.steps = none ∧ state.registers.sp + 12 ≤ fence.size := by
  obtain ⟨running, fetch, top⟩ := calls
  cases reached : executable.reachedLimit? state.steps with
  | some limit => cases returns.symm.trans (step_of_limit running reached)
  | none =>
    refine ⟨rfl, Int.not_lt.mp fun short => ?_⟩
    obtain ⟨extent, codeSize, floor, code, heap, below⟩ := fenced
    obtain ⟨⟨pc, fp, sp, hp⟩, memory, _, steps, input, output⟩ := state
    cases running
    dsimp only at fetch top extent codeSize code heap below short
    obtain ⟨final, stops⟩ := @step_new_of_short executable pc fp sp memory ⟨hp, input, output⟩
      steps fetch reached ⟨by dsimp only; omega, heap, by omega⟩ top (by omega)
    cases returns.symm.trans stops

variable (allowed : executable.reachedLimit? state.steps = none)
  (inside : state.registers.sp + 12 ≤ fence.size)
  (asked : (state.memory.word (state.registers.sp + 8)).toInt = size)

include allowed inside asked

/-- A call of `new` is refused, or its result does not fit on the stack, or it
returns the old end of the heap. -/
theorem Calls.new_cases :
    ((size < 0 ∨ state.registers.sp + 12 < state.registers.hp + size) ∧
      ∃ final, executable.step.run state = .error (.heapExhausted size) final ∧
        final.memory = state.memory) ∨
    (0 ≤ size ∧ state.registers.hp + size ≤ state.registers.sp + 12 ∧
      ∃ final, executable.step.run state = .error .stackOverflow final ∧
        final.memory = state.memory.zeroRange state.registers.hp size.toNat) ∨
    (0 ≤ size ∧ state.registers.hp + size ≤ state.registers.sp + 8 ∧
      executable.step.run state = .ok .running { state with
        registers :=
          { state.registers with
            pc := state.registers.pc + 1
            sp := state.registers.sp + 8
            hp := state.registers.hp + size }
        memory := (state.memory.zeroRange state.registers.hp size.toNat).setWord
          (state.registers.sp + 8) (Word.ofInt state.registers.hp)
        steps := state.steps + 1 }) := by
  obtain ⟨running, fetch, top⟩ := calls
  obtain ⟨extent, codeSize, floor, code, heap, below⟩ := fenced
  obtain ⟨⟨pc, fp, sp, hp⟩, memory, _, steps, input, output⟩ := state
  cases running
  dsimp only at fetch top extent codeSize code heap below allowed inside asked ⊢
  have stacked : Stacked sp memory ⟨hp, input, output⟩ := ⟨by dsimp only; omega, heap, by omega⟩
  have higher : Stacked (sp + 8) memory ⟨hp, input, output⟩ := stacked.popped (by omega) (by omega)
  have call := @Watch.run_call_service pc fp _ _ _ _ stacked (by omega) top (steps + 1)
  by_cases refused : size < 0 ∨ sp + 8 + 4 < hp + size
  · have served := @Exec.run_new_of_refused pc fp _ _ _ _ (steps + 1) higher (by omega) asked refused
    have failed := call.trans (Exec.run_bind_of_error served)
    exact .inl ⟨by omega, _, step_call_of_error fetch allowed failed, rfl⟩
  · have served := @Exec.run_new pc fp _ _ _ _ (steps + 1) higher (by omega) asked refused
    have called := call.trans (Exec.run_bind_of_ok served)
    rw [show sp + 8 + 4 = sp + 12 by omega] at called
    by_cases room : hp + size ≤ sp + 12 - 4
    · have writable : (memory.zeroRange hp size.toNat).Addressable (sp + 12 - 4) 4 :=
        ⟨by rw [Memory.codeSize_zeroRange]; omega, by rw [Memory.size_zeroRange]; omega⟩
      have pushed := @Exec.run_push pc fp (sp + 12) (memory.zeroRange hp size.toNat)
        ⟨hp + size, input, output⟩ (steps + 1) (Word.ofInt hp) room writable
      rw [show sp + 12 - 4 = sp + 8 by omega] at pushed
      have done := called.trans (Exec.run_bind_of_ok pushed)
      exact .inr (.inr ⟨by omega, by omega,
        (step_call fetch allowed).trans (Exec.run_bind_of_ok done)⟩)
    · have full := @Exec.run_push_of_full pc fp (sp + 12) (memory.zeroRange hp size.toNat)
        ⟨hp + size, input, output⟩ (steps + 1) (Word.ofInt hp) (by dsimp only; omega)
      have failed := called.trans (Exec.run_bind_of_error full)
      exact .inr (.inl ⟨by omega, by omega, _, step_call_of_error fetch allowed failed, rfl⟩)

/-- A call of `new` with all its operands on the stack is refused exactly if the
block would reach into the stack or if its size is negative. -/
theorem Calls.exhausted_iff :
    (∃ final, executable.step.run state = .error (.heapExhausted size) final) ↔
      size < 0 ∨ state.registers.sp + 12 < state.registers.hp + size := by
  constructor
  · rintro ⟨final, exhausted⟩
    rcases calls.new_cases fenced allowed inside asked with
      ⟨refused, -⟩ | ⟨-, -, other, stops, -⟩ | ⟨-, -, stepped⟩
    · exact refused
    · cases exhausted.symm.trans stops
    · cases exhausted.symm.trans stepped
  · intro refused
    rcases calls.new_cases fenced allowed inside asked with
      ⟨-, final, stops, -⟩ | ⟨nonneg, room, -⟩ | ⟨nonneg, room, -⟩
    · exact ⟨final, stops⟩
    · omega
    · omega

/-- A call of `new` changes only bytes between the old end of the heap and what
was above its operands on the stack, even if it fails. -/
theorem Calls.outside :
    Memory.Outside state.registers.hp (state.registers.sp + 12) state.memory
      (executable.next state).memory := by
  have heap := fenced.heap
  have cleared {stop : Int} (reaches : state.registers.hp + size ≤ stop) (nonneg : 0 ≤ size) :
      Memory.Outside state.registers.hp stop state.memory
        (state.memory.zeroRange state.registers.hp size.toNat) :=
    ⟨rfl, rfl, fun address apart => by rw [Memory.byte_zeroRange, if_neg (by omega)]⟩
  rcases calls.new_cases fenced allowed inside asked with
    ⟨-, final, stops, same⟩ | ⟨nonneg, room, final, stops, same⟩ | ⟨nonneg, room, stepped⟩
  · rw [next, Exec.final_of_error stops, same]
    exact .refl _ _
  · rw [next, Exec.final_of_error stops, same]
    exact cleared room nonneg
  · rw [next, Exec.final_of_ok stepped]
    exact (cleared (by omega) nonneg).trans ((Memory.Put.setWord _ _ _).intact (by omega))

end Fenced

/-- What a call of `new` that returns leaves behind. -/
theorem Allocates.granted {fence : Fence} {state : State} {size : Int}
    (allocates : executable.Allocates state size) (fenced : state.Fenced fence)
    (low : 0 ≤ fence.codeSize) (bounded : fence.size ≤ Config.maxStackTop) :
    let after := executable.next state
    0 ≤ size ∧ (after.memory.word after.registers.sp).toInt = state.registers.hp ∧
      after.registers.hp = state.registers.hp + size ∧
      ∀ address, state.registers.hp ≤ address → address < state.registers.hp + size →
        after.memory.byte address = 0 := by
  obtain ⟨calls, asked, status, last, returns⟩ := allocates
  obtain ⟨allowed, inside⟩ := calls.operands fenced returns
  rcases calls.new_cases fenced allowed inside asked with
    ⟨-, final, stops, -⟩ | ⟨-, -, final, stops, -⟩ | ⟨nonneg, room, stepped⟩
  · cases returns.symm.trans stops
  · cases returns.symm.trans stops
  · have code := fenced.code
    have heap := fenced.heap
    have fits : Word.Fits state.registers.hp := by
      simp only [Word.Fits, Config.maxStackTop] at bounded ⊢
      omega
    rw [next, Exec.final_of_ok stepped]
    refine ⟨nonneg, ?_, rfl, fun address first last => ?_⟩
    · dsimp only
      rw [Memory.word_setWord, Word.toInt_ofInt fits]
    · dsimp only
      rw [Memory.byte_setWord, if_neg (by omega), Memory.byte_zeroRange, if_pos (by omega)]

/-- A step other than a store to an address that the program computes changes no
byte below the end of the heap. -/
theorem next_below_heap {fence : Fence} {state : State} (fenced : state.Fenced fence)
    (noSave : executable.slots[state.registers.pc]? ≠ some .save)
    (noInit : executable.slots[state.registers.pc]? ≠ some .init)
    (noGetstr : ¬executable.Calls .getstr state) :
    Memory.Intact (fun address => address < state.registers.hp) state.memory
      (executable.next state).memory := by
  cases status : state.status with
  | halted exitCode =>
    rw [next, Exec.final_of_ok (step_of_halted status)]
    exact .refl _ _
  | running =>
    have lifted : state.Fenced { fence with floor := state.registers.hp } :=
      ⟨fenced.size, fenced.codeSize, Int.le_refl _, fenced.code, fenced.heap, fenced.top⟩
    refine (kept_next lifted fun opcode fetch => ?_).below
    cases opcode with
    | save => exact absurd fetch noSave
    | init => exact absurd fetch noInit
    | call => exact fun top => absurd ⟨status, fetch, top⟩ noGetstr
    | _ => trivial

end Executable

/-- The heap of a loaded program, in every state that it reaches: a call of `new`
that returns gives a block of zero bytes where the heap ended; blocks of
different calls do not overlap and lie between the data and the end of the heap;
a call of `new` leaves the stack above its operands alone; no step but a store to
an address that the program computes changes what is below the end of the heap;
and a call of `new` is refused exactly if its size is negative or the block would
reach into the stack. -/
theorem heap_blocks_isolated {config : Config} {code : Code} {data : Data}
    {executable : Executable} (loaded : Executable.load config code data = .ok executable)
    (sizes : ∀ bytes, .size bytes ∈ data.map Located.item → 0 ≤ bytes) (input : List UInt8)
    (outputLimit : Option Nat) :
    let state := executable.stateAt input outputLimit
    (∀ index size, executable.Allocates (state index) size →
      0 ≤ size ∧
      ((state (index + 1)).memory.word (state (index + 1)).registers.sp).toInt =
        (state index).registers.hp ∧
      (state (index + 1)).registers.hp = (state index).registers.hp + size ∧
      ∀ address, (state index).registers.hp ≤ address →
        address < (state index).registers.hp + size →
        (state (index + 1)).memory.byte address = 0) ∧
    (∀ earlier later first second, earlier < later →
      executable.Allocates (state earlier) first → executable.Allocates (state later) second →
      Memory.Apart (state earlier).registers.hp first (state later).registers.hp second) ∧
    (∀ index count size, index < count → executable.Allocates (state index) size →
      executable.dataEnd ≤ (state index).registers.hp ∧
      (state index).registers.hp + size ≤ (state count).registers.hp) ∧
    (∀ index address, executable.Calls .new (state index) →
      (state index).registers.sp + 12 ≤ address → address < config.stackTop →
      (state (index + 1)).memory.byte address = (state index).memory.byte address) ∧
    (∀ index address, executable.slots[(state index).registers.pc]? ≠ some .save →
      executable.slots[(state index).registers.pc]? ≠ some .init →
      ¬executable.Calls .getstr (state index) → address < (state index).registers.hp →
      (state (index + 1)).memory.byte address = (state index).memory.byte address) ∧
    ∀ index size, executable.Calls .new (state index) →
      executable.reachedLimit? (state index).steps = none →
      (state index).registers.sp + 12 ≤ config.stackTop →
      ((state index).memory.word ((state index).registers.sp + 8)).toInt = size →
      ((∃ final, executable.step.run (state index) = .error (.heapExhausted size) final) ↔
        size < 0 ∨ (state index).registers.sp + 12 < (state index).registers.hp + size) := by
  intro state
  have extent := Executable.extent_of_load loaded sizes
  let fence : Fence := ⟨code.size, executable.memory.size, code.size⟩
  have top : fence.size = config.stackTop := extent.size_eq
  have low : fence.floor ≤ fence.codeSize := Int.le_refl _
  have started : (executable.start input outputLimit).Fenced fence := by
    refine extent.fenced ?_ input outputLimit
    rw [extent.dataEnd_eq]
    have := extent.dataLength
    omega
  have kept (index : Nat) : (executable.start input outputLimit).Kept fence (state index) :=
    executable.kept_stateAt low started index
  have granted (index : Nat) (size : Int) (allocates : executable.Allocates (state index) size) :=
    allocates.granted (kept index).fenced extent.codeLength (by have := extent.bounded; omega)
  refine ⟨granted, ?_, ?_, ?_, ?_, ?_⟩
  · intro earlier later first second before firstAllocates _
    have grown := executable.heap_le_of_le low started (Nat.succ_le_of_lt before)
    rw [Executable.stateAt, (granted earlier first firstAllocates).2.2.1] at grown
    exact .inl grown
  · intro index count size before allocates
    have grown := executable.heap_le_of_le low started (Nat.succ_le_of_lt before)
    rw [Executable.stateAt, (granted index size allocates).2.2.1] at grown
    exact ⟨(kept index).heap, grown⟩
  · intro index address calls above inside
    cases reached : executable.reachedLimit? (state index).steps with
    | some limit =>
      rw [show state (index + 1) = state index from
        Exec.final_of_error (Executable.step_of_limit calls.running reached)]
    | none => exact (calls.outside (kept index).fenced reached (by omega) rfl).byte address (.inr above)
  · intro index address noSave noInit noGetstr below
    exact (Executable.next_below_heap (kept index).fenced noSave noInit noGetstr).byte address below
  · intro index size calls allowed inside asked
    exact calls.exhausted_iff (kept index).fenced allowed (by omega) asked

/-- A program that takes eight bytes from the heap, in a small memory. -/
def Executable.allocating : Executable where
  config := ⟨64, none⟩
  slots := ((((∅ : Std.TreeMap Int Opcode).insert 0 (.push 8)).insert 5 (.push 0)).insert 10
    (.push (-6))).insert 15 .call
  labels := (∅ : LabelTable).insert "room" 16
  memory := .zero 64 16
  dataEnd := 20

/-- The program is handed a block of eight bytes where its heap ended. -/
theorem heap_blocks_isolated_sample :
    let state := Executable.allocating.stateAt [] none
    Executable.allocating.Allocates (state 3) 8 ∧
      ((state 4).memory.word (state 4).registers.sp).toInt = (state 3).registers.hp ∧
      (state 4).registers.hp = (state 3).registers.hp + 8 := by
  have loaded : Executable.load ⟨64, none⟩ Code.allocating Data.oneWord =
      .ok Executable.allocating := rfl
  have allocates : Executable.allocating.Allocates (Executable.allocating.stateAt [] none 3) 8 :=
    ⟨⟨rfl, by decide +kernel, by decide +kernel⟩, by decide +kernel, _, _, rfl⟩
  obtain ⟨returned, -⟩ := heap_blocks_isolated loaded (by simp [Data.oneWord, dataAt]) [] none
  obtain ⟨-, result, grown, -⟩ := returned 3 8 allocates
  exact ⟨allocates, result, grown⟩

end ScopeStack
