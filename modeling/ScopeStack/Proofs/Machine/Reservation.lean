import Mathlib.Data.Rat.Floor
import ScopeStack.Proofs.Machine.Completion
import ScopeStack.Proofs.Machine.Registers
import ScopeStack.Proofs.Machine.Shift

/-!
# Reserving stack space and giving it up

An instruction that shifts the stack finds a count of bytes on top of it. The
stack pointer ends as many words higher as the count has, rounded up, so that a
negative count which is not a multiple of four reserves its whole words only.
On the way there the stack may be one word deeper. The shift fails exactly if
that word would lie in the heap, or if the stack pointer would leave memory.
-/

namespace ScopeStack

/-- The instruction at the program counter has moved the stack pointer, and memory
may be different. -/
def State.shifted (state : State) (sp : Int) (memory : Memory) : State :=
  { state with
    registers := { state.registers with pc := state.registers.pc + 1, sp }
    memory
    steps := state.steps + 1 }

/-- A word has been pushed by an instruction. -/
def State.pushed (state : State) (value : Word) : State :=
  { state with
    registers :=
      { state.registers with pc := state.registers.pc + 5, sp := state.registers.sp - 4 }
    memory := state.memory.setWord (state.registers.sp - 4) value
    steps := state.steps + 1 }

/-- The number of words that a count of bytes has, rounded up. -/
theorem ceil_quarter (count : Int) : ⌈(count / 4 : ℚ)⌉ = -(-count / 4) := by
  exact_mod_cast Rat.ceil_intCast_div_natCast count 4

/-- The number of words that a negative count of bytes has, rounded up. -/
theorem ceil_abs_quarter {count : Int} (negative : count < 0) :
    ⌈(|count| / 4 : ℚ)⌉ = -(count / 4) := by
  rw [abs_of_neg negative, ceil_quarter, Int.neg_neg]

namespace Executable

variable {executable : Executable} {state : State} {count : Int}

/-- A number of steps is allowed if a larger one is. -/
theorem reachedLimit?_of_le {fewer more : Nat} (le : fewer ≤ more)
    (allowed : executable.reachedLimit? more = none) : executable.reachedLimit? fewer = none := by
  rw [reachedLimit?, Option.filter_eq_none_iff] at allowed ⊢
  intro limit limited reached
  exact allowed limit limited (decide_eq_true ((of_decide_eq_true reached).trans le))

section Running

variable {pc fp sp : Int} {memory : Memory} {ambient : Ambient} {steps : Nat}
  (fetch : executable.slots[pc]? = some .popn) (allowed : executable.reachedLimit? steps = none)
  (readable : memory.Addressable sp 4)

include fetch allowed readable

/-- A step that shifts the stack pops the count first. -/
theorem step_popn :
    executable.step.run (.running pc fp sp memory ambient steps) =
      (do
        Exec.shiftStack (memory.word sp).toInt
        Exec.jump (pc + 1)
        return (← get).status : Exec Status).run
        (.running pc fp (sp + 4) memory ambient (steps + 1)) := by
  have popped := @Exec.run_popInt_of_addressable pc fp sp memory ambient (steps + 1) readable
  rw [@step_of_fetch executable (.running pc fp sp memory ambient steps) rfl allowed .popn fetch,
    Exec.execute, bind_assoc]
  refine (Exec.run_bind_of_ok popped).trans ?_
  rw [bind_assoc]
  rfl

/-- The instruction that moves the stack pointer, if there is room. -/
theorem step_popn_of_ok {reached : Int} {after : Memory}
    (shifted : (Exec.shiftStack (memory.word sp).toInt).run
        (.running pc fp (sp + 4) memory ambient (steps + 1)) =
      .ok () (.running pc fp reached after ambient (steps + 1))) :
    executable.step.run (.running pc fp sp memory ambient steps) =
      .ok .running (.running (pc + 1) fp reached after ambient (steps + 1)) := by
  rw [step_popn fetch allowed readable, Exec.run_bind_of_ok shifted]
  rfl

/-- The instruction that moves the stack pointer, if there is none. -/
theorem step_popn_of_error {fault : Fault} {final : State}
    (failed : (Exec.shiftStack (memory.word sp).toInt).run
      (.running pc fp (sp + 4) memory ambient (steps + 1)) = .error fault final) :
    executable.step.run (.running pc fp sp memory ambient steps) = .error fault final := by
  rw [step_popn fetch allowed readable, Exec.run_bind_of_error failed]

end Running

/-- The next step shifts the stack by the count on top of it. Once the count has
been popped, the stack lies between the heap and the end of memory. -/
structure ShiftsBy (executable : Executable) (count : Int) (state : State) : Prop where
  running : state.status = .running
  fetch : executable.slots[state.registers.pc]? = some .popn
  allowed : executable.reachedLimit? state.steps = none
  readable : state.memory.Addressable state.registers.sp 4
  asked : (state.memory.word state.registers.sp).toInt = count
  stacked : Stacked (state.registers.sp + 4) state.memory state.ambient

namespace ShiftsBy

variable (shifts : executable.ShiftsBy count state)

include shifts

/-- A count that is not positive reserves the words that it has, if there is room
for all words that it begins. -/
theorem step_of_nonpos (nonpos : count ≤ 0)
    (room : state.registers.hp ≤ state.registers.sp + 4 + 4 * (count / 4)) :
    ∃ after,
      executable.step.run state =
        .ok .running (state.shifted (state.registers.sp + 4 - 4 * (-count / 4)) after) ∧
      Memory.Outside (state.registers.sp + 4 + 4 * (count / 4)) (state.registers.sp + 4)
        state.memory after ∧
      ∀ address, state.registers.sp + 4 + 4 * (count / 4) ≤ address →
        address < state.registers.sp + 4 → after.byte address = 0 := by
  obtain ⟨running, fetch, allowed, readable, rfl, stacked⟩ := shifts
  obtain ⟨after, outside, zero, ran⟩ := @Exec.run_shiftStack_of_nonpos state.registers.pc
    state.registers.fp _ _ _ _ stacked nonpos room
  refine ⟨after, ?_, outside, zero⟩
  rw [State.eq_running running] at ran ⊢
  exact step_popn_of_ok fetch allowed readable (ran (state.steps + 1))

/-- Moving down into the heap overflows the stack. -/
theorem step_of_full
    (full : state.registers.sp + 4 + 4 * (count / 4) < state.registers.hp) :
    ∃ final, executable.step.run state = .error .stackOverflow final := by
  obtain ⟨running, fetch, allowed, readable, rfl, stacked⟩ := shifts
  obtain ⟨final, failed⟩ := @Exec.run_shiftStack_of_full state.registers.pc state.registers.fp _ _ _
    _ stacked full (state.steps + 1)
  refine ⟨final, ?_⟩
  rw [State.eq_running running] at failed ⊢
  exact step_popn_of_error fetch allowed readable failed

/-- A count that is not negative gives up the words that it begins, if the stack has
as many. -/
theorem step_of_nonneg (nonneg : 0 ≤ count)
    (inside : state.registers.sp + 4 - 4 * (-count / 4) ≤ state.memory.size) :
    executable.step.run state =
      .ok .running (state.shifted (state.registers.sp + 4 - 4 * (-count / 4)) state.memory) := by
  obtain ⟨running, fetch, allowed, readable, rfl, stacked⟩ := shifts
  have ran := @Exec.run_drain state.registers.pc state.registers.fp _ _ _ _ stacked (by omega)
    inside (state.steps + 1)
  rw [← Exec.shiftStack_of_nonneg nonneg] at ran
  rw [State.eq_running running] at ran ⊢
  exact step_popn_of_ok fetch allowed readable ran

/-- Moving up beyond memory underflows the stack. -/
theorem step_of_empty (nonneg : 0 ≤ count)
    (outside : state.memory.size < state.registers.sp + 4 - 4 * (-count / 4)) :
    ∃ final, executable.step.run state = .error .stackUnderflow final := by
  obtain ⟨running, fetch, allowed, readable, rfl, stacked⟩ := shifts
  obtain ⟨final, failed⟩ := @Exec.run_drain_of_empty state.registers.pc state.registers.fp _ _ _ _
    stacked (by omega) outside (state.steps + 1)
  rw [← Exec.shiftStack_of_nonneg nonneg] at failed
  refine ⟨final, ?_⟩
  rw [State.eq_running running] at failed ⊢
  exact step_popn_of_error fetch allowed readable failed

end ShiftsBy

/-- Whenever a loaded program is about to shift its stack and has a count there, the
registers are in order. -/
theorem shiftsBy_stateAt {config : Config} {code : Code} {data : Data}
    (loaded : load config code data = .ok executable)
    (sizes : ∀ bytes, .size bytes ∈ data.map Located.item → 0 ≤ bytes) {input : List UInt8}
    {outputLimit : Option Nat} {index : Nat}
    (reached : executable.stateAt input outputLimit index = state)
    (running : state.status = .running)
    (fetch : executable.slots[state.registers.pc]? = some .popn)
    (allowed : executable.reachedLimit? state.steps = none)
    (inside : state.registers.sp + 4 ≤ state.memory.size) :
    executable.ShiftsBy (state.memory.word state.registers.sp).toInt state := by
  have stacked := stacked_stateAt loaded sizes reached
  exact ⟨running, fetch, allowed, stacked.addressable stacked.heap inside, rfl,
    stacked.popped (by omega) inside⟩

/-- The memory of a loaded program always ends at the top of its stack. -/
theorem size_stateAt {config : Config} {code : Code} {data : Data}
    (loaded : load config code data = .ok executable)
    (sizes : ∀ bytes, .size bytes ∈ data.map Located.item → 0 ≤ bytes) (input : List UInt8)
    (outputLimit : Option Nat) (index : Nat) :
    ((executable.stateAt input outputLimit index).memory.size : Int) = config.stackTop := by
  have extent := extent_of_load loaded sizes
  have dataEnd := extent.dataEnd_eq
  have dataLength := extent.dataLength
  have fenced := (kept_stateAt (Int.le_refl code.size)
    (extent.fenced (show code.size ≤ _ by omega) input outputLimit) index).fenced
  rw [fenced.size]
  exact extent.size_eq

section Push

variable {value : Word} (running : state.status = .running)
  (stacked : Stacked state.registers.sp state.memory state.ambient)
  (room : state.registers.hp ≤ state.registers.sp - 4)

include running stacked room

/-- A push with room for it. -/
theorem step_push (fetch : executable.slots[state.registers.pc]? = some (.push value))
    (allowed : executable.reachedLimit? state.steps = none) :
    executable.step.run state = .ok .running (state.pushed value) := by
  have top := stacked.top
  have pushed := @Exec.execute_push state.registers.pc state.registers.fp _ _ state.ambient
    (state.steps + 1) (state.registers.pc + 5) value room (stacked.addressable room (by omega))
  rw [step_of_fetch running allowed fetch]
  rw [State.eq_running running] at pushed ⊢
  exact Exec.run_bind_of_ok pushed

/-- A count that has just been pushed is the one by which the stack is shifted. -/
theorem shiftsBy_pushed (fetch : executable.slots[state.registers.pc + 5]? = some .popn)
    (allowed : executable.reachedLimit? (state.steps + 1) = none) :
    executable.ShiftsBy value.toInt (state.pushed value) := by
  have top := stacked.top
  have code := stacked.code
  refine ⟨running, fetch, allowed, ⟨Int.le_trans code room, ?_⟩, ?_, code, ?_, ?_⟩
  all_goals dsimp only [State.pushed, State.ambient, Memory.size_setWord]
  · omega
  · rw [Memory.word_setWord]
  · omega
  · omega

/-- Pushing a count and shifting the stack by it takes two steps. -/
theorem run_push_popn {next : State}
    (fetch : executable.slots[state.registers.pc]? = some (.push value))
    (allowed : executable.reachedLimit? (state.steps + 1) = none)
    (shifted : executable.step.run (state.pushed value) = .ok .running next) :
    executable.run 2 state = (.unfinished, next) := by
  have before := reachedLimit?_of_le (Nat.le_succ _) allowed
  rw [run_of_running (step_push running stacked room fetch before), run_of_running shifted]
  rfl

end Push

section Words

variable {words : Nat} (running : state.status = .running)
  (allowed : executable.reachedLimit? (state.steps + 1) = none)
  (stacked : Stacked state.registers.sp state.memory state.ambient)
  (operand : Word.Fits (4 * words)) (room : state.registers.hp ≤ state.registers.sp - 4)
  (shift : executable.slots[state.registers.pc + 5]? = some .popn)

include running allowed stacked operand room shift

/-- Reserving words. The operand lies where the first of them will be. -/
theorem run_reserve (push : executable.slots[state.registers.pc]? =
      some (.push (Word.ofInt (-(4 * words)))))
    (deep : state.registers.hp ≤ state.registers.sp - 4 * words) :
    ∃ after : Memory, after.size = state.memory.size ∧ after.codeSize = state.memory.codeSize ∧
      executable.run 2 state = (.unfinished, (state.pushed (Word.ofInt (-(4 * words)))).shifted
        (state.registers.sp - 4 * words) after) := by
  have bound := operand.2
  have shifts := @shiftsBy_pushed executable state (Word.ofInt (-(4 * words))) running stacked room
    shift allowed
  rw [Word.toInt_ofInt ⟨by omega, by omega⟩] at shifts
  obtain ⟨after, stepped, outside, -⟩ := shifts.step_of_nonpos (by omega)
    (by dsimp only [State.pushed]; omega)
  have reached : (state.pushed (Word.ofInt (-(4 * words)))).registers.sp + 4 -
      4 * (- -(4 * (words : Int)) / 4) = state.registers.sp - 4 * words := by
    dsimp only [State.pushed]
    omega
  rw [reached] at stepped
  exact ⟨after, outside.size, outside.codeSize,
    run_push_popn running stacked room push allowed stepped⟩

/-- Giving up words. The operand lies below them. -/
theorem run_release (push : executable.slots[state.registers.pc]? =
      some (.push (Word.ofInt (4 * words))))
    (inside : state.registers.sp + 4 * words ≤ state.memory.size) :
    executable.run 2 state = (.unfinished, (state.pushed (Word.ofInt (4 * words))).shifted
      (state.registers.sp + 4 * words) (state.pushed (Word.ofInt (4 * words))).memory) := by
  have shifts := @shiftsBy_pushed executable state (Word.ofInt (4 * words)) running stacked room
    shift allowed
  rw [Word.toInt_ofInt operand] at shifts
  have reached : (state.pushed (Word.ofInt (4 * words))).registers.sp + 4 -
      4 * (-(4 * (words : Int)) / 4) = state.registers.sp + 4 * words := by
    dsimp only [State.pushed]
    omega
  have stepped := shifts.step_of_nonneg (by omega) (by rw [reached]; exact inside)
  rw [reached] at stepped
  exact run_push_popn running stacked room push allowed stepped

end Words

/-- The next four instructions reserve a number of words and give them up again. There
is room for the words and for one operand. -/
structure ShiftsBack (executable : Executable) (words : Nat) (state : State) : Prop where
  running : state.status = .running
  allowed : executable.reachedLimit? (state.steps + 3) = none
  stacked : Stacked state.registers.sp state.memory state.ambient
  placed : CodeAt executable.labels executable.slots state.registers.pc
    [.push (-(4 * words)), .popn, .push (4 * words), .popn]
  operand : Word.Fits (4 * words)
  room : state.registers.hp ≤ state.registers.sp - 4 * words - 4

/-- Words that have been reserved and released leave the registers as they were. -/
theorem ShiftsBack.run {words : Nat} (shifts : executable.ShiftsBack words state) :
    ∃ reserved restored,
      executable.run 2 state = (.unfinished, reserved) ∧
      reserved.registers = { state.registers with
        pc := state.registers.pc + 6, sp := state.registers.sp - 4 * words } ∧
      executable.run 2 reserved = (.unfinished, restored) ∧
      restored.registers = { state.registers with pc := state.registers.pc + 12 } := by
  obtain ⟨running, allowed, stacked, placed, operand, room⟩ := shifts
  obtain ⟨⟨_, ⟨⟩, down⟩, ⟨_, ⟨⟩, reserve⟩, ⟨_, ⟨⟩, up⟩, ⟨_, ⟨⟩, release⟩, -⟩ := placed
  have top := stacked.top
  obtain ⟨after, size, codeSize, reserved⟩ := run_reserve running
    (reachedLimit?_of_le (by omega) allowed) stacked operand (by omega) reserve down (by omega)
  have lower : Stacked (state.registers.sp - 4 * words) after state.ambient :=
    stacked.moved (show state.registers.hp ≤ _ by omega) (by omega) size codeSize
  have restored := @run_release executable ((state.pushed (Word.ofInt (-(4 * words)))).shifted
    (state.registers.sp - 4 * words) after) words running allowed lower operand room release up
    (by dsimp only [State.shifted]; omega)
  refine ⟨_, _, reserved, ?_, restored, ?_⟩
  all_goals
    simp only [State.shifted, State.pushed, Registers.mk.injEq, and_true, true_and]
    omega

end Executable

/-- A shift of the stack by a count of bytes moves the stack pointer up by as many
words as the count has, rounded up, from where it is without the count. If the
count is negative, all words that it begins must lie above the heap; those between
the new and the old stack pointer are then zero, and no other byte changes. If it
is not negative, the stack pointer must stay inside memory, and no byte changes at
all. Otherwise the step fails, for want of room or of words. In every state that a
loaded program reaches, the registers are as this requires, and memory ends at the
top of the stack. Reserving words and giving them up again restores the stack
pointer. -/
theorem stack_shift_exact {executable : Executable} :
    (∀ state count, executable.ShiftsBy count state →
      let top := state.registers.sp + 4
      let low := top - 4 * ⌈(|count| / 4 : ℚ)⌉
      let reached := top + 4 * ⌈(count / 4 : ℚ)⌉
      let fits := (count < 0 ∧ state.registers.hp ≤ low) ∨
        (0 ≤ count ∧ reached ≤ state.memory.size)
      (fits → ∃ after,
        executable.step.run state = .ok .running (state.shifted reached after) ∧
        (count < 0 → ∀ address, reached ≤ address → address + 4 ≤ top → after.word address = 0) ∧
        Memory.Outside low top state.memory after ∧ (0 ≤ count → after = state.memory)) ∧
      (¬fits → ∃ final,
        (count < 0 ∧ executable.step.run state = .error .stackOverflow final) ∨
        (0 < count ∧ executable.step.run state = .error .stackUnderflow final))) ∧
    (∀ config code data input outputLimit index,
      Executable.load config code data = .ok executable →
      (∀ bytes, .size bytes ∈ data.map Located.item → 0 ≤ bytes) →
      let state := executable.stateAt input outputLimit index
      state.memory.size = config.stackTop ∧
        (state.status = .running → executable.slots[state.registers.pc]? = some .popn →
          executable.reachedLimit? state.steps = none →
          state.registers.sp + 4 ≤ config.stackTop →
          executable.ShiftsBy (state.memory.word state.registers.sp).toInt state)) ∧
    ∀ state words, executable.ShiftsBack words state →
      ∃ reserved restored,
        executable.run 2 state = (.unfinished, reserved) ∧
        reserved.registers = { state.registers with
          pc := state.registers.pc + 6, sp := state.registers.sp - 4 * words } ∧
        executable.run 2 reserved = (.unfinished, restored) ∧
        restored.registers = { state.registers with pc := state.registers.pc + 12 } := by
  refine ⟨?_, ?_, fun state words shifts => shifts.run⟩
  · intro state count shifts top low reached fits
    have moved : reached = state.registers.sp + 4 - 4 * (-count / 4) := by
      simp only [reached, top, ceil_quarter]
      omega
    rcases lt_or_ge count 0 with negative | nonneg
    · have deepest : low = state.registers.sp + 4 + 4 * (count / 4) := by
        simp only [low, top, ceil_abs_quarter negative]
        omega
      refine ⟨fun fit => ?_, fun unfit => ?_⟩
      · have room : state.registers.hp ≤ low := by omega
        obtain ⟨after, stepped, outside, zero⟩ :=
          shifts.step_of_nonpos (Int.le_of_lt negative) (deepest ▸ room)
        rw [← moved] at stepped
        rw [← deepest] at outside zero
        refine ⟨after, stepped, fun _ address first last => ?_, outside, fun nonneg => by omega⟩
        exact Memory.word_eq_zero fun index start stop => zero index (by omega) (by omega)
      · have full : low < state.registers.hp := by omega
        obtain ⟨final, failed⟩ := shifts.step_of_full (deepest ▸ full)
        exact ⟨final, .inl ⟨negative, failed⟩⟩
    · refine ⟨fun fit => ?_, fun unfit => ?_⟩
      · have inside : reached ≤ state.memory.size := by omega
        have stepped := shifts.step_of_nonneg nonneg (moved ▸ inside)
        rw [← moved] at stepped
        exact ⟨state.memory, stepped, fun negative => by omega, .refl _ _, fun _ => rfl⟩
      · have outside : state.memory.size < reached := by omega
        have inside := shifts.stacked.top
        obtain ⟨final, failed⟩ := shifts.step_of_empty nonneg (moved ▸ outside)
        exact ⟨final, .inr ⟨by omega, failed⟩⟩
  · intro config code data input outputLimit index loaded sizes state
    have size := Executable.size_stateAt loaded sizes input outputLimit index
    refine ⟨size, fun running fetch allowed inside => ?_⟩
    exact Executable.shiftsBy_stateAt loaded sizes rfl running fetch allowed
      (Int.le_trans inside (Int.le_of_eq size.symm))

/-- A program that reserves two words, gives them up and then reserves six bytes. -/
def Code.shifting : Code :=
  codeAt none [.push (-8), .popn, .push 8, .popn, .push (-6), .popn]

/-- The program in a small memory. -/
def Executable.shifting : Executable where
  config := ⟨64, none⟩
  slots := ((((((∅ : Std.TreeMap Int Opcode).insert 0 (.push (-8))).insert 5 .popn).insert 6
    (.push 8)).insert 11 .popn).insert 12 (.push (-6))).insert 17 .popn
  labels := ∅
  memory := .zero 64 18
  dataEnd := 18

/-- Six bytes are one whole word, for which room for two is needed on the way. -/
theorem stack_shift_exact_rounding :
    let executable := Executable.shifting
    let start := executable.start [] none
    let state := executable.stateAt [] none 5
    (∃ reserved restored,
      executable.run 2 start = (.unfinished, reserved) ∧ reserved.registers.sp = 56 ∧
      executable.run 2 reserved = (.unfinished, restored) ∧
      restored.registers = ⟨12, 64, 64, 18⟩) ∧
    executable.ShiftsBy (-6) state ∧
    ∃ after, executable.step.run state = .ok .running (state.shifted 60 after) ∧
      after.word 60 = 0 ∧ Memory.Outside 56 64 state.memory after := by
  intro executable start state
  have loaded : Executable.load ⟨64, none⟩ Code.shifting [] = .ok executable := rfl
  obtain ⟨closed, reachable, back⟩ := @stack_shift_exact executable
  have shiftsBack : executable.ShiftsBack 2 start := by
    refine ⟨rfl, rfl, ⟨?_, ?_, ?_⟩,
      ⟨⟨_, rfl, ?_⟩, ⟨_, rfl, ?_⟩, ⟨_, rfl, ?_⟩, ⟨_, rfl, ?_⟩, trivial⟩, ?_, ?_⟩
    all_goals decide +kernel
  obtain ⟨reserved, restored, down, lower, up, same⟩ := back start 2 shiftsBack
  have shifts := (reachable ⟨64, none⟩ Code.shifting [] [] none 5 loaded (by simp)).2
  have named : executable.stateAt [] none 5 = state := rfl
  have running : state.status = .running := by decide +kernel
  have fetch : executable.slots[state.registers.pc]? = some .popn := by decide +kernel
  have asked : (state.memory.word state.registers.sp).toInt = -6 := by decide +kernel
  have sp : state.registers.sp = 60 := by decide +kernel
  have hp : state.registers.hp = 18 := by decide +kernel
  -- The state is the end of a run, which must not be unfolded below.
  clear_value state
  rw [named, asked] at shifts
  have shiftsBy := shifts running fetch rfl (by rw [sp]; decide)
  have step := (closed state (-6) shiftsBy).1
  have begun : ⌈(|(-6 : Int)| / 4 : ℚ)⌉ = 2 := ceil_abs_quarter (by decide)
  have whole : ⌈((-6 : Int) / 4 : ℚ)⌉ = -1 := ceil_quarter (-6)
  rw [begun, whole, sp, hp] at step
  obtain ⟨after, stepped, zero, outside, -⟩ := step (.inl (by decide))
  refine ⟨⟨reserved, restored, down, ?_, up, ?_⟩, shiftsBy, after, stepped, ?_, outside⟩
  · rw [lower]
    rfl
  · rw [same]
    rfl
  · exact zero (by decide) 60 (by decide) (by decide)

end ScopeStack
