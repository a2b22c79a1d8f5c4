import ScopeStack.Proofs.Linking.Loading
import ScopeStack.Proofs.Machine.Control

/-!
# Runs with a limited number of instructions

A limit on the number of instructions has no effect on a machine that has not
reached it, and stops a running machine that has. So a run with a limit is a
run without one that is cut off: `run_withLimit` says where.

The limit is compared with the number of instructions that have been carried
out. No operation changes that number; only finding an instruction does, and so
it counts the steps of a machine that runs.
-/

namespace ScopeStack

namespace Exec

variable {α β : Type}

/-- An operation does not change the number of instructions carried out, whether
or not it faults. -/
def Uncounted (action : Exec α) : Prop :=
  ∀ state : State, (action.final state).steps = state.steps

/-- Two operations in a row are not counted if neither is. -/
theorem Uncounted.bind {action : Exec α} {later : α → Exec β} (first : Uncounted action)
    (second : ∀ value, Uncounted (later value)) : Uncounted (action >>= later) := by
  intro state
  have started := first state
  cases ran : action.run state with
  | ok value next =>
    rw [final_of_ok ran] at started
    rw [final_bind_of_ok ran, second value next, started]
  | error fault next =>
    rw [final_of_error ran] at started
    rw [final_bind_of_error ran, started]

/-- Steady operations are not counted. -/
theorem Steady.uncounted {action : Exec α} (steady : Steady action) : Uncounted action := by
  intro state
  cases ran : action.run state with
  | ok value next =>
    rw [final_of_ok ran]
    exact (steady.stays ran).steps
  | error fault next =>
    rw [final_of_error ran]
    exact (steady.inPlace ran).1.steps

/-- Setting registers is not counted. -/
theorem uncounted_setRegisters (change : Registers → Registers) :
    Uncounted (setRegisters change) :=
  fun _ => rfl

/-- A jump by itself is not counted. -/
theorem uncounted_jump (address : Int) : Uncounted (jump address) :=
  uncounted_setRegisters _

/-- Leaving a frame is not counted. -/
theorem uncounted_unwind : Uncounted unwind := by
  intro state
  cases ran : unwind.run state with
  | ok result middle =>
    obtain ⟨_, _, _, -, -, -, rfl⟩ := eq_of_run_unwind ran
    rw [final_of_ok ran]
  | error fault next =>
    rw [final_of_error ran]
    exact (inPlace_unwind ran).1.steps

/-- A return by itself is not counted. -/
theorem uncounted_leave : Uncounted leave := by
  rw [leave_eq]
  exact uncounted_unwind.bind fun result => (steady_push result).uncounted

/-- Entering a function is not counted. -/
theorem uncounted_enter (target next : Int) : Uncounted (enter target next) :=
  steady_get.uncounted.bind fun _ => (steady_push _).uncounted.bind fun _ =>
    (steady_push _).uncounted.bind fun _ => uncounted_setRegisters _

/-- What a service does is not counted. -/
theorem uncounted_serve (service : Service) : Uncounted (serve service) := by
  by_cases stops : service = .exit
  · subst stops
    exact steady_popInt.uncounted.bind fun exitCode state => rfl
  · exact (steady_serve stops).uncounted

/-- A call by itself is not counted. -/
theorem uncounted_callAt (target next : Int) : Uncounted (callAt target next) := by
  rw [callAt]
  split
  · split
    next service found =>
      refine steady_pop.uncounted.bind fun _ => (uncounted_serve service).bind fun result => ?_
      cases result with
      | none => exact (steady_pure ()).uncounted
      | some value => exact (steady_push value).uncounted.bind fun _ => uncounted_jump next
    · exact (steady_throw (by trivial)).uncounted
  · exact uncounted_enter target next

/-- Carrying out an instruction does not count it. -/
theorem uncounted_execute (next : Int) (opcode : Opcode) : Uncounted (execute next opcode) := by
  have popInt := steady_popInt.uncounted
  have pop := steady_pop.uncounted
  have push (value : Word) := (steady_push value).uncounted
  cases opcode with
  | push value => exact (push value).bind fun _ => uncounted_jump next
  | load =>
    exact popInt.bind fun address => (steady_load address).uncounted.bind fun value =>
      (push value).bind fun _ => uncounted_jump next
  | save =>
    exact popInt.bind fun address => pop.bind fun value =>
      (steady_store address value).uncounted.bind fun _ => uncounted_jump next
  | popn =>
    exact popInt.bind fun bytes => (steady_shiftStack bytes).uncounted.bind fun _ =>
      uncounted_jump next
  | unary op => exact pop.bind fun _ => (push _).bind fun _ => uncounted_jump next
  | binary op =>
    refine pop.bind fun second => pop.bind fun first => ?_
    split
    · exact (push _).bind fun _ => uncounted_jump next
    · exact (steady_throw (by trivial)).uncounted
  | ujmp => exact popInt.bind fun target => uncounted_jump target
  | cjmp => exact popInt.bind fun _ => popInt.bind fun _ => pop.bind fun _ => uncounted_jump _
  | call => exact popInt.bind fun target => uncounted_callAt target next
  | retn => exact uncounted_leave
  | init =>
    exact popInt.bind fun source => popInt.bind fun target =>
      (steady_expandInitializer source target).uncounted.bind fun _ => uncounted_jump next
  | regn reg =>
    exact steady_get.uncounted.bind fun _ => (push _).bind fun _ => uncounted_jump next

end Exec

namespace Executable

variable {executable : Executable} {state : State}

/-- The same program with another limit on the number of instructions. -/
def withLimit (executable : Executable) (limit : Option Nat) : Executable :=
  { executable with config := { executable.config with maxSteps := limit } }

/-- Whether and how a program is loaded does not depend on the limit. -/
theorem load_withLimit {config : Config} {code : Code} {data : Data} (limit : Option Nat)
    (loaded : load config code data = .ok executable) :
    load { config with maxSteps := limit } code data = .ok (executable.withLimit limit) := by
  obtain ⟨valid, bound, fits, stored, filled, rfl, dataEnd_eq⟩ := load_eq_ok_iff.mp loaded
  exact load_eq_ok_iff.mpr ⟨valid, bound, fits, stored, filled, rfl, dataEnd_eq⟩

/-- A successful step of a running machine is one instruction more, and gives
the status after it. -/
theorem steps_of_step {status : Status} {next : State} (running : state.status = .running)
    (stepped : executable.step.run state = .ok status next) :
    next.steps = state.steps + 1 ∧ next.status = status := by
  cases reached : executable.reachedLimit? state.steps with
  | some limit =>
    rw [step_of_limit running reached] at stepped
    cases stepped
  | none =>
    cases fetch : executable.slots[state.registers.pc]? with
    | none =>
      rw [step_of_missing running reached fetch] at stepped
      cases stepped
    | some opcode =>
      rw [step_of_fetch running reached fetch] at stepped
      have same := Exec.uncounted_execute (state.registers.pc + opcode.size) opcode
        { state with steps := state.steps + 1 }
      cases ran : (Exec.execute (state.registers.pc + opcode.size) opcode).run
          { state with steps := state.steps + 1 } with
      | error fault final =>
        rw [Exec.run_bind_of_error ran] at stepped
        cases stepped
      | ok value final =>
        rw [Exec.final_of_ok ran] at same
        rw [Exec.run_bind_of_ok ran] at stepped
        cases stepped
        exact ⟨same, rfl⟩

/-- A run that may go on starts from a running machine and has carried out as
many instructions as it was given. -/
theorem steps_of_run_unfinished {fuel : Nat} {final : State} (running : state.status = .running)
    (ran : executable.run fuel state = (.unfinished, final)) :
    final.steps = state.steps + fuel ∧ final.status = .running := by
  induction fuel generalizing state with
  | zero =>
    cases ran
    exact ⟨rfl, running⟩
  | succ fuel hypothesis =>
    rw [run] at ran
    split at ran
    · cases ran
    next next stepped =>
      obtain ⟨counted, runs⟩ := steps_of_step running stepped
      obtain ⟨steps, status⟩ := hypothesis runs ran
      exact ⟨by omega, status⟩
    · cases ran

/-- A machine that stops carries out at least one more instruction. -/
theorem lt_steps_of_run_exited {fuel : Nat} {exitCode : Int} {final : State}
    (running : state.status = .running)
    (ran : executable.run fuel state = (.exited exitCode, final)) :
    state.steps < final.steps := by
  induction fuel generalizing state with
  | zero => cases ran
  | succ fuel hypothesis =>
    rw [run] at ran
    split at ran
    next exit next stepped =>
      cases ran
      have counted := (steps_of_step running stepped).1
      omega
    next next stepped =>
      obtain ⟨counted, runs⟩ := steps_of_step running stepped
      have later := hypothesis runs ran
      omega
    · cases ran

/-- A long run is a short one, continued if that may go on. -/
theorem run_add (first second : Nat) :
    executable.run (first + second) state =
      match executable.run first state with
      | (.unfinished, next) => executable.run second next
      | ended => ended := by
  induction first generalizing state with
  | zero => rw [Nat.zero_add, run]
  | succ first hypothesis =>
    rw [Nat.succ_add, run, run]
    cases executable.step.run state with
    | error fault next => rfl
    | ok status next =>
      cases status with
      | halted exitCode => rfl
      | running => exact hypothesis

/-- A run that has ended stays as it is when it is given more steps. -/
theorem run_of_le {fuel more : Nat} {outcome : Outcome} {final : State}
    (ran : executable.run fuel state = (outcome, final)) (ended : outcome ≠ .unfinished)
    (le : fuel ≤ more) : executable.run more state = (outcome, final) := by
  obtain ⟨rest, rfl⟩ := Nat.exists_eq_add_of_le le
  rw [run_add, ran]
  cases outcome with
  | unfinished => exact absurd rfl ended
  | exited exitCode => rfl
  | faulted fault => rfl

/-- A machine below its limit takes the same steps as a machine without one. -/
theorem step_withLimit {limit : Nat} (below : state.steps < limit) :
    (executable.withLimit (some limit)).step.run state =
      (executable.withLimit none).step.run state := by
  have allowed : (executable.withLimit (some limit)).reachedLimit? state.steps = none :=
    Option.filter_eq_none_iff.mpr fun other same => by
      cases same
      exact fun reached => by
        have := of_decide_eq_true reached
        omega
  have free : (executable.withLimit none).reachedLimit? state.steps = none := rfl
  cases status : state.status with
  | halted exitCode => rw [step_of_halted status, step_of_halted status]
  | running =>
    cases fetch : executable.slots[state.registers.pc]? with
    | none => rw [step_of_missing status allowed fetch, step_of_missing status free fetch]
    | some opcode => rw [step_of_fetch status allowed fetch, step_of_fetch status free fetch]

/-- A run that could go on where the limit is reached faults there instead. -/
def cutOff (limit : Nat) : Outcome × State → Outcome × State
  | (.unfinished, state) => (.faulted (.stepLimit limit), state)
  | ended => ended

/-- A limit makes no difference to a run that has ended. -/
theorem cutOff_of_ended {limit : Nat} {outcome : Outcome} (ended : outcome ≠ .unfinished) :
    cutOff limit (outcome, state) = (outcome, state) := by
  cases outcome with
  | unfinished => exact absurd rfl ended
  | exited exitCode => rfl
  | faulted fault => rfl

/-- A run that is cut off has an end. -/
theorem cutOff_ne_unfinished (limit : Nat) (ran : Outcome × State) :
    (cutOff limit ran).1 ≠ .unfinished := by
  obtain ⟨outcome, state⟩ := ran
  cases outcome <;> exact Outcome.noConfusion

/-- A run with a limit is the run without one up to the limit, cut off there. -/
theorem run_withLimit {limit left fuel : Nat} (running : state.status = .running)
    (remaining : state.steps + left = limit) (enough : left < fuel) :
    (executable.withLimit (some limit)).run fuel state =
      cutOff limit ((executable.withLimit none).run left state) := by
  induction left generalizing state fuel with
  | zero =>
    obtain ⟨rest, rfl⟩ := Nat.exists_eq_succ_of_ne_zero (Nat.pos_iff_ne_zero.mp enough)
    have reached : (executable.withLimit (some limit)).reachedLimit? state.steps = some limit :=
      Option.filter_eq_some_iff.mpr ⟨rfl, decide_eq_true (by omega)⟩
    rw [run, run, step_of_limit running reached]
    rfl
  | succ left hypothesis =>
    obtain ⟨rest, rfl⟩ := Nat.exists_eq_succ_of_ne_zero (Nat.ne_of_gt (Nat.zero_lt_of_lt enough))
    rw [run, run, step_withLimit (by omega)]
    split
    · rfl
    next next stepped =>
      obtain ⟨counted, runs⟩ := steps_of_step running stepped
      exact hypothesis runs (by omega) (by omega)
    · rfl

/-- A run ends before it can be cut off: the machine stops after at most so many
instructions, or an attempt to carry out one fails when fewer have been counted. -/
inductive EndsWithin (executable : Executable) (start : State) (limit : Nat) :
    Outcome → State → Prop where
  | exited {fuel : Nat} {exitCode : Int} {final : State}
      (ran : executable.run fuel start = (.exited exitCode, final))
      (within : final.steps ≤ limit) : EndsWithin executable start limit (.exited exitCode) final
  | faulted {fuel : Nat} {fault : Fault} {before final : State}
      (reached : executable.run fuel start = (.unfinished, before))
      (earlier : before.steps < limit)
      (failed : executable.step.run before = .error fault final) :
      EndsWithin executable start limit (.faulted fault) final

/-- Such a run ends in the same way when it is given that many steps. -/
theorem EndsWithin.run_eq {limit : Nat} {outcome : Outcome} {final : State}
    (running : state.status = .running) (unused : state.steps = 0)
    (ends : executable.EndsWithin state limit outcome final) :
    executable.run limit state = (outcome, final) ∧ outcome ≠ .unfinished := by
  cases ends with
  | @exited fuel exitCode _ ran within =>
    refine ⟨?_, Outcome.noConfusion⟩
    rcases Nat.le_total fuel limit with le | le
    · exact run_of_le ran Outcome.noConfusion le
    · obtain ⟨rest, rfl⟩ := Nat.exists_eq_add_of_le le
      rw [run_add] at ran
      split at ran
      next next reached =>
        -- The machine would still have to stop, with too many instructions.
        obtain ⟨steps, runs⟩ := steps_of_run_unfinished running reached
        have later := lt_steps_of_run_exited runs ran
        omega
      next ended _ => exact ran
  | @faulted fuel fault before _ reached earlier failed =>
    refine ⟨?_, Outcome.noConfusion⟩
    have steps := (steps_of_run_unfinished running reached).1
    have attempted : executable.run (fuel + 1) state = (.faulted fault, final) := by
      rw [run_add, reached]
      dsimp only
      rw [run, failed]
    exact run_of_le attempted Outcome.noConfusion (by omega)

/-- A run that is given a number of steps either ends within them or may go
on. -/
theorem endsWithin_of_run {limit fuel : Nat} {outcome : Outcome} {final : State}
    (running : state.status = .running) (within : state.steps + fuel ≤ limit)
    (ran : executable.run fuel state = (outcome, final)) (ended : outcome ≠ .unfinished) :
    executable.EndsWithin state limit outcome final := by
  induction fuel generalizing state with
  | zero =>
    cases ran
    exact absurd rfl ended
  | succ fuel hypothesis =>
    have whole := ran
    rw [run] at ran
    split at ran
    next exitCode next stepped =>
      cases ran
      refine .exited whole ?_
      have := (steps_of_step running stepped).1
      omega
    next next stepped =>
      obtain ⟨counted, runs⟩ := steps_of_step running stepped
      cases hypothesis runs (by omega) ran with
      | @exited other _ _ halts below => exact .exited whole below
      | @faulted other _ before _ reached earlier failed =>
        have reachedAfter : executable.run (other + 1) state = (.unfinished, before) := by
          rw [run, stepped]
          exact reached
        exact .faulted reachedAfter earlier failed
    next fault next stepped =>
      cases ran
      have untouched : executable.run 0 state = (.unfinished, state) := rfl
      exact .faulted untouched (by omega) stepped

end Executable

/-- A limit on the number of instructions only truncates runs. The program also loads
with the limit. If the machine without one ends before it can be cut off, so does the
machine with the limit, in the same way and in the same state; otherwise it faults at the
limit, in the state that the machine without one is in after as many instructions. Either
way its run comes to an end. -/
theorem limit_truncates_run {stackTop : Int} {code : Code} {data : Data} {unlimited : Executable}
    (loaded : Executable.load ⟨stackTop, none⟩ code data = .ok unlimited) (limit : Nat)
    (input : List UInt8) (outputLimit : Option Nat) :
    let start := unlimited.start input outputLimit
    ∃ limited, Executable.load ⟨stackTop, some limit⟩ code data = .ok limited ∧
      limited.start input outputLimit = start ∧
      (∀ outcome final, unlimited.EndsWithin start limit outcome final →
        ∀ fuel, limit < fuel → limited.run fuel start = (outcome, final)) ∧
      ((∀ outcome final, ¬unlimited.EndsWithin start limit outcome final) →
        ∃ state, unlimited.run limit start = (.unfinished, state) ∧ state.steps = limit ∧
          state.status = .running ∧
          ∀ fuel, limit < fuel → limited.run fuel start = (.faulted (.stepLimit limit), state)) ∧
      ∃ outcome final, outcome ≠ .unfinished ∧
        ∀ fuel, limit < fuel → limited.run fuel start = (outcome, final) := by
  intro start
  have config := (Executable.load_eq_ok_iff.mp loaded).config_eq
  have same : unlimited.withLimit none = unlimited := by
    rw [Executable.withLimit, config, ← config]
  have cut (fuel : Nat) (enough : limit < fuel) :
      (unlimited.withLimit (some limit)).run fuel start =
        Executable.cutOff limit (unlimited.run limit start) := by
    rw [← same]
    exact Executable.run_withLimit rfl (Nat.zero_add limit) enough
  refine ⟨unlimited.withLimit (some limit), Executable.load_withLimit (some limit) loaded, rfl,
    fun outcome final ends fuel enough => ?_, fun never => ?_, ?_⟩
  · obtain ⟨ran, ended⟩ := ends.run_eq rfl rfl
    rw [cut fuel enough, ran, Executable.cutOff_of_ended ended]
  · obtain ⟨outcome, state, whole⟩ : ∃ outcome state, unlimited.run limit start = (outcome, state) :=
      ⟨_, _, rfl⟩
    have unfinished : outcome = .unfinished := by
      refine Decidable.byContradiction fun ended => never outcome state ?_
      exact Executable.endsWithin_of_run rfl (Nat.le_of_eq (Nat.zero_add limit)) whole ended
    subst unfinished
    obtain ⟨steps, running⟩ := Executable.steps_of_run_unfinished rfl whole
    refine ⟨state, whole, steps.trans (Nat.zero_add limit), running, fun fuel enough => ?_⟩
    rw [cut fuel enough, whole]
    rfl
  · exact ⟨_, _, Executable.cutOff_ne_unfinished limit _, cut⟩

/-- Code that exits with the code seven, on its fourth instruction. -/
def Code.exiting : Code := codeAt none [.push 7, .push 0, .name "exit", .call none]

/-- The program made of it, in a small memory. -/
def Executable.exiting : Executable where
  config := ⟨64, none⟩
  slots := ((((∅ : Std.TreeMap Int Opcode).insert 0 (.push 7)).insert 5 (.push 0)).insert 10
    (.push (-1))).insert 15 .call
  labels := ∅
  memory := .zero 64 16
  dataEnd := 16

/-- A limit of four lets the program exit, and a limit of three does not. -/
theorem limit_truncates_run_exiting :
    (∃ limited final, Executable.load ⟨64, some 4⟩ Code.exiting [] = .ok limited ∧
      limited.run 5 (limited.start [] none) = (.exited 7, final)) ∧
    ∃ limited state, Executable.load ⟨64, some 3⟩ Code.exiting [] = .ok limited ∧
      limited.run 4 (limited.start [] none) = (.faulted (.stepLimit 3), state) ∧
      state.steps = 3 := by
  have loaded : Executable.load ⟨64, none⟩ Code.exiting [] = .ok Executable.exiting := rfl
  have exits : (Executable.exiting.run 4 (Executable.exiting.start [] none)).1 = .exited 7 := by
    decide +kernel
  constructor
  · obtain ⟨limited, limits, same, ends, -⟩ := limit_truncates_run loaded 4 [] none
    have within : Executable.exiting.EndsWithin (Executable.exiting.start [] none) 4 (.exited 7)
        (Executable.exiting.run 4 (Executable.exiting.start [] none)).2 :=
      .exited (Prod.ext exits rfl) (by decide +kernel)
    exact ⟨limited, _, limits, same ▸ ends _ _ within 5 (by decide)⟩
  · obtain ⟨limited, limits, same, -, cut, -⟩ := limit_truncates_run loaded 3 [] none
    obtain ⟨state, -, steps, -, faults⟩ := cut fun outcome final ends => by
      have ran := ends.run_eq rfl rfl
      have unfinished : (Executable.exiting.run 3 (Executable.exiting.start [] none)).1 =
          .unfinished := by
        decide +kernel
      rw [ran.1] at unfinished
      exact ran.2 unfinished
    exact ⟨limited, state, limits, same ▸ faults 4 (by decide), steps⟩

end ScopeStack
