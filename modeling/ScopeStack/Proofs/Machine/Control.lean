import ScopeStack.Proofs.Machine.Registers

/-!
# Where a machine is after a fault

An instruction is made of operations that work on memory, stack and streams, and at its end moves
on, enters or leaves a function, or stops the machine. The operations of the first kind are
`Steady`: program counter and frame pointer stay, the machine keeps running, and nothing is
counted. What comes at the end cannot fault, so that a fault of the whole finds the machine where
the instruction started.

A return is the exception: it moves on first and pushes the result afterwards. `unwind` is what it
does up to there. It has checked by then that the parameters lie inside memory, and the place of
the last one takes the result.
-/

namespace ScopeStack

/-- A fault that operations raise. The fault for a limit is raised only before an instruction is
looked for. -/
def Fault.OfOperation : Fault → Prop
  | .stepLimit _ => False
  | _ => True

/-- Faults of memory and of the input are raised by operations. -/
theorem Fault.OfAccess.ofOperation {fault : Fault} (raised : fault.OfAccess) :
    fault.OfOperation := by
  cases fault with
  | stepLimit => exact raised
  | _ => trivial

/-- No operation raises the fault for a limit. -/
theorem Fault.OfOperation.ne_stepLimit {fault : Fault} (raised : fault.OfOperation) (limit : Nat) :
    fault ≠ .stepLimit limit := by
  rintro rfl
  exact raised

/-- The machine is at the same place in the same frame, in the same status, and has carried out as
many instructions. -/
structure State.Stays (before after : State) : Prop where
  pc : after.registers.pc = before.registers.pc
  fp : after.registers.fp = before.registers.fp
  status : after.status = before.status
  steps : after.steps = before.steps

namespace State.Stays

/-- The machine stays where nothing happens. -/
theorem refl (state : State) : state.Stays state := ⟨rfl, rfl, rfl, rfl⟩

/-- The machine stays through two changes if it stays through each. -/
theorem trans {before middle after : State} (first : before.Stays middle)
    (second : middle.Stays after) : before.Stays after where
  pc := second.pc.trans first.pc
  fp := second.fp.trans first.fp
  status := second.status.trans first.status
  steps := second.steps.trans first.steps

end State.Stays

namespace Exec

variable {α β : Type}

/-- A sequence of two operations succeeds if both do. -/
theorem exists_of_run_bind_ok {action : Exec α} {later : α → Exec β} {state final : State}
    {result : β} (done : (action >>= later).run state = .ok result final) :
    ∃ value next, action.run state = .ok value next ∧
      (later value).run next = .ok result final := by
  cases ran : action.run state with
  | ok value next => exact ⟨value, next, rfl, run_bind_of_ok ran ▸ done⟩
  | error fault next =>
    rw [run_bind_of_error ran] at done
    cases done

/-- A sequence of two operations faults if one of them does. -/
theorem cases_of_run_bind_error {action : Exec α} {later : α → Exec β} {state final : State}
    {fault : Fault} (failed : (action >>= later).run state = .error fault final) :
    action.run state = .error fault final ∨
      ∃ value next, action.run state = .ok value next ∧
        (later value).run next = .error fault final := by
  cases ran : action.run state with
  | ok value next => exact .inr ⟨value, next, rfl, run_bind_of_ok ran ▸ failed⟩
  | error other next =>
    rw [run_bind_of_error ran] at failed
    cases failed
    exact .inl rfl

/-- When the operation faults, the machine is still where the operation started. -/
def FaultsInPlace (action : Exec α) : Prop :=
  ∀ {state fault next}, action.run state = .error fault next →
    state.Stays next ∧ fault.OfOperation

/-- The operation leaves the machine where it is, whether or not it faults. -/
structure Steady (action : Exec α) : Prop where
  stays : ∀ {state value next}, action.run state = .ok value next → state.Stays next
  inPlace : FaultsInPlace action

/-- After a steady operation the machine is still where it was. -/
theorem Steady.followedBy {action : Exec α} {later : α → Exec β} (first : Steady action)
    (second : ∀ value, FaultsInPlace (later value)) : FaultsInPlace (action >>= later) := by
  intro state fault final failed
  rcases cases_of_run_bind_error failed with early | ⟨value, next, ran, late⟩
  · exact first.inPlace early
  · obtain ⟨stays, raised⟩ := second value late
    exact ⟨(first.stays ran).trans stays, raised⟩

/-- Two steady operations in a row are steady. -/
theorem Steady.bind {action : Exec α} {later : α → Exec β} (first : Steady action)
    (second : ∀ value, Steady (later value)) : Steady (action >>= later) where
  stays done := by
    obtain ⟨value, next, ran, rest⟩ := exists_of_run_bind_ok done
    exact (first.stays ran).trans ((second value).stays rest)
  inPlace := first.followedBy fun value => (second value).inPlace

/-- Giving a value is steady. -/
theorem steady_pure (value : α) : Steady (pure value : Exec α) := by
  constructor
  · rintro state _ _ ⟨⟩
    exact .refl state
  · rintro _ _ _ ⟨⟩

/-- Raising the fault of an operation is steady. -/
theorem steady_throw {fault : Fault} (raised : fault.OfOperation) :
    Steady (throw fault : Exec α) := by
  constructor
  · rintro _ _ _ ⟨⟩
  · rintro state _ _ ⟨⟩
    exact ⟨.refl state, raised⟩

/-- Looking at the state is steady. -/
theorem steady_get : Steady (get : Exec State) := by
  constructor
  · rintro state _ _ ⟨⟩
    exact .refl state
  · rintro _ _ _ ⟨⟩

/-- A change that leaves the machine where it is is steady. -/
theorem steady_modify {change : State → State}
    (stays : ∀ state : State, state.Stays (change state)) : Steady (modify change : Exec Unit) := by
  constructor
  · rintro state _ _ ⟨⟩
    exact stays state
  · rintro _ _ _ ⟨⟩

/-- Setting other registers than the program counter and the frame pointer is steady. -/
theorem steady_setRegisters {change : Registers → Registers}
    (pc : ∀ registers, (change registers).pc = registers.pc)
    (fp : ∀ registers, (change registers).fp = registers.fp) : Steady (setRegisters change) :=
  steady_modify fun state => ⟨pc state.registers, fp state.registers, rfl, rfl⟩

/-- Going on with what an access has given is steady. -/
theorem steady_ofExcept {result : Except Fault α}
    (raised : ∀ fault, result = .error fault → fault.OfAccess) : Steady (ofExcept result) := by
  cases result with
  | ok value => exact steady_pure value
  | error fault => exact steady_throw (raised fault rfl).ofOperation

/-- Loading a word is steady. -/
theorem steady_load (address : Int) : Steady (load address) :=
  steady_get.bind fun _ => steady_ofExcept fun _ => Memory.ofAccess_of_load

/-- Storing a word is steady. -/
theorem steady_store (address : Int) (value : Word) : Steady (store address value) := by
  refine steady_get.bind fun _ => ?_
  refine (steady_ofExcept fun _ => Memory.ofAccess_of_store).bind fun _ => ?_
  exact steady_modify fun _ => ⟨rfl, rfl, rfl, rfl⟩

/-- Pushing a word is steady. -/
theorem steady_push (value : Word) : Steady (push value) := by
  refine steady_get.bind fun state => ?_
  have stored : Steady (do
      store (state.registers.sp - 4) value
      setRegisters fun registers => { registers with sp := registers.sp - 4 }) :=
    (steady_store _ value).bind fun _ => steady_setRegisters (fun _ => rfl) fun _ => rfl
  dsimp only
  split
  · exact (steady_throw (by trivial)).bind fun _ => stored
  · exact stored

/-- Popping a word is steady. -/
theorem steady_pop : Steady pop := by
  refine steady_get.bind fun state => ?_
  have loaded : Steady (do
      let value ← load state.registers.sp
      setRegisters fun registers => { registers with sp := registers.sp + 4 }
      return value) := by
    refine (steady_load _).bind fun value => Steady.bind ?_ fun _ => steady_pure value
    exact steady_setRegisters (fun _ => rfl) fun _ => rfl
  split
  · exact (steady_throw (by trivial)).bind fun _ => loaded
  · exact loaded

/-- Popping a number is steady. -/
theorem steady_popInt : Steady popInt :=
  steady_pop.bind fun value => steady_pure value.toInt

/-- Writing to the output is steady. -/
theorem steady_write (bytes : List UInt8) : Steady (write bytes) := by
  refine steady_get.bind fun state => ?_
  refine Steady.bind (steady_modify fun _ => ⟨rfl, rfl, rfl, rfl⟩) fun _ => ?_
  split
  · exact steady_throw (by trivial)
  · exact steady_pure ()

/-- Reading from the input is steady. -/
theorem steady_read {reader : List UInt8 → Except Fault α × List UInt8}
    (raised : ∀ input fault, (reader input).1 = .error fault → fault.OfAccess) :
    Steady (read reader) := by
  refine steady_get.bind fun state => ?_
  refine Steady.bind (steady_modify fun _ => ⟨rfl, rfl, rfl, rfl⟩) fun _ => ?_
  exact steady_ofExcept (raised state.input)

/-- Doing a steady operation any number of times is steady. -/
theorem Steady.times {action : Exec Unit} (steady : Steady action) (count : Nat) :
    Steady (times count action) := by
  induction count with
  | zero => exact steady_pure ()
  | succ count hypothesis => exact steady.bind fun _ => hypothesis

/-- Moving the stack pointer by a number of bytes is steady. -/
theorem steady_shiftStack (bytes : Int) : Steady (shiftStack bytes) := by
  have popped : Steady (discard pop) := steady_pop.bind fun _ => steady_pure _
  rw [shiftStack]
  split
  · refine ((steady_push 0).times _).bind fun _ => ?_
    split
    · exact popped
    · exact steady_pure ()
  · exact popped.times _

/-- Copying words is steady. -/
theorem steady_copyWords (count : Nat) (source target : Int) :
    Steady (copyWords count source target) := by
  induction count generalizing source target with
  | zero => exact steady_pure ()
  | succ count hypothesis =>
    exact (steady_load source).bind fun value => (steady_store target value).bind fun _ =>
      hypothesis _ _

/-- Copying words several times is steady. -/
theorem steady_copyRuns (length : Nat) (source : Int) (count : Nat) (target : Int) :
    Steady (copyRuns length source count target) := by
  induction count generalizing target with
  | zero => exact steady_pure ()
  | succ count hypothesis =>
    exact (steady_copyWords length source target).bind fun _ => hypothesis _

/-- Expanding the runs of an initializer is steady. -/
theorem steady_expandRecords (records : Nat) (source target : Int) :
    Steady (expandRecords records source target) := by
  induction records generalizing source target with
  | zero => exact steady_pure ()
  | succ records hypothesis =>
    exact (steady_load _).bind fun _ => (steady_load _).bind fun _ =>
      (steady_copyRuns _ _ _ _).bind fun _ => hypothesis _ _

/-- Expanding an initializer is steady. -/
theorem steady_expandInitializer (source target : Int) : Steady (expandInitializer source target) :=
  (steady_load source).bind fun _ => steady_expandRecords _ _ _

/-- Storing a text is steady. -/
theorem steady_storeText (address : Int) (text : List Char) : Steady (storeText address text) := by
  induction text generalizing address with
  | nil => exact steady_store address 0
  | cons char rest hypothesis => exact (steady_store address _).bind fun _ => hypothesis _

/-- Reserving a block of the heap is steady. -/
theorem steady_allocate (size : Int) : Steady (allocate size) := by
  refine steady_get.bind fun state => ?_
  dsimp only
  split
  · exact steady_throw (by trivial)
  · refine (steady_ofExcept fun _ => Memory.ofAccess_of_clear).bind fun memory => ?_
    refine Steady.bind (steady_modify fun _ => ⟨rfl, rfl, rfl, rfl⟩) fun _ => ?_
    refine Steady.bind ?_ fun _ => steady_pure _
    exact steady_setRegisters (fun _ => rfl) fun _ => rfl

/-- Every service but the one that stops the machine leaves it where it is. -/
theorem steady_serve {service : Service} (goesOn : service ≠ .exit) : Steady (serve service) := by
  cases service with
  | exit => exact absurd rfl goesOn
  | getint =>
    exact (steady_read fun _ _ => Input.ofAccess_of_readInt).bind fun _ => steady_pure _
  | putint => exact steady_popInt.bind fun _ => (steady_write _).bind fun _ => steady_pure _
  | getstr =>
    refine steady_popInt.bind fun address => ?_
    refine (steady_read fun _ _ => Input.ofAccess_of_readLine).bind fun line => ?_
    exact (steady_storeText address line).bind fun _ => steady_pure _
  | putstr =>
    refine steady_popInt.bind fun address => steady_get.bind fun state => ?_
    refine (steady_ofExcept fun _ => ofAccess_of_textFrom).bind fun text => ?_
    exact (steady_write _).bind fun _ => steady_pure _
  | new => exact steady_popInt.bind fun size => (steady_allocate size).bind fun _ => steady_pure _
  | del => exact steady_pop.bind fun _ => steady_pure _

/-- Registers can always be set. -/
theorem inPlace_setRegisters (change : Registers → Registers) :
    FaultsInPlace (setRegisters change) := by
  rintro _ _ _ ⟨⟩

/-- A jump cannot fault. -/
theorem inPlace_jump (address : Int) : FaultsInPlace (jump address) :=
  inPlace_setRegisters _

/-- The frame pointer moves only when both words of the frame header have been pushed. -/
theorem inPlace_enter (target next : Int) : FaultsInPlace (enter target next) :=
  steady_get.followedBy fun _ => (steady_push _).followedBy fun _ =>
    (steady_push _).followedBy fun _ => inPlace_setRegisters _

/-- A service that faults leaves the machine at its call. -/
theorem inPlace_callService (next : Int) (service : Service) :
    FaultsInPlace (callService next service) := by
  refine steady_pop.followedBy fun _ => ?_
  by_cases stops : service = .exit
  · subst stops
    rw [serve, bind_assoc]
    -- Once the exit code has been popped, the machine stops without a fault.
    refine steady_popInt.followedBy fun exitCode => ?_
    rintro _ _ _ ⟨⟩
  · refine (steady_serve stops).followedBy fun result => ?_
    cases result with
    | none => exact (steady_pure ()).inPlace
    | some value => exact (steady_push value).followedBy fun _ => inPlace_jump next

/-- A call that faults leaves the machine where it is. -/
theorem inPlace_callAt (target next : Int) : FaultsInPlace (callAt target next) := by
  rw [callAt]
  split
  · split
    · exact inPlace_callService next _
    · exact (steady_throw (by trivial)).inPlace
  · exact inPlace_enter target next

/-- The part of a return that gives back the frame: it ends by overwriting program counter, frame
pointer and stack pointer, and gives the result, which is still to be pushed. -/
def unwind : Exec Word := do
  let parsSize ← popInt
  let result ← pop
  let state ← get
  let fp := state.registers.fp
  if fp < state.registers.sp then throw .stackUnderflow
  let returnAddress := (← load (fp - 8)).toInt
  let callerFp := (← load (fp - 4)).toInt
  let sp := fp + parsSize + 4
  if state.memory.size < sp ∨ parsSize < 0 then throw .stackUnderflow
  setRegisters fun registers => { registers with pc := returnAddress, fp := callerFp, sp }
  return result

/-- A return gives back the frame and pushes the result. -/
theorem leave_eq : leave = unwind >>= push := by
  simp only [leave, unwind, bind_assoc]
  refine bind_congr fun parsSize => bind_congr fun result => bind_congr fun state => ?_
  split
  · rfl
  · rw [bind_assoc]
    refine bind_congr fun returnAddress => ?_
    rw [bind_assoc]
    refine bind_congr fun callerFp => ?_
    split
    · rfl
    · rw [bind_assoc]
      rfl

/-- A return that faults before it moves on leaves the machine where it is. -/
theorem inPlace_unwind : FaultsInPlace unwind := by
  refine steady_popInt.followedBy fun parsSize => steady_pop.followedBy fun result => ?_
  refine steady_get.followedBy fun state => ?_
  dsimp only
  split
  · exact (steady_throw (by trivial)).inPlace
  · refine (steady_load _).followedBy fun returnAddress => ?_
    refine (steady_load _).followedBy fun callerFp => ?_
    split
    · exact (steady_throw (by trivial)).inPlace
    · rintro _ _ _ ⟨⟩

/-- An instruction other than a return moves on at its end only. -/
theorem inPlace_execute {next : Int} {opcode : Opcode} (stays : opcode ≠ .retn) :
    FaultsInPlace (execute next opcode) := by
  cases opcode with
  | push value => exact (steady_push value).followedBy fun _ => inPlace_jump next
  | load =>
    exact steady_popInt.followedBy fun address => (steady_load address).followedBy fun value =>
      (steady_push value).followedBy fun _ => inPlace_jump next
  | save =>
    exact steady_popInt.followedBy fun address => steady_pop.followedBy fun value =>
      (steady_store address value).followedBy fun _ => inPlace_jump next
  | popn =>
    exact steady_popInt.followedBy fun bytes => (steady_shiftStack bytes).followedBy fun _ =>
      inPlace_jump next
  | unary op =>
    exact steady_pop.followedBy fun _ => (steady_push _).followedBy fun _ => inPlace_jump next
  | binary op =>
    refine steady_pop.followedBy fun second => steady_pop.followedBy fun first => ?_
    split
    · exact (steady_push _).followedBy fun _ => inPlace_jump next
    · exact (steady_throw (by trivial)).inPlace
  | ujmp => exact steady_popInt.followedBy fun target => inPlace_jump target
  | cjmp =>
    exact steady_popInt.followedBy fun _ => steady_popInt.followedBy fun _ =>
      steady_pop.followedBy fun _ => inPlace_jump _
  | call => exact steady_popInt.followedBy fun target => inPlace_callAt target next
  | retn => exact absurd rfl stays
  | init =>
    exact steady_popInt.followedBy fun source => steady_popInt.followedBy fun target =>
      (steady_expandInitializer source target).followedBy fun _ => inPlace_jump next
  | regn reg =>
    exact steady_get.followedBy fun _ => (steady_push _).followedBy fun _ => inPlace_jump next

/-- Popping moves the stack pointer and changes nothing else. -/
theorem eq_of_run_pop {state next : State} {value : Word}
    (popped : pop.run state = .ok value next) :
    next = { state with registers := { state.registers with sp := state.registers.sp + 4 } } := by
  rcases run_pop_cases state with ⟨-, done⟩ | ⟨fault, failed⟩
  · rw [done] at popped
    cases popped
    rfl
  · rw [failed] at popped
    cases popped

/-- A push succeeds if there is room for the word between the heap and the end of memory. -/
theorem exists_run_push {fence : Fence} {state : State} (fenced : state.Fenced fence)
    (room : state.registers.hp ≤ state.registers.sp - 4) (value : Word) :
    ∃ next, (push value).run state = .ok () next := by
  have code := fenced.code
  have top := fenced.top
  have writable : state.memory.Addressable (state.registers.sp - 4) 4 := by
    rw [Memory.Addressable, fenced.codeSize, fenced.size]
    omega
  have fits : ¬state.registers.sp - 4 < state.registers.hp := by omega
  rw [push, run_bind_of_ok run_get, if_neg fits, store, bind_assoc, run_bind_of_ok run_get,
    Memory.store, if_pos writable]
  exact ⟨_, rfl⟩

/-- A frame that has been given back lay above what was popped, and its parameters inside
memory. -/
theorem eq_of_run_unwind {state middle : State} {result : Word}
    (unwound : unwind.run state = .ok result middle) :
    ∃ parsSize returnAddress callerFp, 0 ≤ parsSize ∧
      state.registers.sp + 8 ≤ state.registers.fp ∧
      state.registers.fp + parsSize + 4 ≤ state.memory.size ∧
      middle = { state with
        registers := { state.registers with
          pc := returnAddress, fp := callerFp, sp := state.registers.fp + parsSize + 4 } } := by
  obtain ⟨parsSize, first, popped, unwound⟩ := exists_of_run_bind_ok unwound
  obtain ⟨word, _, poppedWord, ⟨⟩⟩ := exists_of_run_bind_ok popped
  obtain ⟨value, second, poppedResult, unwound⟩ := exists_of_run_bind_ok unwound
  cases eq_of_run_pop poppedWord
  cases eq_of_run_pop poppedResult
  rw [run_bind_of_ok run_get] at unwound
  dsimp only at unwound
  split at unwound
  · cases unwound
  next above =>
    obtain ⟨returnAddress, third, loaded, unwound⟩ := exists_of_run_bind_ok unwound
    obtain ⟨callerFp, fourth, loadedAgain, unwound⟩ := exists_of_run_bind_ok unwound
    cases eq_of_run_load loaded
    cases eq_of_run_load loadedAgain
    split at unwound
    · cases unwound
    next inside =>
      cases unwound
      exact ⟨word.toInt, returnAddress.toInt, callerFp.toInt, by omega, by omega, by omega, rfl⟩

/-- The result of a return fits where the parameters were: the frame lay above the heap. -/
theorem exists_push_of_unwind {fence : Fence} {state middle : State} {result : Word}
    (fenced : state.Fenced fence) (unwound : unwind.run state = .ok result middle) :
    ∃ final, (push result).run middle = .ok () final := by
  obtain ⟨parsSize, returnAddress, callerFp, nonneg, above, inside, rfl⟩ := eq_of_run_unwind unwound
  have heap := fenced.heap
  have size := fenced.size
  apply @exists_run_push fence
  · refine ⟨size, fenced.codeSize, fenced.floor, fenced.code, ?_, ?_⟩
    all_goals
      dsimp only
      omega
  · dsimp only
    omega

/-- When a return faults, the machine is still where the return started. -/
theorem stays_of_leave {fence : Fence} {state final : State} {fault : Fault}
    (fenced : state.Fenced fence) (failed : leave.run state = .error fault final) :
    state.Stays final ∧ fault.OfOperation := by
  rw [leave_eq] at failed
  rcases cases_of_run_bind_error failed with early | ⟨result, middle, unwound, late⟩
  · exact inPlace_unwind early
  · obtain ⟨pushed, done⟩ := exists_push_of_unwind fenced unwound
    rw [done] at late
    cases late

/-- When an instruction faults, the machine is still where the instruction started. -/
theorem stays_of_execute {fence : Fence} {state final : State} {fault : Fault} {next : Int}
    {opcode : Opcode} (fenced : state.Fenced fence)
    (failed : (execute next opcode).run state = .error fault final) :
    state.Stays final ∧ fault.OfOperation := by
  -- Only a return relies on the order of the registers.
  by_cases returns : opcode = .retn
  · subst returns
    exact stays_of_leave fenced failed
  · refine inPlace_execute returns failed

end Exec

/-- How a step that faults leaves the machine. -/
structure Executable.StopsInPlace (executable : Executable) (before : State) (fault : Fault)
    (after : State) : Prop where
  pc : after.registers.pc = before.registers.pc
  fp : after.registers.fp = before.registers.fp
  running : before.status = .running ∧ after.status = .running
  /-- A limit is reached before an instruction is looked for. -/
  limited : ∀ limit, fault = .stepLimit limit →
    executable.reachedLimit? before.steps = some limit ∧ after = before
  /-- If there is no instruction, nothing is carried out. -/
  missing : (∀ limit, fault ≠ .stepLimit limit) →
    executable.slots[before.registers.pc]? = none →
      fault = .invalidPc before.registers.pc ∧ after = before
  /-- An instruction that faults has been counted. -/
  counted : (∀ limit, fault ≠ .stepLimit limit) →
    ∀ opcode, executable.slots[before.registers.pc]? = some opcode →
      after.steps = before.steps + 1

/-- A step that faults leaves the machine at the instruction. -/
theorem Executable.stopsInPlace_of_step {executable : Executable} {fence : Fence}
    {state after : State} {fault : Fault} (fenced : state.Fenced fence)
    (failed : executable.step.run state = .error fault after) :
    executable.StopsInPlace state fault after := by
  cases status : state.status with
  | halted exitCode =>
    rw [step_of_halted status] at failed
    cases failed
  | running =>
    cases reached : executable.reachedLimit? state.steps with
    | some limit =>
      rw [step_of_limit status reached] at failed
      cases failed
      refine ⟨rfl, rfl, ⟨status, status⟩, ?_, fun other => absurd rfl (other limit),
        fun other => absurd rfl (other limit)⟩
      rintro _ ⟨⟩
      exact ⟨reached, rfl⟩
    | none =>
      cases fetch : executable.slots[state.registers.pc]? with
      | none =>
        rw [step_of_missing status reached fetch] at failed
        cases failed
        refine ⟨rfl, rfl, ⟨status, status⟩, nofun, fun _ _ => ⟨rfl, rfl⟩, fun _ opcode found => ?_⟩
        rw [fetch] at found
        cases found
      | some opcode =>
        rw [step_of_fetch status reached fetch] at failed
        have counted : state.Kept fence { state with steps := state.steps + 1 } :=
          .aside fenced rfl rfl rfl
        rcases Exec.cases_of_run_bind_error failed with faulted | ⟨_, next, -, ⟨⟩⟩
        obtain ⟨stays, raised⟩ := Exec.stays_of_execute counted.fenced faulted
        refine ⟨stays.pc, stays.fp, ⟨status, stays.status.trans status⟩,
          fun limit same => absurd same (raised.ne_stepLimit limit), fun _ missing => ?_,
          fun _ _ _ => stays.steps⟩
        rw [fetch] at missing
        cases missing

end ScopeStack
