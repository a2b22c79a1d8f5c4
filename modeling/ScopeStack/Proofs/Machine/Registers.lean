import ScopeStack.Proofs.Linking.Loader
import ScopeStack.Proofs.Machine.Operations

/-!
# The registers of a machine that runs any code

Whatever code a machine runs, its code segment, the end of its heap, its stack
pointer and the end of its memory stay in this order, and the heap never
shrinks. This also holds after faults, which leave the registers where they
are.

An operation that keeps a `Fence` keeps this order and changes no byte below
the floor of the fence. Operations are built from a few that look at memory and
registers; for these it is shown directly, for all others from their parts.
Nothing writes below a floor that is at most the start of the data, and only
stores to arbitrary addresses write below the end of the heap.
-/

namespace ScopeStack

/-- A service is found at its own address. -/
theorem Service.eq_address_of_ofAddress? {service : Service} {target : Int}
    (found : ofAddress? target = some service) : target = service.address := by
  have same := List.find?_some found
  exact (beq_iff_eq.mp same).symm

/-- The state in which an operation ends, whether or not it faults. -/
def Exec.final {α : Type} (action : Exec α) (state : State) : State :=
  match action.run state with
  | .ok _ next => next
  | .error _ next => next

/-- The extent of memory, and the address below which no byte may change. -/
structure Fence where
  codeSize : Int
  size : Nat
  floor : Int

/-- The registers are in order and the heap ends above the floor. -/
structure State.Fenced (fence : Fence) (state : State) : Prop where
  size : state.memory.size = fence.size
  codeSize : state.memory.codeSize = fence.codeSize
  floor : fence.floor ≤ state.registers.hp
  code : fence.codeSize ≤ state.registers.hp
  heap : state.registers.hp ≤ state.registers.sp
  top : state.registers.sp ≤ fence.size

/-- What remains of one state in a later one. -/
structure State.Kept (fence : Fence) (before after : State) : Prop where
  fenced : after.Fenced fence
  heap : before.registers.hp ≤ after.registers.hp
  below : Memory.Intact (fun address => address < fence.floor) before.memory after.memory

namespace State.Kept

variable {fence : Fence} {before middle after : State}

/-- A fenced state keeps to its fence when nothing happens. -/
theorem refl (fenced : before.Fenced fence) : Kept fence before before :=
  ⟨fenced, Int.le_refl _, .refl _ _⟩

/-- A state keeps to its fence through two changes if it does through each. -/
theorem trans (first : Kept fence before middle) (second : Kept fence middle after) :
    Kept fence before after :=
  ⟨second.fenced, Int.le_trans first.heap second.heap, first.below.trans second.below⟩

/-- A change that concerns neither memory nor the registers of heap and stack. -/
theorem aside (fenced : before.Fenced fence) (memory : after.memory = before.memory)
    (heap : after.registers.hp = before.registers.hp)
    (stack : after.registers.sp = before.registers.sp) : Kept fence before after where
  fenced :=
    ⟨memory ▸ fenced.size, memory ▸ fenced.codeSize, heap ▸ fenced.floor, heap ▸ fenced.code,
      heap ▸ stack ▸ fenced.heap, stack ▸ fenced.top⟩
  heap := Int.le_of_eq heap.symm
  below := memory ▸ .refl _ _

/-- A word that is written above the floor. -/
theorem setWord (fenced : before.Fenced fence) {address : Int} {value : Word}
    (above : fence.floor ≤ address) :
    Kept fence before { before with memory := before.memory.setWord address value } where
  fenced := ⟨fenced.size, fenced.codeSize, fenced.floor, fenced.code, fenced.heap, fenced.top⟩
  heap := Int.le_refl _
  below := (Memory.Put.setWord before.memory address value).intact (by omega)

end State.Kept

namespace Exec

/-- An operation keeps a fence from every state inside it. -/
def Keeps {α : Type} (fence : Fence) (action : Exec α) : Prop :=
  ∀ state : State, state.Fenced fence → state.Kept fence (action.final state)

variable {α β : Type} {fence : Fence}

/-- The state after an operation that succeeds. -/
theorem final_of_ok {action : Exec α} {state next : State} {value : α}
    (done : action.run state = .ok value next) : action.final state = next := by
  rw [final, done]

/-- The state after an operation that faults. -/
theorem final_of_error {action : Exec α} {state next : State} {fault : Fault}
    (failed : action.run state = .error fault next) : action.final state = next := by
  rw [final, failed]

/-- The state after two operations, of which the first succeeds. -/
theorem final_bind_of_ok {action : Exec α} {later : α → Exec β} {state next : State} {value : α}
    (done : action.run state = .ok value next) :
    (action >>= later).final state = (later value).final next := by
  rw [final, final, run_bind_of_ok done]

/-- The state after two operations, of which the first faults. -/
theorem final_bind_of_error {action : Exec α} {later : α → Exec β} {state next : State}
    {fault : Fault} (failed : action.run state = .error fault next) :
    (action >>= later).final state = next :=
  final_of_error (run_bind_of_error failed)

/-- The second part of an operation starts where the first has ended. -/
theorem kept_bind {action : Exec α} {later : α → Exec β} {state : State}
    (first : state.Kept fence (action.final state))
    (second : ∀ value next, action.run state = .ok value next → next.Fenced fence →
      next.Kept fence ((later value).final next)) :
    state.Kept fence ((action >>= later).final state) := by
  cases ran : action.run state with
  | ok value next =>
    rw [final_of_ok ran] at first
    rw [final_bind_of_ok ran]
    exact first.trans (second value next ran first.fenced)
  | error fault next =>
    rw [final_of_error ran] at first
    rw [final_bind_of_error ran]
    exact first

/-- Two operations in a row keep to a fence if both do. -/
theorem Keeps.bind {action : Exec α} {later : α → Exec β} (first : Keeps fence action)
    (second : ∀ value, Keeps fence (later value)) : Keeps fence (action >>= later) :=
  fun state fenced => kept_bind (first state fenced) fun value next _ => second value next

/-- Giving a value keeps to the fence. -/
theorem keeps_pure (value : α) : Keeps fence (pure value : Exec α) :=
  fun _ fenced => .refl fenced

/-- Raising a fault keeps to the fence. -/
theorem keeps_throw (fault : Fault) : Keeps fence (throw fault : Exec α) :=
  fun _ fenced => .refl fenced

/-- Looking at the state keeps to the fence. -/
theorem keeps_get : Keeps fence (get : Exec State) :=
  fun _ fenced => .refl fenced

/-- Going on with a result keeps to the fence. -/
theorem keeps_ofExcept (result : Except Fault α) : Keeps fence (ofExcept result) := by
  cases result with
  | ok value => exact keeps_pure value
  | error fault => exact keeps_throw fault

/-- A change of the state apart from memory and the registers of heap and
stack. -/
theorem keeps_modify {change : State → State}
    (memory : ∀ state, (change state).memory = state.memory)
    (heap : ∀ state, (change state).registers.hp = state.registers.hp)
    (stack : ∀ state, (change state).registers.sp = state.registers.sp) :
    Keeps fence (modify change : Exec Unit) :=
  fun state fenced => .aside fenced (memory state) (heap state) (stack state)

/-- A jump keeps to the fence. -/
theorem keeps_jump (address : Int) : Keeps fence (jump address) :=
  keeps_modify (fun _ => rfl) (fun _ => rfl) fun _ => rfl

/-- Stopping keeps to the fence. -/
theorem keeps_halt (exitCode : Int) : Keeps fence (halt exitCode) :=
  keeps_modify (fun _ => rfl) (fun _ => rfl) fun _ => rfl

/-- Loading a word keeps to the fence. -/
theorem keeps_load (address : Int) : Keeps fence (load address) :=
  keeps_get.bind fun state => keeps_ofExcept (state.memory.load address)

/-- Reading a word changes nothing. -/
theorem eq_of_run_load {address : Int} {state next : State} {value : Word}
    (loaded : (load address).run state = .ok value next) : next = state := by
  rw [load, run_bind_of_ok run_get] at loaded
  cases found : state.memory.load address with
  | ok word =>
    rw [found] at loaded
    cases loaded
    rfl
  | error fault =>
    rw [found] at loaded
    cases loaded

/-- A store either writes one word or faults. -/
theorem run_store_cases (address : Int) (value : Word) (state : State) :
    (state.memory.codeSize ≤ address ∧ (store address value).run state =
      .ok () { state with memory := state.memory.setWord address value }) ∨
    ∃ fault, (store address value).run state = .error fault state := by
  by_cases writable : state.memory.Addressable address 4
  · refine .inl ⟨writable.1, ?_⟩
    rw [store, run_bind_of_ok run_get, Memory.store, if_pos writable]
    rfl
  · refine .inr ⟨.memoryFault address, ?_⟩
    rw [store, run_bind_of_ok run_get, Memory.store, if_neg writable]
    rfl

/-- Storing to any address respects a floor that is at most the start of the
data. -/
theorem keeps_store (low : fence.floor ≤ fence.codeSize) (address : Int) (value : Word) :
    Keeps fence (store address value) := by
  intro state fenced
  rcases run_store_cases address value state with ⟨above, stored⟩ | ⟨fault, failed⟩
  · rw [final_of_ok stored]
    rw [fenced.codeSize] at above
    exact .setWord fenced (Int.le_trans low above)
  · rw [final_of_error failed]
    exact .refl fenced

/-- A push either writes a word above the heap or faults. -/
theorem run_push_cases (value : Word) (state : State) :
    (state.registers.hp ≤ state.registers.sp - 4 ∧ (push value).run state =
      .ok () { state with
        registers := { state.registers with sp := state.registers.sp - 4 }
        memory := state.memory.setWord (state.registers.sp - 4) value }) ∨
    ∃ fault, (push value).run state = .error fault state := by
  rw [push, run_bind_of_ok run_get]
  by_cases full : state.registers.sp - 4 < state.registers.hp
  · exact .inr ⟨.stackOverflow, congrArg (EStateM.run · _) (if_pos full)⟩
  · rcases run_store_cases (state.registers.sp - 4) value state with ⟨-, stored⟩ | ⟨fault, failed⟩
    · refine .inl ⟨by omega, (congrArg (EStateM.run · _) (if_neg full)).trans ?_⟩
      exact run_bind_of_ok stored
    · refine .inr ⟨fault, (congrArg (EStateM.run · _) (if_neg full)).trans ?_⟩
      exact run_bind_of_error failed

/-- A push is checked against the heap, so it keeps to the fence. -/
theorem keeps_push (value : Word) : Keeps fence (push value) := by
  intro state fenced
  rcases run_push_cases value state with ⟨room, pushed⟩ | ⟨fault, failed⟩
  · rw [final_of_ok pushed]
    have floor := fenced.floor
    have top := fenced.top
    refine ⟨⟨fenced.size, fenced.codeSize, floor, fenced.code, room, ?_⟩, Int.le_refl _, ?_⟩
    · dsimp only
      omega
    · exact (Memory.Put.setWord state.memory (state.registers.sp - 4) value).intact (by omega)
  · rw [final_of_error failed]
    exact .refl fenced

/-- A pop either gives the topmost word or faults. -/
theorem run_pop_cases (state : State) :
    (state.registers.sp + 4 ≤ state.memory.size ∧ pop.run state =
      .ok (state.memory.word state.registers.sp) { state with
        registers := { state.registers with sp := state.registers.sp + 4 } }) ∨
    ∃ fault, pop.run state = .error fault state := by
  rw [pop, run_bind_of_ok run_get]
  by_cases empty : (state.memory.size : Int) < state.registers.sp + 4
  · exact .inr ⟨.stackUnderflow, congrArg (EStateM.run · _) (if_pos empty)⟩
  · by_cases readable : state.memory.Addressable state.registers.sp 4
    · refine .inl ⟨readable.2, (congrArg (EStateM.run · _) (if_neg empty)).trans ?_⟩
      rw [load, bind_assoc, run_bind_of_ok run_get, Memory.load, if_pos readable]
      rfl
    · refine .inr ⟨.memoryFault state.registers.sp, (congrArg (EStateM.run · _) (if_neg empty)).trans ?_⟩
      rw [load, bind_assoc, run_bind_of_ok run_get, Memory.load, if_neg readable]
      rfl

/-- A pop is checked against the end of memory, so it keeps to the fence. -/
theorem keeps_pop : Keeps fence pop := by
  intro state fenced
  rcases run_pop_cases state with ⟨inside, popped⟩ | ⟨fault, failed⟩
  · rw [final_of_ok popped]
    rw [fenced.size] at inside
    have heap := fenced.heap
    refine ⟨⟨fenced.size, fenced.codeSize, fenced.floor, fenced.code, ?_, inside⟩, Int.le_refl _,
      .refl _ _⟩
    dsimp only
    omega
  · rw [final_of_error failed]
    exact .refl fenced

/-- Popping a number keeps to the fence. -/
theorem keeps_popInt : Keeps fence popInt :=
  keeps_pop.bind fun value => keeps_pure value.toInt

/-- What is popped is the topmost word. -/
theorem eq_of_run_popInt {state next : State} {value : Int}
    (popped : popInt.run state = .ok value next) :
    value = (state.memory.word state.registers.sp).toInt := by
  rcases run_pop_cases state with ⟨-, done⟩ | ⟨fault, failed⟩
  · rw [popInt, run_bind_of_ok done] at popped
    cases popped
    rfl
  · rw [popInt, run_bind_of_error failed] at popped
    cases popped

/-- Writing to the output keeps to the fence. -/
theorem keeps_write (bytes : List UInt8) : Keeps fence (write bytes) := by
  refine keeps_get.bind fun state => ?_
  refine Keeps.bind (keeps_modify (fun _ => rfl) (fun _ => rfl) fun _ => rfl) fun _ => ?_
  split
  · exact keeps_throw _
  · exact keeps_pure _

/-- Reading from the input keeps to the fence. -/
theorem keeps_read (reader : List UInt8 → Except Fault α × List UInt8) :
    Keeps fence (read reader) := by
  refine keeps_get.bind fun state => ?_
  refine Keeps.bind (keeps_modify (fun _ => rfl) (fun _ => rfl) fun _ => rfl) fun _ => ?_
  exact keeps_ofExcept _

/-- Doing an operation any number of times keeps to the fence if doing it once does. -/
theorem Keeps.times {action : Exec Unit} (kept : Keeps fence action) (count : Nat) :
    Keeps fence (times count action) := by
  induction count with
  | zero => exact keeps_pure ()
  | succ count hypothesis => exact kept.bind fun _ => hypothesis

/-- Dropping a word keeps to the fence. -/
theorem keeps_discard_pop : Keeps fence (discard pop) :=
  keeps_pop.bind fun _ => keeps_pure _

/-- The stack pointer is moved word by word, so it keeps to the fence. -/
theorem keeps_shiftStack (bytes : Int) : Keeps fence (shiftStack bytes) := by
  rw [shiftStack]
  split
  · refine ((keeps_push 0).times _).bind fun _ => ?_
    split
    · exact keeps_discard_pop
    · exact keeps_pure ()
  · exact keeps_discard_pop.times _

/-- The heap grows up to the stack and no further. -/
theorem keeps_allocate (size : Int) : Keeps fence (allocate size) := by
  intro state fenced
  rw [allocate, final_bind_of_ok run_get]
  have heap := fenced.heap
  have floor := fenced.floor
  have code := fenced.code
  by_cases refused : size < 0 ∨ state.registers.sp < state.registers.hp + size
  · rw [if_pos refused]
    exact keeps_throw _ state fenced
  · rw [if_neg refused, Memory.clear]
    split
    · refine ⟨⟨fenced.size, fenced.codeSize, ?_, ?_, ?_, fenced.top⟩, ?_, rfl, rfl, ?_⟩
      · change fence.floor ≤ state.registers.hp + size
        omega
      · change fence.codeSize ≤ state.registers.hp + size
        omega
      · change state.registers.hp + size ≤ state.registers.sp
        omega
      · change state.registers.hp ≤ state.registers.hp + size
        omega
      · intro address below
        exact (Memory.byte_zeroRange _ _ _ _).trans (if_neg (by omega))
    · exact .refl fenced

section Store

variable (low : fence.floor ≤ fence.codeSize)

include low

/-- Copying words keeps to the fence. -/
theorem keeps_copyWords (count : Nat) (source target : Int) :
    Keeps fence (copyWords count source target) := by
  induction count generalizing source target with
  | zero => exact keeps_pure ()
  | succ count hypothesis =>
    refine (keeps_load source).bind fun value => (keeps_store low target value).bind fun _ => ?_
    exact hypothesis (source + 4) (target + 4)

/-- Copying words several times keeps to the fence. -/
theorem keeps_copyRuns (length : Nat) (source : Int) (count : Nat) (target : Int) :
    Keeps fence (copyRuns length source count target) := by
  induction count generalizing target with
  | zero => exact keeps_pure ()
  | succ count hypothesis =>
    exact (keeps_copyWords low length source target).bind fun _ => hypothesis _

/-- Expanding the runs of an initializer keeps to the fence. -/
theorem keeps_expandRecords (records : Nat) (source target : Int) :
    Keeps fence (expandRecords records source target) := by
  induction records generalizing source target with
  | zero => exact keeps_pure ()
  | succ records hypothesis =>
    refine (keeps_load _).bind fun count => (keeps_load _).bind fun length => ?_
    exact (keeps_copyRuns low _ _ _ _).bind fun _ => hypothesis _ _

/-- Expanding an initializer keeps to the fence. -/
theorem keeps_expandInitializer (source target : Int) :
    Keeps fence (expandInitializer source target) :=
  (keeps_load source).bind fun _ => keeps_expandRecords low _ _ _

/-- Storing a text keeps to the fence. -/
theorem keeps_storeText (address : Int) (text : List Char) :
    Keeps fence (storeText address text) := by
  induction text generalizing address with
  | nil => exact keeps_store low address 0
  | cons char rest hypothesis =>
    exact (keeps_store low address _).bind fun _ => hypothesis (address + 4)

end Store

/-- A return drops a frame that lies above the stack pointer and ends inside
memory, so that the stack pointer stays above the heap. -/
theorem keeps_leave : Keeps fence leave := by
  refine keeps_popInt.bind fun parsSize => keeps_pop.bind fun result => ?_
  intro state fenced
  rw [final_bind_of_ok run_get]
  have heap := fenced.heap
  have size := fenced.size
  dsimp only
  split
  · exact keeps_throw _ state fenced
  next frame =>
    refine kept_bind (keeps_load _ state fenced) fun returnAddress middle loaded _ => ?_
    obtain rfl := eq_of_run_load loaded
    refine kept_bind (keeps_load _ middle fenced) fun callerFp same loadedAgain _ => ?_
    obtain rfl := eq_of_run_load loadedAgain
    split
    · exact keeps_throw _ same fenced
    next room =>
      refine kept_bind ?_ fun _ next _ => keeps_push result next
      rw [setRegisters, final_of_ok (run_modify _)]
      refine ⟨⟨fenced.size, fenced.codeSize, fenced.floor, fenced.code, ?_, ?_⟩, Int.le_refl _,
        .refl _ _⟩
      all_goals
        dsimp only
        omega

/-- Entering a function keeps to the fence. -/
theorem keeps_enter (target next : Int) : Keeps fence (enter target next) := by
  refine keeps_get.bind fun state => (keeps_push _).bind fun _ => (keeps_push _).bind fun _ => ?_
  exact keeps_modify (fun _ => rfl) (fun _ => rfl) fun _ => rfl

/-- What an instruction may do: stores to arbitrary addresses require a low
floor. -/
def MayStore (fence : Fence) (state : State) : Opcode → Prop
  | .save | .init => fence.floor ≤ fence.codeSize
  | .call => (state.memory.word state.registers.sp).toInt = Service.getstr.address →
      fence.floor ≤ fence.codeSize
  | _ => True

/-- A service keeps to the fence. -/
theorem keeps_serve {service : Service}
    (low : service = .getstr → fence.floor ≤ fence.codeSize) : Keeps fence (serve service) := by
  cases service with
  | exit => exact keeps_popInt.bind fun exitCode => (keeps_halt exitCode).bind fun _ => keeps_pure none
  | getint => exact (keeps_read _).bind fun _ => keeps_pure _
  | putint => exact keeps_popInt.bind fun _ => (keeps_write _).bind fun _ => keeps_pure _
  | getstr =>
    refine keeps_popInt.bind fun address => (keeps_read _).bind fun line => ?_
    exact (keeps_storeText (low rfl) address line).bind fun _ => keeps_pure _
  | putstr =>
    refine keeps_popInt.bind fun address => keeps_get.bind fun state => ?_
    refine (keeps_ofExcept _).bind fun text => ?_
    exact (keeps_write _).bind fun _ => keeps_pure _
  | new => exact keeps_popInt.bind fun size => (keeps_allocate size).bind fun _ => keeps_pure _
  | del => exact keeps_pop.bind fun _ => keeps_pure _

/-- Calling a service keeps to the fence. -/
theorem keeps_callService (next : Int) {service : Service}
    (low : service = .getstr → fence.floor ≤ fence.codeSize) :
    Keeps fence (callService next service) := by
  refine keeps_pop.bind fun _ => (keeps_serve low).bind fun result => ?_
  cases result with
  | none => exact keeps_pure ()
  | some value => exact (keeps_push value).bind fun _ => keeps_jump next

/-- A call keeps to the fence. -/
theorem keeps_callAt {target : Int} (next : Int)
    (low : target = Service.getstr.address → fence.floor ≤ fence.codeSize) :
    Keeps fence (callAt target next) := by
  rw [callAt]
  split
  · split
    next service found =>
      refine keeps_callService next fun same => low ?_
      subst same
      exact Service.eq_address_of_ofAddress? found
    · exact keeps_throw _
  · exact keeps_enter target next

/-- An instruction keeps to the fence unless it may store below it. -/
theorem kept_execute (next : Int) {opcode : Opcode} {state : State} (fenced : state.Fenced fence)
    (may : MayStore fence state opcode) :
    state.Kept fence ((execute next opcode).final state) := by
  cases opcode with
  | push value => exact (keeps_push value).bind (fun _ => keeps_jump next) state fenced
  | load =>
    refine Keeps.bind keeps_popInt (fun address => (keeps_load address).bind fun value => ?_) state
      fenced
    exact (keeps_push value).bind fun _ => keeps_jump next
  | save =>
    refine Keeps.bind keeps_popInt (fun address => keeps_pop.bind fun value => ?_) state fenced
    exact (keeps_store may address value).bind fun _ => keeps_jump next
  | popn =>
    exact Keeps.bind keeps_popInt (fun bytes => (keeps_shiftStack bytes).bind fun _ =>
      keeps_jump next) state fenced
  | unary op =>
    exact Keeps.bind keeps_pop (fun value => (keeps_push _).bind fun _ => keeps_jump next) state
      fenced
  | binary op =>
    refine Keeps.bind keeps_pop (fun second => keeps_pop.bind fun first => ?_) state fenced
    split
    · exact (keeps_push _).bind fun _ => keeps_jump next
    · exact keeps_throw _
  | ujmp => exact Keeps.bind keeps_popInt (fun target => keeps_jump target) state fenced
  | cjmp =>
    exact Keeps.bind keeps_popInt (fun yes => keeps_popInt.bind fun no => keeps_pop.bind fun _ =>
      keeps_jump _) state fenced
  | call =>
    -- Which service is called depends on the word that is popped.
    refine kept_bind (keeps_popInt state fenced) fun target middle popped inside => ?_
    obtain rfl := eq_of_run_popInt popped
    exact keeps_callAt next may middle inside
  | retn => exact keeps_leave state fenced
  | init =>
    refine Keeps.bind keeps_popInt (fun source => keeps_popInt.bind fun target => ?_) state fenced
    exact (keeps_expandInitializer may source target).bind fun _ => keeps_jump next
  | regn reg =>
    exact Keeps.bind keeps_get (fun _ => (keeps_push _).bind fun _ => keeps_jump next) state fenced

end Exec

namespace Executable

variable {executable : Executable} {fence : Fence}

/-- The state after a step, whether or not it faults. -/
def next (executable : Executable) (state : State) : State := executable.step.final state

/-- The state after a number of steps from the start; a fault does not keep the
machine from going on. -/
def stateAt (executable : Executable) (input : List UInt8) (outputLimit : Option Nat) : Nat → State
  | 0 => executable.start input outputLimit
  | count + 1 => executable.next (executable.stateAt input outputLimit count)

/-- A step of the machine keeps every fence that its instruction allows. -/
theorem kept_next {state : State} (fenced : state.Fenced fence)
    (may : ∀ opcode, executable.slots[state.registers.pc]? = some opcode →
      Exec.MayStore fence state opcode) :
    state.Kept fence (executable.next state) := by
  rw [next]
  cases status : state.status with
  | halted exitCode =>
    rw [Exec.final_of_ok (step_of_halted status)]
    exact .refl fenced
  | running =>
    cases reached : executable.reachedLimit? state.steps with
    | some limit =>
      rw [Exec.final_of_error (step_of_limit status reached)]
      exact .refl fenced
    | none =>
      cases fetch : executable.slots[state.registers.pc]? with
      | none =>
        rw [Exec.final_of_error (step_of_missing status reached fetch)]
        exact .refl fenced
      | some opcode =>
        rw [Exec.final, step_of_fetch status reached fetch]
        have counted : state.Kept fence { state with steps := state.steps + 1 } :=
          .aside fenced rfl rfl rfl
        refine counted.trans (Exec.kept_bind ?_ fun _ later _ => ?_)
        · exact Exec.kept_execute _ counted.fenced (may opcode fetch)
        · exact Exec.keeps_get.bind (fun state => Exec.keeps_pure state.status) later

/-- The parts of the memory of a loaded program: its code, its data and what is
left for heap and stack. -/
structure Extent (executable : Executable) (config : Config) (code : Code) (data : Data) :
    Prop where
  config_eq : executable.config = config
  size_eq : executable.memory.size = config.stackTop
  codeSize_eq : executable.memory.codeSize = code.size
  dataEnd_eq : executable.dataEnd = code.size + data.size
  codeLength : 0 ≤ code.size
  dataLength : 0 ≤ data.size
  fits : code.size + data.size ≤ config.stackTop
  bounded : config.stackTop ≤ Config.maxStackTop

/-- Storing data words does not change the extent of memory. -/
theorem extent_storeData {stackTop : Int} {placed : List (Int × Datum)} {before after : Memory}
    (stored : storeData stackTop placed before = .ok after) :
    after.size = before.size ∧ after.codeSize = before.codeSize := by
  induction placed generalizing before with
  | nil =>
    cases stored
    exact ⟨rfl, rfl⟩
  | cons entry rest hypothesis =>
    obtain ⟨address, item⟩ := entry
    cases item with
    | label name => exact hypothesis stored
    | size bytes => exact hypothesis stored
    | data value =>
      rw [storeData, Memory.store] at stored
      split at stored
      next middle written =>
        split at written
        · cases written
          have extent := hypothesis stored
          exact extent
        · cases written
      · cases stored

/-- A loaded image has its code, its data and its memory one after the other. -/
theorem extent_of_load {config : Config} {code : Code} {data : Data}
    (loaded : load config code data = .ok executable)
    (sizes : ∀ bytes, .size bytes ∈ data.map Located.item → 0 ≤ bytes) :
    executable.Extent config code data := by
  have codeLength : 0 ≤ Code.size code := code.size_eq ▸ instrsSize_nonneg _
  have dataLength : 0 ≤ Data.size data := data.size_eq ▸ itemsSize_nonneg sizes
  simp only [load, place, Config.validate, bind, Except.bind] at loaded
  split at loaded
  · cases loaded
  next valid =>
    split at valid
    · cases valid
    next allowed =>
      have bounded : config.stackTop ≤ Config.maxStackTop := by omega
      split at loaded
      · cases loaded
      · split at loaded
        · cases loaded
        next fits =>
          split at loaded
          · cases loaded
          next memory stored =>
            obtain ⟨size, codeSize⟩ := extent_storeData stored
            split at loaded
            · cases loaded
            · cases loaded
              have total : (Word.ofInt (code.size + data.size)).toInt = code.size + data.size := by
                apply Word.toInt_ofInt
                simp only [Word.Fits, Config.maxStackTop] at bounded ⊢
                omega
              refine ⟨rfl, ?_, codeSize, total, codeLength, dataLength, by omega, bounded⟩
              rw [size]
              exact Int.toNat_of_nonneg (by omega)

/-- A loaded program starts inside every fence whose floor is at most the end of
its data. -/
theorem Extent.fenced {config : Config} {code : Code} {data : Data}
    (extent : executable.Extent config code data) {floor : Int}
    (low : floor ≤ executable.dataEnd) (input : List UInt8) (outputLimit : Option Nat) :
    (executable.start input outputLimit).Fenced ⟨code.size, executable.memory.size, floor⟩ := by
  obtain ⟨rfl, size, codeSize, dataEnd, first, second, third, -⟩ := extent
  refine ⟨rfl, codeSize, low, ?_, ?_, ?_⟩
  all_goals
    dsimp only [start]
    omega

/-- Every step keeps a fence whose floor is at most the start of the data. -/
theorem kept_of_low {state : State} (low : fence.floor ≤ fence.codeSize)
    (fenced : state.Fenced fence) : state.Kept fence (executable.next state) := by
  refine kept_next fenced fun opcode _ => ?_
  cases opcode with
  | save | init => exact low
  | call => exact fun _ => low
  | _ => trivial

/-- All states of a run keep to a fence that is not above the code. -/
theorem kept_stateAt {input : List UInt8} {outputLimit : Option Nat}
    (low : fence.floor ≤ fence.codeSize)
    (fenced : (executable.start input outputLimit).Fenced fence) (count : Nat) :
    (executable.start input outputLimit).Kept fence (executable.stateAt input outputLimit count) := by
  induction count with
  | zero => exact .refl fenced
  | succ count hypothesis => exact hypothesis.trans (kept_of_low low hypothesis.fenced)

/-- Whenever a program runs, its stack lies between the heap and the end of memory. -/
theorem stacked_stateAt {config : Config} {code : Code} {data : Data}
    (loaded : load config code data = .ok executable)
    (sizes : ∀ bytes, .size bytes ∈ data.map Located.item → 0 ≤ bytes) {input : List UInt8}
    {outputLimit : Option Nat} {count : Nat} {state : State}
    (reached : executable.stateAt input outputLimit count = state) :
    Stacked state.registers.sp state.memory state.ambient := by
  subst reached
  have extent := extent_of_load loaded sizes
  have dataEnd := extent.dataEnd_eq
  have dataLength := extent.dataLength
  have fenced := (kept_stateAt (Int.le_refl code.size)
    (extent.fenced (show code.size ≤ _ by omega) input outputLimit) count).fenced
  exact ⟨fenced.codeSize ▸ fenced.code, fenced.heap, fenced.size ▸ fenced.top⟩

/-- Over any number of steps the heap only grows. -/
theorem heap_le_of_le {input : List UInt8} {outputLimit : Option Nat}
    (low : fence.floor ≤ fence.codeSize)
    (fenced : (executable.start input outputLimit).Fenced fence) {earlier later : Nat}
    (le : earlier ≤ later) :
    (executable.stateAt input outputLimit earlier).registers.hp ≤
      (executable.stateAt input outputLimit later).registers.hp := by
  induction le with
  | refl => exact Int.le_refl _
  | step _ hypothesis =>
    exact Int.le_trans hypothesis (kept_of_low low (kept_stateAt low fenced _).fenced).heap

end Executable

/-- In every state that a loaded program reaches, the end of its code, the end of
its data, the heap pointer, the stack pointer and the top of the stack are in
this order; no step moves the heap pointer down, and the bytes of the code are
as they were loaded. -/
theorem registers_stay_ordered {config : Config} {code : Code} {data : Data}
    {executable : Executable} (loaded : Executable.load config code data = .ok executable)
    (sizes : ∀ bytes, .size bytes ∈ data.map Located.item → 0 ≤ bytes) (input : List UInt8)
    (outputLimit : Option Nat) (count : Nat) :
    let state := executable.stateAt input outputLimit count
    0 ≤ code.size ∧ code.size ≤ executable.dataEnd ∧
      executable.dataEnd ≤ state.registers.hp ∧ state.registers.hp ≤ state.registers.sp ∧
      state.registers.sp ≤ config.stackTop ∧
      state.registers.hp ≤ (executable.next state).registers.hp ∧
      ∀ address, address < code.size →
        state.memory.byte address = executable.memory.byte address := by
  intro state
  have extent := Executable.extent_of_load loaded sizes
  have dataEnd := extent.dataEnd_eq
  have dataLength := extent.dataLength
  let fence : Fence := ⟨code.size, executable.memory.size, code.size⟩
  have kept : (executable.start input outputLimit).Kept fence state :=
    Executable.kept_stateAt (Int.le_refl _) (extent.fenced (by omega) input outputLimit) count
  have later : state.Kept fence (executable.next state) :=
    Executable.kept_of_low (Int.le_refl _) kept.fenced
  refine ⟨extent.codeLength, by omega, kept.heap, kept.fenced.heap, ?_, later.heap, kept.below.byte⟩
  rw [← extent.size_eq]
  exact kept.fenced.top

/-- A program that takes eight bytes from the heap. -/
def Code.allocating : Code := codeAt none [.push 8, .push 0, .name "new", .call none]

/-- Room for one word. -/
def Data.oneWord : Data := dataAt none [.label "room", .size 4]

/-- The registers are in order once the program has taken a block. -/
theorem registers_stay_ordered_sample :
    ∃ executable,
      Executable.load ⟨64, none⟩ Code.allocating Data.oneWord = .ok executable ∧
      let state := executable.stateAt [] none 4
      executable.dataEnd ≤ state.registers.hp ∧ state.registers.hp ≤ state.registers.sp ∧
        state.registers.sp ≤ 64 := by
  obtain ⟨executable, loaded⟩ : ∃ executable,
      Executable.load ⟨64, none⟩ Code.allocating Data.oneWord = .ok executable := ⟨_, rfl⟩
  obtain ⟨-, -, data, heap, top, -⟩ :=
    registers_stay_ordered loaded (by simp [Data.oneWord, dataAt]) [] none 4
  exact ⟨executable, loaded, data, heap, top⟩

end ScopeStack
