import ScopeStack.Proofs.Compilation
import ScopeStack.Proofs.Emission.Records
import ScopeStack.Proofs.Execution.Reference
import ScopeStack.Proofs.Linking.Loading
import ScopeStack.Proofs.Machine.Completion
import ScopeStack.Proofs.Machine.Registers

/-!
# Compiled expressions have their values

The code of an expression without calls pushes the value that the expression has over the memory
in which the machine starts, although the machine writes to that memory while it goes along: the
operands lie on the stack. `Setting.Computes` says this of a list of instructions, wherever it
stands. All that matters is that no word which the evaluation loads overlaps with the part of the
stack that the code uses. There is one rule for each kind of code, and the code of an expression
is put together from these.
-/

namespace ScopeStack

open Emission Executable Stateful

/-- Where a piece of code is carried out: there is room for its operands above a lower end, and
memory is as it was at the start of the whole code outside the bytes up to an upper end. -/
structure Setting.Workspace (setting : Setting) (low high : Int) (depth : Nat) (sp : Int)
    (memory : Memory) (ambient : Ambient) : Prop where
  stacked : Stacked sp memory ambient
  same : Memory.Outside low high setting.memory memory
  heap : ambient.hp ≤ low
  below : low ≤ sp - 4 * depth
  above : sp ≤ high

/-- A machine that carries out instructions pushes the word that an evaluation over the memory of
the setting gives, or faults if that does. It needs a number of words of the stack and changes no
other memory. -/
structure Setting.Computes (setting : Setting) (instrs : List Instr) (depth : Nat)
    (reading : Reading Word) : Prop where
  positive : 1 ≤ depth
  completes : ∀ {start stop low high pc sp : Int} {memory : Memory} {ambient : Ambient}
    {done : State → Prop} {expected : Fault → Prop},
    CodeAt setting.executable.labels setting.executable.slots pc instrs → start ≤ pc →
    pc + instrsSize instrs ≤ stop → setting.Workspace low high depth sp memory ambient →
    reading.Avoids low high →
    (∀ value after, reading.result = .ok value → after.word (sp - 4) = value →
      Memory.Outside (sp - 4 * depth) sp memory after → ∀ steps,
      setting.executable.Completes start stop done expected
        (.running (pc + instrsSize instrs) setting.fp (sp - 4) after ambient steps)) →
    (∀ fault, reading.result = .error fault → expected fault) → ∀ steps,
    setting.executable.Completes start stop done expected
      (.running pc setting.fp sp memory ambient steps)

namespace Setting

variable {setting : Setting}

section Workspace

variable {low high sp : Int} {depth : Nat} {memory after : Memory} {ambient : Ambient}

/-- The stack after a word has been pushed. -/
theorem Workspace.pushed (work : setting.Workspace low high depth sp memory ambient)
    (positive : 1 ≤ depth) (outside : Memory.Outside (sp - 4 * depth) sp memory after) :
    Stacked (sp - 4) after ambient ∧ Memory.Outside low high setting.memory after := by
  have top := work.stacked.top
  have heap := work.heap
  have below := work.below
  have above := work.above
  refine ⟨work.stacked.moved (by omega) (by omega) outside.size outside.codeSize, ?_⟩
  exact work.same.trans (outside.mono fun index apart => by omega)

/-- The first operand stays on the stack while the second one is evaluated. -/
theorem Workspace.second (work : setting.Workspace low high depth sp memory ambient)
    {fewer : Nat} (less : fewer + 1 ≤ depth)
    (outside : Memory.Outside (sp - 4 * depth) sp memory after) :
    setting.Workspace low high fewer (sp - 4) after ambient := by
  obtain ⟨stacked, same⟩ := work.pushed (by omega) outside
  have below := work.below
  have above := work.above
  exact ⟨stacked, same, work.heap, by omega, by omega⟩

/-- Room for more words is room for fewer. -/
theorem Workspace.mono (work : setting.Workspace low high depth sp memory ambient) {fewer : Nat}
    (less : fewer ≤ depth) : setting.Workspace low high fewer sp memory ambient := by
  have below := work.below
  exact ⟨work.stacked, work.same, work.heap, by omega, work.above⟩

end Workspace

section Pieces

variable (unlimited : setting.executable.config.maxSteps = none) {instrs : List Instr}
  {depth : Nat} {reading : Reading Word}

include unlimited

/-- An instruction that pushes a constant. -/
theorem computes_constant {instr : Instr} {word : Word} (size : instr.size = 5)
    (fetched : ∀ pc, InstrAt setting.executable.labels setting.executable.slots pc instr →
      setting.executable.slots[pc]? = some (.push word)) :
    setting.Computes [instr] 1 (pure word) where
  positive := Nat.le_refl 1
  completes {start stop low high pc sp memory ambient done expected} placed lower upper work _ next
      _ steps := by
    have heap := work.heap
    have below := work.below
    rw [instrsSize_cons, size, instrsSize_nil, Int.add_zero] at upper next
    refine completes_push unlimited work.stacked lower (by omega) (fetched pc placed.1) (by omega)
      (fun after put _ => next _ after rfl put.word ?_) steps
    exact put.outside.mono fun index apart => by omega

/-- Pushing a number. -/
theorem computes_push (value : Int) :
    setting.Computes [.push value] 1 (pure (Word.ofInt value)) := by
  refine computes_constant unlimited rfl fun pc placed => ?_
  obtain ⟨_, ⟨⟩, fetch⟩ := placed
  exact fetch

/-- Pushing the address that a name stands for. -/
theorem computes_name (name : String) :
    setting.Computes [.name name] 1 (pure (setting.named name)) :=
  computes_constant unlimited rfl fun _ placed => slot_of_name placed

/-- Pushing the frame pointer. -/
theorem computes_regn : setting.Computes [.regn .fp] 1 (pure (Word.ofInt setting.fp)) where
  positive := Nat.le_refl 1
  completes {start stop low high pc sp memory ambient done expected} placed lower upper work _ next
      _ steps := by
    obtain ⟨⟨_, ⟨⟩, fetch⟩, -⟩ := placed
    have size : instrsSize [.regn .fp] = 1 := rfl
    have heap := work.heap
    have below := work.below
    rw [size] at upper next
    refine completes_regn unlimited work.stacked lower (by omega) fetch (by omega)
      (fun after put _ => next _ after rfl put.word ?_) steps
    exact put.outside.mono fun index apart => by omega

/-- Loading the word at the address that has been computed. The word is what it was at the start,
as it lies outside the part of the stack that is in use. -/
theorem Computes.load (computes : setting.Computes instrs depth reading) :
    setting.Computes (instrs ++ [.load]) depth
      (do Reading.load setting.memory (← reading)) where
  positive := computes.positive
  completes {start stop low high pc sp memory ambient done expected} placed lower upper work avoids
      next faults steps := by
    have size : instrsSize (instrs ++ [.load]) = instrsSize instrs + 1 := by
      rw [instrsSize_append]
      rfl
    rw [size] at upper next
    obtain ⟨first, ⟨_, ⟨⟩, fetch⟩, -⟩ := codeAt_append.mp placed
    have room := instrsSize_nonneg instrs
    have positive := computes.positive
    have top := work.stacked.top
    refine computes.completes first lower (by omega) work avoids.first
      (fun address after ends pushed outside => ?_)
      (fun fault fails => faults fault (by rw [Reading.bind_of_error fails])) steps
    obtain ⟨stacked, same⟩ := work.pushed positive outside
    have loads := avoids.second ends
    have extent :
        after.Addressable address.toInt 4 ↔ setting.memory.Addressable address.toInt 4 := by
      rw [Memory.Addressable, Memory.Addressable, same.size, same.codeSize]
    rw [Reading.bind_of_ok ends] at next faults
    refine completes_load unlimited stacked (by omega) (by omega) fetch
      (by rw [outside.size]; omega) (fun readable last put _ => ?_) fun unreadable => ?_
    · rw [pushed, extent] at readable
      rw [Reading.load, if_pos readable] at next loads
      have apart := loads address.toInt List.mem_cons_self
      have unchanged : after.word address.toInt = setting.memory.word address.toInt :=
        same.word fun index from_ upTo => by
          rw [Memory.Apart] at apart
          omega
      rw [pushed, unchanged] at put
      have arrives := next _ last rfl put.word
        (outside.trans (put.outside.mono fun index apart => by omega))
      rwa [← Int.add_assoc] at arrives
    · rw [pushed, extent] at unreadable
      rw [Reading.load, if_neg unreadable] at faults
      rw [pushed]
      exact faults _ rfl

/-- Applying an operator to the word that has been computed. -/
theorem Computes.unary (computes : setting.Computes instrs depth reading) (op : UnaryOper)
    {change : Word → Word} (same : ∀ word, op.eval word = change word) :
    setting.Computes (instrs ++ [.unary op]) depth (do return change (← reading)) where
  positive := computes.positive
  completes {start stop low high pc sp memory ambient done expected} placed lower upper work avoids
      next faults steps := by
    have size : instrsSize (instrs ++ [.unary op]) = instrsSize instrs + 1 := by
      rw [instrsSize_append]
      rfl
    rw [size] at upper next
    obtain ⟨first, ⟨_, ⟨⟩, fetch⟩, -⟩ := codeAt_append.mp placed
    have room := instrsSize_nonneg instrs
    have positive := computes.positive
    have top := work.stacked.top
    refine computes.completes first lower (by omega) work avoids.first
      (fun word after ends pushed outside => ?_)
      (fun fault fails => faults fault (by rw [Reading.bind_of_error fails])) steps
    obtain ⟨stacked, -⟩ := work.pushed positive outside
    rw [Reading.bind_of_ok ends] at next
    refine completes_unary unlimited stacked (by omega) (by omega) fetch
      (by rw [outside.size]; omega) fun last put _ => ?_
    rw [pushed, same] at put
    have arrives := next _ last rfl put.word
      (outside.trans (put.outside.mono fun index apart => by omega))
    rwa [← Int.add_assoc] at arrives

/-- Applying an operator to two words. The second one is computed with the first one on the
stack. -/
theorem Computes.binary (computes : setting.Computes instrs depth reading)
    {more : List Instr} {depth' : Nat} {reading' : Reading Word}
    (computes' : setting.Computes more depth' reading') (op : BinaryOp) :
    setting.Computes (instrs ++ more ++ [.binary op]) (max depth (depth' + 1)) (do
      let left ← reading
      let right ← reading'
      Reading.operate op left right) where
  positive := Nat.le_trans computes.positive (Nat.le_max_left _ _)
  completes {start stop low high pc sp memory ambient done expected} placed lower upper work avoids
      next faults steps := by
    have size : instrsSize (instrs ++ more ++ [.binary op]) =
        instrsSize instrs + instrsSize more + 1 := by
      rw [instrsSize_append, instrsSize_append]
      rfl
    rw [size] at upper next
    obtain ⟨both, ⟨_, ⟨⟩, fetch⟩, -⟩ := codeAt_append.mp placed
    obtain ⟨first, second⟩ := codeAt_append.mp both
    rw [instrsSize_append] at fetch
    have room := instrsSize_nonneg instrs
    have room' := instrsSize_nonneg more
    have positive := computes.positive
    have positive' := computes'.positive
    have deeper := Nat.le_max_left depth (depth' + 1)
    have deeper' := Nat.le_max_right depth (depth' + 1)
    have top := work.stacked.top
    refine computes.completes first lower (by omega) (work.mono deeper) avoids.first
      (fun left after ends pushed outside => ?_)
      (fun fault fails => faults fault (by rw [Reading.bind_of_error fails])) steps
    have remaining := avoids.second ends
    rw [Reading.bind_of_ok ends] at next faults
    have outside : Memory.Outside (sp - 4 * (max depth (depth' + 1) : Nat)) sp memory after :=
      outside.mono fun index apart => by omega
    refine computes'.completes second (by omega) (by omega) (work.second deeper' outside)
      remaining.first (fun right last ends' pushed' outside' => ?_)
      (fun fault fails => faults fault (by rw [Reading.bind_of_error fails]))
    rw [Reading.bind_of_ok ends'] at next faults
    obtain ⟨stacked, -⟩ := (work.second deeper' outside).pushed positive' outside'
    have kept : last.word (sp - 4 - 4 + 4) = left := by
      rw [Int.sub_add_cancel, ← pushed]
      exact outside'.word fun index from_ _ => by omega
    have extent : last.size = memory.size := outside'.size.trans outside.size
    rw [← Int.add_assoc] at fetch
    refine completes_binary unlimited stacked (by omega) (by omega) fetch (by rw [extent]; omega)
      (fun value defined final put _ => ?_) fun undefined => ?_
    · rw [kept, pushed', BinaryOp.eval?_eq_meaning] at defined
      obtain ⟨number, meant, rfl⟩ := Option.map_eq_some_iff.mp defined
      rw [Reading.operate, meant] at next
      rw [Int.sub_add_cancel] at put ⊢
      have arrives := next _ final rfl put.word ((outside.trans
        (outside'.mono fun index apart => by omega)).trans
        (put.outside.mono fun index apart => by omega))
      rwa [← Int.add_assoc, ← Int.add_assoc] at arrives
    · rw [kept, pushed', BinaryOp.eval?_eq_meaning, Option.map_eq_none_iff] at undefined
      rw [Reading.operate, undefined] at faults
      exact faults _ rfl

/-- Following access links from the frame pointer. -/
theorem computes_framePointer (hops : Nat) :
    setting.Computes (framePointer hops) 1
      (Reading.follow setting.memory hops (Word.ofInt setting.fp)) := by
  induction hops with
  | zero => exact computes_regn unlimited
  | succ hops hypothesis =>
    rw [framePointer, List.replicate_succ']
    exact hypothesis.load unlimited

end Pieces

section Emission

variable (unlimited : setting.executable.config.maxSteps = none)

include unlimited

/-- The code of a use of a variable computes the address of the variable. -/
theorem computes_emitVariable {id : NodeId} {before : Progress} {result : Code × Progress}
    (ran : (emitVariable setting.context id).run before = .ok result) :
    setting.Computes result.1.items (setting.context.variableDepth id) (setting.variableAt id) := by
  obtain ⟨access, found, -⟩ := emitVariable_eq_ok ran
  rw [items_emitVariable ran, variableInstrs, Context.variableDepth, variableAt, found]
  cases access with
  | abs access => exact computes_name unlimited access.label
  | rel access =>
    have sum (base : Word) : (do
        let offset ← pure (Word.ofInt access.offset)
        Reading.operate .add base offset) = pure (base + Word.ofInt access.offset) :=
      Reading.operate_add base _
    have computes := (computes_framePointer unlimited
      (setting.context.distance access.depth)).binary unlimited
        (computes_push unlimited access.offset) .add
    rw [List.append_assoc] at computes
    simp only [sum] at computes
    exact computes

/-- The code of a constant computes the number or the address of the text. -/
theorem computes_emitAtom {id : NodeId} {atom : Atom} {before : Progress}
    {result : Code × Progress} (ran : (emitAtom setting.context id atom).run before = .ok result) :
    setting.Computes result.1.items 1 (setting.value (.atom id atom) before.nextConstant) := by
  have items : result.1.items = atomInstrs ⟨fun _ => before.nextConstant, fun _ => 0⟩ id atom := by
    refine (emitted_emitAtom ran).shape _ ⟨?_, numbered_nil _ _⟩
    rw [Output.ofAtom, valueData]
    split
    · exact numbered_singleton.mpr rfl
    · exact numbered_nil _ _
  rw [items, atomInstrs, value]
  cases atom.kind with
  | str => exact computes_name unlimited _
  | int => exact computes_push unlimited _
  | char => exact computes_push unlimited _

/-- The code of an expression without calls computes its value. -/
theorem computes_emitValue {before : Progress} {result : Code × Progress} : (expr : Expr) →
    expr.CallFree → (emitValue setting.context expr).run before = .ok result →
    setting.Computes result.1.items (setting.context.valueDepth expr)
      (setting.value expr before.nextConstant)
  | .atom id atom, _, ran => by
    obtain ⟨code, middle, emitted, entered⟩ := run_bind_eq_ok.mp ran
    rw [fst_of_recorded entered]
    exact computes_emitAtom unlimited emitted
  | .var id name, _, ran => by
    obtain ⟨code, middle, emitted, entered⟩ := run_bind_eq_ok.mp ran
    rw [fst_of_recorded entered, Code.items_append, Code.items_codeAt]
    exact (computes_emitVariable unlimited emitted).load unlimited
  | .unary id op operand, callFree, ran => by
    simp only [emitValue] at ran
    cases op with
    | plus =>
      obtain ⟨code, middle, emitted, entered⟩ := run_bind_eq_ok.mp ran
      rw [fst_of_recorded entered]
      exact computes_emitValue operand callFree emitted
    | not =>
      obtain ⟨code, middle, emitted, entered⟩ := run_bind_eq_ok.mp ran
      rw [fst_of_recorded entered, Code.items_append, Code.items_codeAt]
      refine (computes_emitValue operand callFree emitted).unary unlimited .not fun word => ?_
      rw [UnaryOper.eval, Word.ofBool]
      simp only [beq_iff_eq]
    | minus =>
      obtain ⟨code, middle, emitted, entered⟩ := run_bind_eq_ok.mp ran
      rw [fst_of_recorded entered, Code.items_append, Code.items_codeAt]
      refine (computes_emitValue operand callFree emitted).unary unlimited .neg fun word => ?_
      rw [UnaryOper.eval, Word.ofInt, Int32.ofInt_neg, Int32.ofInt_toInt]
    | valueAt =>
      obtain ⟨code, middle, emitted, entered⟩ := run_bind_eq_ok.mp ran
      rw [fst_of_recorded entered, Code.items_append, Code.items_codeAt]
      exact (computes_emitValue operand callFree emitted).load unlimited
    | addressOf =>
      dsimp only at ran
      split at ran
      next use name =>
        obtain ⟨code, middle, emitted, entered⟩ := run_bind_eq_ok.mp ran
        rw [fst_of_recorded entered]
        exact computes_emitVariable unlimited emitted
      next => exact (run_throw_eq_ok.mp ran).elim
  | .binary id op first second, ⟨firstFree, secondFree⟩, ran => by
    simp only [emitValue, run_bind_eq_ok] at ran
    obtain ⟨left, middle, emittedLeft, right, later, emittedRight, entered⟩ := ran
    have counted : middle.nextConstant = before.nextConstant + (valueData first).length :=
      (emitted_emitValue first emittedLeft).constants
    have computesSecond := computes_emitValue second secondFree emittedRight
    rw [counted] at computesSecond
    rw [fst_of_recorded entered, Code.items_append, Code.items_append, Code.items_codeAt]
    exact (computes_emitValue first firstFree emittedLeft).binary unlimited computesSecond op

/-- The code of a place without calls computes its address. -/
theorem computes_emitPlace {expr : Expr} {before : Progress} {result : Code × Progress}
    (callFree : expr.CallFree) (ran : (emitPlace setting.context expr).run before = .ok result) :
    setting.Computes result.1.items (setting.context.placeDepth expr)
      (setting.place expr before.nextConstant) := by
  rw [emitPlace.eq_def] at ran
  split at ran
  next id name => exact computes_emitVariable unlimited ran
  next id pointer =>
    split at ran
    · obtain ⟨_, _, thrown, -⟩ := run_bind_eq_ok.mp ran
      exact (run_throw_eq_ok.mp thrown).elim
    obtain ⟨code, middle, emitted, entered⟩ := run_bind_eq_ok.mp ran
    rw [fst_of_recorded entered]
    exact computes_emitValue unlimited pointer callFree emitted
  next => exact (run_throw_eq_ok.mp ran).elim

end Emission

end Setting

/-- A word has been pushed: the program counter has moved on by a number of bytes, and of memory
only a number of words below the stack pointer may have changed. -/
structure State.Pushes (before : State) (length : Int) (depth : Nat) (value : Word)
    (after : State) : Prop where
  registers : after.registers =
    { before.registers with
      pc := before.registers.pc + length
      sp := before.registers.sp - 4 }
  status : after.status = .running
  input : after.input = before.input
  output : after.output = before.output
  word : after.memory.word (before.registers.sp - 4) = value
  outside : Memory.Outside (before.registers.sp - 4 * depth) before.registers.sp before.memory
    after.memory

/-- The code of a number of bytes at an address evaluates something over the memory and the frame
pointer of the state in which it is entered. From every running state whose stack lies between the
heap and the end of memory, as it does whenever a program runs, and has room for a number of words,
the machine goes through that code and pushes the value or faults, as the evaluation does, if this
loads no word that overlaps with the part of the stack that is used. -/
def Executable.Evaluates (executable : Executable) (context : Context) (start length : Int)
    (depth : Nat) (reading : Setting → Reading Word) : Prop :=
  ∀ state : State, state.status = .running → state.registers.pc = start →
    Stacked state.registers.sp state.memory state.ambient →
    state.registers.hp ≤ state.registers.sp - 4 * depth →
    let evaluation := reading ⟨context, executable, state.registers.fp, state.memory⟩
    evaluation.Avoids (state.registers.sp - 4 * depth) state.registers.sp →
    ∃ count last, executable.StaysWithin start (start + length) count state ∧
      match evaluation.result with
      | .ok value =>
        executable.run count state = (.unfinished, last) ∧ state.Pushes length depth value last
      | .error fault => executable.run count state = (.faulted fault, last)

/-- Code that computes what is evaluated in every setting. -/
theorem evaluates_of_computes {executable : Executable} {context : Context} {start : Int}
    {instrs : List Instr} {depth : Nat} {reading : Setting → Reading Word}
    (placed : CodeAt executable.labels executable.slots start instrs)
    (computes : ∀ setting : Setting, setting.executable = executable → setting.context = context →
      setting.Computes instrs depth (reading setting)) :
    executable.Evaluates context start (instrsSize instrs) depth reading := by
  intro state running there stacked room evaluation avoids
  let setting : Setting := ⟨context, executable, state.registers.fp, state.memory⟩
  have work : setting.Workspace (state.registers.sp - 4 * depth) state.registers.sp depth
      state.registers.sp state.memory state.ambient :=
    ⟨stacked, .refl _ _, room, Int.le_refl _, Int.le_refl _⟩
  have completes : executable.Completes start (start + instrsSize instrs)
      (fun last => ∃ value, evaluation.result = .ok value ∧
        state.Pushes (instrsSize instrs) depth value last)
      (fun fault => evaluation.result = .error fault) state := by
    rw [state.eq_running running, there]
    refine (computes setting rfl rfl).completes placed (Int.le_refl _) (Int.le_refl _) work avoids
      (fun value after ends top outside steps => .arrived ⟨value, ends, ?_⟩)
      (fun fault fails => fails) state.steps
    exact ⟨rfl, rfl, rfl, rfl, top, outside⟩
  obtain ⟨count, within, ⟨last, ran, value, ends, pushes⟩ | ⟨fault, last, ran, fails⟩⟩ :=
    completes.exists_run
  · refine ⟨count, last, within, ?_⟩
    rw [ends]
    exact ⟨ran, pushes⟩
  · refine ⟨count, last, within, ?_⟩
    rw [fails]
    exact ran

/-- Expressions without calls, which may use pointers, have their values when they are carried
out, and places their addresses. Wherever the code that is emitted for one stands in an image that
has been loaded, a machine without a limit on its steps that gets there with enough room on the
stack goes through that code and pushes the value which the expression has over its memory and
frame pointer, and changes nothing but the words of the stack that the operands need. If there is
no value because of a fault, then the machine faults with it in the code. -/
theorem call_free_evaluates {config : Config} {image : Image} {executable : Executable}
    (loads : image.load config = .ok executable) (unlimited : config.maxSteps = none)
    {context : Context} {before after : Progress} {expr : Expr} (callFree : expr.CallFree)
    {earlier own later : Code} (placed : image.code = earlier ++ own ++ later) :
    ((emitValue context expr).run before = .ok (own, after) →
      executable.Evaluates context earlier.size own.size (context.valueDepth expr)
        (·.value expr before.nextConstant)) ∧
    ((emitPlace context expr).run before = .ok (own, after) →
      executable.Evaluates context earlier.size own.size (context.placeDepth expr)
        (·.place expr before.nextConstant)) := by
  have loaded := mapError_eq_ok_iff.mp loads
  have bounded : executable.config.maxSteps = none := by
    rw [(load_eq_ok_iff.mp loaded).config_eq, unlimited]
  have whole := codeAt_of_load loaded
  rw [placed, Code.items_append, Code.items_append, codeAt_append, codeAt_append, Int.zero_add,
    ← Code.size_eq] at whole
  rw [Code.size_eq own]
  constructor
  · intro ran
    refine evaluates_of_computes whole.1.2 ?_
    rintro setting rfl rfl
    exact setting.computes_emitValue bounded expr callFree ran
  · intro ran
    refine evaluates_of_computes whole.1.2 ?_
    rintro setting rfl rfl
    exact setting.computes_emitPlace bounded callFree ran

/-- A program in which a function that is nested in the entry point gets the address of a variable
around it. -/
def Program.pointing : Program :=
  Builder.program do
    let main ← Builder.reserveFunction "main"
    let inner ← Builder.reserveFunction "inner"
    let held ← Builder.varDef "held" [← Builder.initItem 1 (← Builder.intAtom 5)]
    let pointer ← Builder.param "pointer"
    let target ← Builder.unary .valueAt (← Builder.use pointer.id)
    let half ← Builder.binary .div (← Builder.use held.id)
      (← Builder.atomExpr (← Builder.intAtom 2))
    let sum ← Builder.binary .add target half
    let nested ← Builder.function inner [pointer] [← Builder.exprStmt sum]
    let address ← Builder.unary .addressOf (← Builder.use held.id)
    let called ← Builder.exprStmt (← Builder.call inner [address])
    return [← Builder.function main [] [← Builder.block [held, nested] [called]]]

namespace Program.pointing

/-- The value of the nested function: what its parameter points to, and half of the variable. -/
def sum : Expr :=
  .binary 12 .add (.unary 8 .valueAt (.var 7 "pointer"))
    (.binary 11 .div (.var 9 "held") (.atom 10 ⟨10, .int, "2"⟩))

def layout : Layout := (Layout.ofProgram .pointing).toOption.get (by decide +kernel)

def image : Image := (Image.ofProgram .pointing layout).toOption.get (by decide +kernel)

def executable : Executable := (image.load ⟨400, none⟩).toOption.get (by decide +kernel)

/-- The surroundings of the body of the nested function. -/
def context : Context :=
  ((Context.ofProgram .pointing layout).enter (layout.frameOf 0)).enter (layout.frameOf 1)

def emitted : Code × Progress :=
  ((emitValue context sum).run .empty).toOption.get (by decide +kernel)

/-- The nested function has been entered, and its value is the next thing to be computed. -/
def state : State := executable.stateAt [] none 18

end Program.pointing

open Program.pointing in
/-- The sum takes a number through a pointer, and its code leaves the value seven. -/
theorem call_free_evaluates_pointing :
    Program.pointing.compile = .ok image ∧ image.load ⟨400, none⟩ = .ok executable ∧
    (emitValue context sum).run .empty = .ok (emitted.1, emitted.2) ∧
    image.code = image.code.take 26 ++ emitted.1 ++ image.code.drop 39 ∧ sum.CallFree ∧
    ∃ count last, executable.StaysWithin 72 97 count state ∧
      executable.run count state = (.unfinished, last) ∧ state.Pushes 25 3 7 last := by
  have laid : Layout.ofProgram .pointing = .ok layout := eq_ok_of_toOption (Option.some_get _).symm
  have assembled : Image.ofProgram .pointing layout = .ok image :=
    eq_ok_of_toOption (Option.some_get _).symm
  have loads : image.load ⟨400, none⟩ = .ok executable := eq_ok_of_toOption (Option.some_get _).symm
  have ran : (emitValue context sum).run .empty = .ok (emitted.1, emitted.2) := by
    rw [Prod.eta]
    exact eq_ok_of_toOption (Option.some_get _).symm
  have callFree : sum.CallFree := ⟨trivial, trivial, trivial⟩
  have placed : image.code = image.code.take 26 ++ emitted.1 ++ image.code.drop 39 := by
    decide +kernel
  have evaluates := (call_free_evaluates loads rfl callFree placed).1 ran
  have shape : Code.size (image.code.take 26) = 72 ∧ Code.size emitted.1 = 25 ∧
      context.valueDepth sum = 3 := by decide +kernel
  have sizes : ∀ bytes, .size bytes ∈ image.data.map Located.item → 0 ≤ bytes := by
    have items : image.data.map Located.item =
        [.label ":0", .data 1, .data 1, .data 1, .data 5] := by decide +kernel
    simp [items]
  have named : executable.stateAt [] none 18 = state := rfl
  have stacked : Stacked state.registers.sp state.memory state.ambient :=
    stacked_stateAt (mapError_eq_ok_iff.mp loads) sizes named
  have reached : state.registers = ⟨72, 376, 368, 119⟩ ∧ state.status = .running ∧
      (Setting.value ⟨context, executable, 376, state.memory⟩ sum 0).result.toOption =
        some 7 ∧
      (Setting.value ⟨context, executable, 376, state.memory⟩ sum 0).loads =
        [380, 384, 376, 384] := by decide +kernel
  obtain ⟨start, length, depth⟩ := shape
  obtain ⟨registers, running, value, words⟩ := reached
  rw [start, length, depth, show Progress.empty.nextConstant = 0 from rfl] at evaluates
  have evaluated := evaluates state running (by rw [registers]) stacked
  rw [registers] at evaluated
  dsimp only at evaluated
  rw [eq_ok_of_toOption value] at evaluated
  obtain ⟨count, last, within, ends, pushes⟩ := evaluated (by decide) (by
    intro address loaded
    rw [words] at loaded
    simp only [List.mem_cons, List.not_mem_nil, or_false] at loaded
    rw [Memory.Apart]
    omega)
  exact ⟨Program.compile_eq_ok.mpr ⟨layout, laid, assembled⟩, loads, ran, placed, callFree, count,
    last, within, ends, pushes⟩

end ScopeStack
