import ScopeStack.Proofs.Execution.Preservation
import ScopeStack.Proofs.Linking.Storage

/-!
# From the start of a program to its entry point

The code at address zero expands the initializer of every global variable into its room and
then calls the entry point, whatever the program is. So the machine gets to the entry point
unless it runs out of stack or of steps, and then every global variable holds the contents of
its initializer and all other data are untouched.

`Executable.Leads` is what is shown step by step: the machine gets to an address, where it is
ready, or it runs out of something on the way.
-/

namespace ScopeStack

open Emission Executable

namespace Executable

variable (executable : Executable)

/-- The states up to the first one at an address. -/
inductive Approaches (target : Int) (start : State) : State → Prop where
  | start : Approaches target start start
  | step {state next : State} {status : Status} (before : Approaches target start state)
      (away : state.registers.pc ≠ target) (stepped : executable.step.run state = .ok status next) :
      Approaches target start next

/-- The machine gets to an address, where it is ready, or runs out of stack or of steps on the
way. -/
inductive Leads (target : Int) (ready : State → Prop) : State → Prop where
  | arrived {state : State} (there : state.registers.pc = target) (prepared : ready state) :
      Leads target ready state
  | stopped {state final : State} {fault : Fault} (away : state.registers.pc ≠ target)
      (failed : executable.step.run state = .error fault final)
      (lacking : executable.OutOfResources (.faulted fault)) : Leads target ready state
  | advanced {state next : State} {status : Status} (away : state.registers.pc ≠ target)
      (stepped : executable.step.run state = .ok status next) (later : Leads target ready next) :
      Leads target ready state

variable {executable} {target : Int} {ready : State → Prop} {state next : State}

/-- One step more at the start. -/
theorem Approaches.after {status : Status} (away : state.registers.pc ≠ target)
    (stepped : executable.step.run state = .ok status next) {last : State}
    (approaches : executable.Approaches target next last) :
    executable.Approaches target state last := by
  induction approaches with
  | start => exact .step .start away stepped
  | step _ elsewhere again hypothesis => exact .step hypothesis elsewhere again

/-- A run that is not at the address before its end approaches it. -/
theorem approaches_of_run {fuel : Nat}
    (away : ∀ fewer < fuel, (executable.run fewer state).2.registers.pc ≠ target)
    (ran : (executable.run fuel state).1 = .unfinished) :
    executable.Approaches target state (executable.run fuel state).2 := by
  induction fuel generalizing state with
  | zero => exact .start
  | succ fuel hypothesis =>
    cases stepped : executable.step.run state with
    | error fault next =>
      rw [run, stepped] at ran
      cases ran
    | ok status next =>
      cases status with
      | halted exitCode =>
        rw [run, stepped] at ran
        cases ran
      | running =>
        have shifted (fewer : Nat) : executable.run (fewer + 1) state = executable.run fewer next := by
          rw [run, stepped]
        rw [shifted] at ran ⊢
        refine .after (away 0 (Nat.zero_lt_succ fuel)) stepped (hypothesis (fun fewer less => ?_) ran)
        rw [← shifted]
        exact away (fewer + 1) (Nat.succ_lt_succ less)

namespace Leads

/-- The machine is still on its way in every state before the address. -/
theorem of_approaches (leads : executable.Leads target ready state) {last : State}
    (approaches : executable.Approaches target state last) : executable.Leads target ready last := by
  induction approaches with
  | start => exact leads
  | step _ away stepped hypothesis =>
    cases hypothesis with
    | arrived there => exact absurd there away
    | stopped _ failed =>
      rw [stepped] at failed
      cases failed
    | advanced _ again later =>
      rw [stepped] at again
      cases again
      exact later

/-- The machine comes to the address or faults before. -/
theorem exists_last (leads : executable.Leads target ready state) :
    ∃ last, executable.Approaches target state last ∧ (last.registers.pc = target ∨
      ∃ fault final, executable.step.run last = .error fault final) := by
  induction leads with
  | @arrived state there => exact ⟨state, .start, .inl there⟩
  | @stopped state final fault _ failed => exact ⟨state, .start, .inr ⟨fault, final, failed⟩⟩
  | advanced away stepped _ hypothesis =>
    obtain ⟨last, approaches, ends⟩ := hypothesis
    exact ⟨last, approaches.after away stepped, ends⟩

/-- The machine is ready once it is at the address. -/
theorem ready_of_there (leads : executable.Leads target ready state)
    (there : state.registers.pc = target) : ready state := by
  cases leads with
  | arrived _ prepared => exact prepared
  | stopped away => exact absurd there away
  | advanced away => exact absurd there away

/-- A machine that faults before the address has run out of something. -/
theorem lacking_of_failed (leads : executable.Leads target ready state) {fault : Fault}
    {final : State} (away : state.registers.pc ≠ target)
    (failed : executable.step.run state = .error fault final) :
    executable.OutOfResources (.faulted fault) := by
  cases leads with
  | arrived there => exact absurd there away
  | stopped _ again lacking =>
    rw [failed] at again
    cases again
    exact lacking
  | advanced _ stepped =>
    rw [failed] at stepped
    cases stepped

end Leads

variable (executable) in
/-- Watch a machine on its way to an address. -/
def leading (target : Int) (ready : State → Prop) : Watch executable where
  holds _ state _ := executable.Leads target ready state
  good pc _ _ _ := pc ≠ target
  ends outcome _ := executable.OutOfResources outcome
  counted := False
  zero := False.elim
  mono _ leads := leads
  step away stepped later := .advanced away stepped later
  halt := by
    rintro _ _ _ _ _ - - - - (exits | ⟨_, -, exits⟩)
    · cases exits
    · cases exits
  fault away failed lacking := .stopped away failed lacking
  overflow := .inl rfl
  limit limited := .inr ⟨_, limited, rfl⟩

end Executable

/-- The code at address zero fills the rooms of all global variables and enters the function
that it calls, whose frame is the first on the stack. -/
theorem leading_start {program : Program} {layout : Layout} {executable : Executable}
    {link : Linkage} {globals : Table String} {before after : LabelSet} {main : FunDef} {stop : Int}
    {ready : State → Prop} {ambient : Ambient} (distinct : program.Distinct)
    (arranged : Arranged program layout executable link)
    (laid : layout.TopLaid globals program.defs before after)
    (slots : link.slots = executable.slots) (heap : ambient.hp = executable.dataEnd)
    (held : link.StartAt (variablesIn program.defs) main stop) (ahead : stop ≤ link.entry main.id)
    (inside : link.entry main.id ≤ executable.memory.codeSize)
    (next : ∀ last steps,
      (∀ own ∈ topData layout program.defs, last.WordsAt (link.words own.id) own.words) →
      link.Initialized program (variablesIn program.defs) last →
      ready (.running (link.entry main.id) (executable.config.stackTop - 4)
        (executable.config.stackTop - 12) last ambient steps)) :
    executable.Leads (link.entry main.id) ready
      (.running 0 executable.config.stackTop executable.config.stackTop executable.memory ambient
        0) := by
  have size := arranged.size
  have codeSize := arranged.codeSize_le
  have dataEnd := arranged.dataEnd_le
  have sound : (Site.initial executable program layout link stop).Sound executable program layout
      link (executable.leading (link.entry main.id) ready) := by
    refine ⟨Site.grounded_initial arranged (by omega), fun pc memory _ high _ => ?_⟩
    dsimp only [Site.initial] at high
    simp only [leading]
    omega
  suffices arrives : (executable.leading (link.entry main.id) ready).At 0 [] 0
      executable.config.stackTop executable.config.stackTop executable.memory ambient from arrives 0
  refine Site.at_bootstrap arranged laid slots sound distinct held heap
    fun pc first low fetch ending here initialized top => ?_
  have rest := Linkage.Holds.le ending
  have sameSize := here.size.trans sound.size
  have target : (first.word (executable.config.stackTop - 4 - 4)).toInt = link.entry main.id := by
    rw [top]
    exact arranged.toInt_ofInt (by omega) (by omega)
  rw [slots] at fetch
  refine Watch.at_enter here.stacked (by simp only [leading]; omega) fetch (by omega) target
    (by omega) fun second last callerPut returnPut called => ?_
  have room := called.heap
  have quiet : Site.Quiet executable executable.config.stackTop first last :=
    (callerPut.intact fun index outside => by omega).trans
      (returnPut.intact fun index outside => by omega)
  have stable := here.stable.trans (Site.stable_of_quiet quiet)
  rw [show executable.config.stackTop - 4 - 4 + 4 = executable.config.stackTop - 4 by omega,
    show executable.config.stackTop - 4 - 4 - 4 = executable.config.stackTop - 12 by omega]
  refine fun steps => .arrived rfl (next last steps (fun own member => ?_)
    (Site.initialized_quiet arranged laid initialized quiet))
  obtain ⟨held, kept⟩ := sound.words own member
  have stop := (arranged.words own member).2.1
  exact held.intact stable fun address above short => ⟨kept address above short, .inr (by omega)⟩

/-- What is in memory and in the registers when a program starts its entry point. -/
structure AtEntry (program : Program) (layout : Layout) (executable : Executable)
    (input : List UInt8) (outputLimit : Option Nat) (state : State) : Prop where
  /-- The label of a global variable is where its room starts, which is as long as the contents
  of its initializer and holds them. -/
  globals : ∀ declared ∈ variablesIn program.defs, ∃ (access : AbsAccess) (words : List Int)
    (address : Int), layout.accesses[declared.id]? = some (.abs access) ∧
      ⟨declared.id, some (access.label, access.size), access.inits⟩ ∈ topData layout program.defs ∧
      Initializer.contents? declared.items = some words ∧ access.size = 4 * words.length ∧
      executable.label? access.label = some address ∧ state.memory.WordsAt address words
  /-- The words of initializers and texts are where their labels say. -/
  constants : ∀ own ∈ topData layout program.defs, ∃ address,
    executable.label? ((Naming.ofProgram program layout).constantLabel own.id) = some address ∧
      state.memory.WordsAt address own.words
  hp : state.registers.hp = executable.dataEnd
  fp : state.registers.fp = executable.config.stackTop - 4
  sp : state.registers.sp = executable.config.stackTop - 12
  input : state.input = input
  output : state.output = .empty outputLimit

/-- Where the rooms of all global variables are filled, the program is prepared. -/
theorem prepared_of_initialized {program : Program} {layout : Layout} {main : FunDef}
    {image : Image} {config : Config} {executable : Executable} {globals : Table String}
    {before after : LabelSet} (shaped : Shaped program layout main image)
    (loaded : Loaded config image.code.items (image.data.map Located.item) executable)
    (laid : layout.TopLaid globals program.defs before after) {memory : Memory}
    (words : ∀ own ∈ topData layout program.defs, memory.WordsAt
      ((Linkage.ofExecutable layout (.ofProgram program layout) image executable).words own.id)
      own.words)
    (initialized : (Linkage.ofExecutable layout (.ofProgram program layout) image
      executable).Initialized program (variablesIn program.defs) memory)
    (input : List UInt8) (outputLimit : Option Nat) (pc : Int) (steps : Nat) :
    AtEntry program layout executable input outputLimit
      (.running pc (executable.config.stackTop - 4) (executable.config.stackTop - 12) memory
        ⟨executable.dataEnd, input, .empty outputLimit⟩ steps) where
  globals declared member := by
    obtain ⟨-, words, contents, held⟩ := initialized declared member
    obtain ⟨runs, label, -, same, found⟩ :=
      (arranged_of_loaded shaped loaded).exists_contents laid member
    cases contents.symm.trans same
    have isBlock := @globalData_mem_topData layout _ _ member
    rw [globalData, found] at isBlock
    simp only [Linkage.ofExecutable, found] at held
    exact ⟨_, _, _, found, isBlock, contents, rfl,
      (label?_dataBlock shaped loaded isBlock).2 _ _ rfl, held⟩
  constants own inside := ⟨_, (label?_dataBlock shaped loaded inside).1, words own inside⟩
  hp := rfl
  fp := rfl
  sp := rfl
  input := rfl
  output := rfl

/-- When a program that compiles and loads gets to its entry point, its global variables hold
the contents of their initializers, the words of all initializers and texts are untouched, and
nothing has been read or written. Before that the machine can only run out of stack or of
steps. The rooms of the global variables and the words of initializers and texts, of which the
data of the image are made, lie in the data and do not overlap. -/
theorem prepared_at_entry {program : Program} {image : Image} {config : Config}
    {executable : Executable} (distinct : program.Distinct) (plain : program.Obeys .plainNames)
    (compiled : program.compile = .ok image) (loads : image.load config = .ok executable)
    (input : List UInt8) (outputLimit : Option Nat) :
    ∃ layout main entry, Layout.ofProgram program = .ok layout ∧ program.entry? = some main ∧
      executable.config = config ∧
      executable.label? (layout.frameOf main.id).name = some entry ∧
      image.data.map Located.item =
        (topData layout program.defs).flatMap (DataBlock.items (.ofProgram program layout)) ∧
      (∀ stretch ∈ (topData layout program.defs).flatMap
          (DataBlock.stretches executable.labels (.ofProgram program layout)),
        stretch.Within image.code.size executable.dataEnd) ∧
      ((topData layout program.defs).flatMap
        (DataBlock.stretches executable.labels (.ofProgram program layout))).Pairwise
        Stretch.Apart ∧
      (∃ last, executable.Approaches entry (executable.start input outputLimit) last ∧
        (last.registers.pc = entry ∨
          ∃ fault final, executable.step.run last = .error fault final)) ∧
      ∀ state, executable.Approaches entry (executable.start input outputLimit) state →
        (state.registers.pc = entry →
          AtEntry program layout executable input outputLimit state) ∧
        (state.registers.pc ≠ entry → ∀ fault final,
          executable.step.run state = .error fault final →
          executable.OutOfResources (.faulted fault)) := by
  obtain ⟨layout, main, laid, -, shaped, -, loaded⟩ := exists_loaded distinct compiled loads
  obtain ⟨globals, ready, after, -, top⟩ := Layout.topLaid_of_ofProgram distinct laid
  have linked := linked_of_loaded distinct plain laid shaped loaded
  have arranged := arranged_of_loaded shaped loaded
  obtain ⟨stop, startAt, ahead⟩ := linked.start
  obtain ⟨isTop, hasBody⟩ := Program.mem_functions_of_entry shaped.entry
  have isFunction : main ∈ program.functions := mem_functionsOfDefs isTop
  have inside : (Linkage.ofExecutable layout (.ofProgram program layout) image executable).entry
      main.id ≤ executable.memory.codeSize := by
    obtain ⟨own, -, -, -, -, -, stop⟩ := codeLies_of_loaded shaped loaded isFunction hasBody
    have length := instrsSize_nonneg own.items
    have ends := (arranged.code main isFunction hasBody).2
    omega
  have leads := leading_start distinct arranged top linked.slots rfl startAt
    (ahead main isFunction hasBody) inside fun last steps words initialized =>
      prepared_of_initialized shaped loaded top words initialized input outputLimit _ steps
  obtain ⟨within, apart⟩ := stretches_of_loaded shaped loaded
  refine ⟨layout, main, _, laid, shaped.entry, loaded.config_eq,
    label?_entry shaped loaded isFunction hasBody, shaped.data, within, apart, leads.exists_last,
    fun state approaches => ?_⟩
  have onWay := leads.of_approaches approaches
  exact ⟨onWay.ready_of_there, fun away fault final => onWay.lacking_of_failed away⟩

/-- A program with a global variable without words, one with repeated numbers and a text, and
another text in its code. -/
def Program.tables : Program :=
  Builder.program do
    let absent ← Builder.varDef "absent" [← Builder.initItem 0 (← Builder.intAtom 5)]
    let row ← Builder.varDef "row" [← Builder.initItem 2 (← Builder.intAtom 7),
      ← Builder.initItem 1 (← Builder.textAtom "ok")]
    let main ← Builder.reserveFunction "main"
    let text ← Builder.exprStmt (← Builder.atomExpr (← Builder.textAtom "hi"))
    return [absent, row, ← Builder.function main [] [text]]

/-- This program gets to its entry point after nine instructions. -/
theorem prepared_at_entry_tables :
    ∃ image executable layout entry state, Program.tables.compile = .ok image ∧
      image.load .standard = .ok executable ∧ Layout.ofProgram Program.tables = .ok layout ∧
      executable.Approaches entry (executable.start [] none) state ∧
      state.registers.pc = entry ∧ state.steps = 9 ∧
      AtEntry Program.tables layout executable [] none state := by
  obtain ⟨image, executable, compiled, loads⟩ :=
    Program.exists_executable (show (Program.tables.load .standard).toOption.isSome = true by
      decide +kernel)
  obtain ⟨layout, main, entry, laid, isEntry, -, bound, -, -, -, -, prepared⟩ :=
    prepared_at_entry (by decide +kernel) (by decide +kernel) compiled loads [] none
  have whole : Program.tables.load .standard = .ok executable := by
    rw [Program.load, compiled]
    exact loads
  have named : (Layout.ofProgram Program.tables).toOption.bind (fun layout =>
      Program.tables.entry?.map fun main => (layout.frameOf main.id).name) = some "main" := by
    decide +kernel
  have places : (Program.tables.load .standard).toOption.map (fun executable =>
      (executable.label? "main", (List.range 10).map fun fuel =>
        (executable.run fuel (executable.start [] none)).2.registers.pc)) =
      some (some 49, [0, 5, 10, 11, 16, 21, 22, 27, 32, 49]) := by
    decide +kernel
  have ran : (Program.tables.load .standard).toOption.map (fun executable =>
      ((executable.run 9 (executable.start [] none)).1,
        (executable.run 9 (executable.start [] none)).2.steps)) = some (.unfinished, 9) := by
    decide +kernel
  rw [laid, isEntry] at named
  rw [whole] at places ran
  simp only [Except.toOption, Option.bind_some, Option.map_some, Option.some.injEq,
    Prod.mk.injEq] at named places ran
  rw [named, places.1] at bound
  cases bound
  have at_ (fuel : Nat) (less : fuel < 10) :
      (executable.run fuel (executable.start [] none)).2.registers.pc =
        [0, 5, 10, 11, 16, 21, 22, 27, 32, 49].getD fuel 0 := by
    rw [← places.2]
    simp [less]
  have approaches : executable.Approaches 49 (executable.start [] none)
      (executable.run 9 (executable.start [] none)).2 := by
    refine approaches_of_run (fun fewer less => ?_) ran.1
    rw [at_ fewer (by omega)]
    revert less fewer
    decide
  exact ⟨image, executable, layout, 49, _, compiled, loads, laid, approaches, at_ 9 (by decide),
    ran.2, (prepared _ approaches).1 (at_ 9 (by decide))⟩

end ScopeStack
