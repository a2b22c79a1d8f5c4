import ScopeStack.Proofs.Execution.Evaluation

/-!
# The machine does what programs mean

The image of a program without pointers is loaded and run. If evaluation of the program
ends, the machine ends in the same way: with the same exit code or fault, the same output
and the same input left. If the machine ends, evaluation does, and a bound that suffices
for it is the number of steps that the machine has taken. So the machine runs forever
exactly if evaluation is exhausted at every bound. This is `meaning_preserved`. The
machine has the right to run out of stack, or out of steps if their number is limited.

Both directions come from watching the machine along the evaluation: once for a run that
comes to an end, and once for the ends of all runs up to a number of steps.
-/

namespace ScopeStack

open Emission Linkage

/-- How the machine ends when evaluation stops for a reason. -/
def Stop.outcome? : Stop → Option Outcome
  | .exit code => some (.exited code)
  | .fault cause => some (.faulted cause)
  | .exhausted => none
  | .stuck => none

/-- The machine ends as evaluation does, with the same streams. -/
structure Stop.Explains (stop : Stop) (world : World) (outcome : Outcome) (state : State) : Prop where
  outcome : stop.outcome? = some outcome
  input : state.input = world.input
  output : state.output = world.output

namespace Executable

variable (executable : Executable)

/-- The machine has run out of stack, or out of the steps that it is allowed to take. -/
def OutOfResources (outcome : Outcome) : Prop :=
  outcome = .faulted .stackOverflow ∨
    ∃ limit, executable.config.maxSteps = some limit ∧ outcome = .faulted (.stepLimit limit)

/-- Watch a machine for a run that ends as expected. -/
def finishing (expected : Outcome → State → Prop) : Watch executable where
  holds _ state _ := ∃ fuel outcome final, executable.run fuel state = (outcome, final) ∧
    (executable.OutOfResources outcome ∨ expected outcome final)
  good _ _ _ _ := True
  ends outcome final := executable.OutOfResources outcome ∨ expected outcome final
  counted := False
  zero := False.elim
  mono _ holds := holds
  step := by
    rintro _ state next _ - stepped ⟨fuel, outcome, final, ran, ends⟩
    refine ⟨fuel + 1, outcome, final, ?_, ends⟩
    rw [run, stepped]
    exact ran
  halt := by
    rintro _ state next _ code - stepped - - ends
    refine ⟨1, _, next, ?_, ends⟩
    rw [run, stepped]
  fault := by
    rintro _ state next _ fault - stepped ends
    refine ⟨1, _, next, ?_, ends⟩
    rw [run, stepped]
  overflow := .inl (.inl rfl)
  limit limited := .inl (.inr ⟨_, limited, rfl⟩)

/-- Watch a machine for runs up to a number of steps that end otherwise than expected. -/
def abiding (expected : Outcome → State → Prop) : Watch executable where
  holds count state _ := ∀ fuel ≤ count, ∀ outcome final,
    executable.run fuel state = (outcome, final) →
    outcome = .unfinished ∨ executable.OutOfResources outcome ∨ expected outcome final
  good _ _ _ _ := True
  ends outcome final := executable.OutOfResources outcome ∨ expected outcome final
  counted := True
  zero := by
    intro state _ _ fuel none outcome final ran
    obtain rfl : fuel = 0 := Nat.le_zero.mp none
    cases ran
    exact .inl rfl
  mono le holds fuel fewer := holds fuel (Nat.le_trans fewer le)
  step := by
    intro count state next _ _ stepped holds fuel fewer outcome final ran
    cases fuel with
    | zero =>
      cases ran
      exact .inl rfl
    | succ fuel =>
      rw [run, stepped] at ran
      exact holds fuel (by omega) outcome final ran
  halt := by
    intro count state next _ code _ stepped _ _ ends fuel _ outcome final ran
    cases fuel with
    | zero =>
      cases ran
      exact .inl rfl
    | succ fuel =>
      rw [run, stepped] at ran
      cases ran
      exact .inr ends
  fault := by
    intro count state next _ fault _ stepped ends fuel _ outcome final ran
    cases fuel with
    | zero =>
      cases ran
      exact .inl rfl
    | succ fuel =>
      rw [run, stepped] at ran
      cases ran
      exact .inr ends
  overflow := .inl (.inl rfl)
  limit limited := .inl (.inr ⟨_, limited, rfl⟩)

end Executable

/-- A watch that expects the machine to end as evaluation does accepts the reason for
which evaluation stops. -/
theorem Watch.accepts_of_explains {executable : Executable} {watch : Watch executable} {stop : Stop}
    {world : World} (ends : ∀ outcome state, stop.Explains world outcome state →
      watch.ends outcome state)
    (notStuck : stop ≠ .stuck) (exhausted : stop = .exhausted → watch.counted) :
    watch.Accepts stop world := by
  cases stop with
  | exit code => exact fun state input output => ends _ state ⟨rfl, input, output⟩
  | fault fault => exact fun state input output => ends _ state ⟨rfl, input, output⟩
  | exhausted => exact exhausted rfl
  | stuck => exact absurd rfl notStuck

/-- What is watched holds at the start of the machine if it is accepted that the machine
stops where evaluation does. -/
theorem Linked.holds_start {program : Program} {layout : Layout} {main : FunDef} {image : Image}
    {executable : Executable} {link : Linkage} (watch : Watch executable)
    (linked : Linked program layout main image executable link)
    (installed : Installed program layout (.meaningful program) executable link)
    (entry : program.entry? = some main) (noParams : main.params = [])
    (lax : ∀ pc fp memory live, watch.good pc fp memory live) {input : List UInt8}
    {outputLimit : Option Nat} {fuel : Nat} (count : Nat) (bounded : watch.counted → count ≤ fuel)
    {stop : Stop} {world : World}
    (evaluated : program.evaluate fuel input outputLimit = .error stop world)
    (accepts : watch.Accepts stop world) :
    watch.holds count (executable.start input outputLimit) [] := by
  obtain ⟨codeStop, held, before⟩ := linked.start
  obtain ⟨isTop, hasBody⟩ := Program.mem_functions_of_entry entry
  have staged : (Scope.top program.defs).Staged program layout (.meaningful program) link := rfl
  have rooted := staged.rooted installed isTop
  have member := Program.mem_functions_of_nesting rooted.nested
  have long := rooted.entry_le hasBody
  have least := before main member hasBody
  have inside := (installed.arranged.code main member hasBody).2
  have parsSize := (rooted.sizes installed.arranged).1
  rw [noParams, List.length_nil] at parsSize
  have sound : (Site.initial executable program layout link codeStop).Sound executable program layout
      link watch :=
    ⟨Site.grounded_initial installed.arranged (by omega), fun _ _ _ _ _ => lax _ _ _ _⟩
  have meets : (program.perform fuel).Meets watch.Accepts (fun _ _ => False)
      ⟨[], input, .empty outputLimit⟩ := by
    rw [Eval.Meets, show (program.perform fuel).run ⟨[], input, .empty outputLimit⟩ =
      .error stop world from evaluated]
    exact accepts
  rw [Program.perform, entry] at meets
  have runs : watch.At count [] 0 executable.config.stackTop executable.config.stackTop
      executable.memory ⟨executable.dataEnd, input, .empty outputLimit⟩ := by
    refine Site.at_start installed (Rule.meaningful_sized program) entry noParams held sound
      (fun pc memory low fetch ending ready top words here => ?_) rfl
    have nothing : Place.Agrees [] ⟨[], input, .empty outputLimit⟩ memory
        ⟨executable.dataEnd, input, .empty outputLimit⟩ :=
      ⟨List.forall_mem_nil _, List.forall_mem_nil _, rfl, rfl⟩
    obtain ⟨globals, place, started, holds, -, agrees, bound, only⟩ := nothing.bindDefs words
      (installed.rooms_pairwise (Rule.meaningful_sized program))
      (fun _ _ => List.forall_mem_nil _) (Eval.meets_bind.mp meets)
    have clear : place.Clear executable executable.config.stackTop := by
      intro entry isEntry
      rcases only entry isEntry with none | ⟨id, isGlobal, same⟩
      · cases none
      · obtain ⟨declared, isDeclared, rfl⟩ := List.mem_map.mp isGlobal
        obtain ⟨access, found, wide⟩ :=
          Site.exists_room installed (Rule.meaningful_sized program) isDeclared
        have high := (installed.arranged.room declared isDeclared _ found).2.1
        omega
    have within : 0 ≤ pc ∧ pc < codeStop := ⟨low, by have := Linkage.Holds.le ending; omega⟩
    refine Site.callsYield installed lax fuel count _ (.top program.defs globals) main [] [] place
      started pc _ memory _ bounded sound here ready (Place.Bound.top bound) clear agrees
      (by rw [noParams, List.length_nil, List.length_nil]) trivial within fetch top
      (Eval.Meets.mono (Eval.meets_bind.mp holds) fun value last exits after later leaves => ?_)
    refine Site.at_finish installed sound leaves.here
      ⟨by dsimp only [Site.initial]; omega, Int.le_refl _⟩ ending ?_
    rw [leaves.agrees.input, leaves.agrees.output]
    exact exits
  exact runs 0

/-- The machine does what a program without pointers means. Evaluation never gets stuck.
If it ends, the machine ends in the same way; if the machine ends, evaluation does within
the same bound. In both cases the machine may run out of resources instead. -/
theorem meaning_preserved {program : Program} {image : Image} {config : Config}
    {executable : Executable} (distinct : program.Distinct) (plain : program.Obeys .plainNames)
    (obeys : program.Obeys (.meaningful program)) (fits : program.FramesFit)
    (noParams : ∀ main ∈ program.entry?, main.params = [])
    (compiled : program.compile = .ok image) (loaded : image.load config = .ok executable)
    (input : List UInt8) (outputLimit : Option Nat) :
    (∀ fuel, ∃ stop world,
      program.evaluate fuel input outputLimit = .error stop world ∧ stop ≠ .stuck) ∧
    (∀ fuel stop world, program.evaluate fuel input outputLimit = .error stop world →
      stop ≠ .exhausted → ∃ steps outcome final,
        executable.run steps (executable.start input outputLimit) = (outcome, final) ∧
          (executable.OutOfResources outcome ∨ stop.Explains world outcome final)) ∧
    ∀ steps outcome final,
      executable.run steps (executable.start input outputLimit) = (outcome, final) →
      outcome = .unfinished ∨ executable.OutOfResources outcome ∨
        ∃ stop world, program.evaluate steps input outputLimit = .error stop world ∧
          stop.Explains world outcome final := by
  have services : ∀ function ∈ program.functions, function.isExternal = true →
      (Service.ofName? function.name).isSome := by
    intro function member external
    obtain ⟨home, own⟩ := DefsObey.inside program.defs obeys member
    obtain ⟨service, -, named, -⟩ := own.service external
    rw [named]
    rfl
  obtain ⟨layout, main, link, -, entry, linked, installed⟩ :=
    exists_installed distinct plain obeys fits services compiled loaded
  have proceeds (fuel : Nat) :=
    Program.evaluate_proceeds distinct obeys entry (noParams main entry) fuel input outputLimit
  refine ⟨proceeds, fun fuel stop world evaluated ended => ?_, fun steps outcome final ran => ?_⟩
  · obtain ⟨_, _, same, notStuck⟩ := proceeds fuel
    cases same.symm.trans evaluated
    exact linked.holds_start (executable.finishing (stop.Explains world)) installed entry
      (noParams main entry) (fun _ _ _ _ => trivial) 0 (fun counted => counted.elim) evaluated
      (Watch.accepts_of_explains (fun _ _ explains => .inr explains) notStuck
        fun isExhausted => absurd isExhausted ended)
  · obtain ⟨stop, world, evaluated, notStuck⟩ := proceeds steps
    have holds := linked.holds_start (executable.abiding (stop.Explains world)) installed entry
      (noParams main entry) (fun _ _ _ _ => trivial) steps (fun _ => Nat.le_refl steps) evaluated
      (Watch.accepts_of_explains (fun _ _ explains => .inr explains) notStuck fun _ => trivial)
    rcases holds steps (Nat.le_refl _) outcome final ran with unfinished | lacking | explains
    · exact .inl unfinished
    · exact .inr (.inl lacking)
    · exact .inr (.inr ⟨stop, world, evaluated, explains⟩)

/-- A program that counts down by recursion in a function inside another. Each activation
has a variable of its own, and the last statement in its block gives the value. -/
def Program.countdown : Program :=
  Builder.program do
    let first ← Builder.varDef "first" [← Builder.initItem 1 (← Builder.intAtom 2)]
    let main ← Builder.reserveFunction "main"
    let putint ← Builder.reserveFunction "putint"
    let down ← Builder.reserveFunction "down"
    let declared ← Builder.function putint [← Builder.param "number"] []
    let count ← Builder.param "count"
    let sum ← Builder.varDef "sum" [← Builder.initItem 1 (← Builder.intAtom 0)]
    let fewer ← Builder.binary .sub (← Builder.use count.id)
      (← Builder.atomExpr (← Builder.intAtom 1))
    let shown ← Builder.exprStmt (← Builder.call putint [← Builder.use count.id])
    let counted ← Builder.assign (← Builder.use sum.id) (← Builder.call down [fewer])
    let chosen ← Builder.cond (← Builder.use count.id) [shown, counted] []
    let total ← Builder.exprStmt
      (← Builder.binary .add (← Builder.use sum.id) (← Builder.use count.id))
    let nested ← Builder.function down [count] [← Builder.block [sum] [chosen, total]]
    let ends ← Builder.exprStmt
      (← Builder.call putint [← Builder.call down [← Builder.use first.id]])
    return [first, declared, ← Builder.function main [] [← Builder.block [nested] [ends]]]

/-- Evaluation of this program shows a two, a one and a three, and so does the machine. -/
theorem meaning_preserved_countdown :
    Program.countdown.Distinct ∧ Program.countdown.Obeys (.meaningful .countdown) ∧
      ∃ image executable world, Program.countdown.compile = .ok image ∧
        image.load .standard = .ok executable ∧
        Program.countdown.evaluate 5 [] none = .error (.exit 0) world ∧
        world.output.written = #[50, 49, 51] ∧
        ∃ steps outcome final, executable.run steps (executable.start [] none) = (outcome, final) ∧
          (executable.OutOfResources outcome ∨
            outcome = .exited 0 ∧ final.output.written = #[50, 49, 51]) := by
  have distinct : Program.countdown.Distinct := by decide +kernel
  have obeys : Program.countdown.Obeys (.meaningful .countdown) := by decide +kernel
  obtain ⟨world, evaluated, shown⟩ : ∃ world,
      Program.countdown.evaluate 5 [] none = .error (.exit 0) world ∧
        world.output.written = #[50, 49, 51] := by
    have ends : (match Program.countdown.evaluate 5 [] none with
        | .error (.exit 0) world => world.output.written == #[50, 49, 51]
        | _ => false) = true := by decide +kernel
    split at ends
    next world evaluated => exact ⟨world, evaluated, by simpa using ends⟩
    next => cases ends
  obtain ⟨image, executable, compiled, loaded⟩ :=
    @Program.exists_executable .countdown .standard (by decide +kernel)
  obtain ⟨-, ends, -⟩ := meaning_preserved distinct (by decide +kernel) obeys (by decide +kernel)
    (by decide +kernel) compiled loaded [] none
  obtain ⟨steps, outcome, final, ran, result⟩ := ends 5 _ world evaluated Stop.noConfusion
  refine ⟨distinct, obeys, image, executable, world, compiled, loaded, evaluated, shown, steps,
    outcome, final, ran, result.imp_right fun explains => ?_⟩
  exact ⟨(Option.some.inj explains.outcome).symm, by rw [explains.output, shown]⟩

end ScopeStack
