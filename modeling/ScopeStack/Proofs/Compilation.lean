import ScopeStack.Pipeline
import ScopeStack.Proofs.Emission.Success
import ScopeStack.Proofs.Layout.Success

/-!
# When a program compiles

A well-formed program compiles if and only if its initializers are well formed,
its constants can be read and it has a function to start in. What else emission
could complain about does not happen: every attribute that it asks for is there,
and the frame that holds a visible definition is among those around the use.
-/

namespace ScopeStack

open Stateful Emission

namespace Program

/-- A program that cannot be laid out is not compiled. -/
theorem compile_of_layout_error {program : Program} {cause : LayoutError}
    (failed : Layout.ofProgram program = .error cause) :
    program.compile = .error (.layout cause) := by
  rw [compile, compileWithLayout, failed]
  rfl

/-- A program that has been laid out compiles if and only if code can be emitted for it. -/
theorem compile_of_layout {program : Program} {layout : Layout}
    (laid : Layout.ofProgram program = .ok layout) :
    program.compile = (Image.ofProgram program layout).mapError .emission := by
  rw [compile, compileWithLayout, laid]
  change Except.bind (Except.bind ((Image.ofProgram program layout).mapError _) _) _ = _
  cases Image.ofProgram program layout <;> rfl

/-- Compiling lays a program out and assembles its image. -/
theorem compile_eq_ok {program : Program} {image : Image} :
    program.compile = .ok image ↔
      ∃ layout, Layout.ofProgram program = .ok layout ∧
        Image.ofProgram program layout = .ok image := by
  cases laid : Layout.ofProgram program with
  | error cause => simp [compile_of_layout_error laid]
  | ok layout => simp [compile_of_layout laid]

end Program

/-- The errors of emission that a well-formed program can have: a constant that
cannot be read, or no function to start in. -/
def EmissionError.Expected (error : EmissionError) : Prop :=
  IsLiteral error ∨ error = .noEntryPoint

/-- There is no code to start a program without an entry point. -/
theorem startCode_of_entry_eq_none {program : Program} {layout : Layout} {code : Table Code}
    (entry : program.entry? = none) :
    startCode (.ofProgram program layout) code = .error .noEntryPoint := by
  have absent : (Context.ofProgram program layout).program.entry? = none := entry
  rw [startCode, absent]
  rfl

/-- A program whose entry point has a frame can be started. -/
theorem exists_startCode {program : Program} {layout : Layout} {main : FunDef} {frame : Frame}
    (code : Table Code) (entry : program.entry? = some main)
    (framed : layout.frames[main.id]? = some frame) :
    ∃ start, startCode (.ofProgram program layout) code = .ok start := by
  have found : (Context.ofProgram program layout).program.entry? = some main := entry
  have own : (Context.ofProgram program layout).frame main.id = .ok frame :=
    Context.frame_eq_ok.mpr framed
  rw [startCode, found]
  dsimp only
  rw [own]
  exact ⟨_, rfl⟩

/-- The image of a program that has been laid out can be assembled if and only
if its constants can be read and it has a function to start in. -/
theorem settles_image {program : Program} {layout : Layout} (distinct : program.Distinct)
    (obeys : program.Obeys (.resolved program)) (laid : Layout.ofProgram program = .ok layout) :
    Settles EmissionError.Expected
      (program.Obeys .readable ∧ ∃ main, program.entry? = some main)
      (Image.ofProgram program layout) := by
  obtain ⟨globals, ready, after, -, top⟩ := Layout.topLaid_of_ofProgram distinct laid
  have laidScope : (Scope.top program.defs).Laid layout [] := ⟨rfl, globals, _, after, top⟩
  have settles := @settles_emitTop (.ofProgram program layout) _ globals laidScope rfl _ _ _ obeys
    top distinct .empty (fun id _ => by simp [Progress.empty])
  rw [Image.ofProgram]
  change Settles _ _ (Except.bind ((emitTop (.ofProgram program layout) program.defs).run .empty) _)
  cases ran : (emitTop (.ofProgram program layout) program.defs).run .empty with
  | error cause =>
    rw [ran] at settles
    exact ⟨fun both => settles.1 both.1, .inl settles.2⟩
  | ok pair =>
    obtain ⟨⟨⟩, progress⟩ := pair
    rw [ran] at settles
    change Settles _ _ (Except.bind (startCode (.ofProgram program layout) progress.code) _)
    cases entry : program.entry? with
    | none =>
      rw [startCode_of_entry_eq_none entry]
      refine ⟨?_, .inr rfl⟩
      rintro ⟨-, main, ⟨⟩⟩
    | some main =>
      obtain ⟨first, last, laidMain⟩ :=
        Layout.functionLaid_of_mem_functionsIn top (Program.mem_functions_of_entry entry).1
      obtain ⟨frame, framed, -⟩ := laidMain.frame
      obtain ⟨start, started⟩ := exists_startCode progress.code entry framed
      rw [started]
      exact ⟨settles, main, rfl⟩

/-- A program that can be loaded compiles to an image that can be loaded. -/
theorem Program.exists_executable {program : Program} {config : Config}
    (succeeds : (program.load config).toOption.isSome = true) :
    ∃ image executable, program.compile = .ok image ∧ image.load config = .ok executable := by
  rw [Program.load] at succeeds
  cases compiled : program.compile with
  | error cause =>
    rw [compiled] at succeeds
    cases succeeds
  | ok image =>
    rw [compiled] at succeeds
    change (image.load config).toOption.isSome = true at succeeds
    cases loaded : image.load config with
    | error cause =>
      rw [loaded] at succeeds
      cases succeeds
    | ok executable => exact ⟨image, executable, rfl, loaded⟩

/-- A program with distinct numbers whose uses are linked to visible
definitions, whose variables and dereferenced pointers are marked as places, and
which assigns only to these and takes addresses only of variables, compiles if
and only if all initializers are flat and have a size, all constants can be read
and there is a function to start in. If it does not compile, then one of these is
the reason that is given. -/
theorem compile_succeeds_iff {program : Program} (distinct : program.Distinct)
    (obeys : program.Obeys ((Rule.linked program).and (Rule.placed program))) :
    ((∃ image, program.compile = .ok image) ↔
      program.Obeys .measurable ∧ program.Obeys .readable ∧
        ∃ function ∈ functionsIn program.defs,
          function.name = entryPoint ∧ function.isExternal = false) ∧
    ∀ failure, program.compile = .error failure →
      (∃ cause, failure = .layout cause) ∨ (∃ cause, failure = .emission (.literal cause)) ∨
        failure = .emission .noEntryPoint := by
  have settlesLayout := Layout.settles_ofProgram program
  rw [← Program.exists_entry_iff]
  cases laid : Layout.ofProgram program with
  | error cause =>
    rw [laid] at settlesLayout
    rw [Program.compile_of_layout_error laid]
    refine ⟨⟨fun ⟨_, same⟩ => (nomatch same), fun all => (settlesLayout.1 all.1).elim⟩, ?_⟩
    rintro failure ⟨⟩
    exact .inl ⟨cause, rfl⟩
  | ok layout =>
    rw [laid] at settlesLayout
    rw [Program.compile_of_layout laid]
    have settlesImage := settles_image distinct obeys laid
    cases assembled : Image.ofProgram program layout with
    | error cause =>
      rw [assembled] at settlesImage
      refine ⟨⟨fun ⟨_, same⟩ => (nomatch same), fun all => (settlesImage.1 all.2).elim⟩, ?_⟩
      rintro failure ⟨⟩
      rcases settlesImage.2 with ⟨literal, rfl⟩ | rfl
      · exact .inr (.inl ⟨literal, rfl⟩)
      · exact .inr (.inr rfl)
    | ok image =>
      rw [assembled] at settlesImage
      exact ⟨⟨fun _ => ⟨settlesLayout, settlesImage⟩, fun _ => ⟨image, rfl⟩⟩,
        fun _ same => (nomatch same)⟩

/-- A program with a global variable and functions that share their names, a
service that is declared inside a function, a loop, a branch and a text. -/
def Program.sample : Program :=
  Builder.program do
    let limit ← Builder.varDef "limit" [← Builder.initItem 1 (← Builder.intAtom 3)]
    let main ← Builder.reserveFunction "main"
    let putstr ← Builder.reserveFunction "putstr"
    let inner ← Builder.reserveFunction "limit"
    let address ← Builder.param "address"
    let declared ← Builder.function putstr [address] []
    let text ← Builder.atomExpr (← Builder.textAtom "ok")
    let shown ← Builder.exprStmt (← Builder.call putstr [text])
    let step ← Builder.binary .sub (← Builder.use limit.id)
      (← Builder.atomExpr (← Builder.intAtom 1))
    let counted ← Builder.assign (← Builder.use limit.id) step
    let repeated ← Builder.loop (← Builder.use limit.id) [counted]
    let nested ← Builder.function inner [] [shown, repeated]
    let chosen ← Builder.cond (← Builder.use limit.id)
      [← Builder.exprStmt (← Builder.call inner [])] []
    let body ← Builder.block [declared, nested] [chosen]
    return [limit, ← Builder.function main [] [body]]

/-- The sample is laid out and linked as it should be, so it compiles. -/
theorem compile_succeeds_iff_sample :
    Program.sample.Distinct ∧
      Program.sample.Obeys ((Rule.linked .sample).and (Rule.placed .sample)) ∧
      ∃ image, Program.sample.compile = .ok image := by
  have distinct : Program.sample.Distinct := by decide +kernel
  have obeys : Program.sample.Obeys ((Rule.linked .sample).and (Rule.placed .sample)) := by
    decide +kernel
  have main : ∃ function ∈ functionsIn Program.sample.defs,
      function.name = entryPoint ∧ function.isExternal = false := by decide +kernel
  exact ⟨distinct, obeys,
    (compile_succeeds_iff distinct obeys).1.mpr ⟨by decide +kernel, by decide +kernel, main⟩⟩

end ScopeStack
