import ScopeStack.Proofs.Linking.Views
import ScopeStack.Proofs.Machine.Control

/-!
# Faults and the functions in which they occur

A fault leaves the program counter at the instruction that could not be carried out, so the
source map can be asked for it afterwards. `faults_stop_in_place` says that the machine is found
where it was, whatever code it runs, and that for the code of a compiled image the source map
gives the function to which the instruction belongs.

This does not depend on the numbers of the program being distinct. The entries of a source map
may then be empty or belong to functions with the same code, but they still follow each other as
the pieces of code do.
-/

namespace ScopeStack

open Emission Executable

section Search

variable {context : Context} {table : Table Code} {address : Int} {functions : List FunDef}

/-- No entry is found below the address at which the code of the functions starts. -/
theorem find?_functionEntries_of_lt {pc : Int} (below : pc < address) :
    SourceMap.find? ⟨functionEntries context table address functions⟩ pc = none := by
  induction functions generalizing address with
  | nil => rfl
  | cons function rest hypothesis =>
    rw [functionEntries]
    cases table[function.id]? with
    | none => exact hypothesis below
    | some own =>
      have ownSize := own.size_nonneg
      have outside : ¬address ≤ pc := by omega
      rw [SourceMap.find?, List.find?_cons]
      simp only [outside, decide_false, Bool.false_and]
      exact hypothesis (by omega)

/-- The entry found for an instruction in the code of functions is that of the function in whose
code it stands. -/
theorem find?_functionEntries {before after : Code} {line : Located Instr}
    (wide : 0 < line.item.size) (split : functionCode table functions = before ++ line :: after) :
    ∃ function ∈ functions, ∃ preceding earlier later following : Code,
      table[function.id]? = some (earlier ++ line :: later) ∧
      before = preceding ++ earlier ∧ after = later ++ following ∧
      SourceMap.find? ⟨functionEntries context table address functions⟩ (address + before.size) =
        some ⟨codeLabel function (earlier ++ line :: later), address + preceding.size,
          Code.size (earlier ++ line :: later), context.span? function.id⟩ := by
  induction functions generalizing address before with
  | nil => simp [functionCode] at split
  | cons function rest hypothesis =>
    rw [functionCode, List.flatMap_cons, ← functionCode] at split
    rw [functionEntries]
    cases found : table[function.id]? with
    | none =>
      rw [found] at split
      obtain ⟨other, inside, place⟩ := hypothesis split
      exact ⟨other, List.mem_cons_of_mem _ inside, place⟩
    | some own =>
      rw [found, Option.getD_some] at split
      rcases Code.line_of_append split with ⟨later, rfl⟩ | ⟨earlier, rfl, inRest⟩
      · have beforeSize := before.size_nonneg
        have laterSize := Code.size_nonneg later
        refine ⟨function, List.mem_cons_self, [], before, later, functionCode table rest, found,
          rfl, ?_, ?_⟩
        · simpa using split.symm
        · have first : address ≤ address + before.size := by omega
          have last : address + before.size < address + Code.size (before ++ line :: later) := by
            rw [Code.size_append, Code.size]
            omega
          simp [SourceMap.find?, first, last, Code.size]
      · have earlierSize := earlier.size_nonneg
        obtain ⟨other, inside, preceding, head, tail, following, has, rfl, sameAfter, result⟩ :=
          @hypothesis (address + own.size) earlier inRest
        refine ⟨other, List.mem_cons_of_mem _ inside, own ++ preceding, head, tail, following, has,
          (List.append_assoc _ _ _).symm, sameAfter, ?_⟩
        have beyond : ¬address + Code.size (own ++ (preceding ++ head)) < address + own.size := by
          rw [Code.size_append]
          omega
        rw [SourceMap.find?, List.find?_cons]
        simp only [beyond, decide_false, Bool.and_false]
        rw [Code.size_append own, Code.size_append own, ← Int.add_assoc, ← Int.add_assoc]
        exact result

end Search

/-- The code of a function starts with the name of its frame. -/
theorem codeLabel_of_ofProgram {program : Program} {layout : Layout} {image : Image}
    {function : FunDef} {own : Code} (distinct : program.Distinct)
    (assembled : Image.ofProgram program layout = .ok image)
    (inside : function ∈ program.functions) (found : image.nodeCode[function.id]? = some own) :
    codeLabel function own = (layout.frameOf function.id).name := by
  have filed := filed_of_ofProgram distinct assembled inside
  rw [Filed, found] at filed
  obtain ⟨outer, other, -, -, -, same, items⟩ :=
    exists_functionCode distinct assembled inside filed.1
  cases Option.some.inj (found.symm.trans same)
  cases own with
  | nil => cases items
  | cons line rest =>
    have first : line.item = .label (layout.frameOf function.id).name :=
      (List.cons.inj items).1
    simp [codeLabel, first, Instr.label?]

/-- What a source map has to say about the address of an instruction of an image. -/
inductive Locates (program : Program) (layout : Layout) (image : Image) (labels : LabelTable)
    (pc : Int) (own : Opcode) : Option SourceMapEntry → Prop
  /-- The instruction belongs to the start, which is no function. -/
  | start {start before after : Code} {line : Located Instr}
      (starts : startCode (.ofProgram program layout) image.nodeCode = .ok start)
      (code : image.code = start ++ functionCode image.nodeCode program.functions)
      (stands : start = before ++ line :: after) (place : pc = before.size)
      (has : opcode labels line.item = .ok (some own)) :
      Locates program layout image labels pc own none
  /-- The instruction belongs to a function, whose code lies at the address of the entry. -/
  | function {function : FunDef} {preceding before after following : Code} {line : Located Instr}
      (inside : function ∈ program.functions)
      (stands : image.nodeCode[function.id]? = some (before ++ line :: after))
      (code : image.code = preceding ++ (before ++ line :: after) ++ following)
      (place : pc = preceding.size + before.size)
      (has : opcode labels line.item = .ok (some own))
      (named : program.Distinct →
        codeLabel function (before ++ line :: after) = (layout.frameOf function.id).name) :
      Locates program layout image labels pc own
        (some ⟨codeLabel function (before ++ line :: after), preceding.size,
          Code.size (before ++ line :: after), program.location? function.id⟩)

/-- The source map of an image locates every instruction that has been loaded. -/
theorem locates_of_slot {program : Program} {layout : Layout} {image : Image} {config : Config}
    {data : Data} {executable : Executable}
    (assembled : Image.ofProgram program layout = .ok image)
    (loads : load config image.code data = .ok executable) {pc : Int} {own : Opcode}
    (slot : executable.slots[pc]? = some own) :
    Locates program layout image executable.labels pc own (image.sourceMap.find? pc) := by
  obtain ⟨start, starts, code, sourceMap⟩ := sourceMap_of_ofProgram assembled
  obtain ⟨before, line, after, split, has, place⟩ := exists_instr_of_slot loads slot
  have wide := Instr.size_pos_of_opcode has
  rw [code] at split
  rcases Code.line_of_append split with ⟨later, inStart⟩ | ⟨earlier, rfl, inRest⟩
  · have laterSize := Code.size_nonneg later
    have below : pc < start.size := by
      rw [inStart, Code.size_append, Code.size, place]
      omega
    rw [sourceMap, find?_functionEntries_of_lt below]
    exact .start starts code inStart place has
  · obtain ⟨function, inside, preceding, head, tail, following, stands, rfl, rfl, found⟩ :=
      @find?_functionEntries (.ofProgram program layout) _ start.size _ _ _ _ wide inRest
    rw [Code.size_append] at place
    rw [sourceMap, place, found, ← Code.size_append start preceding]
    have whole : image.code = start ++ preceding ++ (head ++ line :: tail) ++ following := by
      rw [code, inRest]
      simp only [List.append_assoc, List.cons_append]
    refine .function inside stands whole ?_ has fun distinct =>
      codeLabel_of_ofProgram distinct assembled inside stands
    simp only [Code.size_append, Int.add_assoc]

/-- A fault points at its instruction. In every state that a loaded program reaches, a step that
faults leaves the program counter and the frame pointer where they were and the machine running,
and has counted the instruction if there was one and the limit allowed it. A return does not fault
once it has overwritten its registers. If the code is that of a compiled image, the source map
gives the function in which the instruction stands that could not be carried out. -/
theorem faults_stop_in_place {config : Config} {code : Code} {data : Data}
    {executable : Executable} (loaded : load config code data = .ok executable)
    (sizes : ∀ bytes, .size bytes ∈ data.map Located.item → 0 ≤ bytes) (input : List UInt8)
    (outputLimit : Option Nat) (count : Nat) :
    let state := executable.stateAt input outputLimit count
    (∀ fault after, executable.step.run state = .error fault after →
      executable.StopsInPlace state fault after) ∧
    (∀ next, Exec.execute next .retn = Exec.unwind >>= Exec.push) ∧
    (∀ result middle,
      Exec.unwind.run { state with steps := state.steps + 1 } = .ok result middle →
        ∃ final, (Exec.push result).run middle = .ok () final) ∧
    ∀ program image, program.compile = .ok image → image.code = code →
      ∃ layout, Layout.ofProgram program = .ok layout ∧
        ∀ fault after opcode, executable.step.run state = .error fault after →
          executable.slots[state.registers.pc]? = some opcode →
          Locates program layout image executable.labels state.registers.pc opcode
            (image.sourceMap.find? after.registers.pc) := by
  intro state
  have extent := extent_of_load loaded sizes
  have dataEnd := extent.dataEnd_eq
  have dataLength := extent.dataLength
  have fenced : state.Fenced ⟨code.size, executable.memory.size, code.size⟩ :=
    (kept_stateAt (Int.le_refl _) (extent.fenced (by omega) input outputLimit) count).fenced
  have stops := fun fault after => @stopsInPlace_of_step executable _ state after fault fenced
  refine ⟨stops, fun _ => Exec.leave_eq, ?_, ?_⟩
  · intro result middle unwound
    have counted : state.Kept _ { state with steps := state.steps + 1 } :=
      .aside fenced rfl rfl rfl
    exact Exec.exists_push_of_unwind counted.fenced unwound
  · rintro program image compiled rfl
    obtain ⟨layout, laid, assembled⟩ := Program.compile_eq_ok.mp compiled
    refine ⟨layout, laid, fun fault after opcode failed slot => ?_⟩
    rw [(stops fault after failed).pc]
    exact locates_of_slot assembled loaded slot

/-- A program whose main function calls a function inside it that divides by zero. -/
def Program.dividing : Program :=
  Builder.program do
    let main ← Builder.reserveFunction "main"
    let divide ← Builder.reserveFunction "divide"
    let quotient ← Builder.binary .div (← Builder.atomExpr (← Builder.intAtom 1))
      (← Builder.atomExpr (← Builder.intAtom 0))
    let nested ← Builder.function divide [] [← Builder.exprStmt quotient]
    let called ← Builder.exprStmt (← Builder.call divide [])
    return [← Builder.function main [] [← Builder.block [nested] [called]]]

/-- The thirteenth step of the program faults, and the source map names the inner function. -/
theorem faults_stop_in_place_dividing :
    ∃ image executable layout after, Program.dividing.compile = .ok image ∧
      image.load .standard = .ok executable ∧
      let state := executable.stateAt [] none 12
      executable.step.run state = .error .divisionByZero after ∧
      executable.StopsInPlace state .divisionByZero after ∧
      Locates .dividing layout image executable.labels state.registers.pc (.binary .div)
        (image.sourceMap.find? after.registers.pc) ∧
      (image.sourceMap.find? after.registers.pc).map SourceMapEntry.label =
        some "main.divide" := by
  obtain ⟨image, executable, compiled, loads⟩ :=
    @Program.exists_executable .dividing .standard (by decide +kernel)
  obtain ⟨-, -, -, -, -, placed, loaded⟩ := exists_loaded (by decide +kernel) compiled loads
  have whole : Program.dividing.load .standard = .ok executable := by
    rw [Program.load, compiled]
    exact loads
  have reached : (Program.dividing.load .standard).toOption.map (fun executable =>
      let state := executable.stateAt [] none 12
      (state.registers.pc, executable.slots[state.registers.pc]?, (executable.run 1 state).1)) =
      some (62, some (.binary .div), .faulted .divisionByZero) := by
    decide +kernel
  have named : Program.dividing.compile.toOption.map (fun image =>
      (image.sourceMap.find? 62).map SourceMapEntry.label) = some (some "main.divide") := by
    decide +kernel
  rw [whole] at reached
  rw [compiled] at named
  simp only [Except.toOption, Option.map_some, Option.some.injEq, Prod.mk.injEq] at reached
  obtain ⟨pc, fetch, faults⟩ := reached
  obtain ⟨stops, -, -, locates⟩ := faults_stop_in_place placed loaded.rooms_nonneg [] none 12
  obtain ⟨layout, -, located⟩ := locates .dividing image compiled rfl
  rw [run] at faults
  split at faults
  · cases faults
  · cases faults
  next fault after failed =>
    cases faults
    refine ⟨image, executable, layout, after, compiled, loads, failed, stops _ _ failed,
      located _ _ _ failed fetch, ?_⟩
    rw [(stops _ _ failed).pc, pc]
    exact Option.some.inj named

end ScopeStack
