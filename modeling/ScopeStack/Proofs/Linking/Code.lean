import ScopeStack.Proofs.Emission.ClosedForm
import ScopeStack.Proofs.Linking.Loader

/-!
# The code of a loaded program

In a loaded program names have become addresses. `ValueAt`, `StmtAt` and
`FunctionAt` say, following the tree, which instructions lie where: a branch
goes to an address inside the code of the same statement, a call to the entry
of the function that it refers to, and a variable or a constant stands for the
place of its own room or words. These addresses are in the `Linkage`.

What the loader puts into its slots has this form, `stmtAt_of_codeAt` and
`functionAt_of_codeAt`.
-/

namespace ScopeStack

open Emission

/-- The instructions of a loaded program, and the addresses that its names
stand for. -/
structure Linkage where
  slots : Std.TreeMap Int Opcode
  /-- Where a call of a function goes. -/
  entry : NodeId → Int
  /-- Where the code of a function ends. -/
  stop : NodeId → Int
  /-- Where the room of a global variable starts. -/
  room : NodeId → Int
  /-- Where the words of a text or an initializer start. -/
  words : NodeId → Int

namespace Linkage

/-- Instructions lie one after another between two addresses. -/
def Holds (link : Linkage) : Int → List Opcode → Int → Prop
  | start, [], stop => stop = start
  | start, own :: rest, stop => link.slots[start]? = some own ∧ link.Holds (start + own.size) rest stop

/-- Two stretches of code lie one after the other. -/
theorem holds_append {link : Linkage} {start stop : Int} {first second : List Opcode} :
    link.Holds start (first ++ second) stop ↔
      ∃ middle, link.Holds start first middle ∧ link.Holds middle second stop := by
  induction first generalizing start with
  | nil => simp [Holds]
  | cons own rest hypothesis => simp [Holds, hypothesis, and_assoc]

/-- Push the frame pointer of the frame that is a number of access links
away. -/
def frameOps (hops : Nat) : List Opcode := .regn .fp :: List.replicate hops .load

/-- The word of a constant: the number itself, or the place of a text. -/
def atomWord (link : Linkage) (id : NodeId) (atom : Atom) : Word :=
  match atom.kind with
  | .str => Word.ofInt (link.words id)
  | _ => Word.ofInt atom.number

/-- Code that pushes the address of a variable. -/
def VariableAt (link : Linkage) (context : Context) (id : NodeId) (start stop : Int) : Prop :=
  match context.program.definition? id with
  | none => stop = start
  | some target =>
    match context.layout.accesses[target]? with
    | none => stop = start
    | some (.abs _) => link.Holds start [.push (Word.ofInt (link.room target))] stop
    | some (.rel access) =>
      link.Holds start
        (frameOps (context.distance access.depth) ++
          [.push (Word.ofInt access.offset), .binary .add]) stop

/-- Code that calls a function after its arguments have been pushed. -/
def CalleeAt (link : Linkage) (context : Context) (id : NodeId) (start stop : Int) : Prop :=
  match context.program.definition? id with
  | none => stop = start
  | some target =>
    match context.layout.frames[target]? with
    | none => stop = start
    | some callee =>
      link.Holds start
        (frameOps (context.linkDistance callee) ++
          [.push (Word.ofInt (link.entry target)), .call]) stop

mutual

/-- Code that pushes the value of an expression. -/
def ValueAt (link : Linkage) (context : Context) : Expr → Int → Int → Prop
  | .atom id atom, start, stop => link.Holds start [.push (link.atomWord id atom)] stop
  | .var id _, start, stop =>
    ∃ middle, link.VariableAt context id start middle ∧ link.Holds middle [.load] stop
  | .call id _ args, start, stop =>
    ∃ middle, link.ArgsAt context args start middle ∧ link.CalleeAt context id middle stop
  | .unary _ .plus operand, start, stop => link.ValueAt context operand start stop
  | .unary _ .not operand, start, stop =>
    ∃ middle, link.ValueAt context operand start middle ∧ link.Holds middle [.unary .not] stop
  | .unary _ .minus operand, start, stop =>
    ∃ middle, link.ValueAt context operand start middle ∧ link.Holds middle [.unary .neg] stop
  | .unary _ .valueAt operand, start, stop =>
    ∃ middle, link.ValueAt context operand start middle ∧ link.Holds middle [.load] stop
  | .unary _ .addressOf operand, start, stop => link.VariableAt context operand.id start stop
  | .binary _ op first second, start, stop =>
    ∃ middle later, link.ValueAt context first start middle ∧
      link.ValueAt context second middle later ∧ link.Holds later [.binary op] stop

/-- Code that pushes arguments, the last one first. -/
def ArgsAt (link : Linkage) (context : Context) : List Expr → Int → Int → Prop
  | [], start, stop => stop = start
  | arg :: rest, start, stop =>
    ∃ middle, link.ArgsAt context rest start middle ∧ link.ValueAt context arg middle stop

end

/-- Code that pushes the address of a place. -/
def PlaceAt (link : Linkage) (context : Context) : Expr → Int → Int → Prop
  | .unary _ .valueAt pointer, start, stop => link.ValueAt context pointer start stop
  | place, start, stop => link.VariableAt context place.id start stop

/-- Code that gives a local variable its initial words. -/
def LocalAt (link : Linkage) (context : Context) (declared : VarDef) (start stop : Int) : Prop :=
  match context.layout.accesses[declared.id]? with
  | some (.rel access) =>
    link.Holds start
      [.regn .fp, .push (Word.ofInt access.offset), .binary .add,
        .push (Word.ofInt (link.words declared.id)), .init] stop
  | _ => stop = start

/-- Code that gives the variables of a block their initial words. -/
def LocalsAt (link : Linkage) (context : Context) : List Def → Int → Int → Prop
  | [], start, stop => stop = start
  | .fn _ :: rest, start, stop => link.LocalsAt context rest start stop
  | .var declared :: rest, start, stop =>
    ∃ middle, link.LocalAt context declared start middle ∧
      link.LocalsAt context rest middle stop

mutual

/-- The code of a statement, with that of the functions inside it. -/
def StmtAt (link : Linkage) (context : Context) (tail : Bool) : Stmt → Int → Int → Prop
  | .expr _ value, start, stop =>
    ∃ middle, link.ValueAt context value start middle ∧
      link.Holds middle (if tail then [] else [.push 4, .popn]) stop
  | .assign _ target source, start, stop =>
    ∃ middle later, link.ValueAt context source start middle ∧
      link.PlaceAt context target middle later ∧ link.Holds later [.save] stop
  | .cond _ test yes no, start, stop =>
    ∃ tested yesStart yesStop noStart, link.ValueAt context test start tested ∧
      link.Holds tested [.push (Word.ofInt noStart), .push (Word.ofInt yesStart), .cjmp] yesStart ∧
      link.StmtsAt context false yes yesStart yesStop ∧
      link.Holds yesStop [.push (Word.ofInt stop), .ujmp] noStart ∧
      link.StmtsAt context false no noStart stop
  | .loop _ test body, start, stop =>
    ∃ tested bodyStart bodyStop, link.ValueAt context test start tested ∧
      link.Holds tested [.push (Word.ofInt stop), .push (Word.ofInt bodyStart), .cjmp] bodyStart ∧
      link.StmtsAt context false body bodyStart bodyStop ∧
      link.Holds bodyStop [.push (Word.ofInt start), .ujmp] stop
  | .block _ defs body, start, stop =>
    ∃ middle, link.LocalsAt context defs start middle ∧
      link.StmtsAt context tail body middle stop ∧ link.FunctionsAt context defs

/-- The code of statements. -/
def StmtsAt (link : Linkage) (context : Context) (tail : Bool) : List Stmt → Int → Int → Prop
  | [], start, stop => stop = start
  | stmt :: rest, start, stop =>
    ∃ middle, link.StmtAt context (tail && rest.isEmpty) stmt start middle ∧
      link.StmtsAt context tail rest middle stop

/-- The functions among definitions have their code at their entries. -/
def FunctionsAt (link : Linkage) (context : Context) : List Def → Prop
  | [] => True
  | .fn function :: rest => link.FunctionAt context function ∧ link.FunctionsAt context rest
  | .var _ :: rest => link.FunctionsAt context rest

/-- A function with a body has its code at its entry. -/
def FunctionAt (link : Linkage) (context : Context) : FunDef → Prop
  | ⟨id, _, _, body⟩ =>
    body.isEmpty = false →
    ∃ bodyStart bodyStop,
      link.Holds (link.entry id)
        [.push (Word.ofInt (-(context.layout.frameOf id).localsSize)), .popn] bodyStart ∧
      link.StmtsAt (context.enter (context.layout.frameOf id)) true body bodyStart bodyStop ∧
      link.Holds bodyStop
        ((if leavesValue body then [] else [.push 0]) ++
          [.push (Word.ofInt ((context.layout.frameOf id).parsSize - 4)), .retn]) (link.stop id)

end

/-- A function among definitions has its code at its entry. -/
theorem functionAt_of_mem {link : Linkage} {context : Context} {defs : List Def}
    {function : FunDef} (placed : link.FunctionsAt context defs)
    (inside : function ∈ functionsIn defs) : link.FunctionAt context function := by
  rw [mem_functionsIn] at inside
  induction defs with
  | nil => cases inside
  | cons definition rest hypothesis =>
    cases definition with
    | fn own =>
      rcases List.mem_cons.mp inside with same | later
      · cases same
        exact placed.1
      · exact hypothesis placed.2 later
    | var declared =>
      rcases List.mem_cons.mp inside with same | later
      · cases same
      · exact hypothesis placed later

/-! Code does not stop before it starts. -/

section Extent

variable {link : Linkage} {context : Context} {start stop : Int}

/-- Code ends where it starts or later. -/
theorem Holds.le {ops : List Opcode} (held : link.Holds start ops stop) : start ≤ stop := by
  induction ops generalizing start with
  | nil => exact Int.le_of_eq (Eq.symm held)
  | cons own rest hypothesis =>
    have later := hypothesis held.2
    have size : 0 ≤ own.size := by
      rw [Opcode.size.eq_def]
      split <;> decide
    omega

/-- The code of a variable ends where it starts or later. -/
theorem VariableAt.le {id : NodeId} (placed : link.VariableAt context id start stop) :
    start ≤ stop := by
  rw [VariableAt] at placed
  split at placed
  · exact Int.le_of_eq placed.symm
  · split at placed
    · exact Int.le_of_eq placed.symm
    · exact placed.le
    · exact placed.le

/-- The code before a call ends where it starts or later. -/
theorem CalleeAt.le {id : NodeId} (placed : link.CalleeAt context id start stop) :
    start ≤ stop := by
  rw [CalleeAt] at placed
  split at placed
  · exact Int.le_of_eq placed.symm
  · split at placed
    · exact Int.le_of_eq placed.symm
    · exact placed.le

mutual

/-- The code of an expression ends where it starts or later. -/
theorem ValueAt.le {start stop : Int} : (expr : Expr) → link.ValueAt context expr start stop →
    start ≤ stop
  | .atom _ _, placed => Holds.le placed
  | .var _ _, ⟨_, address, load⟩ => Int.le_trans address.le load.le
  | .call _ _ args, ⟨_, given, callee⟩ => Int.le_trans (ArgsAt.le args given) callee.le
  | .unary _ .plus operand, placed => ValueAt.le operand placed
  | .unary _ .not operand, ⟨_, placed, last⟩ => Int.le_trans (ValueAt.le operand placed) last.le
  | .unary _ .minus operand, ⟨_, placed, last⟩ => Int.le_trans (ValueAt.le operand placed) last.le
  | .unary _ .valueAt operand, ⟨_, placed, last⟩ => Int.le_trans (ValueAt.le operand placed) last.le
  | .unary _ .addressOf _, placed => VariableAt.le placed
  | .binary _ _ first second, ⟨_, _, left, right, last⟩ =>
    Int.le_trans (ValueAt.le first left) (Int.le_trans (ValueAt.le second right) last.le)

/-- The code of arguments ends where it starts or later. -/
theorem ArgsAt.le {start stop : Int} : (args : List Expr) → link.ArgsAt context args start stop →
    start ≤ stop
  | [], placed => Int.le_of_eq (Eq.symm placed)
  | arg :: rest, ⟨_, later, own⟩ => Int.le_trans (ArgsAt.le rest later) (ValueAt.le arg own)

end

/-- The code of a place ends where it starts or later. -/
theorem PlaceAt.le {place : Expr} (placed : link.PlaceAt context place start stop) :
    start ≤ stop := by
  rw [PlaceAt.eq_def] at placed
  split at placed
  · exact ValueAt.le _ placed
  · exact placed.le

/-- The code that initializes variables ends where it starts or later. -/
theorem LocalsAt.le {defs : List Def} (placed : link.LocalsAt context defs start stop) :
    start ≤ stop := by
  induction defs generalizing start with
  | nil => exact Int.le_of_eq (Eq.symm placed)
  | cons definition rest hypothesis =>
    cases definition with
    | fn function => exact hypothesis placed
    | var declared =>
      obtain ⟨middle, own, later⟩ := placed
      refine Int.le_trans ?_ (hypothesis later)
      rw [LocalAt] at own
      split at own
      · exact own.le
      · exact Int.le_of_eq own.symm

mutual

/-- The code of a statement ends where it starts or later. -/
theorem StmtAt.le {tail : Bool} {start stop : Int} : (stmt : Stmt) →
    link.StmtAt context tail stmt start stop → start ≤ stop
  | .expr _ value, ⟨_, placed, last⟩ => Int.le_trans (ValueAt.le value placed) last.le
  | .assign _ _ source, ⟨_, _, value, place, last⟩ =>
    Int.le_trans (ValueAt.le source value) (Int.le_trans place.le last.le)
  | .cond _ test yes no, ⟨_, _, _, _, tested, branch, onYes, jump, onNo⟩ =>
    Int.le_trans (ValueAt.le test tested) (Int.le_trans branch.le
      (Int.le_trans (StmtsAt.le yes onYes) (Int.le_trans jump.le (StmtsAt.le no onNo))))
  | .loop _ test body, ⟨_, _, _, tested, branch, round, jump⟩ =>
    Int.le_trans (ValueAt.le test tested)
      (Int.le_trans branch.le (Int.le_trans (StmtsAt.le body round) jump.le))
  | .block _ _ body, ⟨_, locals, placed, _⟩ => Int.le_trans locals.le (StmtsAt.le body placed)

/-- The code of statements ends where it starts or later. -/
theorem StmtsAt.le {tail : Bool} {start stop : Int} : (stmts : List Stmt) →
    link.StmtsAt context tail stmts start stop → start ≤ stop
  | [], placed => Int.le_of_eq (Eq.symm placed)
  | stmt :: rest, ⟨_, own, later⟩ => Int.le_trans (StmtAt.le stmt own) (StmtsAt.le rest later)

end

end Extent

end Linkage

namespace Executable

/-- The address that a name stands for. -/
def addressOf (labels : LabelTable) (name : String) : Int :=
  ((resolve labels name).toOption.getD 0).toInt

/-- A label stands for the address to which it is bound. -/
theorem addressOf_eq {labels : LabelTable} {name : String} {address : Int}
    (bound : labels[name]? = some (Word.ofInt address)) :
    Word.ofInt (addressOf labels name) = Word.ofInt address := by
  rw [addressOf, resolve, bound]
  exact Int32.ofInt_toInt _

/-- A label stands for the very address to which it is bound, if a word can
hold it. -/
theorem addressOf_of_fits {labels : LabelTable} {name : String} {address : Int}
    (fits : Word.Fits address) (bound : labels[name]? = some (Word.ofInt address)) :
    addressOf labels name = address := by
  rw [addressOf, resolve, bound]
  exact Word.toInt_ofInt fits

/-- The opcodes of an instruction whose names have been resolved: none for a
label and one for any other. -/
def linked (labels : LabelTable) : Instr → List Opcode
  | .label _ => []
  | .push value => [.push (Word.ofInt value)]
  | .name target => [.push (Word.ofInt (addressOf labels target))]
  | .load => [.load]
  | .save => [.save]
  | .popn => [.popn]
  | .unary op => [.unary op]
  | .binary op => [.binary op]
  | .ujmp => [.ujmp]
  | .cjmp => [.cjmp]
  | .call _ => [.call]
  | .retn _ => [.retn]
  | .init => [.init]
  | .regn reg => [.regn reg]

end Executable

open Executable

/-- The linkage of a loaded image. -/
def Linkage.ofExecutable (layout : Layout) (naming : Naming) (image : Image)
    (executable : Executable) : Linkage where
  slots := executable.slots
  entry id := addressOf executable.labels (layout.frameOf id).name
  stop id := addressOf executable.labels (layout.frameOf id).name +
    instrsSize (image.nodeCode.getD id []).items
  room id :=
    match layout.accesses[id]? with
    | some (.abs access) => addressOf executable.labels access.label
    | _ => 0
  words id := addressOf executable.labels (naming.constantLabel id)

/-- A name in its place pushes the address that it stands for. -/
theorem slot_of_name {labels : LabelTable} {slots : Std.TreeMap Int Opcode} {address : Int}
    {target : String} (placed : InstrAt labels slots address (.name target)) :
    slots[address]? = some (.push (Word.ofInt (addressOf labels target))) := by
  obtain ⟨own, found, slot⟩ := placed
  rw [opcode] at found
  cases resolved : resolve labels target with
  | error cause =>
    rw [resolved] at found
    cases found
  | ok word =>
    rw [resolved] at found
    cases found
    rw [slot, addressOf, resolved]
    exact congrArg (fun word => some (Opcode.push word)) (Int32.ofInt_toInt word).symm

namespace Linkage

/-- An instruction in its place is its opcode. -/
theorem holds_of_instrAt {link : Linkage} {labels : LabelTable} {address : Int} {instr : Instr}
    (placed : InstrAt labels link.slots address instr) :
    link.Holds address (linked labels instr) (address + instr.size) := by
  cases instr with
  | label name => exact Int.add_zero address
  | name target => exact ⟨slot_of_name placed, rfl⟩
  | _ =>
    obtain ⟨own, found, slot⟩ := placed
    cases found
    exact ⟨slot, rfl⟩

/-- Code in its place consists of the opcodes of its instructions. -/
theorem holds_of_codeAt {link : Linkage} {labels : LabelTable} {start : Int}
    {instrs : List Instr} (placed : CodeAt labels link.slots start instrs) :
    link.Holds start (instrs.flatMap (linked labels)) (start + instrsSize instrs) := by
  induction instrs generalizing start with
  | nil => exact Int.add_zero start
  | cons instr rest hypothesis =>
    rw [List.flatMap_cons, holds_append]
    refine ⟨start + instr.size, holds_of_instrAt placed.1, ?_⟩
    have later := hypothesis placed.2
    rwa [Int.add_assoc, ← instrsSize_cons] at later

/-- Linking leaves the code that follows access links as it is. -/
theorem linked_framePointer (labels : LabelTable) (hops : Nat) :
    (framePointer hops).flatMap (linked labels) = frameOps hops := by
  have loads : (List.replicate hops Instr.load).flatMap (linked labels) =
      List.replicate hops Opcode.load := by
    induction hops with
    | zero => rfl
    | succ hops hypothesis =>
      rw [List.replicate_succ, List.flatMap_cons, hypothesis, List.replicate_succ]
      rfl
  rw [framePointer, List.flatMap_cons, loads]
  rfl

section CodeAt

variable {executable : Executable} {context : Context} {naming : Naming} {image : Image}

/-- Loaded code in its place consists of the opcodes of its instructions. -/
theorem held_of_codeAt {layout : Layout} {start : Int} {instrs : List Instr}
    (placed : CodeAt executable.labels executable.slots start instrs) :
    (Linkage.ofExecutable layout naming image executable).Holds start
      (instrs.flatMap (linked executable.labels)) (start + instrsSize instrs) :=
  holds_of_codeAt placed

/-- The code of a variable, with its names resolved. -/
theorem variableAt_of_codeAt {id : NodeId} {start : Int}
    (placed : CodeAt executable.labels executable.slots start (variableInstrs context id)) :
    (Linkage.ofExecutable context.layout naming image executable).VariableAt context id start
      (start + instrsSize (variableInstrs context id)) := by
  have held := @held_of_codeAt executable naming image context.layout _ _ placed
  rw [VariableAt]
  rw [variableInstrs, Context.accessOf?] at held ⊢
  cases defined : context.program.definition? id with
  | none =>
    rw [defined] at held
    exact held
  | some target =>
    rw [defined, Option.bind_some] at held
    simp only [Option.bind_some]
    cases found : context.layout.accesses[target]? with
    | none =>
      rw [found] at held
      exact held
    | some access =>
      rw [found] at held
      cases access with
      | abs access =>
        have room : (Linkage.ofExecutable context.layout naming image executable).room target =
            addressOf executable.labels access.label := by
          simp only [ofExecutable, found]
        simp only [room]
        exact held
      | rel access =>
        simp only [List.flatMap_append, linked_framePointer] at held
        exact held

/-- The code before a call, with its names resolved. -/
theorem calleeAt_of_codeAt {id : NodeId} {start : Int}
    (placed : CodeAt executable.labels executable.slots start (calleeInstrs context id)) :
    (Linkage.ofExecutable context.layout naming image executable).CalleeAt context id start
      (start + instrsSize (calleeInstrs context id)) := by
  have held := @held_of_codeAt executable naming image context.layout _ _ placed
  rw [CalleeAt]
  rw [calleeInstrs, Context.calleeOf?] at held ⊢
  cases defined : context.program.definition? id with
  | none =>
    rw [defined] at held
    exact held
  | some target =>
    rw [defined, Option.bind_some] at held
    simp only [Option.bind_some]
    cases found : context.layout.frames[target]? with
    | none =>
      rw [found] at held
      exact held
    | some callee =>
      rw [found] at held
      have entry : (Linkage.ofExecutable context.layout naming image executable).entry target =
          addressOf executable.labels callee.name := by
        simp only [ofExecutable, Layout.frameOf_eq found]
      simp only [callInstrs, List.flatMap_append, linked_framePointer] at held
      simp only [entry]
      exact held

mutual

/-- The code of an expression in its place pushes its value. -/
theorem valueAt_of_codeAt {start : Int} : (expr : Expr) →
    CodeAt executable.labels executable.slots start (valueInstrs context naming expr) →
    (Linkage.ofExecutable context.layout naming image executable).ValueAt context expr start
      (start + instrsSize (valueInstrs context naming expr))
  | .atom id atom, placed => by
    have held := @held_of_codeAt executable naming image context.layout _ _ placed
    rw [ValueAt, atomWord]
    rw [valueInstrs, atomInstrs] at held ⊢
    cases kind : atom.kind with
    | int | char | str =>
      rw [kind] at held
      exact held
  | .var id name, placed => by
    rw [valueInstrs, codeAt_append] at placed
    refine ⟨_, variableAt_of_codeAt placed.1, ?_⟩
    rw [valueInstrs, instrsSize_append, ← Int.add_assoc]
    exact held_of_codeAt placed.2
  | .call id name args, placed => by
    rw [valueInstrs, codeAt_append] at placed
    refine ⟨_, argsAt_of_codeAt args placed.1, ?_⟩
    rw [valueInstrs, instrsSize_append, ← Int.add_assoc]
    exact calleeAt_of_codeAt placed.2
  | .unary id op operand, placed => by
    cases op with
    | addressOf =>
      rw [valueInstrs] at placed ⊢
      exact variableAt_of_codeAt placed
    | plus =>
      rw [valueInstrs] at placed ⊢
      exact valueAt_of_codeAt operand placed
    | not | minus | valueAt =>
      rw [valueInstrs, codeAt_append] at placed
      refine ⟨_, valueAt_of_codeAt operand placed.1, ?_⟩
      rw [valueInstrs, instrsSize_append, ← Int.add_assoc]
      exact held_of_codeAt placed.2
  | .binary id op first second, placed => by
    rw [valueInstrs, codeAt_append, codeAt_append] at placed
    refine ⟨_, _, valueAt_of_codeAt first placed.1.1, valueAt_of_codeAt second placed.1.2, ?_⟩
    have held := @held_of_codeAt executable naming image context.layout _ _ placed.2
    rw [valueInstrs]
    simp only [instrsSize_append, Int.add_assoc] at held ⊢
    exact held

/-- The code of arguments in its place pushes them. -/
theorem argsAt_of_codeAt {start : Int} : (args : List Expr) →
    CodeAt executable.labels executable.slots start (argInstrs context naming args) →
    (Linkage.ofExecutable context.layout naming image executable).ArgsAt context args start
      (start + instrsSize (argInstrs context naming args))
  | [], _ => Int.add_zero start
  | arg :: rest, placed => by
    rw [argInstrs, codeAt_append] at placed
    refine ⟨_, argsAt_of_codeAt rest placed.1, ?_⟩
    rw [argInstrs, instrsSize_append, ← Int.add_assoc]
    exact valueAt_of_codeAt arg placed.2

end

/-- The code of a place, with its names resolved. -/
theorem placeAt_of_codeAt {start : Int} {expr : Expr}
    (placed : CodeAt executable.labels executable.slots start (placeInstrs context naming expr)) :
    (Linkage.ofExecutable context.layout naming image executable).PlaceAt context expr start
      (start + instrsSize (placeInstrs context naming expr)) := by
  rw [PlaceAt.eq_def]
  split
  next pointer =>
    rw [placeInstrs] at placed ⊢
    exact valueAt_of_codeAt pointer placed
  next notPointer =>
    rw [placeInstrs.eq_def] at placed ⊢
    split at placed
    next pointer => exact absurd rfl (notPointer _ pointer)
    next => exact variableAt_of_codeAt placed

/-- The code that initializes variables, with its names resolved. -/
theorem localsAt_of_codeAt {start : Int} {defs : List Def}
    (placed : CodeAt executable.labels executable.slots start (localsInstrs context naming defs)) :
    (Linkage.ofExecutable context.layout naming image executable).LocalsAt context defs start
      (start + instrsSize (localsInstrs context naming defs)) := by
  induction defs generalizing start with
  | nil => exact Int.add_zero start
  | cons definition rest hypothesis =>
    cases definition with
    | fn function => exact hypothesis placed
    | var declared =>
      rw [localsInstrs, codeAt_append] at placed
      rw [localsInstrs, instrsSize_append, ← Int.add_assoc]
      refine ⟨_, ?_, hypothesis placed.2⟩
      have held := @held_of_codeAt executable naming image context.layout _ _ placed.1
      rw [LocalAt]
      rw [localInstrs] at held ⊢
      cases found : context.layout.accesses[declared.id]? with
      | none =>
        rw [found] at held
        exact held
      | some access =>
        rw [found] at held
        cases access with
        | abs access => exact held
        | rel access => exact held

/-- The code of functions lies somewhere below the largest address, and the
image records it. -/
def BlocksAt (image : Image) (executable : Executable) (blocks : List CodeBlock) : Prop :=
  ∀ own ∈ blocks, (image.nodeCode.getD own.id []).items = own.instrs ∧
    ∃ address, Word.Fits address ∧ CodeAt executable.labels executable.slots address own.instrs

/-- The blocks of two lists are in their places. -/
theorem blocksAt_append {first second : List CodeBlock} :
    BlocksAt image executable (first ++ second) ↔
      BlocksAt image executable first ∧ BlocksAt image executable second :=
  List.forall_mem_append

/-- A branch in its place goes on after it, or to where its other label is bound. -/
theorem branch_of_codeAt {layout : Layout} {start other : Int} {yes no : String}
    (placed : CodeAt executable.labels executable.slots start
      [.name no, .name yes, .cjmp, .label yes])
    (bound : executable.labels[no]? = some (Word.ofInt other)) :
    (Linkage.ofExecutable layout naming image executable).Holds start
      [.push (Word.ofInt other), .push (Word.ofInt (start + 11)), .cjmp] (start + 11) := by
  have held := @held_of_codeAt executable naming image layout _ _ placed
  simp only [List.flatMap_cons, List.flatMap_nil, linked, addressOf_eq bound,
    addressOf_eq placed.2.2.2.1] at held
  simpa [instrsSize, Instr.size, Int.add_assoc] using held

/-- A jump in its place goes to where its label is bound. -/
theorem jump_of_codeAt {layout : Layout} {start target : Int} {label next : String}
    (placed : CodeAt executable.labels executable.slots start
      [.name label, .ujmp, .label next])
    (bound : executable.labels[label]? = some (Word.ofInt target)) :
    (Linkage.ofExecutable layout naming image executable).Holds start
      [.push (Word.ofInt target), .ujmp] (start + 6) := by
  have held := @held_of_codeAt executable naming image layout _ _ placed
  simp only [List.flatMap_cons, List.flatMap_nil, linked, addressOf_eq bound] at held
  simpa [instrsSize, Instr.size, Int.add_assoc] using held

/-- The label after a jump is bound to what follows the jump. -/
theorem bound_after_jump {start : Int} {label next : String}
    (placed : CodeAt executable.labels executable.slots start
      [.name label, .ujmp, .label next]) :
    executable.labels[next]? = some (Word.ofInt (start + 6)) := by
  rw [show start + 6 = start + 5 + 1 by omega]
  exact placed.2.2.1

mutual

/-- The code of a statement in its place, with the functions inside it at their
entries. -/
theorem stmtAt_of_codeAt {context : Context} {tail : Bool} {start : Int} : (stmt : Stmt) →
    CodeAt executable.labels executable.slots start (stmtInstrs context naming tail stmt) →
    BlocksAt image executable (stmtBlocks context naming stmt) →
    (Linkage.ofExecutable context.layout naming image executable).StmtAt context tail stmt start
      (start + instrsSize (stmtInstrs context naming tail stmt))
  | .expr id value, placed, _ => by
    rw [stmtInstrs, codeAt_append] at placed
    rw [stmtInstrs, instrsSize_append, ← Int.add_assoc]
    refine ⟨_, valueAt_of_codeAt value placed.1, ?_⟩
    have held := @held_of_codeAt executable naming image context.layout _ _ placed.2
    cases tail <;> exact held
  | .assign id target source, placed, _ => by
    rw [stmtInstrs, codeAt_append, codeAt_append] at placed
    refine ⟨_, _, valueAt_of_codeAt source placed.1.1, placeAt_of_codeAt placed.1.2, ?_⟩
    have held := @held_of_codeAt executable naming image context.layout _ _ placed.2
    rw [stmtInstrs]
    simp only [instrsSize_append, Int.add_assoc] at held ⊢
    exact held
  | .cond id test yes no, placed, blocks => by
    rw [stmtBlocks, blocksAt_append] at blocks
    simp only [stmtInstrs, codeAt_append] at placed
    obtain ⟨⟨⟨⟨⟨testPlaced, jumpPlaced⟩, yesPlaced⟩, overPlaced⟩, noPlaced⟩, endPlaced⟩ := placed
    obtain ⟨tested, tested_eq⟩ : ∃ place, place =
      start + instrsSize (valueInstrs context naming test) := ⟨_, rfl⟩
    obtain ⟨yesStop, yesStop_eq⟩ : ∃ place, place =
      tested + 11 + instrsSize (stmtsInstrs context naming false yes) := ⟨_, rfl⟩
    obtain ⟨stop, stop_eq⟩ : ∃ place, place =
      yesStop + 6 + instrsSize (stmtsInstrs context naming false no) := ⟨_, rfl⟩
    have whole : start + instrsSize (stmtInstrs context naming tail (.cond id test yes no)) =
        stop := by
      simp only [stmtInstrs, instrsSize_append, instrsSize_cons, instrsSize_nil, Instr.size]
      omega
    simp only [instrsSize_append, instrsSize_cons, instrsSize_nil, Instr.size]
      at yesPlaced overPlaced noPlaced endPlaced
    have testAt := @valueAt_of_codeAt _ _ _ image _ test testPlaced
    have jumpAt := jumpPlaced.moved tested_eq
    have yesAt := stmtsAt_of_codeAt yes (yesPlaced.moved (show tested + 11 = _ by omega)) blocks.1
    have overAt := overPlaced.moved (show yesStop = _ by omega)
    have noAt := stmtsAt_of_codeAt no (noPlaced.moved (show yesStop + 6 = _ by omega)) blocks.2
    have endAt := endPlaced.moved (show stop = _ by omega)
    rw [← tested_eq] at testAt
    rw [← yesStop_eq] at yesAt
    rw [← stop_eq] at noAt
    rw [whole]
    exact ⟨tested, tested + 11, yesStop, yesStop + 6, testAt,
      branch_of_codeAt jumpAt (bound_after_jump overAt), yesAt, jump_of_codeAt overAt endAt.1, noAt⟩
  | .loop id test body, placed, blocks => by
    simp only [stmtInstrs, codeAt_append] at placed
    obtain ⟨⟨⟨⟨labelPlaced, testPlaced⟩, jumpPlaced⟩, bodyPlaced⟩, backPlaced⟩ := placed
    obtain ⟨tested, tested_eq⟩ : ∃ place, place =
      start + instrsSize (valueInstrs context naming test) := ⟨_, rfl⟩
    obtain ⟨bodyStop, bodyStop_eq⟩ : ∃ place, place =
      tested + 11 + instrsSize (stmtsInstrs context naming false body) := ⟨_, rfl⟩
    have whole : start + instrsSize (stmtInstrs context naming tail (.loop id test body)) =
        bodyStop + 6 := by
      simp only [stmtInstrs, instrsSize_append, instrsSize_cons, instrsSize_nil, Instr.size]
      omega
    simp only [instrsSize_append, instrsSize_cons, instrsSize_nil, Instr.size]
      at testPlaced jumpPlaced bodyPlaced backPlaced
    have testAt := @valueAt_of_codeAt _ _ _ image _ test (testPlaced.moved (show start = _ by omega))
    have jumpAt := jumpPlaced.moved (show tested = _ by omega)
    have bodyAt := stmtsAt_of_codeAt body (bodyPlaced.moved (show tested + 11 = _ by omega)) blocks
    have backAt := backPlaced.moved (show bodyStop = _ by omega)
    rw [← tested_eq] at testAt
    rw [← bodyStop_eq] at bodyAt
    rw [whole]
    exact ⟨tested, tested + 11, bodyStop, testAt, branch_of_codeAt jumpAt (bound_after_jump backAt),
      bodyAt, jump_of_codeAt backAt labelPlaced.1⟩
  | .block id defs body, placed, blocks => by
    rw [stmtBlocks, blocksAt_append] at blocks
    rw [stmtInstrs, codeAt_append] at placed
    rw [stmtInstrs, instrsSize_append, ← Int.add_assoc]
    exact ⟨_, localsAt_of_codeAt placed.1, stmtsAt_of_codeAt body placed.2 blocks.1,
      functionsAt_of_codeAt defs blocks.2⟩

/-- The code of statements in its place. -/
theorem stmtsAt_of_codeAt {context : Context} {tail : Bool} {start : Int} : (stmts : List Stmt) →
    CodeAt executable.labels executable.slots start (stmtsInstrs context naming tail stmts) →
    BlocksAt image executable (stmtsBlocks context naming stmts) →
    (Linkage.ofExecutable context.layout naming image executable).StmtsAt context tail stmts start
      (start + instrsSize (stmtsInstrs context naming tail stmts))
  | [], _, _ => Int.add_zero start
  | stmt :: rest, placed, blocks => by
    rw [stmtsBlocks, blocksAt_append] at blocks
    rw [stmtsInstrs, codeAt_append] at placed
    rw [stmtsInstrs, instrsSize_append, ← Int.add_assoc]
    exact ⟨_, stmtAt_of_codeAt stmt placed.1 blocks.1, stmtsAt_of_codeAt rest placed.2 blocks.2⟩

/-- The functions among definitions have their code at their entries. -/
theorem functionsAt_of_codeAt {context : Context} : (defs : List Def) →
    BlocksAt image executable (defsBlocks context naming defs) →
    (Linkage.ofExecutable context.layout naming image executable).FunctionsAt context defs
  | [], _ => trivial
  | .fn function :: rest, blocks => by
    rw [defsBlocks, blocksAt_append] at blocks
    exact ⟨functionAt_of_codeAt function blocks.1, functionsAt_of_codeAt rest blocks.2⟩
  | .var _ :: rest, blocks => functionsAt_of_codeAt rest blocks

/-- A function has its code at its entry, which is where its label is bound. -/
theorem functionAt_of_codeAt {context : Context} : (function : FunDef) →
    BlocksAt image executable (functionBlocks context naming function) →
    (Linkage.ofExecutable context.layout naming image executable).FunctionAt context function
  | ⟨id, name, params, body⟩, blocks => by
    rw [FunctionAt]
    intro nonempty
    rw [functionBlocks] at blocks
    obtain ⟨recorded, address, fits, placed⟩ := blocks _ List.mem_cons_self
    dsimp only at placed recorded
    rw [nonempty] at placed recorded
    simp only [Bool.false_eq_true, ↓reduceIte, functionInstrs, codeAt_append] at placed
    obtain ⟨⟨⟨⟨bound, startPlaced⟩, bodyPlaced⟩, valuePlaced⟩, stopPlaced⟩ := placed
    have entry : (Linkage.ofExecutable context.layout naming image executable).entry id = address :=
      addressOf_of_fits fits bound
    have stop : (Linkage.ofExecutable context.layout naming image executable).stop id = address +
        instrsSize (functionInstrs context naming (context.layout.frameOf id) body) := by
      rw [← entry]
      simp only [ofExecutable, recorded, Bool.false_eq_true, ↓reduceIte]
    have startHeld := @held_of_codeAt executable naming image context.layout _ _
      (startPlaced.moved (Int.add_zero address).symm)
    have bodyAt := stmtsAt_of_codeAt body bodyPlaced fun own inside =>
      blocks own (List.mem_cons_of_mem _ inside)
    have endPlaced := codeAt_append.mpr ⟨valuePlaced, stopPlaced.moved (by
      simp only [instrsSize_append, Int.add_assoc])⟩
    have endHeld := @held_of_codeAt executable naming image context.layout _ _ endPlaced
    have prologueSize :
        address + instrsSize [.push (-(context.layout.frameOf id).localsSize), .popn] =
          address + instrsSize [.label (context.layout.frameOf id).name,
            .push (-(context.layout.frameOf id).localsSize), .popn] := by
      simp [Instr.size]
    rw [prologueSize] at startHeld
    rw [instrsSize_append, ← Int.add_assoc] at endHeld
    rw [entry, stop]
    have epilogue : ((if leavesValue body then [] else [Instr.push 0]) ++
          [Instr.push ((context.layout.frameOf id).parsSize - 4),
            Instr.retn (some (context.layout.frameOf id).name)]).flatMap (linked executable.labels) =
        (if leavesValue body then [] else [.push 0]) ++
          [.push (Word.ofInt ((context.layout.frameOf id).parsSize - 4)), .retn] := by
      cases leavesValue body <;> rfl
    rw [epilogue] at endHeld
    refine ⟨_, _, startHeld, bodyAt, ?_⟩
    simp only [functionInstrs, instrsSize_append, Int.add_assoc] at endHeld ⊢
    exact endHeld

end

end CodeAt

end Linkage

end ScopeStack
