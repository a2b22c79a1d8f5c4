import ScopeStack.Emission.Expression

/-!
# Code of statements and functions

The code of a statement leaves the stack as it was, except that the last
expression of a function stays on the stack as the function's value. The
functions that a block defines are emitted apart from the code of the block,
after its statements.
-/

namespace ScopeStack.Emission

/-- Code that gives a local variable its initial words. -/
def emitLocal (context : Context) (declared : VarDef) : Emit Code := do
  match ← context.access declared.id with
  | .abs _ => throw (.absoluteLocal declared.name)
  | .rel access =>
    let span := context.span? declared.id
    let label ← freshConstant
    addData declared.id (dataAt span (block label (access.inits.getD [])))
    recorded declared.id
      (codeAt span [.regn .fp, .push access.offset, .binary .add, .name label, .init])

/-- Code that gives the variables among definitions their initial words. -/
def emitLocals (context : Context) : List Def → Emit Code
  | [] => pure []
  | .fn _ :: rest => emitLocals context rest
  | .var declared :: rest => do
    let code ← emitLocal context declared
    let later ← emitLocals context rest
    return code ++ later

/-- The label of a branch target: the kind of target and the number of the
statement. -/
def branchLabel (kind : String) (number : Nat) : String := kind ++ ":" ++ toString number

mutual

/-- Code for a statement. `tail` says that it is the last of its function, so
that its value is kept. -/
def emitStmt (context : Context) (tail : Bool) : Stmt → Emit Code
  | .expr id value => do
    let code ← emitValue context value
    if tail then recorded id code
    else recorded id (code ++ codeAt (context.span? id) [.push 4, .popn])
  | .assign id target source => do
    let value ← emitValue context source
    let place ← emitPlace context target
    recorded id (value ++ place ++ codeAt (context.span? id) [.save])
  | .cond id test yes no => do
    let span := context.span? id
    let number ← freshBranch
    let thenLabel := branchLabel "then" number
    let elseLabel := branchLabel "else" number
    let endLabel := branchLabel "end" number
    let testCode ← emitValue context test
    let yesCode ← emitStmts context false yes
    let noCode ← emitStmts context false no
    recorded id
      (testCode ++ codeAt span [.name elseLabel, .name thenLabel, .cjmp, .label thenLabel] ++
        yesCode ++ codeAt span [.name endLabel, .ujmp, .label elseLabel] ++
        noCode ++ codeAt span [.label endLabel])
  | .loop id test body => do
    let span := context.span? id
    let number ← freshBranch
    let whileLabel := branchLabel "while" number
    let doLabel := branchLabel "do" number
    let endLabel := branchLabel "end" number
    let testCode ← emitValue context test
    let bodyCode ← emitStmts context false body
    recorded id
      (codeAt span [.label whileLabel] ++ testCode ++
        codeAt span [.name endLabel, .name doLabel, .cjmp, .label doLabel] ++
        bodyCode ++ codeAt span [.name whileLabel, .ujmp, .label endLabel])
  | .block id defs body => do
    let start ← emitLocals context defs
    let bodyCode ← emitStmts context tail body
    emitFunctions context defs
    recorded id (start ++ bodyCode)

/-- Code for statements; `tail` concerns the last of them. -/
def emitStmts (context : Context) (tail : Bool) : List Stmt → Emit Code
  | [] => pure []
  | stmt :: rest => do
    let code ← emitStmt context (tail && rest.isEmpty) stmt
    let later ← emitStmts context tail rest
    return code ++ later

/-- Emit the functions among definitions. -/
def emitFunctions (context : Context) : List Def → Emit Unit
  | [] => pure ()
  | .fn function :: rest => do
    emitFunction context function
    emitFunctions context rest
  | .var _ :: rest => emitFunctions context rest

/-- Emit a function: its label, room for its variables, its body and the
return. Nothing is emitted for a function without a body, or for a number that
has code already. -/
def emitFunction (context : Context) : FunDef → Emit Unit
  | ⟨id, _, _, body⟩ => do
    if body.isEmpty || (← get).code.contains id then return ()
    let frame ← context.frame id
    let span := context.span? id
    let bodyCode ← emitStmts (context.enter frame) true body
    let value : List Instr := if leavesValue body then [] else [.push 0]
    record id
      (codeAt span [.label frame.name, .push (-frame.localsSize), .popn] ++ bodyCode ++
        codeAt span (value ++ [.push (frame.parsSize - 4), .retn (some frame.name)]))

end

end ScopeStack.Emission
