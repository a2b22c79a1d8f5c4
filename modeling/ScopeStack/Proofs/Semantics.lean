import ScopeStack.Machine.Stream
import ScopeStack.Proofs.Emission.ClosedForm
import ScopeStack.Proofs.Initializers
import ScopeStack.Proofs.Words
import ScopeStack.Service

/-!
# What programs mean

Programs without pointers and texts have a meaning that knows nothing of frames
and addresses. A variable is bound to a location of a store, a function is called
in the environment of its definition, and every entry into a block or a function
binds its variables to fresh locations. Values are machine words; operators are
those of the integers, and their results wrap at 32 bits. Operands are evaluated
from left to right and arguments from right to left. A block starts by giving its
variables the first words of their initializers. The value of a function is that
of its last statement, through blocks that come last, and zero if this is not an
expression.

Evaluation is bounded: calls nest and loops go round only as often as permitted.
It may also stop because the program exits, because of a fault, or because
something has no meaning here.
-/

namespace ScopeStack

/-- The value of an operator on integers, or nothing for a division by zero. Both
operands of a connective are looked at. -/
def BinaryOp.meaning (first second : Int) : BinaryOp → Option Int
  | .or => some (if first ≠ 0 ∨ second ≠ 0 then 1 else 0)
  | .and => some (if first ≠ 0 ∧ second ≠ 0 then 1 else 0)
  | .eq => some (if first = second then 1 else 0)
  | .ne => some (if first ≠ second then 1 else 0)
  | .gt => some (if second < first then 1 else 0)
  | .lt => some (if first < second then 1 else 0)
  | .ge => some (if second ≤ first then 1 else 0)
  | .le => some (if first ≤ second then 1 else 0)
  | .add => some (first + second)
  | .sub => some (first - second)
  | .mul => some (first * second)
  | .div => if second = 0 then none else some (first.tdiv second)
  | .mod => if second = 0 then none else some (first.tmod second)

/-- Truth values are the words one and zero. -/
theorem Word.ofInt_truth (truth : Prop) [Decidable truth] :
    ofInt (if truth then 1 else 0) = ofBool (decide truth) := by
  by_cases holds : truth
  · rw [if_pos holds, decide_eq_true holds]
    rfl
  · rw [if_neg holds, decide_eq_false holds]
    rfl

/-- The machine computes the meaning of operators. -/
theorem BinaryOp.eval?_eq_meaning (first second : Word) (op : BinaryOp) :
    op.eval? first second = (op.meaning first.toInt second.toInt).map Word.ofInt := by
  have zero (word : Word) : word.toInt = 0 ↔ word = 0 := Int32.toInt_inj (y := 0)
  cases op with
  | or | and =>
    simp only [eval?, meaning, Option.map_some, Word.ofInt_truth, ne_eq, zero, Bool.decide_or,
      Bool.decide_and, decide_not]
    rfl
  | eq | ne =>
    simp only [eval?, meaning, Option.map_some, Word.ofInt_truth, ne_eq, Int32.toInt_inj, decide_not]
    rfl
  | gt | lt =>
    simp only [eval?, meaning, Option.map_some, Word.ofInt_truth, Int32.lt_iff_toInt_lt]
  | ge | le =>
    simp only [eval?, meaning, Option.map_some, Word.ofInt_truth, Int32.le_iff_toInt_le]
  | add => simp [eval?, meaning, Int32.ofInt_add]
  | sub => simp [eval?, meaning, Int32.ofInt_sub]
  | mul => simp [eval?, meaning, Int32.ofInt_mul]
  | div =>
    simp only [eval?, meaning, zero]
    split
    · rfl
    · rw [Option.map_some, Option.some_inj, ← Int32.toInt_inj, Int32.toInt_div, Int32.toInt_ofInt]
  | mod =>
    simp only [eval?, meaning, zero]
    split
    · rfl
    · rw [Option.map_some, Word.ofInt, ← Int32.toInt_mod, Int32.ofInt_toInt]

/-- Why an evaluation ends without a value. -/
inductive Stop where
  /-- The program exits. -/
  | exit (code : Int)
  | fault (fault : Fault)
  /-- Calls nest too deeply, or a loop goes round too often. -/
  | exhausted
  /-- The program uses something that has no meaning. -/
  | stuck
deriving DecidableEq, Repr

/-- What evaluation changes: the words at all locations, and the streams. -/
structure World where
  store : List Word
  input : List UInt8
  output : Output
deriving DecidableEq, Repr

/-- An evaluation. -/
abbrev Eval := EStateM Stop World

/-- The locations of variables. -/
abbrev Bindings := List (NodeId × Nat)

/-- The definitions around a point of a program, with the locations of their
variables. -/
inductive Env where
  /-- The top level. -/
  | top (defs : List Def) (globals : Bindings)
  /-- The body of a function. -/
  | enter (function : FunDef) (params : Bindings) (outer : Env)
  /-- A block. -/
  | block (defs : List Def) (locals : Bindings) (outer : Env)

namespace Env

/-- The location of a variable. -/
def location? (id : NodeId) : Env → Option Nat
  | .top _ globals => globals.lookup id
  | .enter _ params outer => (params.lookup id).or (outer.location? id)
  | .block _ locals outer => (locals.lookup id).or (outer.location? id)

/-- A function and the environment in which it is defined. -/
def function? (id : NodeId) : Env → Option (FunDef × Env)
  | .top defs globals =>
    ((functionsIn defs).find? fun function => function.id == id).map (·, .top defs globals)
  | .enter _ _ outer => outer.function? id
  | .block defs locals outer =>
    match (functionsIn defs).find? fun function => function.id == id with
    | some function => some (function, .block defs locals outer)
    | none => outer.function? id

end Env

namespace Eval

/-- Take a fresh location. -/
def allocate (value : Word) : Eval Nat :=
  modifyGet fun world => (world.store.length, { world with store := world.store ++ [value] })

/-- Bind variables to fresh locations. -/
def bindAll : List NodeId → List Word → Eval Bindings
  | id :: ids, value :: values => do
    let location ← allocate value
    let later ← bindAll ids values
    return (id, location) :: later
  | _, _ => return []

/-- The location of the variable that a use refers to. -/
def locate (program : Program) (env : Env) (id : NodeId) : Eval Nat :=
  match (program.definition? id).bind env.location? with
  | some location => return location
  | none => throw .stuck

/-- The word at a location. -/
def fetch (location : Nat) : Eval Word := do
  match (← get).store[location]? with
  | some value => return value
  | none => throw .stuck

/-- Change the word at a location. -/
def assign (location : Nat) (value : Word) : Eval Unit :=
  modify fun world => { world with store := world.store.set location value }

/-- What the services do that have a meaning here: exit, read a number, write a
number. -/
def serve (function : FunDef) (args : List Word) : Eval Word := do
  match Service.ofName? function.name, args with
  | some .exit, [code] => throw (.exit code.toInt)
  | some .getint, [] =>
    let (result, rest) := Input.readInt (← get).input
    modify fun world => { world with input := rest }
    match result with
    | .ok value => return Word.ofInt value
    | .error fault => throw (.fault fault)
  | some .putint, [value] =>
    let bytes := Utf8.encode (Decimal.render value.toInt)
    let fits := (← get).output.fits bytes
    modify fun world => { world with output := world.output.write bytes }
    if fits then return 1 else throw (.fault .outputFull)
  | _, _ => throw .stuck

/-- Go round until a round says that it was the last, at most a number of
times. -/
def iterate : Nat → Eval Bool → Eval Unit
  | 0, _ => throw .exhausted
  | rounds + 1, round => do
    if ← round then iterate rounds round

section Tree

variable (program : Program) (call : FunDef → Env → List Word → Eval Word)

mutual

/-- The value of an expression. -/
def value (env : Env) : Expr → Eval Word
  | .atom _ atom => if atom.kind = .str then throw .stuck else return Word.ofInt atom.number
  | .var id _ => do fetch (← locate program env id)
  | .call id _ args => do
    let words ← values env args
    match (program.definition? id).bind env.function? with
    | some (function, home) => call function home words
    | none => throw .stuck
  | .unary _ .plus operand => value env operand
  | .unary _ .not operand => do
    let word ← value env operand
    return if word = 0 then 1 else 0
  | .unary _ .minus operand => do
    let word ← value env operand
    return Word.ofInt (-word.toInt)
  | .unary _ .addressOf _ => throw .stuck
  | .unary _ .valueAt _ => throw .stuck
  | .binary _ op first second => do
    let left ← value env first
    let right ← value env second
    match op.meaning left.toInt right.toInt with
    | some number => return Word.ofInt number
    | none => throw (.fault .divisionByZero)

/-- The values of arguments, the last one first. -/
def values (env : Env) : List Expr → Eval (List Word)
  | [] => return []
  | arg :: rest => do
    let later ← values env rest
    let first ← value env arg
    return first :: later

end

mutual

/-- Carry out a statement; the value of an expression is passed on. -/
def execute (rounds : Nat) (env : Env) : Stmt → Eval (Option Word)
  | .expr _ expr => do
    let word ← value program call env expr
    return some word
  | .assign _ target source => do
    let word ← value program call env source
    match target with
    | .var id _ =>
      assign (← locate program env id) word
      return none
    | _ => throw .stuck
  | .cond _ test yes no => do
    let truth ← value program call env test
    let _ ← if truth = 0 then executeAll rounds env no else executeAll rounds env yes
    return none
  | .loop _ test body => do
    iterate rounds do
      let truth ← value program call env test
      if truth = 0 then return false
      let _ ← executeAll rounds env body
      return true
    return none
  | .block _ defs body => do
    let locals ← bindAll ((variablesIn defs).map VarDef.id)
      ((variablesIn defs).map VarDef.firstWord)
    executeAll rounds (.block defs locals env) body

/-- Carry out statements; the value of the last one is passed on. -/
def executeAll (rounds : Nat) (env : Env) : List Stmt → Eval (Option Word)
  | [] => return none
  | stmt :: rest => do
    let result ← execute rounds env stmt
    if rest.isEmpty then return result else executeAll rounds env rest

end

end Tree

/-- Call a function. At most a number of calls may be nested, and inside it
loops may go round as often. -/
def invoke (program : Program) : Nat → FunDef → Env → List Word → Eval Word
  | 0, _, _, _ => throw .exhausted
  | depth + 1, function, home, args =>
    if function.isExternal then serve function args
    else do
      let params ← bindAll (function.params.map Param.id) args
      let result ← executeAll program (invoke program depth) depth (.enter function params home)
        function.body
      return result.getD 0

end Eval

namespace Program

/-- Give the global variables their first words, call the entry point and exit
with code zero. -/
def perform (program : Program) (fuel : Nat) : Eval Unit := do
  match program.entry? with
  | none => throw .stuck
  | some main =>
    let globals ← Eval.bindAll ((variablesIn program.defs).map VarDef.id)
      ((variablesIn program.defs).map VarDef.firstWord)
    let _ ← Eval.invoke program fuel main (.top program.defs globals) []
    throw (.exit 0)

/-- How a program ends on an input. -/
def evaluate (program : Program) (fuel : Nat) (input : List UInt8) (outputLimit : Option Nat) :
    EStateM.Result Stop World Unit :=
  (program.perform fuel).run ⟨[], input, .empty outputLimit⟩

end Program

end ScopeStack
