import ScopeStack.Proofs.Emission.Visits

/-!
# What emission records

Emission records the code of every node that it meets. The relations here say what a table of
code holds for the nodes of a tree: for each its own code, which contains that of its parts. The
code of a function inside is not part of it, and a function without a body has no code.

In a program with distinct numbers no record is lost, because no later step touches the numbers
of an earlier one. So the records that emission makes are all there in the end:
`functionsRecorded_of_ofProgram`. What is known about the code of nodes follows from these
relations, without going through emission again.
-/

namespace ScopeStack.Emission

open Stateful

/-- Code has a consecutive part with a property. -/
def Contains (code : Code) (property : Code → Prop) : Prop :=
  ∃ part, part <:+: code ∧ property part

section Recorded

variable (context : Context) (table : Table Code)

/-- The address of a use of a variable has been recorded. -/
def VariableRecorded (id : NodeId) (code : Code) : Prop :=
  table[id]? = some code ∧ code.items = variableInstrs context id

mutual

/-- An expression and its parts have been recorded, with given code for its value. -/
def ValueRecorded : Expr → Code → Prop
  | .atom id _, code => table[id]? = some code
  | .var id _, code => table[id]? = some code ∧ code.items = variableInstrs context id ++ [.load]
  | .call id _ args, code =>
    table[id]? = some code ∧ (∃ pushed, code.items = pushed ++ calleeInstrs context id) ∧
      Contains code (ArgsRecorded args)
  | .unary id .addressOf (.var use _), code =>
    table[id]? = some code ∧ VariableRecorded context table use code
  | .unary id _ operand, code => table[id]? = some code ∧ Contains code (ValueRecorded operand)
  | .binary id _ first second, code =>
    table[id]? = some code ∧ Contains code (ValueRecorded first) ∧
      Contains code (ValueRecorded second)

/-- Arguments and their parts have been recorded. -/
def ArgsRecorded : List Expr → Code → Prop
  | [], _ => True
  | arg :: rest, code => Contains code (ValueRecorded arg) ∧ Contains code (ArgsRecorded rest)

end

/-- A place and its parts have been recorded, with given code for its address. -/
def PlaceRecorded : Expr → Code → Prop
  | .var id _, code => VariableRecorded context table id code
  | .unary id .valueAt pointer, code =>
    table[id]? = some code ∧ ValueRecorded context table pointer code
  | _, _ => False

/-- The variables of a block have been recorded. -/
def LocalsRecorded (defs : List Def) (code : Code) : Prop :=
  ∀ declared ∈ variablesIn defs, Contains code fun own => table[declared.id]? = some own

end Recorded

mutual

/-- A statement and what it consists of have been recorded, with given code. -/
def StmtRecorded (context : Context) (table : Table Code) : Stmt → Code → Prop
  | .expr id value, code =>
    table[id]? = some code ∧ Contains code (ValueRecorded context table value)
  | .assign id target source, code =>
    table[id]? = some code ∧ Contains code (PlaceRecorded context table target) ∧
      Contains code (ValueRecorded context table source)
  | .cond id test yes no, code =>
    table[id]? = some code ∧ Contains code (ValueRecorded context table test) ∧
      Contains code (StmtsRecorded context table yes) ∧
      Contains code (StmtsRecorded context table no)
  | .loop id test body, code =>
    table[id]? = some code ∧ Contains code (ValueRecorded context table test) ∧
      Contains code (StmtsRecorded context table body)
  | .block id defs body, code =>
    table[id]? = some code ∧ Contains code (LocalsRecorded table defs) ∧
      Contains code (StmtsRecorded context table body) ∧ FunctionsRecorded context table defs

/-- Statements and what they consist of have been recorded. -/
def StmtsRecorded (context : Context) (table : Table Code) : List Stmt → Code → Prop
  | [], _ => True
  | stmt :: rest, code =>
    Contains code (StmtRecorded context table stmt) ∧
      Contains code (StmtsRecorded context table rest)

/-- The functions among definitions have been recorded. -/
def FunctionsRecorded (context : Context) (table : Table Code) : List Def → Prop
  | [] => True
  | .fn function :: rest =>
    FunctionRecorded context table function ∧ FunctionsRecorded context table rest
  | .var _ :: rest => FunctionsRecorded context table rest

/-- A function has been recorded with its body, if it has one. -/
def FunctionRecorded (context : Context) (table : Table Code) : FunDef → Prop
  | ⟨id, _, _, body⟩ =>
    (body.isEmpty = true → table[id]? = none) ∧
      (body.isEmpty = false → ∃ own, table[id]? = some own ∧
        Contains own (StmtsRecorded (context.enter (context.layout.frameOf id)) table body))

end

/-- What is recorded for a unary operator: the code of its operand, or that of a variable whose
address it takes. -/
theorem valueRecorded_unary {context : Context} {table : Table Code} {id : NodeId} {op : UnaryOp}
    {operand : Expr} {code : Code}
    (recorded : ValueRecorded context table (.unary id op operand) code) :
    table[id]? = some code ∧ (Contains code (ValueRecorded context table operand) ∨
      ∃ use name, operand = .var use name ∧ VariableRecorded context table use code) := by
  cases op with
  | addressOf =>
    cases operand with
    | var use name => exact ⟨recorded.1, .inr ⟨use, name, rfl, recorded.2⟩⟩
    | _ => exact ⟨recorded.1, .inl recorded.2⟩
  | _ => exact ⟨recorded.1, .inl recorded.2⟩

section Steps

variable {final middle after : Progress} {code value : Code} {ids more : List NodeId} {id : NodeId}
  {property : Code → Prop}

/-- Code contains itself. -/
theorem Contains.self (has : property code) : Contains code property := ⟨code, List.infix_rfl, has⟩

/-- Instructions may follow. -/
theorem Contains.followed (contains : Contains code property) (extra : Code) :
    Contains (code ++ extra) property := by
  obtain ⟨part, within, has⟩ := contains
  exact ⟨part, within.trans (List.prefix_append _ _).isInfix, has⟩

/-- Instructions may precede. -/
theorem Contains.preceded (contains : Contains code property) (extra : Code) :
    Contains (extra ++ code) property := by
  obtain ⟨part, within, has⟩ := contains
  exact ⟨part, within.trans (List.suffix_append _ _).isInfix, has⟩

/-- Two tables that agree on nodes agree on fewer of them. -/
theorem AgreeOn.mono (agree : AgreeOn ids final after) (within : ∀ id ∈ more, id ∈ ids) :
    AgreeOn more final after := fun id inside => agree id (within id inside)

/-- What a computation does not touch has not changed since before it. -/
theorem AgreeOn.earlier {output : Output} (agree : AgreeOn ids final after)
    (emitted : Emitted output middle after code) (distinct : (ids ++ output.touched).Nodup) :
    AgreeOn ids final middle := by
  intro id inside
  have kept := emitted.untouched id fun touched =>
    (List.nodup_append.mp distinct).2.2 id inside id touched rfl
  exact ⟨(agree id inside).1.trans kept.1, (agree id inside).2.trans kept.2⟩

/-- Entering code for a number leaves the other records as they are, and the code is there in
the end. -/
theorem AgreeOn.recorded {result : Code × Progress} (agree : AgreeOn (id :: ids) final result.2)
    (ran : (Emission.recorded id code).run middle = .ok result) (distinct : (id :: ids).Nodup) :
    result.1 = code ∧ final.code[id]? = some code ∧ AgreeOn ids final middle := by
  simp only [Emission.recorded, run_bind_eq_ok, run_pure_eq_ok] at ran
  obtain ⟨⟨⟩, entered, recorded, rfl⟩ := ran
  obtain ⟨emitted, own⟩ := emitted_record recorded
  refine ⟨rfl, (agree id List.mem_cons_self).1.trans own, ?_⟩
  exact AgreeOn.earlier (agree.mono fun _ => List.mem_cons_of_mem _) emitted
    ((List.perm_append_singleton _ _).nodup_iff.mpr distinct)

end Steps

section Expressions

variable {context : Context} {final : Progress}

/-- The code emitted for a variable. -/
theorem items_emitVariable {id : NodeId} {before : Progress} {result : Code × Progress}
    (ran : (emitVariable context id).run before = .ok result) :
    result.1.items = variableInstrs context id :=
  (emitted_emitVariable ran).shape ⟨fun _ => 0, fun _ => 0⟩ ⟨numbered_nil _ _, numbered_nil _ _⟩

/-- A use of a variable is recorded with the code for its address. -/
theorem variableRecorded_emitVariable {id : NodeId} {before : Progress} {result : Code × Progress}
    (ran : (emitVariable context id).run before = .ok result)
    (agree : AgreeOn [id] final result.2) :
    VariableRecorded context final.code id result.1 := by
  obtain ⟨access, -, entered⟩ := emitVariable_eq_ok ran
  obtain ⟨same, own, -⟩ := agree.recorded entered (List.pairwise_singleton _ id)
  exact ⟨same ▸ own, items_emitVariable ran⟩

mutual

/-- An expression is recorded with all its parts. -/
theorem valueRecorded_emitValue {before : Progress} {result : Code × Progress} : (expr : Expr) →
    (emitValue context expr).run before = .ok result → expr.ids.Nodup →
    AgreeOn expr.ids final result.2 → ValueRecorded context final.code expr result.1
  | .atom id atom, ran, distinct, agree => by
    simp only [emitValue, run_bind_eq_ok] at ran
    obtain ⟨code, middle, -, entered⟩ := ran
    obtain ⟨same, own, -⟩ := agree.recorded entered distinct
    exact same ▸ own
  | .var id name, ran, distinct, agree => by
    simp only [emitValue, run_bind_eq_ok] at ran
    obtain ⟨place, middle, emitted, entered⟩ := ran
    obtain ⟨same, own, -⟩ := agree.recorded entered distinct
    rw [same]
    refine ⟨own, ?_⟩
    rw [Code.items_append, Code.items_codeAt]
    exact congrArg (· ++ [.load]) (items_emitVariable emitted)
  | .call id name args, ran, distinct, agree => by
    obtain ⟨pushed, middle, frame, emitted, found, entered⟩ := emitValue_call_eq_ok ran
    obtain ⟨same, own, agreeArgs⟩ := agree.recorded entered distinct
    have inside := Contains.self (argsRecorded_emitArgs args emitted
      (List.nodup_cons.mp distinct).2 agreeArgs)
    rw [same]
    refine ⟨own, ⟨pushed.items, ?_⟩, inside.followed _⟩
    rw [Code.items_append, Code.items_codeAt, calleeInstrs, found]
  | .unary id op operand, ran, distinct, agree => by
    rcases emitValue_unary_eq_ok ran with ⟨plain, extra, code, middle, emitted, entered, -⟩ |
      ⟨rfl, use, name, code, middle, rfl, emitted, entered⟩
    · obtain ⟨same, own, agreeOperand⟩ := agree.recorded entered distinct
      have inside := (Contains.self (valueRecorded_emitValue operand emitted
        (List.nodup_cons.mp distinct).2 agreeOperand)).followed
          (codeAt (context.span? id) extra)
      rw [same]
      cases op with
      | addressOf => exact absurd rfl plain
      | plus | not | minus | valueAt => exact ⟨own, inside⟩
    · obtain ⟨same, own, agreeUse⟩ := agree.recorded entered distinct
      rw [same]
      exact ⟨own, variableRecorded_emitVariable emitted agreeUse⟩
  | .binary id op first second, ran, distinct, agree => by
    simp only [emitValue, run_bind_eq_ok] at ran
    obtain ⟨left, middle, emittedLeft, right, later, emittedRight, entered⟩ := ran
    obtain ⟨-, distinctParts⟩ := List.nodup_cons.mp distinct
    obtain ⟨distinctFirst, distinctSecond, -⟩ := List.nodup_append.mp distinctParts
    obtain ⟨same, own, agreeParts⟩ := agree.recorded entered distinct
    have agreeFirst := (agreeParts.mono fun _ => List.mem_append_left _).earlier
      (emitted_emitValue second emittedRight) distinctParts
    have leftRecorded := valueRecorded_emitValue first emittedLeft distinctFirst agreeFirst
    have rightRecorded := valueRecorded_emitValue second emittedRight distinctSecond
      (agreeParts.mono fun _ => List.mem_append_right _)
    rw [same]
    exact ⟨own, ((Contains.self leftRecorded).followed _).followed _,
      ((Contains.self rightRecorded).preceded _).followed _⟩

/-- Arguments are recorded with all their parts. -/
theorem argsRecorded_emitArgs {before : Progress} {result : Code × Progress} :
    (args : List Expr) → (emitArgs context args).run before = .ok result → (idsOfExprs args).Nodup →
    AgreeOn (idsOfExprs args) final result.2 → ArgsRecorded context final.code args result.1
  | [], _, _, _ => trivial
  | arg :: rest, ran, distinct, agree => by
    simp only [emitArgs, run_bind_eq_ok, run_pure_eq_ok] at ran
    obtain ⟨later, middle, emittedRest, code, after, emittedArg, rfl⟩ := ran
    obtain ⟨distinctArg, distinctRest, -⟩ := List.nodup_append.mp distinct
    have argPart := emitted_emitValue arg emittedArg
    have agreeRest := AgreeOn.earlier (agree.mono fun _ => List.mem_append_right _) argPart
      (List.perm_append_comm.nodup_iff.mp distinct)
    exact ⟨(Contains.self (valueRecorded_emitValue arg emittedArg distinctArg
        (agree.mono fun _ => List.mem_append_left _))).preceded _,
      (Contains.self (argsRecorded_emitArgs rest emittedRest distinctRest agreeRest)).followed _⟩

end

/-- A place is recorded with all its parts. -/
theorem placeRecorded_emitPlace {expr : Expr} {before : Progress} {result : Code × Progress}
    (ran : (emitPlace context expr).run before = .ok result) (distinct : expr.ids.Nodup)
    (agree : AgreeOn expr.ids final result.2) :
    PlaceRecorded context final.code expr result.1 := by
  rw [emitPlace.eq_def] at ran
  split at ran
  next id name => exact variableRecorded_emitVariable ran agree
  next id pointer =>
    split at ran
    · obtain ⟨_, _, thrown, -⟩ := run_bind_eq_ok.mp ran
      exact (run_throw_eq_ok.mp thrown).elim
    obtain ⟨code, middle, emitted, entered⟩ := run_bind_eq_ok.mp ran
    obtain ⟨same, own, agreePointer⟩ := agree.recorded entered distinct
    rw [same]
    exact ⟨own, valueRecorded_emitValue pointer emitted (List.nodup_cons.mp distinct).2
      agreePointer⟩
  next => exact (run_throw_eq_ok.mp ran).elim

end Expressions

section Statements

variable {final : Progress}

/-- The variables of a block are recorded within the code that initializes them. -/
theorem localsRecorded_emitLocals {context : Context} {before : Progress}
    {result : Code × Progress} :
    (defs : List Def) → (emitLocals context defs).run before = .ok result →
    ((variablesIn defs).map VarDef.id).Nodup →
    AgreeOn ((variablesIn defs).map VarDef.id) final result.2 →
    LocalsRecorded final.code defs result.1
  | [], _, _, _ => List.forall_mem_nil _
  | .fn _ :: rest, ran, distinct, agree => by
    rw [emitLocals] at ran
    exact localsRecorded_emitLocals rest ran distinct agree
  | .var declared :: rest, ran, distinct, agree => by
    simp only [emitLocals, run_bind_eq_ok, run_pure_eq_ok] at ran
    obtain ⟨code, middle, first, later, after, second, rfl⟩ := ran
    change ([declared.id] ++ (variablesIn rest).map VarDef.id).Nodup at distinct
    change AgreeOn ([declared.id] ++ (variablesIn rest).map VarDef.id) final after at agree
    have restPart := emitted_emitLocals rest second
    have agreeOwn := (agree.mono fun _ => List.mem_append_left _).earlier restPart distinct
    have restRecorded := localsRecorded_emitLocals rest second (List.nodup_append.mp distinct).2.1
      (agree.mono fun _ => List.mem_append_right _)
    simp only [emitLocal, run_bind_eq_ok] at first
    obtain ⟨place, _, -, first⟩ := first
    cases place with
    | abs access => exact (run_throw_eq_ok.mp first).elim
    | rel access =>
      simp only [run_bind_eq_ok] at first
      obtain ⟨label, _, -, ⟨⟩, _, -, entered⟩ := first
      obtain ⟨same, own, -⟩ := AgreeOn.recorded agreeOwn entered (List.pairwise_singleton _ _)
      refine List.forall_mem_cons.mpr ⟨(Contains.self (own.trans ?_)).followed later, ?_⟩
      · exact congrArg some same.symm
      exact fun other inside => (restRecorded other inside).preceded code

mutual

/-- A statement is recorded with all that it consists of. -/
theorem stmtRecorded_emitStmt {context : Context} {tail : Bool} {before : Progress}
    {result : Code × Progress} : (stmt : Stmt) →
    (emitStmt context tail stmt).run before = .ok result → stmt.ids.Nodup →
    Fresh stmt.ids before → AgreeOn stmt.ids final result.2 →
    StmtRecorded context final.code stmt result.1
  | .expr id value, ran, distinct, _, agree => by
    simp only [emitStmt, run_bind_eq_ok] at ran
    obtain ⟨code, middle, emitted, finished⟩ := ran
    obtain ⟨rest, entered⟩ : ∃ rest, (recorded id (code ++ rest)).run middle = .ok result := by
      cases tail with
      | true => exact ⟨[], by simpa using finished⟩
      | false => exact ⟨_, finished⟩
    obtain ⟨same, own, agreeValue⟩ := agree.recorded entered distinct
    rw [same]
    exact ⟨own, (Contains.self (valueRecorded_emitValue value emitted
      (List.nodup_cons.mp distinct).2 agreeValue)).followed rest⟩
  | .assign id target source, ran, distinct, _, agree => by
    simp only [emitStmt, run_bind_eq_ok] at ran
    obtain ⟨value, middle, emittedValue, place, later, emittedPlace, entered⟩ := ran
    obtain ⟨-, distinctParts⟩ := List.nodup_cons.mp distinct
    obtain ⟨distinctTarget, distinctSource, -⟩ := List.nodup_append.mp distinctParts
    obtain ⟨same, own, agreeParts⟩ := agree.recorded entered distinct
    have agreeSource := (agreeParts.mono fun _ => List.mem_append_right _).earlier
      (emitted_emitPlace emittedPlace) (List.perm_append_comm.nodup_iff.mp distinctParts)
    have sourceRecorded := valueRecorded_emitValue source emittedValue distinctSource agreeSource
    have targetRecorded := placeRecorded_emitPlace emittedPlace distinctTarget
      (agreeParts.mono fun _ => List.mem_append_left _)
    rw [same]
    exact ⟨own, ((Contains.self targetRecorded).preceded _).followed _,
      ((Contains.self sourceRecorded).followed _).followed _⟩
  | .cond id test yes no, ran, distinct, fresh, agree => by
    simp only [emitStmt, run_bind_eq_ok] at ran
    obtain ⟨number, numbered, taken, testCode, tested, emittedTest, yesCode, middle, emittedYes,
      noCode, later, emittedNo, entered⟩ := ran
    obtain ⟨-, distinctParts⟩ := List.nodup_cons.mp distinct
    obtain ⟨distinctTest, distinctBranches, -⟩ := List.nodup_append.mp distinctParts
    obtain ⟨distinctYes, distinctNo, -⟩ := List.nodup_append.mp distinctBranches
    have testPart := (emitted_freshBranch id taken).2.trans (emitted_emitValue test emittedTest)
    have freshBranches := (fresh.mono fun _ => List.mem_cons_of_mem _).rest distinctParts testPart
      fun _ touched => touched
    have freshYes := freshBranches.mono fun _ => List.mem_append_left _
    have yesPart := emitted_emitStmts yes emittedYes distinctYes freshYes
    have freshNo := freshBranches.rest distinctBranches yesPart fun _ touched => touched
    have noPart := emitted_emitStmts no emittedNo distinctNo freshNo
    obtain ⟨same, own, agreeParts⟩ := agree.recorded entered distinct
    have agreeBranches := agreeParts.mono fun _ => List.mem_append_right _
    have testRecorded := valueRecorded_emitValue test emittedTest distinctTest
      ((agreeParts.mono fun _ => List.mem_append_left _).earlier (yesPart.trans noPart)
        distinctParts)
    have yesRecorded := stmtsRecorded_emitStmts yes emittedYes distinctYes freshYes
      ((agreeBranches.mono fun _ => List.mem_append_left _).earlier noPart distinctBranches)
    have noRecorded := stmtsRecorded_emitStmts no emittedNo distinctNo freshNo
      (agreeBranches.mono fun _ => List.mem_append_right _)
    rw [same]
    exact ⟨own,
      (((((Contains.self testRecorded).followed _).followed _).followed _).followed _).followed _,
      ((((Contains.self yesRecorded).preceded _).followed _).followed _).followed _,
      ((Contains.self noRecorded).preceded _).followed _⟩
  | .loop id test body, ran, distinct, fresh, agree => by
    simp only [emitStmt, run_bind_eq_ok] at ran
    obtain ⟨number, numbered, taken, testCode, tested, emittedTest, bodyCode, later, emittedBody,
      entered⟩ := ran
    obtain ⟨-, distinctParts⟩ := List.nodup_cons.mp distinct
    obtain ⟨distinctTest, distinctBody, -⟩ := List.nodup_append.mp distinctParts
    have testPart := (emitted_freshBranch id taken).2.trans (emitted_emitValue test emittedTest)
    have freshBody := (fresh.mono fun _ => List.mem_cons_of_mem _).rest distinctParts testPart
      fun _ touched => touched
    obtain ⟨same, own, agreeParts⟩ := agree.recorded entered distinct
    have testRecorded := valueRecorded_emitValue test emittedTest distinctTest
      ((agreeParts.mono fun _ => List.mem_append_left _).earlier
        (emitted_emitStmts body emittedBody distinctBody freshBody) distinctParts)
    have bodyRecorded := stmtsRecorded_emitStmts body emittedBody distinctBody freshBody
      (agreeParts.mono fun _ => List.mem_append_right _)
    rw [same]
    exact ⟨own, ((((Contains.self testRecorded).preceded _).followed _).followed _).followed _,
      ((Contains.self bodyRecorded).preceded _).followed _⟩
  | .block id defs body, ran, distinct, fresh, agree => by
    simp only [emitStmt, run_bind_eq_ok] at ran
    obtain ⟨start, started, emittedLocals, bodyCode, middle, emittedBody, ⟨⟩, later,
      emittedFunctions, entered⟩ := ran
    obtain ⟨same, own, agreeParts⟩ := agree.recorded entered distinct
    -- The numbers of the definitions are touched in two parts, around the body.
    obtain ⟨freshOrder, order⟩ := fresh.blockIds distinct
    obtain ⟨distinctLocals, orderRest, -⟩ := List.nodup_append.mp order
    obtain ⟨distinctBody, distinctFunctions, -⟩ := List.nodup_append.mp orderRest
    have freshRest := freshOrder.rest order (emitted_emitLocals defs emittedLocals)
      fun _ touched => touched
    have freshBody := freshRest.mono fun _ => List.mem_append_left _
    have bodyPart := emitted_emitStmts body emittedBody distinctBody freshBody
    have freshFunctions := freshRest.rest orderRest bodyPart fun _ touched => touched
    have functionsPart :=
      emitted_emitFunctions defs emittedFunctions distinctFunctions freshFunctions
    have agreeOrder := agreeParts.mono fun _ => (perm_blockIds defs body).mem_iff.mp
    have agreeRest := agreeOrder.mono fun _ => List.mem_append_right _
    have locals := localsRecorded_emitLocals defs emittedLocals distinctLocals
      ((agreeOrder.mono fun _ => List.mem_append_left _).earlier (bodyPart.trans functionsPart)
        order)
    have statements := stmtsRecorded_emitStmts body emittedBody distinctBody freshBody
      ((agreeRest.mono fun _ => List.mem_append_left _).earlier functionsPart orderRest)
    rw [same]
    exact ⟨own, (Contains.self locals).followed _, (Contains.self statements).preceded _,
      functionsRecorded_emitFunctions defs emittedFunctions distinctFunctions freshFunctions
        (agreeRest.mono fun _ => List.mem_append_right _)⟩

/-- Statements are recorded with all that they consist of. -/
theorem stmtsRecorded_emitStmts {context : Context} {tail : Bool} {before : Progress}
    {result : Code × Progress} : (stmts : List Stmt) →
    (emitStmts context tail stmts).run before = .ok result → (idsOfStmts stmts).Nodup →
    Fresh (idsOfStmts stmts) before → AgreeOn (idsOfStmts stmts) final result.2 →
    StmtsRecorded context final.code stmts result.1
  | [], _, _, _, _ => trivial
  | stmt :: rest, ran, distinct, fresh, agree => by
    simp only [emitStmts, run_bind_eq_ok, run_pure_eq_ok] at ran
    obtain ⟨code, middle, emittedStmt, later, after, emittedRest, rfl⟩ := ran
    obtain ⟨distinctStmt, distinctRest, -⟩ := List.nodup_append.mp distinct
    have freshStmt := fresh.mono fun _ => List.mem_append_left _
    have freshRest := fresh.rest distinct
      (emitted_emitStmt stmt emittedStmt distinctStmt freshStmt) fun _ touched => touched
    have restPart := emitted_emitStmts rest emittedRest distinctRest freshRest
    have agreeStmt := AgreeOn.earlier (agree.mono fun _ => List.mem_append_left _) restPart distinct
    exact ⟨(Contains.self (stmtRecorded_emitStmt stmt emittedStmt distinctStmt freshStmt
        agreeStmt)).followed _,
      (Contains.self (stmtsRecorded_emitStmts rest emittedRest distinctRest freshRest
        (agree.mono fun _ => List.mem_append_right _))).preceded _⟩

/-- The functions among definitions are recorded with all that they consist of. -/
theorem functionsRecorded_emitFunctions {context : Context} {before : Progress}
    {result : Unit × Progress} :
    (defs : List Def) → (emitFunctions context defs).run before = .ok result →
    ((functionsIn defs).flatMap FunDef.ids).Nodup →
    Fresh ((functionsIn defs).flatMap FunDef.ids) before →
    AgreeOn ((functionsIn defs).flatMap FunDef.ids) final result.2 →
    FunctionsRecorded context final.code defs
  | [], _, _, _, _ => trivial
  | .fn function :: rest, ran, distinct, fresh, agree => by
    simp only [emitFunctions, run_bind_eq_ok] at ran
    obtain ⟨⟨⟩, middle, emittedFunction, emittedRest⟩ := ran
    change (function.ids ++ (functionsIn rest).flatMap FunDef.ids).Nodup at distinct
    change Fresh (function.ids ++ (functionsIn rest).flatMap FunDef.ids) before at fresh
    change AgreeOn (function.ids ++ (functionsIn rest).flatMap FunDef.ids) final _ at agree
    obtain ⟨distinctFunction, distinctRest, -⟩ := List.nodup_append.mp distinct
    have freshFunction := fresh.mono fun _ => List.mem_append_left _
    have freshRest := fresh.rest distinct
      (emitted_emitFunction function emittedFunction distinctFunction freshFunction)
      fun _ touched => touched
    have restPart := emitted_emitFunctions rest emittedRest distinctRest freshRest
    exact ⟨functionRecorded_emitFunction function emittedFunction distinctFunction freshFunction
        ((agree.mono fun _ => List.mem_append_left _).earlier restPart distinct),
      functionsRecorded_emitFunctions rest emittedRest distinctRest freshRest
        (agree.mono fun _ => List.mem_append_right _)⟩
  | .var _ :: rest, ran, distinct, fresh, agree => by
    rw [emitFunctions] at ran
    exact functionsRecorded_emitFunctions rest ran distinct fresh agree

/-- A function is recorded with all that it consists of. -/
theorem functionRecorded_emitFunction {context : Context} {before : Progress}
    {result : Unit × Progress} :
    (function : FunDef) → (emitFunction context function).run before = .ok result →
    function.ids.Nodup → Fresh function.ids before → AgreeOn function.ids final result.2 →
    FunctionRecorded context final.code function
  | ⟨id, name, params, body⟩, ran, distinct, fresh, agree => by
    have absent : before.code[id]? = none := fresh id (by simp [FunDef.ids])
    have own := (agree id (by simp [FunDef.ids])).1
    rcases emitFunction_eq_ok ran absent with
      ⟨rfl, rfl⟩ | ⟨nonempty, frame, bodyCode, middle, framed, emittedBody, entered⟩
    · exact ⟨fun _ => own.trans absent, nofun⟩
    · obtain ⟨recorded, ownCode⟩ := emitted_record entered
      obtain ⟨notInside, distinctInside⟩ := List.nodup_cons.mp distinct
      have distinctBody := (List.nodup_append.mp distinctInside).2.1
      have inBody : ∀ other ∈ idsOfStmts body,
          other ∈ id :: (params.map Param.id ++ idsOfStmts body) :=
        fun _ inside => List.mem_cons_of_mem _ (List.mem_append_right _ inside)
      have bodyRecorded := stmtsRecorded_emitStmts body emittedBody distinctBody
        (fresh.mono inBody)
        ((agree.mono inBody).earlier recorded ((List.perm_append_singleton _ _).nodup_iff.mpr
          (List.nodup_cons.mpr ⟨fun inside => notInside (List.mem_append_right _ inside),
            distinctBody⟩)))
      refine ⟨fun empty => absurd (List.isEmpty_iff.mp empty) nonempty,
        fun _ => ⟨_, own.trans ownCode, ?_⟩⟩
      rw [Layout.frameOf_eq framed]
      exact ((Contains.self bodyRecorded).preceded _).followed _

end

/-- The functions at the top level are recorded with all that they consist of. -/
theorem functionsRecorded_emitTop {context : Context} {before : Progress}
    {result : Unit × Progress} :
    (defs : List Def) → (emitTop context defs).run before = .ok result → (idsOfDefs defs).Nodup →
    Fresh (idsOfDefs defs) before → AgreeOn (idsOfDefs defs) final result.2 →
    FunctionsRecorded context final.code defs
  | [], _, _, _, _ => trivial
  | .fn function :: rest, ran, distinct, fresh, agree => by
    simp only [emitTop, run_bind_eq_ok] at ran
    obtain ⟨⟨⟩, middle, emittedFunction, emittedRest⟩ := ran
    obtain ⟨distinctFunction, distinctRest, -⟩ := List.nodup_append.mp distinct
    have freshFunction := fresh.mono fun _ => List.mem_append_left _
    have freshRest := fresh.rest distinct
      (emitted_emitFunction function emittedFunction distinctFunction freshFunction)
      fun _ touched => touched
    have restPart := emitted_emitTop rest emittedRest distinctRest freshRest
    exact ⟨functionRecorded_emitFunction function emittedFunction distinctFunction freshFunction
        ((agree.mono fun _ => List.mem_append_left _).earlier restPart distinct),
      functionsRecorded_emitTop rest emittedRest distinctRest freshRest
        (agree.mono fun _ => List.mem_append_right _)⟩
  | .var declared :: rest, ran, distinct, fresh, agree => by
    simp only [emitTop, run_bind_eq_ok] at ran
    obtain ⟨⟨⟩, middle, emittedGlobal, emittedRest⟩ := ran
    have freshOwn : Fresh ([declared.id] ++ idsOfDefs rest) before := fresh
    exact functionsRecorded_emitTop rest emittedRest (List.nodup_cons.mp distinct).2
      (freshOwn.rest distinct (emitted_emitGlobal emittedGlobal) fun _ touched => touched)
      (agree.mono fun _ => List.mem_cons_of_mem _)

end Statements

/-- An image holds the code of all functions of its program and of all that they consist of. -/
theorem functionsRecorded_of_ofProgram {program : Program} {layout : Layout} {image : Image}
    (distinct : program.Distinct) (assembled : Image.ofProgram program layout = .ok image) :
    FunctionsRecorded (.ofProgram program layout) image.nodeCode program.defs := by
  obtain ⟨progress, start, ran, -, -, -, nodeCode, -⟩ := ofProgram_eq_ok assembled
  rw [nodeCode]
  exact functionsRecorded_emitTop program.defs ran distinct (fun id _ => by simp [Progress.empty])
    (fun _ _ => ⟨rfl, rfl⟩)

end ScopeStack.Emission
