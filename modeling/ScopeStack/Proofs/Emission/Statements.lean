import ScopeStack.Proofs.Emission.Expressions

/-!
# The output of statements, functions and programs

A statement emits the closed form of its code, and with it the functions and
data inside. Emission skips a function whose number has code already; where
numbers are distinct this does not happen, because nothing emitted before has
touched the function's number.
-/

namespace ScopeStack.Emission

open Stateful

namespace Output

/-- The output of the variables of a block. -/
def ofLocals (context : Context) (defs : List Def) : Output :=
  ⟨(variablesIn defs).map VarDef.id, localsData context.layout defs, [], fun _ => [],
    fun naming => localsInstrs context naming defs⟩

/-- The output of a statement. -/
def ofStmt (context : Context) (tail : Bool) (stmt : Stmt) : Output :=
  ⟨stmt.ids, stmtData context.layout stmt, stmtBranches stmt,
    fun naming => stmtBlocks context naming stmt, fun naming => stmtInstrs context naming tail stmt⟩

/-- The output of statements. -/
def ofStmts (context : Context) (tail : Bool) (stmts : List Stmt) : Output :=
  ⟨idsOfStmts stmts, stmtsData context.layout stmts, stmtsBranches stmts,
    fun naming => stmtsBlocks context naming stmts,
    fun naming => stmtsInstrs context naming tail stmts⟩

/-- The output of a function. -/
def ofFunction (context : Context) (function : FunDef) : Output :=
  ⟨function.ids, functionData context.layout function, functionBranches function,
    fun naming => functionBlocks context naming function, fun _ => []⟩

/-- The output of the functions of a block. -/
def ofFunctions (context : Context) (defs : List Def) : Output :=
  ⟨(functionsIn defs).flatMap FunDef.ids, defsData context.layout defs, defsBranches defs,
    fun naming => defsBlocks context naming defs, fun _ => []⟩

end Output

open Emission.Output

/-- The variables of a block emit their initial words and the code that expands
them. -/
theorem emitted_emitLocals {context : Context} {before : Progress} {result : Code × Progress} :
    (defs : List Def) → (emitLocals context defs).run before = .ok result →
    Emitted (.ofLocals context defs) before result.2 result.1
  | [], ran => by
    simp only [emitLocals, run_pure_eq_ok] at ran
    subst ran
    exact .nothing before
  | .fn _ :: rest, ran => by
    rw [emitLocals] at ran
    exact emitted_emitLocals rest ran
  | .var declared :: rest, ran => by
    simp only [emitLocals, run_bind_eq_ok, run_pure_eq_ok] at ran
    obtain ⟨code, middle, first, later, after, second, rfl⟩ := ran
    have emittedRest := emitted_emitLocals rest second
    simp only [emitLocal, run_bind_eq_ok, run_lift_eq_ok, Context.access_eq_ok] at first
    obtain ⟨place, _, ⟨_, placed, unchanged⟩, first⟩ := first
    cases unchanged
    cases place with
    | abs access => exact (run_throw_eq_ok.mp first).elim
    | rel access =>
      simp only [run_bind_eq_ok] at first
      obtain ⟨label, taken, fresh, ⟨⟩, added, entered, done⟩ := first
      obtain ⟨emitted, label_eq⟩ := emitted_addData
        ⟨declared.id, none, access.inits.getD []⟩ fresh entered (by
          intro naming named
          simp only [map_item_dataAt, DataBlock.items, List.nil_append]
          rw [named])
      have own := (emitted.append (context.span? declared.id)
        [.regn .fp, .push access.offset, .binary .add, .name label, .init]).recordedAgain
          (by simp [Output.ofData]) (fun _ => rfl) done
      refine (own.trans emittedRest).recast ?_ ?_ rfl ?_ ?_
      · simp [Output.ofData, Output.ofInstrs, Output.ofLocals, variablesIn]
      · simp [Output.ofData, Output.ofInstrs, Output.ofLocals, localsData, placed, Access.inits?]
      · simp [Output.ofLocals]
      · intro naming continues
        have numbered := numbered_append.mp (show Numbered _ _ ([declared.id] ++ _) from continues.1)
        have named := label_eq naming (numbered_singleton.mp numbered.1)
        simp only [instrs_append, Output.ofData, Output.ofInstrs, Output.ofLocals, localsInstrs,
          localInstrs, placed]
        rw [named]
        rfl

/-- Numbers that a computation does not touch stay without code. -/
theorem Fresh.after {ids : List NodeId} {output : Output} {before after : Progress} {code : Code}
    (fresh : Fresh ids before) (emitted : Emitted output before after code)
    (apart : ∀ id ∈ ids, id ∉ output.touched) : Fresh ids after := by
  intro id inside
  rw [(emitted.untouched id (apart id inside)).1]
  exact fresh id inside

/-- Fewer nodes are fresh if all of them are. -/
theorem Fresh.mono {ids fewer : List NodeId} {progress : Progress} (fresh : Fresh ids progress)
    (within : ∀ id ∈ fewer, id ∈ ids) : Fresh fewer progress :=
  fun id inside => fresh id (within id inside)

/-- A computation that stays within the first of two lists of numbers leaves the
second without code. -/
theorem Fresh.rest {own rest : List NodeId} {output : Output} {before after : Progress}
    {code : Code} (fresh : Fresh (own ++ rest) before) (distinct : (own ++ rest).Nodup)
    (emitted : Emitted output before after code) (touched : ∀ id ∈ output.touched, id ∈ own) :
    Fresh rest after :=
  (fresh.mono fun _ inside => List.mem_append_right _ inside).after emitted
    fun id inRest inOutput =>
      (List.nodup_append.mp distinct).2.2 id (touched id inOutput) id inRest rfl

/-- The code of a function or a global variable is entered after what it
contains has been emitted. -/
theorem Emitted.enterCode {output : Output} {id : NodeId} {code own : Code}
    {before middle after : Progress} (emitted : Emitted output before middle code)
    (ran : (record id own).run middle = .ok ((), after)) (touched : List NodeId)
    (instrs : Naming → List Instr)
    (shape : ∀ naming : Naming, naming.Continues before output → own.items = instrs naming)
    (within : ∀ other ∈ id :: output.touched, other ∈ touched)
    (distinct : touched.Nodup → output.touched.Nodup)
    (apart : touched.Nodup → id ∉ output.touched ∨ ∀ naming, output.blocks naming = []) :
    Emitted
      ⟨touched, output.data, output.branches,
        fun naming => ⟨id, instrs naming⟩ :: output.blocks naming, fun _ => []⟩
      before after [] := by
  obtain ⟨recorded, entered⟩ := emitted_record ran
  have both := emitted.trans recorded
  refine ⟨?_, ?_, ?_, ?_, fun _ _ => rfl, ?_⟩
  · intro other outside
    apply both.untouched
    intro inside
    rcases List.mem_append.mp inside with inOutput | same
    · exact outside (within other (List.mem_cons_of_mem _ inOutput))
    · obtain rfl := List.mem_singleton.mp same
      exact outside (within other List.mem_cons_self)
  · simpa [Output.ofEntry] using both.order
  · simpa [Output.ofEntry] using both.constants
  · simpa [Output.ofEntry] using both.branches
  · intro naming final distinctAll agree continues
    have agreeOwn := (agree id (within id List.mem_cons_self)).1
    have agreeData : ∀ other ∈ output.touched, final.data[other]? = middle.data[other]? := by
      intro other inside
      rw [(agree other (within other (List.mem_cons_of_mem _ inside))).2]
      simp only [record, run_modify_eq_ok, Prod.mk.injEq, true_and] at ran
      rw [ran]
    have inner : (∀ own ∈ output.data, HasData final naming own) ∧
        ∀ own ∈ output.blocks naming, HasCode final own := by
      rcases apart distinctAll with outside | noBlocks
      · apply emitted.entries naming final (distinct distinctAll) _ continues
        intro other inside
        have different : other ∉ (Output.ofEntry id).touched := by
          intro same
          obtain rfl := List.mem_singleton.mp same
          exact outside inside
        refine ⟨?_, agreeData other inside⟩
        rw [(agree other (within other (List.mem_cons_of_mem _ inside))).1,
          (recorded.untouched other different).1]
      · have entries := emitted.entries naming { final with code := middle.code }
          (distinct distinctAll) (fun other inside => ⟨rfl, agreeData other inside⟩) continues
        refine ⟨entries.1, ?_⟩
        rw [noBlocks naming]
        exact fun _ inside => (nomatch inside)
    refine ⟨inner.1, ?_⟩
    intro block inside
    rcases List.mem_cons.mp inside with rfl | inBlocks
    · rw [HasCode, agreeOwn, entered]
      exact shape naming continues
    · exact inner.2 block inBlocks

/-- Nothing is emitted for a function without a body. -/
theorem emitted_external {context : Context} {id : NodeId} {name : String} {params : List Param}
    {progress : Progress} (absent : progress.code[id]? = none) :
    Emitted (.ofFunction context ⟨id, name, params, []⟩) progress progress [] := by
  refine ⟨fun _ _ => ⟨rfl, rfl⟩, ?_, rfl, rfl, fun _ _ => rfl, ?_⟩
  · simp [Output.ofFunction, functionData, stmtsData]
  · intro naming final _ agree _
    refine ⟨fun _ inside => (nomatch inside), ?_⟩
    intro own inside
    obtain rfl := List.mem_singleton.mp inside
    rw [HasCode, (agree id (by simp [Output.ofFunction, FunDef.ids])).1, absent]
    rfl

/-- Emission meets the numbers of a block in an order of its own: those of its variables, those
in its statements and those in its functions. -/
theorem perm_blockIds (defs : List Def) (body : List Stmt) :
    ((variablesIn defs).map VarDef.id ++
      (idsOfStmts body ++ (functionsIn defs).flatMap FunDef.ids)).Perm
        (idsOfDefs defs ++ idsOfStmts body) := by
  rw [List.perm_iff_count]
  intro id
  have sum := count_idsOfDefs defs id
  simp only [List.count_append]
  omega

/-- The numbers of a block, in the order in which emission meets them, are distinct and without
code if those of the statement are. -/
theorem Fresh.blockIds {id : NodeId} {defs : List Def} {body : List Stmt} {progress : Progress}
    (fresh : Fresh (Stmt.block id defs body).ids progress)
    (distinct : (Stmt.block id defs body).ids.Nodup) :
    Fresh ((variablesIn defs).map VarDef.id ++
        (idsOfStmts body ++ (functionsIn defs).flatMap FunDef.ids)) progress ∧
      ((variablesIn defs).map VarDef.id ++
        (idsOfStmts body ++ (functionsIn defs).flatMap FunDef.ids)).Nodup := by
  have order := perm_blockIds defs body
  refine ⟨fresh.mono fun other inside => ?_, order.nodup_iff.mpr (List.nodup_cons.mp distinct).2⟩
  exact List.mem_cons_of_mem _ (order.mem_iff.mp inside)

/-- A function whose number has no code yet is emitted with its body. For a function without
one there is nothing to do. -/
theorem emitFunction_eq_ok {context : Context} {id : NodeId} {name : String} {params : List Param}
    {body : List Stmt} {before : Progress} {result : Unit × Progress}
    (ran : (emitFunction context ⟨id, name, params, body⟩).run before = .ok result)
    (absent : before.code[id]? = none) :
    (body = [] ∧ result = ((), before)) ∨
      (body ≠ [] ∧ ∃ frame bodyCode middle, context.layout.frames[id]? = some frame ∧
        (emitStmts (context.enter frame) true body).run before = .ok (bodyCode, middle) ∧
        (record id
          (codeAt (context.span? id) [.label frame.name, .push (-frame.localsSize), .popn] ++
            bodyCode ++ codeAt (context.span? id)
              ((if leavesValue body then [] else [.push 0]) ++
                [.push (frame.parsSize - 4), .retn (some frame.name)]))).run middle =
          .ok result) := by
  simp only [emitFunction, run_bind_eq_ok, run_get_eq_ok] at ran
  obtain ⟨_, _, same, ran⟩ := ran
  cases same
  cases body with
  | nil =>
    simp only [List.isEmpty_nil, Bool.true_or, ↓reduceIte, run_pure_eq_ok] at ran
    exact .inl ⟨rfl, ran⟩
  | cons first rest =>
    have notYet : before.code.contains id = false := by
      rw [← Std.TreeMap.isSome_getElem?_eq_contains, absent]
      rfl
    simp only [List.isEmpty_cons, notYet, Bool.or_false, Bool.false_eq_true, ↓reduceIte,
      run_bind_eq_ok, run_lift_eq_ok, Context.frame_eq_ok] at ran
    obtain ⟨frame, _, ⟨_, framed, unchanged⟩, bodyCode, middle, emittedBody, entered⟩ := ran
    cases unchanged
    exact .inr ⟨List.cons_ne_nil _ _, frame, bodyCode, middle, framed, emittedBody, entered⟩

section Parts

variable {context : Context} {tail : Bool} {id : NodeId} {test : Expr}
  {before numbered started tested middle later : Progress} {result : Code × Progress}

/-- A conditional emits its test and its branches, with jumps between them. -/
theorem emitted_cond {yes no : List Stmt} {testCode yesCode noCode : Code}
    (branch : Emitted (.ofBranch id) before numbered [])
    (onTest : Emitted (.ofValue context test) numbered tested testCode)
    (onYes : Emitted (.ofStmts context false yes) tested middle yesCode)
    (onNo : Emitted (.ofStmts context false no) middle later noCode)
    (entered : (recorded id
      (testCode ++ codeAt (context.span? id) [.name (branchLabel "else" before.nextBranch),
          .name (branchLabel "then" before.nextBranch), .cjmp,
          .label (branchLabel "then" before.nextBranch)] ++
        yesCode ++ codeAt (context.span? id) [.name (branchLabel "end" before.nextBranch), .ujmp,
          .label (branchLabel "else" before.nextBranch)] ++
        noCode ++ codeAt (context.span? id) [.label (branchLabel "end" before.nextBranch)])).run
      later = .ok result) :
    Emitted (.ofStmt context tail (.cond id test yes no)) before result.2 result.1 := by
  refine (((((((branch.trans onTest).append _ _).trans onYes).append _ _).trans onNo).append _
    _).recorded entered).recast ?_ ?_ ?_ ?_ ?_
  · intro other
    simp only [touched_append, Output.ofBranch, Output.ofValue, Output.ofInstrs, Output.ofStmts,
      Output.ofEntry, Output.ofStmt, Stmt.ids, List.count_append, List.count_cons,
      List.count_nil]
    omega
  · simp [Output.ofBranch, Output.ofValue, Output.ofInstrs, Output.ofStmts, Output.ofEntry,
      Output.ofStmt, stmtData]
  · simp [Output.ofBranch, Output.ofValue, Output.ofInstrs, Output.ofStmts, Output.ofEntry,
      Output.ofStmt, stmtBranches]
  · simp [Output.ofBranch, Output.ofValue, Output.ofInstrs, Output.ofStmts, Output.ofEntry,
      Output.ofStmt, stmtBlocks]
  · intro naming continues
    have own : naming.branch id = before.nextBranch := continues.2 0 id rfl
    simp [Output.ofBranch, Output.ofValue, Output.ofInstrs, Output.ofStmts, Output.ofEntry,
      Output.ofStmt, stmtInstrs, own]

/-- A loop emits its test and its body, with a jump back to the test. -/
theorem emitted_loop {body : List Stmt} {testCode bodyCode : Code}
    (branch : Emitted (.ofBranch id) before numbered [])
    (onTest : Emitted (.ofValue context test) numbered tested testCode)
    (onBody : Emitted (.ofStmts context false body) tested later bodyCode)
    (entered : (recorded id
      (codeAt (context.span? id) [.label (branchLabel "while" before.nextBranch)] ++ testCode ++
        codeAt (context.span? id) [.name (branchLabel "end" before.nextBranch),
          .name (branchLabel "do" before.nextBranch), .cjmp,
          .label (branchLabel "do" before.nextBranch)] ++
        bodyCode ++ codeAt (context.span? id) [.name (branchLabel "while" before.nextBranch), .ujmp,
          .label (branchLabel "end" before.nextBranch)])).run later = .ok result) :
    Emitted (.ofStmt context tail (.loop id test body)) before result.2 result.1 := by
  have head := branch.append (context.span? id) [.label (branchLabel "while" before.nextBranch)]
  rw [List.nil_append] at head
  refine (((((head.trans onTest).append _ _).trans onBody).append _ _).recorded entered).recast
    ?_ ?_ ?_ ?_ ?_
  · intro other
    simp only [touched_append, Output.ofBranch, Output.ofValue, Output.ofInstrs, Output.ofStmts,
      Output.ofEntry, Output.ofStmt, Stmt.ids, List.count_append, List.count_cons,
      List.count_nil]
    omega
  · simp [Output.ofBranch, Output.ofValue, Output.ofInstrs, Output.ofStmts, Output.ofEntry,
      Output.ofStmt, stmtData]
  · simp [Output.ofBranch, Output.ofValue, Output.ofInstrs, Output.ofStmts, Output.ofEntry,
      Output.ofStmt, stmtBranches]
  · simp [Output.ofBranch, Output.ofValue, Output.ofInstrs, Output.ofStmts, Output.ofEntry,
      Output.ofStmt, stmtBlocks]
  · intro naming continues
    have own : naming.branch id = before.nextBranch := continues.2 0 id rfl
    simp [Output.ofBranch, Output.ofValue, Output.ofInstrs, Output.ofStmts, Output.ofEntry,
      Output.ofStmt, stmtInstrs, own]

/-- A block emits its variables, its statements and then its functions. -/
theorem emitted_block {defs : List Def} {body : List Stmt} {start bodyCode : Code}
    (onLocals : Emitted (.ofLocals context defs) before started start)
    (onBody : Emitted (.ofStmts context tail body) started middle bodyCode)
    (onFunctions : Emitted (.ofFunctions context defs) middle later [])
    (entered : (recorded id (start ++ bodyCode)).run later = .ok result) :
    Emitted (.ofStmt context tail (.block id defs body)) before result.2 result.1 := by
  have all := (onLocals.trans onBody).trans onFunctions
  rw [List.append_nil] at all
  refine (all.recorded entered).recast ?_ ?_ ?_ ?_ ?_
  · intro other
    have sum := count_idsOfDefs defs other
    simp only [touched_append, Output.ofLocals, Output.ofStmts, Output.ofFunctions,
      Output.ofEntry, Output.ofStmt, Stmt.ids, List.count_append, List.count_cons,
      List.count_nil]
    omega
  · simp [Output.ofLocals, Output.ofStmts, Output.ofFunctions, Output.ofEntry, Output.ofStmt,
      stmtData]
  · simp [Output.ofLocals, Output.ofStmts, Output.ofFunctions, Output.ofEntry, Output.ofStmt,
      stmtBranches]
  · simp [Output.ofLocals, Output.ofStmts, Output.ofFunctions, Output.ofEntry, Output.ofStmt,
      stmtBlocks]
  · simp [Output.ofLocals, Output.ofStmts, Output.ofFunctions, Output.ofEntry, Output.ofStmt,
      stmtInstrs]

end Parts

mutual

/-- A statement emits its code, and the functions inside it. -/
theorem emitted_emitStmt {context : Context} {tail : Bool} {before : Progress}
    {result : Code × Progress} : (stmt : Stmt) →
    (emitStmt context tail stmt).run before = .ok result → stmt.ids.Nodup →
    Fresh stmt.ids before → Emitted (.ofStmt context tail stmt) before result.2 result.1
  | .expr id value, ran, _, _ => by
    simp only [emitStmt, run_bind_eq_ok] at ran
    obtain ⟨code, middle, emitted, finished⟩ := ran
    have entered : (recorded id (code ++ codeAt (context.span? id)
        (if tail then [] else [.push 4, .popn]))).run middle = .ok result := by
      cases tail with
      | true => simpa [codeAt] using finished
      | false => exact finished
    refine (((emitted_emitValue value emitted).append _ _).recorded entered).recast ?_ ?_ rfl ?_ ?_
    · intro other
      simp only [touched_append, Output.ofValue, Output.ofInstrs, Output.ofEntry, Output.ofStmt,
        Stmt.ids, List.count_append, List.count_cons, List.count_nil]
      omega
    · simp [Output.ofValue, Output.ofInstrs, Output.ofEntry, Output.ofStmt, stmtData]
    · simp [Output.ofStmt, stmtBlocks]
    · simp [Output.ofValue, Output.ofInstrs, Output.ofEntry, Output.ofStmt, stmtInstrs]
  | .assign id target source, ran, _, _ => by
    simp only [emitStmt, run_bind_eq_ok] at ran
    obtain ⟨value, middle, emittedValue, place, later, emittedPlace, entered⟩ := ran
    have both := (emitted_emitValue source emittedValue).trans (emitted_emitPlace emittedPlace)
    refine ((both.append _ _).recorded entered).recast ?_ ?_ rfl ?_ ?_
    · intro other
      simp only [touched_append, Output.ofValue, Output.ofPlace, Output.ofInstrs, Output.ofEntry,
        Output.ofStmt, Stmt.ids, List.count_append, List.count_cons, List.count_nil]
      omega
    · simp [Output.ofValue, Output.ofPlace, Output.ofInstrs, Output.ofEntry, Output.ofStmt, stmtData]
    · simp [Output.ofStmt, stmtBlocks]
    · simp [Output.ofValue, Output.ofPlace, Output.ofInstrs, Output.ofEntry, Output.ofStmt,
        stmtInstrs]
  | .cond id test yes no, ran, distinct, fresh => by
    simp only [emitStmt, run_bind_eq_ok] at ran
    obtain ⟨number, numbered, taken, testCode, tested, ranTest, yesCode, middle, ranYes,
      noCode, later, ranNo, entered⟩ := ran
    obtain ⟨rfl, branch⟩ := emitted_freshBranch id taken
    obtain ⟨-, distinct⟩ := List.nodup_cons.mp distinct
    obtain ⟨-, distinctBranches, -⟩ := List.nodup_append.mp distinct
    obtain ⟨distinctYes, distinctNo, -⟩ := List.nodup_append.mp distinctBranches
    have onTest := emitted_emitValue test ranTest
    have freshBranches := (fresh.mono fun _ => List.mem_cons_of_mem _).rest distinct
      (branch.trans onTest) fun _ touched => touched
    have onYes := emitted_emitStmts yes ranYes distinctYes
      (freshBranches.mono fun _ => List.mem_append_left _)
    have freshNo := freshBranches.rest distinctBranches onYes fun _ touched => touched
    exact emitted_cond branch onTest onYes (emitted_emitStmts no ranNo distinctNo freshNo) entered
  | .loop id test body, ran, distinct, fresh => by
    simp only [emitStmt, run_bind_eq_ok] at ran
    obtain ⟨number, numbered, taken, testCode, tested, ranTest, bodyCode, later, ranBody,
      entered⟩ := ran
    obtain ⟨rfl, branch⟩ := emitted_freshBranch id taken
    obtain ⟨-, distinct⟩ := List.nodup_cons.mp distinct
    obtain ⟨-, distinctBody, -⟩ := List.nodup_append.mp distinct
    have onTest := emitted_emitValue test ranTest
    have freshBody := (fresh.mono fun _ => List.mem_cons_of_mem _).rest distinct
      (branch.trans onTest) fun _ touched => touched
    exact emitted_loop branch onTest (emitted_emitStmts body ranBody distinctBody freshBody) entered
  | .block id defs body, ran, distinct, fresh => by
    simp only [emitStmt, run_bind_eq_ok] at ran
    obtain ⟨start, started, ranLocals, bodyCode, middle, ranBody, ⟨⟩, later, ranFunctions,
      entered⟩ := ran
    -- The numbers of the definitions are touched in two parts, around the body.
    obtain ⟨freshOrder, order⟩ := fresh.blockIds distinct
    obtain ⟨-, orderRest, -⟩ := List.nodup_append.mp order
    obtain ⟨distinctBody, distinctFunctions, -⟩ := List.nodup_append.mp orderRest
    have onLocals := emitted_emitLocals defs ranLocals
    have freshRest := freshOrder.rest order onLocals fun _ touched => touched
    have onBody := emitted_emitStmts body ranBody distinctBody
      (freshRest.mono fun _ => List.mem_append_left _)
    have freshFunctions := freshRest.rest orderRest onBody fun _ touched => touched
    exact emitted_block onLocals onBody
      (emitted_emitFunctions defs ranFunctions distinctFunctions freshFunctions) entered

/-- Statements emit their code, and the functions inside them. -/
theorem emitted_emitStmts {context : Context} {tail : Bool} {before : Progress}
    {result : Code × Progress} : (stmts : List Stmt) →
    (emitStmts context tail stmts).run before = .ok result → (idsOfStmts stmts).Nodup →
    Fresh (idsOfStmts stmts) before → Emitted (.ofStmts context tail stmts) before result.2 result.1
  | [], ran, _, _ => by
    simp only [emitStmts, run_pure_eq_ok] at ran
    subst ran
    exact .nothing before
  | stmt :: rest, ran, distinct, fresh => by
    simp only [emitStmts, run_bind_eq_ok, run_pure_eq_ok] at ran
    obtain ⟨code, middle, emittedStmt, later, after, emittedRest, rfl⟩ := ran
    obtain ⟨distinctStmt, distinctRest, -⟩ := List.nodup_append.mp distinct
    have first := emitted_emitStmt stmt emittedStmt distinctStmt
      (fresh.mono fun _ inside => List.mem_append_left _ inside)
    have freshRest := fresh.rest distinct first fun _ touched => touched
    exact first.trans (emitted_emitStmts rest emittedRest distinctRest freshRest)

/-- The functions among definitions emit their code. -/
theorem emitted_emitFunctions {context : Context} {before : Progress} {result : Unit × Progress} :
    (defs : List Def) → (emitFunctions context defs).run before = .ok result →
    ((functionsIn defs).flatMap FunDef.ids).Nodup →
    Fresh ((functionsIn defs).flatMap FunDef.ids) before →
    Emitted (.ofFunctions context defs) before result.2 []
  | [], ran, _, _ => by
    simp only [emitFunctions, run_pure_eq_ok] at ran
    subst ran
    exact .nothing before
  | .fn function :: rest, ran, distinct, fresh => by
    simp only [emitFunctions, run_bind_eq_ok] at ran
    obtain ⟨⟨⟩, middle, emittedFunction, emittedRest⟩ := ran
    change (function.ids ++ (functionsIn rest).flatMap FunDef.ids).Nodup at distinct
    change Fresh (function.ids ++ (functionsIn rest).flatMap FunDef.ids) before at fresh
    obtain ⟨distinctFunction, distinctRest, -⟩ := List.nodup_append.mp distinct
    have first := emitted_emitFunction function emittedFunction distinctFunction
      (fresh.mono fun _ inside => List.mem_append_left _ inside)
    have freshRest := fresh.rest distinct first fun _ touched => touched
    exact first.trans (emitted_emitFunctions rest emittedRest distinctRest freshRest)
  | .var _ :: rest, ran, distinct, fresh => by
    rw [emitFunctions] at ran
    exact emitted_emitFunctions rest ran distinct fresh

/-- A function emits its code and that of the functions inside it. -/
theorem emitted_emitFunction {context : Context} {before : Progress} {result : Unit × Progress} :
    (function : FunDef) → (emitFunction context function).run before = .ok result →
    function.ids.Nodup → Fresh function.ids before →
    Emitted (.ofFunction context function) before result.2 []
  | ⟨id, name, params, body⟩, ran, distinct, fresh => by
    have absent : before.code[id]? = none := fresh id (by simp [FunDef.ids])
    rcases emitFunction_eq_ok ran absent with
      ⟨rfl, rfl⟩ | ⟨nonempty, frame, bodyCode, middle, framed, emittedBody, entered⟩
    · exact emitted_external absent
    · simp only [FunDef.ids] at distinct fresh
      obtain ⟨notInside, distinctInside⟩ := List.nodup_cons.mp distinct
      have distinctBody := (List.nodup_append.mp distinctInside).2.1
      have emitted := emitted_emitStmts body emittedBody distinctBody
        (fresh.mono fun _ inside => List.mem_cons_of_mem _ (List.mem_append_right _ inside))
      refine (emitted.enterCode entered (id :: (params.map Param.id ++ idsOfStmts body))
        (fun naming => functionInstrs context naming frame body) ?_ ?_ ?_ ?_).recast
        (fun _ => Nat.le_refl _) rfl rfl ?_ (fun _ _ => rfl)
      · intro naming continues
        rw [functionInstrs, Code.items_append, Code.items_append, Code.items_codeAt,
          Code.items_codeAt, emitted.shape naming continues, List.append_assoc _ _ [_, _]]
        rfl
      · intro other inside
        rcases List.mem_cons.mp inside with rfl | inBody
        · exact List.mem_cons_self
        · exact List.mem_cons_of_mem _ (List.mem_append_right _ inBody)
      · exact fun _ => distinctBody
      · exact fun _ => .inl fun inBody => notInside (List.mem_append_right _ inBody)
      · simp [Output.ofFunction, functionBlocks, Layout.frameOf_eq framed, Output.ofStmts, nonempty]

end

/-- The output of the definitions at the top level. -/
def Output.ofTop (context : Context) (defs : List Def) : Output :=
  ⟨idsOfDefs defs, topData context.layout defs, defsBranches defs,
    fun naming => topBlocks context naming defs, fun _ => []⟩

/-- A global variable emits its data and the code that initializes it. -/
theorem emitted_emitGlobal {context : Context} {declared : VarDef} {before : Progress}
    {result : Unit × Progress} (ran : (emitGlobal context declared).run before = .ok result) :
    Emitted
      ⟨[declared.id], [globalData context.layout declared], [],
        fun naming => [⟨declared.id, globalInstrs context.layout naming declared⟩], fun _ => []⟩
      before result.2 [] := by
  simp only [emitGlobal, run_bind_eq_ok, run_lift_eq_ok, Context.access_eq_ok] at ran
  obtain ⟨place, _, ⟨_, placed, unchanged⟩, ran⟩ := ran
  cases unchanged
  cases place with
  | rel access => exact (run_throw_eq_ok.mp ran).elim
  | abs access =>
    simp only [run_bind_eq_ok] at ran
    obtain ⟨label, _, fresh, ⟨⟩, added, addedData, entered⟩ := ran
    have own : globalData context.layout declared =
        ⟨declared.id, some (access.label, access.size), access.inits⟩ := by
      rw [globalData, placed]
    obtain ⟨emitted, label_eq⟩ := emitted_addData
      ⟨declared.id, some (access.label, access.size), access.inits⟩ fresh addedData (by
        intro naming named
        simp only [map_item_dataAt, DataBlock.items]
        rw [named]
        rfl)
    refine (emitted.enterCode entered [declared.id]
      (fun naming => globalInstrs context.layout naming declared) ?_ (by simp [Output.ofData])
      (fun distinct => distinct) (fun _ => .inr fun _ => rfl)).recast
      (fun _ => Nat.le_refl _) (by rw [own]; rfl) rfl (fun _ _ inside => inside) (fun _ _ => rfl)
    intro naming continues
    have named := label_eq naming (numbered_singleton.mp continues.1)
    rw [Code.items_codeAt, globalInstrs, placed]
    simp only [named]

/-- The definitions at the top level emit their code and data. -/
theorem emitted_emitTop {context : Context} {before : Progress} {result : Unit × Progress} :
    (defs : List Def) → (emitTop context defs).run before = .ok result → (idsOfDefs defs).Nodup →
    Fresh (idsOfDefs defs) before → Emitted (.ofTop context defs) before result.2 []
  | [], ran, _, _ => by
    simp only [emitTop, run_pure_eq_ok] at ran
    subst ran
    exact .nothing before
  | .fn function :: rest, ran, distinct, fresh => by
    simp only [emitTop, run_bind_eq_ok] at ran
    obtain ⟨⟨⟩, middle, emittedFunction, emittedRest⟩ := ran
    obtain ⟨distinctFunction, distinctRest, -⟩ := List.nodup_append.mp distinct
    have first := emitted_emitFunction function emittedFunction distinctFunction
      (fresh.mono fun _ inside => List.mem_append_left _ inside)
    have freshRest := fresh.rest distinct first fun _ touched => touched
    exact first.trans (emitted_emitTop rest emittedRest distinctRest freshRest)
  | .var declared :: rest, ran, distinct, fresh => by
    simp only [emitTop, run_bind_eq_ok] at ran
    obtain ⟨⟨⟩, middle, emittedGlobal, emittedRest⟩ := ran
    simp only [idsOfDefs] at distinct fresh
    obtain ⟨notLater, distinctRest⟩ := List.nodup_cons.mp distinct
    have first := emitted_emitGlobal emittedGlobal
    have freshRest : Fresh (idsOfDefs rest) middle :=
      (fresh.mono fun _ inside => List.mem_cons_of_mem _ inside).after first
        fun other inRest same => notLater (List.mem_singleton.mp same ▸ inRest)
    exact first.trans (emitted_emitTop rest emittedRest distinctRest freshRest)

end ScopeStack.Emission
