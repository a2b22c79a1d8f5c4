import ScopeStack.Proofs.Emission.Image

/-!
# Emission visits every function

Emission skips a function whose number has code already. In a program with
distinct numbers this does not happen: whenever the program is emitted, the body
of every function has been emitted too, and the code that the image holds for the
function was put together from it.
-/

namespace ScopeStack.Emission

open Stateful

/-- A piece of a program can be emitted. -/
def Emits {α : Type} (action : Emit α) : Prop := ∃ before result, action.run before = .ok result

/-- The code of a function is among given blocks, and its body has been
emitted. -/
def Visited (context : Context) (blocks : Naming → List CodeBlock) (function : FunDef) : Prop :=
  ∃ outer : Context, outer.program = context.program ∧ outer.layout = context.layout ∧
    Emits (emitStmts (outer.enter (context.layout.frameOf function.id)) true function.body) ∧
    ∀ naming, ⟨function.id,
      functionInstrs outer naming (context.layout.frameOf function.id) function.body⟩ ∈ blocks naming

/-- A function whose code is among some blocks has it among more of them. -/
theorem Visited.mono {context : Context} {blocks more : Naming → List CodeBlock} {function : FunDef}
    (visited : Visited context blocks function)
    (included : ∀ naming own, own ∈ blocks naming → own ∈ more naming) :
    Visited context more function := by
  obtain ⟨outer, program, layout, emits, found⟩ := visited
  exact ⟨outer, program, layout, emits, fun naming => included naming _ (found naming)⟩

mutual

/-- The functions in a statement are visited. -/
theorem visited_emitStmt {function : FunDef} (hasBody : function.isExternal = false)
    {context : Context} {tail : Bool} {before : Progress}
    {result : Code × Progress} : (stmt : Stmt) →
    (emitStmt context tail stmt).run before = .ok result → stmt.ids.Nodup →
    Fresh stmt.ids before → function ∈ stmt.functions →
    Visited context (fun naming => stmtBlocks context naming stmt) function
  | .expr _ _, _, _, _, inside => nomatch inside
  | .assign _ _ _, _, _, _, inside => nomatch inside
  | .cond id test yes no, ran, distinct, fresh, inside => by
    simp only [emitStmt, run_bind_eq_ok] at ran
    obtain ⟨number, numbered, taken, testCode, tested, emittedTest, yesCode, middle, emittedYes,
      noCode, later, emittedNo, -⟩ := ran
    obtain ⟨-, distinct⟩ := List.nodup_cons.mp distinct
    obtain ⟨-, distinctBranches, -⟩ := List.nodup_append.mp distinct
    obtain ⟨distinctYes, distinctNo, -⟩ := List.nodup_append.mp distinctBranches
    have testPart := (emitted_freshBranch id taken).2.trans (emitted_emitValue test emittedTest)
    have freshBranches := (fresh.mono fun _ => List.mem_cons_of_mem _).rest distinct testPart
      fun _ touched => touched
    have freshYes := freshBranches.mono fun _ => List.mem_append_left _
    rcases List.mem_append.mp inside with inYes | inNo
    · exact (visited_emitStmts hasBody yes emittedYes distinctYes freshYes inYes).mono
        fun _ _ => List.mem_append_left _
    · have freshNo := freshBranches.rest distinctBranches
        (emitted_emitStmts yes emittedYes distinctYes freshYes) fun _ touched => touched
      exact (visited_emitStmts hasBody no emittedNo distinctNo freshNo inNo).mono
        fun _ _ => List.mem_append_right _
  | .loop id test body, ran, distinct, fresh, inside => by
    simp only [emitStmt, run_bind_eq_ok] at ran
    obtain ⟨number, numbered, taken, testCode, tested, emittedTest, bodyCode, later, emittedBody,
      -⟩ := ran
    obtain ⟨-, distinct⟩ := List.nodup_cons.mp distinct
    have testPart := (emitted_freshBranch id taken).2.trans (emitted_emitValue test emittedTest)
    have freshBody := (fresh.mono fun _ => List.mem_cons_of_mem _).rest distinct testPart
      fun _ touched => touched
    exact visited_emitStmts hasBody body emittedBody (List.nodup_append.mp distinct).2.1 freshBody
      inside
  | .block id defs body, ran, distinct, fresh, inside => by
    simp only [emitStmt, run_bind_eq_ok] at ran
    obtain ⟨start, started, emittedLocals, bodyCode, middle, emittedBody, ⟨⟩, later,
      emittedFunctions, -⟩ := ran
    have locals := emitted_emitLocals defs emittedLocals
    -- The numbers of the definitions are touched in two parts, around the body.
    obtain ⟨freshOrder, order⟩ := fresh.blockIds distinct
    obtain ⟨-, orderRest, -⟩ := List.nodup_append.mp order
    obtain ⟨distinctBody, distinctFunctions, -⟩ := List.nodup_append.mp orderRest
    have freshRest := freshOrder.rest order locals fun _ touched => touched
    have freshBody := freshRest.mono fun _ => List.mem_append_left _
    rcases List.mem_append.mp inside with inBody | inDefs
    · exact (visited_emitStmts hasBody body emittedBody distinctBody freshBody inBody).mono
        fun _ _ => List.mem_append_left _
    · have freshFunctions := freshRest.rest orderRest
        (emitted_emitStmts body emittedBody distinctBody freshBody) fun _ touched => touched
      exact (visited_emitFunctions hasBody defs emittedFunctions distinctFunctions freshFunctions
        inDefs).mono
        fun _ _ => List.mem_append_right _

/-- The functions in statements are visited. -/
theorem visited_emitStmts {function : FunDef} (hasBody : function.isExternal = false)
    {context : Context} {tail : Bool} {before : Progress}
    {result : Code × Progress} : (stmts : List Stmt) →
    (emitStmts context tail stmts).run before = .ok result → (idsOfStmts stmts).Nodup →
    Fresh (idsOfStmts stmts) before → function ∈ functionsOfStmts stmts →
    Visited context (fun naming => stmtsBlocks context naming stmts) function
  | [], _, _, _, inside => nomatch inside
  | stmt :: rest, ran, distinct, fresh, inside => by
    simp only [emitStmts, run_bind_eq_ok] at ran
    obtain ⟨code, middle, emittedStmt, later, after, emittedRest, -⟩ := ran
    obtain ⟨distinctStmt, distinctRest, -⟩ := List.nodup_append.mp distinct
    have freshStmt := fresh.mono fun _ => List.mem_append_left _
    rcases List.mem_append.mp inside with inStmt | inRest
    · exact (visited_emitStmt hasBody stmt emittedStmt distinctStmt freshStmt inStmt).mono
        fun _ _ => List.mem_append_left _
    · have freshRest := fresh.rest distinct
        (emitted_emitStmt stmt emittedStmt distinctStmt freshStmt) fun _ touched => touched
      exact (visited_emitStmts hasBody rest emittedRest distinctRest freshRest inRest).mono
        fun _ _ => List.mem_append_right _

/-- The functions among definitions and inside them are visited. -/
theorem visited_emitFunctions {function : FunDef} (hasBody : function.isExternal = false)
    {context : Context} {before : Progress} {result : Unit × Progress} :
    (defs : List Def) → (emitFunctions context defs).run before = .ok result →
    ((functionsIn defs).flatMap FunDef.ids).Nodup →
    Fresh ((functionsIn defs).flatMap FunDef.ids) before → function ∈ functionsOfDefs defs →
    Visited context (fun naming => defsBlocks context naming defs) function
  | [], _, _, _, inside => nomatch inside
  | .fn own :: rest, ran, distinct, fresh, inside => by
    simp only [emitFunctions, run_bind_eq_ok] at ran
    obtain ⟨⟨⟩, middle, emittedFunction, emittedRest⟩ := ran
    change (own.ids ++ (functionsIn rest).flatMap FunDef.ids).Nodup at distinct
    change Fresh (own.ids ++ (functionsIn rest).flatMap FunDef.ids) before at fresh
    obtain ⟨distinctFunction, distinctRest, -⟩ := List.nodup_append.mp distinct
    have freshFunction := fresh.mono fun _ => List.mem_append_left _
    rw [functionsOfDefs_fn] at inside
    rcases List.mem_append.mp inside with inFunction | inRest
    · exact (visited_emitFunction hasBody own emittedFunction distinctFunction freshFunction
        inFunction).mono fun _ _ => List.mem_append_left _
    · have freshRest := fresh.rest distinct
        (emitted_emitFunction own emittedFunction distinctFunction freshFunction)
        fun _ touched => touched
      exact (visited_emitFunctions hasBody rest emittedRest distinctRest freshRest inRest).mono
        fun _ _ => List.mem_append_right _
  | .var _ :: rest, ran, distinct, fresh, inside =>
    visited_emitFunctions hasBody rest ran distinct fresh inside

/-- A function and those inside it are visited. -/
theorem visited_emitFunction {function : FunDef} (hasBody : function.isExternal = false)
    {context : Context} {before : Progress} {result : Unit × Progress} :
    (own : FunDef) → (emitFunction context own).run before = .ok result → own.ids.Nodup →
    Fresh own.ids before → function ∈ own :: functionsOfStmts own.body →
    Visited context (fun naming => functionBlocks context naming own) function
  | ⟨id, name, params, []⟩, _, _, _, inside => by
    rcases List.mem_cons.mp inside with rfl | inBody
    · cases hasBody
    · cases inBody
  | ⟨id, name, params, first :: rest⟩, ran, distinct, fresh, inside => by
    obtain ⟨⟨⟩, -⟩ | ⟨-, frame, bodyCode, middle, framed, emittedBody, -⟩ :=
      emitFunction_eq_ok ran (fresh id (by simp [FunDef.ids]))
    have frame_eq := Layout.frameOf_eq framed
    obtain ⟨-, distinctInside⟩ := List.nodup_cons.mp distinct
    have distinctBody := (List.nodup_append.mp distinctInside).2.1
    have freshBody : Fresh (idsOfStmts (first :: rest)) before :=
      fresh.mono fun _ inBody => List.mem_cons_of_mem _ (List.mem_append_right _ inBody)
    rcases List.mem_cons.mp inside with rfl | inBody
    · refine ⟨context, rfl, rfl, ⟨before, (bodyCode, middle), ?_⟩, fun naming => List.mem_cons_self⟩
      rw [frame_eq]
      exact emittedBody
    · obtain ⟨outer, program, layout, emits, found⟩ :=
        visited_emitStmts hasBody (first :: rest) emittedBody distinctBody freshBody inBody
      refine ⟨outer, program, layout, emits, fun naming => List.mem_cons_of_mem _ ?_⟩
      rw [frame_eq]
      exact found naming

end

/-- The functions of a program are visited. -/
theorem visited_emitTop {function : FunDef} (hasBody : function.isExternal = false)
    {context : Context} {before : Progress} {result : Unit × Progress} :
    (defs : List Def) → (emitTop context defs).run before = .ok result → (idsOfDefs defs).Nodup →
    Fresh (idsOfDefs defs) before → function ∈ functionsOfDefs defs →
    Visited context (fun naming => defsBlocks context naming defs) function
  | [], _, _, _, inside => nomatch inside
  | .fn own :: rest, ran, distinct, fresh, inside => by
    simp only [emitTop, run_bind_eq_ok] at ran
    obtain ⟨⟨⟩, middle, emittedFunction, emittedRest⟩ := ran
    obtain ⟨distinctFunction, distinctRest, -⟩ := List.nodup_append.mp distinct
    have freshFunction := fresh.mono fun _ => List.mem_append_left _
    rw [functionsOfDefs_fn] at inside
    rcases List.mem_append.mp inside with inFunction | inRest
    · exact (visited_emitFunction hasBody own emittedFunction distinctFunction freshFunction
        inFunction).mono fun _ _ => List.mem_append_left _
    · have freshRest := fresh.rest distinct
        (emitted_emitFunction own emittedFunction distinctFunction freshFunction)
        fun _ touched => touched
      exact (visited_emitTop hasBody rest emittedRest distinctRest freshRest inRest).mono
        fun _ _ => List.mem_append_right _
  | .var declared :: rest, ran, distinct, fresh, inside => by
    simp only [emitTop, run_bind_eq_ok] at ran
    obtain ⟨⟨⟩, middle, emittedGlobal, emittedRest⟩ := ran
    have freshOwn : Fresh ([declared.id] ++ idsOfDefs rest) before := fresh
    have freshRest := freshOwn.rest distinct (emitted_emitGlobal emittedGlobal)
      fun _ touched => touched
    exact visited_emitTop hasBody rest emittedRest (List.nodup_cons.mp distinct).2 freshRest inside

/-- The code that an image holds for a function with a body was put together from
the body, which has been emitted. -/
theorem exists_functionCode {program : Program} {layout : Layout} {image : Image}
    {function : FunDef} (distinct : program.Distinct)
    (assembled : Image.ofProgram program layout = .ok image)
    (inside : function ∈ program.functions) (hasBody : function.isExternal = false) :
    ∃ (outer : Context) (own : Code), outer.program = program ∧ outer.layout = layout ∧
      Emits (emitStmts (outer.enter (layout.frameOf function.id)) true function.body) ∧
      image.nodeCode[function.id]? = some own ∧
      own.items = functionInstrs outer (.ofProgram program layout) (layout.frameOf function.id)
        function.body := by
  obtain ⟨main, shaped⟩ := shaped_of_ofProgram distinct assembled
  obtain ⟨progress, start, ran, -⟩ := ofProgram_eq_ok assembled
  obtain ⟨outer, sameProgram, sameLayout, emits, found⟩ :=
    visited_emitTop hasBody program.defs ran distinct (fun id _ => by simp [Progress.empty]) inside
  have held := shaped.nodeCode _ (found (.ofProgram program layout))
  cases entry : image.nodeCode[function.id]? with
  | none =>
    rw [entry] at held
    cases held
  | some own =>
    rw [entry] at held
    exact ⟨outer, own, sameProgram, sameLayout, emits, rfl, held⟩

end ScopeStack.Emission
