import ScopeStack.Proofs.Emission.Image
import ScopeStack.Proofs.Layout.Scopes

/-!
# When code can be emitted

In a program whose uses are linked to visible definitions and whose places are
variables or dereferenced pointers, emission finds everything that it looks up.
It succeeds if and only if all constants can be read, and otherwise stops at one
that cannot: `settles_emitTop`.
-/

namespace ScopeStack

open Stateful

/-- A constant can be read. -/
def Atom.Readable (atom : Atom) : Prop :=
  match atom.kind with
  | .int => ∃ value, Literal.readInt atom.lexeme = .ok value
  | .char => ∃ value, Literal.readChar atom.lexeme = .ok value
  | .str => ∃ codes, Literal.readText atom.lexeme = .ok codes

/-- Whether a reading succeeds. -/
def checkRead {α : Type} : (read : Except LiteralError α) → Decidable (∃ value, read = .ok value)
  | .ok value => .isTrue ⟨value, rfl⟩
  | .error _ => .isFalse fun ⟨_, same⟩ => nomatch same

instance (atom : Atom) : Decidable atom.Readable :=
  match atom with
  | ⟨_, .int, lexeme⟩ => checkRead (Literal.readInt lexeme)
  | ⟨_, .char, lexeme⟩ => checkRead (Literal.readChar lexeme)
  | ⟨_, .str, lexeme⟩ => checkRead (Literal.readText lexeme)

/-- An expression is a use of a variable. -/
def Expr.IsVariable : Expr → Prop
  | .var _ _ => True
  | _ => False

/-- An expression is a use of a variable or a dereferenced pointer. -/
def Expr.IsPlace : Expr → Prop
  | .var _ _ => True
  | .unary _ .valueAt _ => True
  | _ => False

instance : (expr : Expr) → Decidable expr.IsVariable
  | .var _ _ => .isTrue trivial
  | .atom _ _ | .unary _ _ _ | .binary _ _ _ _ | .call _ _ _ => .isFalse id

instance : (expr : Expr) → Decidable expr.IsPlace
  | .var _ _ | .unary _ .valueAt _ => .isTrue trivial
  | .unary _ .not _ | .unary _ .plus _ | .unary _ .minus _ | .unary _ .addressOf _
  | .atom _ _ | .binary _ _ _ _ | .call _ _ _ => .isFalse id

namespace Rule

/-- All constants can be read. -/
def readable : Rule :=
  onExprs fun
    | _, .atom _ atom => atom.Readable
    | _, _ => True

/-- Variables and dereferenced pointers are marked as places, only these are
assigned to, and only the addresses of variables are taken. -/
def placed (program : Program) : Rule where
  expr
    | _, .var id _ => program.isPlace id = true
    | _, .unary id .valueAt _ => program.isPlace id = true
    | _, .unary _ .addressOf operand => operand.IsVariable
    | _, _ => True
  stmt
    | _, .assign _ target _ => target.IsPlace
    | _, _ => True
  function _ _ := True
  declared _ _ := True

instance : readable.Checkable where
  expr
    | _, .atom _ atom => inferInstanceAs (Decidable atom.Readable)
    | _, .var _ _ | _, .call _ _ _ | _, .unary _ _ _ | _, .binary _ _ _ _ => .isTrue trivial
  stmt _ _ := .isTrue trivial
  function _ _ := .isTrue trivial
  declared _ _ := .isTrue trivial

instance (program : Program) : (placed program).Checkable where
  expr
    | _, .var id _ => inferInstanceAs (Decidable (program.isPlace id = true))
    | _, .unary id .valueAt _ => inferInstanceAs (Decidable (program.isPlace id = true))
    | _, .unary _ .addressOf operand => inferInstanceAs (Decidable operand.IsVariable)
    | _, .unary _ .not _ | _, .unary _ .plus _ | _, .unary _ .minus _ | _, .atom _ _
    | _, .call _ _ _ | _, .binary _ _ _ _ => .isTrue trivial
  stmt
    | _, .assign _ target _ => inferInstanceAs (Decidable target.IsPlace)
    | _, .expr _ _ | _, .cond _ _ _ _ | _, .loop _ _ _ | _, .block _ _ _ => .isTrue trivial
  function _ _ := .isTrue trivial
  declared _ _ := .isTrue trivial

/-- What emission relies on. -/
def resolved (program : Program) : Rule := (linked program).and (placed program)

end Rule

namespace Emission

/-- The error of a constant that cannot be read. -/
def IsLiteral (error : EmissionError) : Prop := ∃ cause, error = .literal cause

variable {context : Context} {scope : Scope}

/-- The frame that holds definitions of a given depth is found. -/
theorem Context.exists_hops {depth : Nat} (found : ∃ owner ∈ context.frames, owner.depth ≤ depth) :
    ∃ hops, context.hops depth = .ok hops := by
  obtain ⟨owner, inside, above⟩ := found
  have search : (context.frames.findIdx? fun frame => frame.depth ≤ depth).isSome := by
    rw [List.findIdx?_isSome, List.any_eq_true]
    exact ⟨owner, inside, by simpa using above⟩
  obtain ⟨hops, index⟩ := Option.isSome_iff_exists.mp search
  exact ⟨hops, by rw [Context.hops, index]⟩

/-- A visible variable has a place, and the frame that holds it is found. -/
theorem settles_emitVariable (laid : scope.Laid context.layout context.frames) {id : NodeId}
    (place : context.program.isPlace id = true)
    (linked : ∃ target ∈ scope.variableIds, context.program.definition? id = some target)
    (before : Progress) : Settles IsLiteral True ((emitVariable context id).run before) := by
  obtain ⟨target, visible, defined⟩ := linked
  rw [emitVariable, if_neg (by simp [place])]
  refine .bind_of_ok (run_lift_of_ok (Context.definition_eq_ok.mpr defined) before) ?_
  rcases laid.variable visible with ⟨access, found⟩ | ⟨access, found, -, owner⟩
  · refine .bind_of_ok (run_lift_of_ok (Context.access_eq_ok.mpr found) before) ?_
    exact .of_ok rfl
  · obtain ⟨hops, counted⟩ := Context.exists_hops owner
    refine .bind_of_ok (run_lift_of_ok (Context.access_eq_ok.mpr found) before) ?_
    refine .bind_of_ok (run_lift_of_ok counted before) ?_
    exact .of_ok rfl

/-- A constant is emitted if it can be read. -/
theorem settles_emitAtom (id : NodeId) (atom : Atom) (before : Progress) :
    Settles IsLiteral atom.Readable ((emitAtom context id atom).run before) := by
  have settles {α : Type} (read : Except LiteralError α) :
      Settles IsLiteral (∃ value, read = .ok value) (read.mapError EmissionError.literal) := by
    cases read with
    | ok value => exact ⟨value, rfl⟩
    | error cause => exact ⟨fun ⟨_, same⟩ => (nomatch same), cause, rfl⟩
  obtain ⟨_, kind, lexeme⟩ := atom
  cases kind with
  | int => exact ((settles (Literal.readInt lexeme)).lift before).bind_ok fun _ _ => ⟨_, rfl⟩
  | char => exact ((settles (Literal.readChar lexeme)).lift before).bind_ok fun _ _ => ⟨_, rfl⟩
  | str => exact ((settles (Literal.readText lexeme)).lift before).bind_ok fun _ _ => ⟨_, rfl⟩

mutual

/-- An expression is emitted if its constants can be read. -/
theorem settles_emitValue (laid : scope.Laid context.layout context.frames) :
    (expr : Expr) → expr.Obeys (.resolved context.program) scope → (before : Progress) →
    Settles IsLiteral (expr.Obeys .readable scope) ((emitValue context expr).run before)
  | .atom id atom, _, before => by
    rw [emitValue]
    exact (settles_emitAtom id atom before).bind_ok fun _ _ => ⟨_, rfl⟩
  | .var id name, obeys, before => by
    rw [emitValue]
    exact (settles_emitVariable laid obeys.2 obeys.1 before).bind_ok fun _ _ => ⟨_, rfl⟩
  | .call id name args, ⟨own, obeysArgs⟩, before => by
    obtain ⟨function, visible, defined⟩ := own.1
    obtain ⟨frame, framed, linked⟩ := laid.function visible
    rw [emitValue]
    refine .bind_of_ok (run_lift_of_ok (Context.definition_eq_ok.mpr defined) before) ?_
    refine .bind_of_ok (run_lift_of_ok (Context.frame_eq_ok.mpr framed) before) ?_
    refine ((settles_emitArgs laid args obeysArgs before).bind_ok fun pushed middle => ?_).congr
      ⟨fun readable => ⟨trivial, readable⟩, And.right⟩
    by_cases shallow : frame.depth ≤ 1
    · rw [if_pos shallow]
      exact ⟨_, rfl⟩
    · obtain ⟨hops, counted⟩ := Context.exists_hops (linked.resolve_left shallow).2
      rw [if_neg shallow]
      refine ⟨_, run_bind_eq_ok.mpr ⟨hops, middle, run_lift_of_ok counted middle, rfl⟩⟩
  | .unary id op operand, ⟨own, obeysOperand⟩, before => by
    have wrapped (extra : Code → Code) :
        Settles IsLiteral (Expr.Obeys .readable scope (.unary id op operand))
          ((do
            let code ← emitValue context operand
            recorded id (extra code) : Emit Code).run before) :=
      ((settles_emitValue laid operand obeysOperand before).bind_ok fun _ _ => ⟨_, rfl⟩).congr
        ⟨fun readable => ⟨trivial, readable⟩, And.right⟩
    cases op with
    | plus => exact wrapped fun code => code
    | not => exact wrapped fun code => code ++ codeAt (context.span? id) [.unary .not]
    | minus => exact wrapped fun code => code ++ codeAt (context.span? id) [.unary .neg]
    | valueAt => exact wrapped fun code => code ++ codeAt (context.span? id) [.load]
    | addressOf =>
      cases operand with
      | var use name =>
        rw [emitValue]
        refine ((settles_emitVariable laid obeysOperand.2 obeysOperand.1 before).bind_ok
          fun _ _ => ⟨_, rfl⟩).congr ⟨fun _ => ⟨trivial, trivial⟩, fun _ => trivial⟩
      | atom _ _ | unary _ _ _ | binary _ _ _ _ | call _ _ _ => exact own.2.elim
  | .binary id op first second, ⟨_, obeysFirst, obeysSecond⟩, before => by
    rw [emitValue]
    refine ((settles_emitValue laid first obeysFirst before).bind fun _ middle _ =>
      (settles_emitValue laid second obeysSecond middle).bind_ok fun _ _ => ⟨_, rfl⟩).congr
      ⟨fun readable => ⟨trivial, readable⟩, And.right⟩

/-- Arguments are emitted if their constants can be read. -/
theorem settles_emitArgs (laid : scope.Laid context.layout context.frames) :
    (args : List Expr) → ExprsObey (.resolved context.program) scope args → (before : Progress) →
    Settles IsLiteral (ExprsObey .readable scope args) ((emitArgs context args).run before)
  | [], _, _ => trivial
  | arg :: rest, ⟨obeysArg, obeysRest⟩, before => by
    rw [emitArgs]
    exact ((settles_emitArgs laid rest obeysRest before).bind fun _ middle _ =>
      (settles_emitValue laid arg obeysArg middle).bind_ok fun _ _ => ⟨_, rfl⟩).congr and_comm

end

/-- A place is emitted if its constants can be read. -/
theorem settles_emitPlace (laid : scope.Laid context.layout context.frames) {expr : Expr}
    (place : expr.IsPlace) (obeys : expr.Obeys (.resolved context.program) scope)
    (before : Progress) :
    Settles IsLiteral (expr.Obeys .readable scope) ((emitPlace context expr).run before) := by
  cases expr with
  | var id name => exact settles_emitVariable laid obeys.2 obeys.1 before
  | unary id op pointer =>
    cases op with
    | valueAt =>
      have marked : context.program.isPlace id = true := obeys.1.2
      rw [emitPlace, if_neg (by simp [marked])]
      exact ((settles_emitValue laid pointer obeys.2 before).bind_ok fun _ _ => ⟨_, rfl⟩).congr
        ⟨fun readable => ⟨trivial, readable⟩, And.right⟩
    | plus | not | minus | addressOf => exact place.elim
  | atom _ _ | binary _ _ _ _ | call _ _ _ => exact place.elim

/-- The variables of a block have places in the frame. -/
theorem exists_emitLocals {label : String} {depth : Nat} {defs : List Def}
    {first last : Layout.Extent} (laid : context.layout.DefsLaid label depth defs first last)
    (before : Progress) : ∃ result, (emitLocals context defs).run before = .ok result := by
  induction defs generalizing first before with
  | nil => exact ⟨_, rfl⟩
  | cons definition rest hypothesis =>
    cases definition with
    | fn function =>
      obtain ⟨_, -, remaining⟩ := laid
      exact hypothesis remaining before
    | var declared =>
      obtain ⟨_, ⟨flat, size, -, -, access, -, -, found⟩, remaining⟩ := laid
      have own : ∃ code middle, (emitLocal context declared).run before = .ok (code, middle) := by
        rw [emitLocal]
        exact ⟨_, _, run_bind_eq_ok.mpr ⟨_, before,
          run_lift_of_ok (Context.access_eq_ok.mpr found) before, rfl⟩⟩
      obtain ⟨code, middle, done⟩ := own
      obtain ⟨⟨later, after⟩, doneRest⟩ := hypothesis remaining middle
      exact ⟨_, run_bind_eq_ok.mpr ⟨code, middle, done,
        run_bind_eq_ok.mpr ⟨later, after, doneRest, rfl⟩⟩⟩

mutual

/-- A statement is emitted, with the functions inside it, if its constants can
be read. -/
theorem settles_emitStmt {context : Context} {scope : Scope} {tail : Bool} {label : String}
    {first last : Layout.Extent} (laid : scope.Laid context.layout context.frames)
    (inFunction : context.frames ≠ []) : (stmt : Stmt) →
    stmt.Obeys (.resolved context.program) scope →
    context.layout.StmtLaid label scope.depth stmt first last → stmt.ids.Nodup →
    (before : Progress) → Fresh stmt.ids before →
    Settles IsLiteral (stmt.Obeys .readable scope) ((emitStmt context tail stmt).run before)
  | .expr id value, ⟨_, obeys⟩, _, _, before, _ => by
    rw [emitStmt]
    refine ((settles_emitValue laid value obeys before).bind_ok fun _ _ => ?_).congr
      ⟨fun readable => ⟨trivial, readable⟩, And.right⟩
    split <;> exact ⟨_, rfl⟩
  | .assign id target source, ⟨own, obeysTarget, obeysSource⟩, _, _, before, _ => by
    rw [emitStmt]
    exact ((settles_emitValue laid source obeysSource before).bind fun _ middle _ =>
      (settles_emitPlace laid own.2 obeysTarget middle).bind_ok fun _ _ => ⟨_, rfl⟩).congr
      ⟨fun readable => ⟨trivial, readable.2, readable.1⟩, fun readable => readable.2.symm⟩
  | .cond id test yes no, ⟨_, obeysTest, obeysYes, obeysNo⟩, ⟨_, laidYes, laidNo⟩, distinct,
      before, fresh => by
    obtain ⟨-, distinct⟩ := List.nodup_cons.mp distinct
    obtain ⟨-, distinctBranches, -⟩ := List.nodup_append.mp distinct
    obtain ⟨distinctYes, distinctNo, -⟩ := List.nodup_append.mp distinctBranches
    have freshInside : Fresh (test.ids ++ (idsOfStmts yes ++ idsOfStmts no))
        { before with nextBranch := before.nextBranch + 1 } :=
      fun other inside => fresh other (List.mem_cons_of_mem _ inside)
    rw [emitStmt]
    refine .bind_of_ok rfl ?_
    refine Settles.congr (.bind (settles_emitValue laid test obeysTest _) fun _ tested ranTest => ?_)
      ⟨fun readable => ⟨trivial, readable⟩, And.right⟩
    have freshBranches := freshInside.rest distinct (emitted_emitValue test ranTest)
      fun _ inside => inside
    have freshYes := freshBranches.mono fun _ inside => List.mem_append_left _ inside
    refine .bind (settles_emitStmts laid inFunction yes obeysYes laidYes distinctYes tested
      freshYes) fun _ middle ranYes => ?_
    have freshNo := freshBranches.rest distinctBranches
      (emitted_emitStmts yes ranYes distinctYes freshYes) fun _ inside => inside
    exact (settles_emitStmts laid inFunction no obeysNo laidNo distinctNo middle freshNo).bind_ok
      fun _ _ => ⟨_, rfl⟩
  | .loop id test body, ⟨_, obeysTest, obeysBody⟩, laidBody, distinct, before, fresh => by
    obtain ⟨-, distinct⟩ := List.nodup_cons.mp distinct
    have freshInside : Fresh (test.ids ++ idsOfStmts body)
        { before with nextBranch := before.nextBranch + 1 } :=
      fun other inside => fresh other (List.mem_cons_of_mem _ inside)
    rw [emitStmt]
    refine .bind_of_ok rfl ?_
    refine Settles.congr (.bind (settles_emitValue laid test obeysTest _) fun _ tested ranTest => ?_)
      ⟨fun readable => ⟨trivial, readable⟩, And.right⟩
    have freshBody := freshInside.rest distinct (emitted_emitValue test ranTest)
      fun _ inside => inside
    exact (settles_emitStmts laid inFunction body obeysBody laidBody
      (List.nodup_append.mp distinct).2.1 tested freshBody).bind_ok fun _ _ => ⟨_, rfl⟩
  | .block id defs body, ⟨_, obeysDefs, obeysBody⟩, ⟨_, laidDefs, laidBody⟩, distinct, before,
      fresh => by
    -- The numbers of the definitions are touched in two parts, around the body.
    obtain ⟨freshOrder, order⟩ := fresh.blockIds distinct
    obtain ⟨-, orderRest, -⟩ := List.nodup_append.mp order
    obtain ⟨distinctBody, distinctFunctions, -⟩ := List.nodup_append.mp orderRest
    have inside : (Scope.block defs scope).Laid context.layout context.frames :=
      ⟨inFunction, ⟨label, _, _, laidDefs⟩, laid⟩
    obtain ⟨⟨code, started⟩, ranLocals⟩ := exists_emitLocals laidDefs before
    have freshRest := freshOrder.rest order (emitted_emitLocals defs ranLocals)
      fun _ touched => touched
    have freshBody := freshRest.mono fun _ => List.mem_append_left _
    rw [emitStmt]
    refine .bind_of_ok ranLocals ?_
    refine Settles.congr (.bind (settles_emitStmts inside inFunction body obeysBody laidBody
      distinctBody started freshBody) fun _ middle ranBody => ?_)
      ⟨fun readable => ⟨trivial, readable.2, readable.1⟩, fun readable => readable.2.symm⟩
    have freshFunctions := freshRest.rest orderRest
      (emitted_emitStmts body ranBody distinctBody freshBody) fun _ touched => touched
    exact (settles_emitFunctions inside inFunction defs obeysDefs laidDefs distinctFunctions middle
      freshFunctions).bind_ok fun _ _ => ⟨_, rfl⟩

/-- Statements are emitted if their constants can be read. -/
theorem settles_emitStmts {context : Context} {scope : Scope} {tail : Bool} {label : String}
    {first last : Layout.Extent} (laid : scope.Laid context.layout context.frames)
    (inFunction : context.frames ≠ []) : (stmts : List Stmt) →
    StmtsObey (.resolved context.program) scope stmts →
    context.layout.StmtsLaid label scope.depth stmts first last → (idsOfStmts stmts).Nodup →
    (before : Progress) → Fresh (idsOfStmts stmts) before →
    Settles IsLiteral (StmtsObey .readable scope stmts) ((emitStmts context tail stmts).run before)
  | [], _, _, _, _, _ => trivial
  | stmt :: rest, ⟨obeysStmt, obeysRest⟩, ⟨_, laidStmt, laidRest⟩, distinct, before, fresh => by
    obtain ⟨distinctStmt, distinctRest, -⟩ := List.nodup_append.mp distinct
    have freshStmt := fresh.mono fun _ inside => List.mem_append_left _ inside
    rw [emitStmts]
    refine (settles_emitStmt laid inFunction stmt obeysStmt laidStmt distinctStmt before
      freshStmt).bind fun _ middle ran => ?_
    have emitted := emitted_emitStmt stmt ran distinctStmt freshStmt
    exact (settles_emitStmts laid inFunction rest obeysRest laidRest distinctRest middle
      (fresh.rest distinct emitted fun _ inside => inside)).bind_ok fun _ _ => ⟨_, rfl⟩

/-- The functions of a block are emitted if their constants can be read. -/
theorem settles_emitFunctions {context : Context} {scope : Scope} {label : String}
    {first last : Layout.Extent} (laid : scope.Laid context.layout context.frames)
    (inFunction : context.frames ≠ []) : (defs : List Def) →
    DefsObey (.resolved context.program) scope defs →
    context.layout.DefsLaid label scope.depth defs first last →
    ((functionsIn defs).flatMap FunDef.ids).Nodup → (before : Progress) →
    Fresh ((functionsIn defs).flatMap FunDef.ids) before →
    Settles IsLiteral (DefsObey .readable scope defs) ((emitFunctions context defs).run before)
  | [], _, _, _, _, _ => trivial
  | .fn function :: rest, ⟨obeysFunction, obeysRest⟩, ⟨_, laidFunction, laidRest⟩, distinct, before,
      fresh => by
    change (function.ids ++ (functionsIn rest).flatMap FunDef.ids).Nodup at distinct
    change Fresh (function.ids ++ (functionsIn rest).flatMap FunDef.ids) before at fresh
    obtain ⟨distinctFunction, distinctRest, -⟩ := List.nodup_append.mp distinct
    have freshFunction := fresh.mono fun _ inside => List.mem_append_left _ inside
    rw [emitFunctions]
    refine .bind (settles_emitFunction laid function obeysFunction laidFunction distinctFunction
      before freshFunction) fun _ middle ran => ?_
    have emitted := emitted_emitFunction function ran distinctFunction freshFunction
    exact settles_emitFunctions laid inFunction rest obeysRest laidRest distinctRest middle
      (fresh.rest distinct emitted fun _ inside => inside)
  | .var _ :: rest, ⟨_, obeysRest⟩, ⟨_, _, laidRest⟩, distinct, before, fresh => by
    rw [emitFunctions]
    exact (settles_emitFunctions laid inFunction rest obeysRest laidRest distinct before
      fresh).congr ⟨fun readable => ⟨trivial, readable⟩, And.right⟩

/-- A function is emitted if the constants in it can be read. -/
theorem settles_emitFunction {context : Context} {scope : Scope} {outer : Option String}
    {first last : LabelSet} (laid : scope.Laid context.layout context.frames) :
    (function : FunDef) → function.Obeys (.resolved context.program) scope →
    context.layout.FunctionLaid outer scope.depth function first last → function.ids.Nodup →
    (before : Progress) → Fresh function.ids before →
    Settles IsLiteral (function.Obeys .readable scope) ((emitFunction context function).run before)
  | ⟨id, name, params, []⟩, _, _, _, before, _ =>
    (Settles.of_ok rfl).congr ⟨fun _ => ⟨trivial, trivial⟩, fun _ => trivial⟩
  | ⟨id, name, params, stmt :: rest⟩, ⟨_, obeys⟩, laidFunction, distinct, before, fresh => by
    obtain ⟨frame, framed, -⟩ := laidFunction.frame
    have inside := laid.enter laidFunction
    obtain ⟨-, _, _, _, -, laidBody, -⟩ := laidFunction
    rw [Layout.frameOf_eq framed] at inside
    obtain ⟨-, distinctInside⟩ := List.nodup_cons.mp distinct
    have notYet : before.code.contains id = false := by
      rw [← Std.TreeMap.isSome_getElem?_eq_contains, fresh id (by simp [FunDef.ids])]
      rfl
    rw [emitFunction]
    refine .bind_of_ok rfl ?_
    rw [if_neg (by simp [notYet])]
    refine .bind_of_ok (run_lift_of_ok (Context.frame_eq_ok.mpr framed) before) ?_
    have freshBody := fresh.mono fun _ inBody =>
      List.mem_cons_of_mem _ (List.mem_append_right _ inBody)
    have settlesBody := @settles_emitStmts (context.enter frame) _ true _ _ _ inside
      (List.cons_ne_nil _ _) (stmt :: rest) obeys laidBody
      (List.nodup_append.mp distinctInside).2.1 before freshBody
    exact (settlesBody.bind_ok fun _ _ => ⟨_, rfl⟩).congr
      ⟨fun readable => ⟨trivial, readable⟩, And.right⟩

end

/-- A global variable has a label. -/
theorem exists_emitGlobal {globals : Table String} {declared : VarDef}
    (laid : context.layout.GlobalLaid globals declared) (before : Progress) :
    ∃ after, (emitGlobal context declared).run before = .ok ((), after) := by
  obtain ⟨flat, size, -, found⟩ := laid
  rw [emitGlobal]
  exact ⟨_, run_bind_eq_ok.mpr ⟨_, before,
    run_lift_of_ok (Context.access_eq_ok.mpr found) before, rfl⟩⟩

/-- The definitions at the top level are emitted if the constants in them can be
read. -/
theorem settles_emitTop {globals : Table String} (laid : scope.Laid context.layout context.frames)
    (top : scope.depth = 0) {defs : List Def} {first last : LabelSet}
    (obeys : DefsObey (.resolved context.program) scope defs)
    (laidDefs : context.layout.TopLaid globals defs first last) (distinct : (idsOfDefs defs).Nodup)
    (before : Progress) (fresh : Fresh (idsOfDefs defs) before) :
    Settles IsLiteral (DefsObey .readable scope defs) ((emitTop context defs).run before) := by
  induction defs generalizing first before with
  | nil => exact trivial
  | cons definition rest hypothesis =>
    cases definition with
    | fn function =>
      obtain ⟨_, laidFunction, laidRest⟩ := laidDefs
      obtain ⟨distinctFunction, distinctRest, -⟩ := List.nodup_append.mp distinct
      have freshFunction := fresh.mono fun _ inside => List.mem_append_left _ inside
      rw [emitTop]
      refine .bind (settles_emitFunction laid function obeys.1 (top ▸ laidFunction)
        distinctFunction before freshFunction) fun _ middle ran => ?_
      have emitted := emitted_emitFunction function ran distinctFunction freshFunction
      exact hypothesis obeys.2 laidRest distinctRest middle
        (fresh.rest distinct emitted fun _ inside => inside)
    | var declared =>
      obtain ⟨middle, ran⟩ := exists_emitGlobal laidDefs.1 before
      have distinctParts : ([declared.id] ++ idsOfDefs rest).Nodup := distinct
      rw [emitTop]
      refine .bind_of_ok ran ?_
      refine (hypothesis obeys.2 laidDefs.2 (List.nodup_cons.mp distinct).2 middle
        (Fresh.rest fresh distinctParts (emitted_emitGlobal ran) fun _ inside => inside)).congr
        ⟨fun readable => ⟨trivial, readable⟩, And.right⟩

end Emission

end ScopeStack
