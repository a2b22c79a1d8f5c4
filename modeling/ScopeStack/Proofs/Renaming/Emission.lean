import Mathlib.Data.List.Forall2
import ScopeStack.Image.Assembly
import ScopeStack.Proofs.Renaming.Layout

/-!
# Emission depends neither on numbers nor on locations

Emission of a program and of the program with its nodes renumbered run side by side. They emit the
same instructions and data for corresponding nodes, and fail with the same errors up to the number
of a node that lacks an attribute. Locations get into the code as spans and nowhere else: where
`located` is asked for, they are the same on both sides and so are the spans, and otherwise
everything but the spans is the same.
-/

namespace ScopeStack

/-- The same items in the same order, which stem from the same places where that is asked for. -/
def SameLines {α : Type} (located : Prop) (lines other : List (Located α)) : Prop :=
  List.Forall₂ (fun line another => line.item = another.item ∧ (located → line.span = another.span))
    lines other

namespace SameLines

variable {α : Type} {located : Prop} {lines other more another : List (Located α)}

/-- Lines that are put together from the same lines are the same. -/
theorem append (first : SameLines located lines other) (second : SameLines located more another) :
    SameLines located (lines ++ more) (other ++ another) := List.rel_append first second

/-- Items that stem from one place each. -/
theorem ofItems {span span' : Option Span} (same : located → span = span') (items : List α) :
    SameLines located (items.map (⟨·, span⟩)) (items.map (⟨·, span'⟩)) := by
  induction items with
  | nil => exact .nil
  | cons item rest hypothesis => exact .cons ⟨rfl, same⟩ hypothesis

end SameLines

namespace EmissionError

/-- The error with the number of the node that it mentions changed. -/
def rename (renumber : NodeId → NodeId) : EmissionError → EmissionError
  | .missing what node => .missing what (renumber node)
  | other => other

/-- The error at another place, if it mentions one. -/
def respan (span : Span) : EmissionError → EmissionError
  | .notPlace _ => .notPlace span
  | .notAddressable _ => .notAddressable span
  | other => other

/-- The errors are the same up to the number that they mention, and at the same place where that
is asked for. -/
def Renamed (renumber : NodeId → NodeId) (located : Prop) (error other : EmissionError) : Prop :=
  (∃ span, other = (error.rename renumber).respan span) ∧ (located → other = error.rename renumber)

end EmissionError

namespace Emission

/-- The same has been emitted up to numbers, and up to spans unless they are asked for. -/
structure Progress.Renamed (renumber : NodeId → NodeId) (located : Prop)
    (progress other : Progress) : Prop where
  code : Table.Moved renumber (SameLines located) progress.code other.code
  data : Table.Moved renumber (SameLines located) progress.data other.data
  dataOrder : other.dataOrder = progress.dataOrder.map renumber
  nextBranch : progress.nextBranch = other.nextBranch
  nextConstant : progress.nextConstant = other.nextConstant

/-- The same is looked up at corresponding numbers. -/
structure Context.Renamed (renumber : NodeId → NodeId) (located : Prop)
    (context other : Context) : Prop where
  program : context.program.Renamed renumber located other.program
  layout : context.layout.Renamed renumber other.layout
  frames : context.frames = other.frames

/-- Two steps of emission do the same up to numbers, and up to spans unless they are asked for. -/
abbrev SameEmit {α β : Type} (renumber : NodeId → NodeId) (located : Prop) (values : α → β → Prop)
    (left : Emit α) (right : Emit β) : Prop :=
  Parallel (EmissionError.Renamed renumber located) (Progress.Renamed renumber located) values
    left right

section Lookup

variable {renumber : NodeId → NodeId} {located : Prop} {context other : Context}

namespace Context.Renamed

/-- A node keeps its location. -/
theorem span? (renamed : context.Renamed renumber located other) (id : NodeId) :
    located → context.span? id = other.span? (renumber id) :=
  fun asked => (renamed.program.location asked id).symm

/-- A node keeps its location, or has none. -/
theorem span (renamed : context.Renamed renumber located other) (id : NodeId) :
    located → context.span id = other.span (renumber id) := by
  intro asked
  rw [Context.span, Context.span, renamed.span? id asked]

/-- A use is linked to the renamed definition. -/
theorem definition (renamed : context.Renamed renumber located other) (id : NodeId) :
    Alike (EmissionError.Renamed renumber located) (fun target target' => target' = renumber target)
      (context.definition id) (other.definition (renumber id)) := by
  rw [Context.definition, Context.definition, renamed.program.definition id]
  cases context.program.definition? id with
  | some target => exact .ok rfl
  | none => exact .error ⟨⟨.point 0 0, rfl⟩, fun _ => rfl⟩

/-- A function keeps its frame. -/
theorem frame (renamed : context.Renamed renumber located other) (id : NodeId) :
    Alike (EmissionError.Renamed renumber located) Eq (context.frame id)
      (other.frame (renumber id)) := by
  rw [Context.frame, Context.frame, renamed.layout.frames.getElem?_eq id]
  cases context.layout.frames[id]? with
  | some frame => exact .ok rfl
  | none => exact .error ⟨⟨.point 0 0, rfl⟩, fun _ => rfl⟩

/-- A variable keeps its place. -/
theorem access (renamed : context.Renamed renumber located other) (id : NodeId) :
    Alike (EmissionError.Renamed renumber located) Eq (context.access id)
      (other.access (renumber id)) := by
  rw [Context.access, Context.access, renamed.layout.accesses.getElem?_eq id]
  cases context.layout.accesses[id]? with
  | some access => exact .ok rfl
  | none => exact .error ⟨⟨.point 0 0, rfl⟩, fun _ => rfl⟩

/-- The distance of a frame does not depend on numbers. -/
theorem hops (renamed : context.Renamed renumber located other) (depth : Nat) :
    Alike (EmissionError.Renamed renumber located) Eq (context.hops depth) (other.hops depth) := by
  rw [Context.hops, Context.hops, renamed.frames]
  split
  · exact .ok rfl
  · exact .error ⟨⟨.point 0 0, rfl⟩, fun _ => rfl⟩

/-- Renamed surroundings stay so inside a function. -/
theorem enter (renamed : context.Renamed renumber located other) (frame : Frame) :
    (context.enter frame).Renamed renumber located (other.enter frame) :=
  ⟨renamed.program, renamed.layout, congrArg (frame :: ·) renamed.frames⟩

end Context.Renamed

end Lookup

section Steps

variable {renumber : NodeId → NodeId} {located : Prop}

/-- Labels of branches do not depend on numbers. -/
theorem sameEmit_freshBranch : SameEmit renumber located Eq freshBranch freshBranch := by
  refine .modifyGet fun progress other renamed => ?_
  refine ⟨renamed.nextBranch, { renamed with nextBranch := ?_ }⟩
  exact congrArg (· + 1) renamed.nextBranch

/-- Labels of constants do not depend on numbers. -/
theorem sameEmit_freshConstant : SameEmit renumber located Eq freshConstant freshConstant := by
  refine .modifyGet fun progress other renamed => ?_
  refine ⟨by rw [renamed.nextConstant], { renamed with nextConstant := ?_ }⟩
  exact congrArg (· + 1) renamed.nextConstant

/-- The same code is recorded for a node under its new number. -/
theorem sameEmit_record (injective : Function.Injective renumber) (id : NodeId) {code code' : Code}
    (same : SameLines located code code') :
    SameEmit renumber located (fun _ _ => True) (record id code) (record (renumber id) code') :=
  .modify fun _ _ renamed => { renamed with code := renamed.code.insert injective id same }

/-- Code that is recorded on the way is the same. -/
theorem sameEmit_recorded (injective : Function.Injective renumber) (id : NodeId)
    {code code' : Code} (same : SameLines located code code') :
    SameEmit renumber located (SameLines located) (recorded id code)
      (recorded (renumber id) code') :=
  (sameEmit_record injective id same).seq fun _ _ => .pure same

/-- The same data are added for a node under its new number. -/
theorem sameEmit_addData (injective : Function.Injective renumber) (id : NodeId) {data data' : Data}
    (same : SameLines located data data') :
    SameEmit renumber located (fun _ _ => True) (addData id data)
      (addData (renumber id) data') := by
  refine .modify fun progress other renamed => ?_
  refine { renamed with data := renamed.data.insert injective id same, dataOrder := ?_ }
  rw [renamed.dataOrder, List.map_append]
  rfl

/-- A spelling is read alike on both sides. -/
theorem sameEmit_literal {α : Type} (read : Except LiteralError α) :
    SameEmit renumber located Eq (liftM (read.mapError EmissionError.literal))
      (liftM (read.mapError EmissionError.literal)) := by
  refine .lift ?_
  cases read with
  | ok value => exact .ok rfl
  | error cause => exact .error ⟨⟨.point 0 0, rfl⟩, fun _ => rfl⟩

end Steps

section Expressions

variable {renumber : NodeId → NodeId} {located : Prop} {context other : Context}

/-- A constant is emitted alike. -/
theorem sameEmit_emitAtom (injective : Function.Injective renumber)
    (renamed : context.Renamed renumber located other) (id : NodeId) (atom : Atom) :
    SameEmit renumber located (SameLines located) (emitAtom context id atom)
      (emitAtom other (renumber id) (atom.rename renumber)) := by
  have span := renamed.span? id
  obtain ⟨own, kind, lexeme⟩ := atom
  cases kind with
  | int =>
    refine (sameEmit_literal (Literal.readInt lexeme)).bind fun value _ same => ?_
    subst same
    exact .pure (.ofItems span _)
  | char =>
    refine (sameEmit_literal (Literal.readChar lexeme)).bind fun value _ same => ?_
    subst same
    exact .pure (.ofItems span _)
  | str =>
    refine (sameEmit_literal (Literal.readText lexeme)).bind fun words _ same => ?_
    subst same
    refine sameEmit_freshConstant.bind fun label _ same => ?_
    subst same
    refine (sameEmit_addData injective id (.ofItems span _)).seq fun _ _ => ?_
    exact .pure (.ofItems span _)

/-- What is not a place is so under any number. -/
theorem notPlace_renamed (renamed : context.Renamed renumber located other) (id : NodeId) :
    EmissionError.Renamed renumber located (.notPlace (context.span id))
      (.notPlace (other.span (renumber id))) :=
  ⟨⟨_, rfl⟩, fun asked => congrArg EmissionError.notPlace (renamed.span id asked).symm⟩

/-- What has no address has none under any number. -/
theorem notAddressable_renamed (renamed : context.Renamed renumber located other) (id : NodeId) :
    EmissionError.Renamed renumber located (.notAddressable (context.span id))
      (.notAddressable (other.span (renumber id))) :=
  ⟨⟨_, rfl⟩, fun asked => congrArg EmissionError.notAddressable (renamed.span id asked).symm⟩

/-- A variable is emitted alike. -/
theorem sameEmit_emitVariable (injective : Function.Injective renumber)
    (renamed : context.Renamed renumber located other) (id : NodeId) :
    SameEmit renumber located (SameLines located) (emitVariable context id)
      (emitVariable other (renumber id)) := by
  have span := renamed.span? id
  rw [emitVariable, emitVariable, renamed.program.place id]
  cases context.program.isPlace id with
  | false => exact .throw (notPlace_renamed renamed id)
  | true =>
    refine .bind (.lift (renamed.definition id)) fun target _ same => ?_
    subst same
    refine .bind (.lift (renamed.access target)) fun access _ same => ?_
    subst same
    cases access with
    | abs access => exact sameEmit_recorded injective id (.ofItems span _)
    | rel access =>
      refine .bind (.lift (renamed.hops access.depth)) fun hops _ same => ?_
      subst same
      exact sameEmit_recorded injective id (.ofItems span _)

mutual

/-- The value of an expression is emitted alike. -/
theorem sameEmit_emitValue (injective : Function.Injective renumber)
    (renamed : context.Renamed renumber located other) : (expr : Expr) →
    SameEmit renumber located (SameLines located) (emitValue context expr)
      (emitValue other (expr.rename renumber))
  | .atom id atom =>
    (sameEmit_emitAtom injective renamed id atom).bind fun _ _ same =>
      sameEmit_recorded injective id same
  | .var id _ =>
    (sameEmit_emitVariable injective renamed id).bind fun _ _ same =>
      sameEmit_recorded injective id (same.append (.ofItems (renamed.span? id) _))
  | .call id name args => by
    have span := renamed.span? id
    rw [Expr.rename, emitValue, emitValue]
    refine .bind (.lift (renamed.definition id)) fun target _ same => ?_
    subst same
    refine .bind (.lift (renamed.frame target)) fun frame _ same => ?_
    subst same
    refine (sameEmit_emitArgs injective renamed args).bind fun pushed pushed' same => ?_
    split
    · exact sameEmit_recorded injective id (same.append (.ofItems span _))
    · refine .bind (.lift (renamed.hops (frame.depth - 1))) fun hops _ equal => ?_
      subst equal
      exact sameEmit_recorded injective id (same.append (.ofItems span _))
  | .unary id op operand => by
    have span := renamed.span? id
    rw [Expr.rename]
    cases op with
    | plus =>
      exact (sameEmit_emitValue injective renamed operand).bind fun _ _ same =>
        sameEmit_recorded injective id same
    | not =>
      exact (sameEmit_emitValue injective renamed operand).bind fun _ _ same =>
        sameEmit_recorded injective id (same.append (.ofItems span _))
    | minus =>
      exact (sameEmit_emitValue injective renamed operand).bind fun _ _ same =>
        sameEmit_recorded injective id (same.append (.ofItems span _))
    | valueAt =>
      exact (sameEmit_emitValue injective renamed operand).bind fun _ _ same =>
        sameEmit_recorded injective id (same.append (.ofItems span _))
    | addressOf =>
      cases operand with
      | var use name =>
        exact (sameEmit_emitVariable injective renamed use).bind fun _ _ same =>
          sameEmit_recorded injective id same
      | _ => exact .throw (notAddressable_renamed renamed id)
  | .binary id op first second => by
    rw [Expr.rename, emitValue, emitValue]
    refine (sameEmit_emitValue injective renamed first).bind fun left left' sameLeft => ?_
    refine (sameEmit_emitValue injective renamed second).bind fun right right' sameRight => ?_
    exact sameEmit_recorded injective id
      ((sameLeft.append sameRight).append (.ofItems (renamed.span? id) _))

/-- Arguments are emitted alike. -/
theorem sameEmit_emitArgs (injective : Function.Injective renumber)
    (renamed : context.Renamed renumber located other) : (args : List Expr) →
    SameEmit renumber located (SameLines located) (emitArgs context args)
      (emitArgs other (renameExprs renumber args))
  | [] => .pure .nil
  | arg :: rest => by
    rw [renameExprs, emitArgs, emitArgs]
    refine (sameEmit_emitArgs injective renamed rest).bind fun later later' sameRest => ?_
    refine (sameEmit_emitValue injective renamed arg).bind fun code code' sameArg => ?_
    exact .pure (sameRest.append sameArg)

end

/-- The address of a place is emitted alike. -/
theorem sameEmit_emitPlace (injective : Function.Injective renumber)
    (renamed : context.Renamed renumber located other) (expr : Expr) :
    SameEmit renumber located (SameLines located) (emitPlace context expr)
      (emitPlace other (expr.rename renumber)) := by
  have elsewhere := notPlace_renamed renamed expr.id
  cases expr with
  | var id name => exact sameEmit_emitVariable injective renamed id
  | unary id op operand =>
    cases op with
    | valueAt =>
      rw [Expr.rename, emitPlace, emitPlace, renamed.program.place id]
      cases context.program.isPlace id with
      | false => exact .throw elsewhere
      | true =>
        exact (sameEmit_emitValue injective renamed operand).bind fun _ _ same =>
          sameEmit_recorded injective id same
    | _ => exact .throw elsewhere
  | _ => exact .throw elsewhere

end Expressions

section Statements

variable {renumber : NodeId → NodeId} {located : Prop}

/-- A local variable is emitted alike. -/
theorem sameEmit_emitLocal (injective : Function.Injective renumber) {context other : Context}
    (renamed : context.Renamed renumber located other) (declared : VarDef) :
    SameEmit renumber located (SameLines located) (emitLocal context declared)
      (emitLocal other (declared.rename renumber)) := by
  have span := renamed.span? declared.id
  refine .bind (.lift (renamed.access declared.id)) fun access _ same => ?_
  subst same
  cases access with
  | abs access => exact .throw ⟨⟨.point 0 0, rfl⟩, fun _ => rfl⟩
  | rel access =>
    refine sameEmit_freshConstant.bind fun label _ same => ?_
    subst same
    refine (sameEmit_addData injective declared.id (.ofItems span _)).seq fun _ _ => ?_
    exact sameEmit_recorded injective declared.id (.ofItems span _)

/-- The variables of a block are emitted alike. -/
theorem sameEmit_emitLocals (injective : Function.Injective renumber) {context other : Context}
    (renamed : context.Renamed renumber located other) (defs : List Def) :
    SameEmit renumber located (SameLines located) (emitLocals context defs)
      (emitLocals other (renameDefs renumber defs)) := by
  induction defs with
  | nil => exact .pure .nil
  | cons definition rest hypothesis =>
    cases definition with
    | fn function => exact hypothesis
    | var declared =>
      refine (sameEmit_emitLocal injective renamed declared).bind fun code code' same => ?_
      exact hypothesis.bind fun later later' sameLater => .pure (same.append sameLater)

mutual

/-- A statement is emitted alike. -/
theorem sameEmit_emitStmt (injective : Function.Injective renumber) {context other : Context}
    {tail : Bool} : (stmt : Stmt) → context.Renamed renumber located other →
    SameEmit renumber located (SameLines located) (emitStmt context tail stmt)
      (emitStmt other tail (stmt.rename renumber))
  | .expr id value, renamed => by
    rw [Stmt.rename, emitStmt, emitStmt]
    refine (sameEmit_emitValue injective renamed value).bind fun code code' same => ?_
    cases tail with
    | true => exact sameEmit_recorded injective id same
    | false => exact sameEmit_recorded injective id (same.append (.ofItems (renamed.span? id) _))
  | .assign id target source, renamed => by
    rw [Stmt.rename, emitStmt, emitStmt]
    refine (sameEmit_emitValue injective renamed source).bind fun value value' same => ?_
    refine (sameEmit_emitPlace injective renamed target).bind fun place place' samePlace => ?_
    exact sameEmit_recorded injective id
      ((same.append samePlace).append (.ofItems (renamed.span? id) _))
  | .cond id test yes no, renamed => by
    have span := renamed.span? id
    rw [Stmt.rename, emitStmt, emitStmt]
    refine sameEmit_freshBranch.bind fun number _ equal => ?_
    subst equal
    refine (sameEmit_emitValue injective renamed test).bind fun test test' sameTest => ?_
    refine (sameEmit_emitStmts injective yes renamed).bind fun yes yes' sameYes => ?_
    refine (sameEmit_emitStmts injective no renamed).bind fun no no' sameNo => ?_
    refine sameEmit_recorded injective id (.append (.append (.append ?_ ?_) sameNo) ?_)
    · exact (sameTest.append (.ofItems span _)).append sameYes
    · exact .ofItems span _
    · exact .ofItems span _
  | .loop id test body, renamed => by
    have span := renamed.span? id
    rw [Stmt.rename, emitStmt, emitStmt]
    refine sameEmit_freshBranch.bind fun number _ equal => ?_
    subst equal
    refine (sameEmit_emitValue injective renamed test).bind fun test test' sameTest => ?_
    refine (sameEmit_emitStmts injective body renamed).bind fun body body' sameBody => ?_
    refine sameEmit_recorded injective id (.append (.append (.append ?_ ?_) sameBody) ?_)
    · exact .append (.ofItems span _) sameTest
    · exact .ofItems span _
    · exact .ofItems span _
  | .block id defs body, renamed => by
    rw [Stmt.rename, emitStmt, emitStmt]
    refine (sameEmit_emitLocals injective renamed defs).bind fun start start' sameStart => ?_
    refine (sameEmit_emitStmts injective body renamed).bind fun body body' sameBody => ?_
    refine (sameEmit_emitFunctions injective defs renamed).seq fun _ _ => ?_
    exact sameEmit_recorded injective id (sameStart.append sameBody)

/-- Statements are emitted alike. -/
theorem sameEmit_emitStmts (injective : Function.Injective renumber) {context other : Context}
    {tail : Bool} : (stmts : List Stmt) → context.Renamed renumber located other →
    SameEmit renumber located (SameLines located) (emitStmts context tail stmts)
      (emitStmts other tail (renameStmts renumber stmts))
  | [], _ => .pure .nil
  | stmt :: rest, renamed => by
    rw [renameStmts, emitStmts, emitStmts, isEmpty_renameStmts]
    refine (sameEmit_emitStmt injective stmt renamed).bind fun code code' same => ?_
    refine (sameEmit_emitStmts injective rest renamed).bind fun later later' sameLater => ?_
    exact .pure (same.append sameLater)

/-- Functions are emitted alike. -/
theorem sameEmit_emitFunctions (injective : Function.Injective renumber) {context other : Context} :
    (defs : List Def) → context.Renamed renumber located other →
    SameEmit renumber located (fun _ _ => True) (emitFunctions context defs)
      (emitFunctions other (renameDefs renumber defs))
  | [], _ => .pure trivial
  | .fn function :: rest, renamed =>
    (sameEmit_emitFunction injective function renamed).seq fun _ _ =>
      sameEmit_emitFunctions injective rest renamed
  | .var _ :: rest, renamed => sameEmit_emitFunctions injective rest renamed

/-- A function is emitted alike, or passed over on both sides. -/
theorem sameEmit_emitFunction (injective : Function.Injective renumber) {context other : Context} :
    (function : FunDef) → context.Renamed renumber located other →
    SameEmit renumber located (fun _ _ => True) (emitFunction context function)
      (emitFunction other (function.rename renumber))
  | ⟨id, name, params, body⟩, renamed => by
    have span := renamed.span? id
    rw [FunDef.rename, emitFunction, emitFunction, isEmpty_renameStmts, leavesValue_renameStmts]
    refine Parallel.get.bind fun progress progress' same => ?_
    rw [same.code.contains_eq id]
    split
    · exact .pure trivial
    · refine .bind (.lift (renamed.frame id)) fun frame _ equal => ?_
      subst equal
      refine (sameEmit_emitStmts injective body (renamed.enter frame)).bind
        fun code code' sameBody => ?_
      exact sameEmit_record injective id
        ((SameLines.append (.ofItems span _) sameBody).append (.ofItems span _))

end

end Statements

end Emission

end ScopeStack
