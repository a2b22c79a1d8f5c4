import ScopeStack.Proofs.Initializers
import ScopeStack.Proofs.Layout.Placement
import ScopeStack.Proofs.Scope

/-!
# When a program can be laid out

A layout fails only because of an initializer. A program can be laid out if and
only if all its initializers are well formed, `settles_ofProgram`.
-/

namespace ScopeStack

open Stateful

/-- The initializer of a variable is flat and has a size. -/
def VarDef.Measurable (declared : VarDef) : Prop :=
  ∃ flat size, Initializer.flatten declared.items = .ok flat ∧ Initializer.byteSize flat = .ok size

/-- All initializers are well formed. -/
def Rule.measurable : Rule where
  expr _ _ := True
  stmt _ _ := True
  function _ _ := True
  declared _ declared := declared.Measurable

/-- Expressions define nothing that has to be measured. -/
theorem Expr.obeys_measurable (scope : Scope) (expr : Expr) : expr.Obeys .measurable scope :=
  expr.obeys_of_forall fun _ => trivial

namespace Layout

/-- A variable can be measured if its initializer is well formed. -/
theorem settles_measure (declared : VarDef) :
    Settles (fun _ : LayoutError => True) declared.Measurable (measure declared) := by
  cases measured : measure declared with
  | ok pair =>
    obtain ⟨flat, size⟩ := pair
    exact ⟨flat, size, measure_eq_ok.mp measured⟩
  | error cause =>
    refine ⟨?_, trivial⟩
    rintro ⟨flat, size, wellFormed⟩
    rw [measure_eq_ok.mpr wellFormed] at measured
    cases measured

instance (declared : VarDef) : Decidable declared.Measurable :=
  match outcome : measure declared with
  | .ok (flat, size) => .isTrue ⟨flat, size, measure_eq_ok.mp outcome⟩
  | .error _ => .isFalse (by
    have settles := settles_measure declared
    rw [outcome] at settles
    exact settles.1)

instance : Rule.measurable.Checkable where
  expr _ _ := .isTrue trivial
  stmt _ _ := .isTrue trivial
  function _ _ := .isTrue trivial
  declared _ declared := inferInstanceAs (Decidable declared.Measurable)

/-- Recording the places of parameters succeeds. -/
theorem exists_setParams (params : List Param) (accesses : List RelAccess) (before : Progress) :
    ∃ result, (setParams params accesses).run before = .ok result := by
  induction params generalizing accesses before with
  | nil => exact ⟨_, rfl⟩
  | cons param rest hypothesis =>
    cases accesses with
    | nil => exact ⟨_, rfl⟩
    | cons access later => exact hypothesis later _

/-- A local variable is laid out if and only if it can be measured. -/
theorem settles_layLocal (depth : Nat) (declared : VarDef) (locals : Locals) (before : Progress) :
    Settles (fun _ => True) declared.Measurable ((layLocal depth declared locals).run before) :=
  ((settles_measure declared).lift before).bind_ok fun _ _ => ⟨_, rfl⟩

/-- A global variable is laid out if and only if it can be measured. -/
theorem settles_layGlobal (globals : Table String) (declared : VarDef) (before : Progress) :
    Settles (fun _ => True) declared.Measurable ((layGlobal globals declared).run before) :=
  ((settles_measure declared).lift before).bind_ok fun _ _ => ⟨_, rfl⟩

mutual

/-- What a statement defines can be laid out if its initializers are well
formed. -/
theorem settles_layStmt (label : String) (depth : Nat) (scope : Scope) :
    (stmt : Stmt) → (locals : Locals) → (before : Progress) →
    Settles (fun _ => True) (stmt.Obeys .measurable scope)
      ((layStmt label depth stmt locals).run before)
  | .expr _ value, _, _ => ⟨trivial, value.obeys_measurable scope⟩
  | .assign _ target source, _, _ =>
    ⟨trivial, target.obeys_measurable scope, source.obeys_measurable scope⟩
  | .cond _ test yes no, locals, before => by
    rw [layStmt]
    refine ((settles_layStmts label depth scope yes locals before).bind fun middle after _ =>
      settles_layStmts label depth scope no middle after).congr ?_
    exact ⟨fun both => ⟨trivial, test.obeys_measurable scope, both⟩, fun obeys => obeys.2.2⟩
  | .loop _ test body, locals, before => by
    rw [layStmt]
    refine (settles_layStmts label depth scope body locals before).congr ?_
    exact ⟨fun own => ⟨trivial, test.obeys_measurable scope, own⟩, fun obeys => obeys.2.2⟩
  | .block _ defs body, locals, before => by
    rw [layStmt]
    refine ((settles_layDefs label (depth + 1) (.block defs scope) defs locals before).bind
      fun middle after _ =>
        settles_layStmts label (depth + 1) (.block defs scope) body middle after).congr ?_
    exact ⟨fun both => ⟨trivial, both⟩, And.right⟩

/-- What statements define can be laid out. -/
theorem settles_layStmts (label : String) (depth : Nat) (scope : Scope) :
    (stmts : List Stmt) → (locals : Locals) → (before : Progress) →
    Settles (fun _ => True) (StmtsObey .measurable scope stmts)
      ((layStmts label depth stmts locals).run before)
  | [], _, _ => trivial
  | stmt :: rest, locals, before => by
    rw [layStmts]
    exact (settles_layStmt label depth scope stmt locals before).bind fun middle after _ =>
      settles_layStmts label depth scope rest middle after

/-- The definitions of a block can be laid out. -/
theorem settles_layDefs (label : String) (depth : Nat) (scope : Scope) :
    (defs : List Def) → (locals : Locals) → (before : Progress) →
    Settles (fun _ => True) (DefsObey .measurable scope defs)
      ((layDefs label depth defs locals).run before)
  | [], _, _ => trivial
  | .fn function :: rest, locals, before => by
    rw [layDefs]
    exact (settles_layFunction (some label) depth scope function before).bind fun _ after _ =>
      settles_layDefs label depth scope rest locals after
  | .var declared :: rest, locals, before => by
    rw [layDefs]
    exact (settles_layLocal depth declared locals before).bind fun middle after _ =>
      settles_layDefs label depth scope rest middle after

/-- A function can be laid out. -/
theorem settles_layFunction (outer : Option String) (depth : Nat) (scope : Scope) :
    (function : FunDef) → (before : Progress) →
    Settles (fun _ => True) (function.Obeys .measurable scope)
      ((layFunction outer depth function).run before)
  | ⟨id, name, params, body⟩, before => by
    have remaining (label : String) (middle : Progress) (finish : Locals → Frame) :
        Settles (fun _ => True) (FunDef.Obeys .measurable scope ⟨id, name, params, body⟩)
          ((do
            setParams params (paramAccesses (depth + 1) 0 params)
            let locals ← layStmts label (depth + 1) body .empty
            setFrame id (finish locals) : Build Unit).run middle) := by
      obtain ⟨⟨⟨⟩, ready⟩, entered⟩ :=
        exists_setParams params (paramAccesses (depth + 1) 0 params) middle
      refine .bind_of_ok entered ?_
      refine ((settles_layStmts label (depth + 1) (.enter ⟨id, name, params, body⟩ scope) body
        .empty ready).bind_ok fun _ _ => ⟨_, rfl⟩).congr ?_
      exact ⟨fun own => ⟨trivial, own⟩, And.right⟩
    rw [layFunction]
    split <;> exact .bind_of_ok rfl (remaining _ _ _)

end

/-- Reserving the labels of global variables succeeds. -/
theorem exists_reserveGlobals (defs : List Def) (globals : Table String) (before : Progress) :
    ∃ result, (reserveGlobals defs globals).run before = .ok result := by
  induction defs generalizing globals before with
  | nil => exact ⟨_, rfl⟩
  | cons definition rest hypothesis =>
    cases definition with
    | fn function => exact hypothesis globals before
    | var declared => exact hypothesis _ _

/-- The definitions at the top level can be laid out. -/
theorem settles_layTop (globals : Table String) (scope : Scope) (defs : List Def)
    (before : Progress) :
    Settles (fun _ => True) (DefsObey .measurable scope defs)
      ((layTop globals defs).run before) := by
  induction defs generalizing before with
  | nil => exact trivial
  | cons definition rest hypothesis =>
    cases definition with
    | fn function =>
      exact (settles_layFunction none 0 scope function before).bind fun _ after _ =>
        hypothesis after
    | var declared =>
      exact (settles_layGlobal globals declared before).bind fun _ after _ => hypothesis after

/-- A program can be laid out if and only if its initializers are well
formed. -/
theorem settles_ofProgram (program : Program) :
    Settles (fun _ => True) (program.Obeys .measurable) (ofProgram program) := by
  obtain ⟨⟨globals, ready⟩, reserved⟩ :=
    exists_reserveGlobals program.defs ∅ ⟨empty, serviceLabels⟩
  have settles : Settles (fun _ => True) (program.Obeys .measurable)
      ((layProgram program.defs).run ⟨empty, serviceLabels⟩) :=
    .bind_of_ok reserved (settles_layTop globals (.top program.defs) program.defs ready)
  rw [ofProgram]
  cases ran : (layProgram program.defs).run ⟨empty, serviceLabels⟩ with
  | ok pair =>
    rw [ran] at settles
    exact settles
  | error cause =>
    rw [ran] at settles
    exact settles

end Layout

end ScopeStack
