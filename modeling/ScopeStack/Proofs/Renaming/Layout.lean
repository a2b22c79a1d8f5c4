import ScopeStack.Proofs.Layout.Placement
import ScopeStack.Proofs.Parallel
import ScopeStack.Proofs.Renaming.Trees

/-!
# Layout does not depend on numbers

Laying out a program and laying out the program with its nodes renumbered run side by side. They
reserve the same labels, and make the same entries at corresponding numbers:
`alike_ofProgram`. Nothing is assumed of the numbers but that different ones stay different, so a
number that belongs to several nodes is overwritten on both sides alike.
-/

namespace ScopeStack.Layout

/-- The entries of a layout are those of another one at the new numbers. -/
structure Renamed (renumber : NodeId → NodeId) (layout other : Layout) : Prop where
  frames : Table.Moved renumber Eq layout.frames other.frames
  accesses : Table.Moved renumber Eq layout.accesses other.accesses

/-- The same has been laid out up to numbers, and the same labels are in use. -/
structure Progress.Renamed (renumber : NodeId → NodeId) (progress other : Progress) : Prop where
  layout : progress.layout.Renamed renumber other.layout
  labels : progress.labels = other.labels

/-- Two steps of laying out a program do the same up to numbers. -/
abbrev SameBuild {α β : Type} (renumber : NodeId → NodeId) (values : α → β → Prop)
    (left : Build α) (right : Build β) : Prop :=
  Parallel Eq (Progress.Renamed renumber) values left right

section Steps

variable {renumber : NodeId → NodeId}

/-- Labels do not depend on numbers. -/
theorem sameBuild_reserveLabel (base : String) :
    SameBuild renumber Eq (reserveLabel base) (reserveLabel base) := by
  refine .modifyGet fun progress other renamed => ?_
  rw [renamed.labels]
  exact ⟨rfl, renamed.layout, rfl⟩

/-- The same place is set under the new number. -/
theorem sameBuild_setAccess (injective : Function.Injective renumber) (id : NodeId)
    (access : Access) :
    SameBuild renumber (fun _ _ => True) (setAccess id access) (setAccess (renumber id) access) :=
  .modify fun _ _ renamed =>
    ⟨⟨renamed.layout.frames, renamed.layout.accesses.insert injective id rfl⟩, renamed.labels⟩

/-- The same frame is set under the new number. -/
theorem sameBuild_setFrame (injective : Function.Injective renumber) (id : NodeId)
    (frame : Frame) :
    SameBuild renumber (fun _ _ => True) (setFrame id frame) (setFrame (renumber id) frame) :=
  .modify fun _ _ renamed =>
    ⟨⟨renamed.layout.frames.insert injective id rfl, renamed.layout.accesses⟩, renamed.labels⟩

/-- The same places are set for parameters under their new numbers. -/
theorem sameBuild_setParams (injective : Function.Injective renumber) (params : List Param)
    (accesses : List RelAccess) :
    SameBuild renumber (fun _ _ => True) (setParams params accesses)
      (setParams (params.map (Param.rename renumber)) accesses) := by
  induction params generalizing accesses with
  | nil => exact .pure trivial
  | cons param rest hypothesis =>
    cases accesses with
    | nil => exact .pure trivial
    | cons access later =>
      exact (sameBuild_setAccess injective param.id (.rel access)).seq fun _ _ => hypothesis later

/-- The places of parameters do not depend on numbers. -/
theorem paramAccesses_rename (depth start : Nat) (params : List Param) :
    paramAccesses depth start (params.map (Param.rename renumber)) =
      paramAccesses depth start params := by
  induction params generalizing start with
  | nil => rfl
  | cons param rest hypothesis =>
    rw [List.map_cons, paramAccesses, paramAccesses, hypothesis, Param.rename]

/-- The runs of an initializer are read from spellings, and not from numbers. -/
theorem runsOfItems_rename (items : List InitItem) :
    Initializer.runsOfItems (items.map (InitItem.rename renumber)) =
      Initializer.runsOfItems items := by
  induction items with
  | nil => rfl
  | cons item rest hypothesis =>
    rw [List.map_cons, Initializer.runsOfItems, Initializer.runsOfItems, hypothesis]
    rfl

/-- The size of a variable does not depend on numbers. -/
theorem measure_rename (declared : VarDef) :
    measure (declared.rename renumber) = measure declared := by
  have runs : Initializer.runs (declared.items.map (InitItem.rename renumber)) =
      Initializer.runs declared.items := by
    rw [Initializer.runs, Initializer.runs, List.isEmpty_map, List.length_map, runsOfItems_rename]
  rw [measure, measure, Initializer.flatten, Initializer.flatten, VarDef.rename, runs]

/-- A local variable is laid out alike. -/
theorem sameBuild_layLocal (injective : Function.Injective renumber) (depth : Nat)
    (declared : VarDef) (locals : Locals) :
    SameBuild renumber Eq (layLocal depth declared locals)
      (layLocal depth (declared.rename renumber) locals) := by
  rw [layLocal, layLocal, measure_rename]
  refine .bind (.lift (.refl _)) fun measured _ same => ?_
  subst same
  exact (sameBuild_setAccess injective declared.id _).seq fun _ _ => .pure rfl

/-- A function gets the same label. -/
theorem sameBuild_functionLabel (outer : Option String) (name : String) (body : List Stmt) :
    SameBuild renumber Eq (functionLabel outer name body)
      (functionLabel outer name (renameStmts renumber body)) := by
  rw [functionLabel, functionLabel, isEmpty_renameStmts]
  split
  · exact .pure rfl
  · exact sameBuild_reserveLabel _

mutual

/-- A statement is laid out alike. -/
theorem sameBuild_layStmt (injective : Function.Injective renumber) {label : String} {depth : Nat} :
    (stmt : Stmt) → (locals : Locals) →
    SameBuild renumber Eq (layStmt label depth stmt locals)
      (layStmt label depth (stmt.rename renumber) locals)
  | .expr _ _, _ => .pure rfl
  | .assign _ _ _, _ => .pure rfl
  | .cond _ _ yes no, locals => by
    refine (sameBuild_layStmts injective yes locals).bind fun middle _ same => ?_
    subst same
    exact sameBuild_layStmts injective no middle
  | .loop _ _ body, locals => sameBuild_layStmts injective body locals
  | .block _ defs body, locals => by
    refine (sameBuild_layDefs injective defs locals).bind fun middle _ same => ?_
    subst same
    exact sameBuild_layStmts injective body middle

/-- Statements are laid out alike. -/
theorem sameBuild_layStmts (injective : Function.Injective renumber) {label : String}
    {depth : Nat} : (stmts : List Stmt) → (locals : Locals) →
    SameBuild renumber Eq (layStmts label depth stmts locals)
      (layStmts label depth (renameStmts renumber stmts) locals)
  | [], _ => .pure rfl
  | stmt :: rest, locals => by
    refine (sameBuild_layStmt injective stmt locals).bind fun middle _ same => ?_
    subst same
    exact sameBuild_layStmts injective rest middle

/-- The definitions of a block are laid out alike. -/
theorem sameBuild_layDefs (injective : Function.Injective renumber) {label : String} {depth : Nat} :
    (defs : List Def) → (locals : Locals) →
    SameBuild renumber Eq (layDefs label depth defs locals)
      (layDefs label depth (renameDefs renumber defs) locals)
  | [], _ => .pure rfl
  | .fn function :: rest, locals =>
    (sameBuild_layFunction injective function).seq fun _ _ =>
      sameBuild_layDefs injective rest locals
  | .var declared :: rest, locals => by
    refine (sameBuild_layLocal injective depth declared locals).bind fun middle _ same => ?_
    subst same
    exact sameBuild_layDefs injective rest middle

/-- A function is laid out alike, with all that it defines. -/
theorem sameBuild_layFunction (injective : Function.Injective renumber) {outer : Option String}
    {depth : Nat} : (function : FunDef) →
    SameBuild renumber (fun _ _ => True) (layFunction outer depth function)
      (layFunction outer depth (function.rename renumber))
  | ⟨id, name, params, body⟩ => by
    rw [FunDef.rename, layFunction_eq, layFunction_eq, paramAccesses_rename]
    refine (sameBuild_functionLabel outer name body).bind fun label _ same => ?_
    subst same
    refine (sameBuild_setParams injective params _).seq fun _ _ => ?_
    refine (sameBuild_layStmts injective body .empty).bind fun locals _ same => ?_
    subst same
    exact sameBuild_setFrame injective id _

end

/-- Global variables get the same labels. -/
theorem sameBuild_reserveGlobals (injective : Function.Injective renumber) (defs : List Def)
    {globals globals' : Table String} (moved : Table.Moved renumber Eq globals globals') :
    SameBuild renumber (Table.Moved renumber Eq) (reserveGlobals defs globals)
      (reserveGlobals (renameDefs renumber defs) globals') := by
  induction defs generalizing globals globals' with
  | nil => exact .pure moved
  | cons definition rest hypothesis =>
    cases definition with
    | fn function => exact hypothesis moved
    | var declared =>
      refine (sameBuild_reserveLabel declared.name).bind fun label _ same => ?_
      subst same
      exact hypothesis (moved.insert injective declared.id rfl)

/-- A global variable is laid out alike. -/
theorem sameBuild_layGlobal (injective : Function.Injective renumber) (declared : VarDef)
    {globals globals' : Table String} (moved : Table.Moved renumber Eq globals globals') :
    SameBuild renumber (fun _ _ => True) (layGlobal globals declared)
      (layGlobal globals' (declared.rename renumber)) := by
  have label : globals'.getD (renumber declared.id) declared.name =
      globals.getD declared.id declared.name := by
    rw [Std.TreeMap.getD_eq_getD_getElem?, Std.TreeMap.getD_eq_getD_getElem?, moved.getElem?_eq]
  rw [layGlobal, layGlobal, measure_rename, id_rename_varDef]
  refine .bind (.lift (.refl _)) fun measured _ same => ?_
  subst same
  rw [show (declared.rename renumber).name = declared.name from rfl, label]
  exact sameBuild_setAccess injective declared.id _

/-- The definitions of a program are laid out alike. -/
theorem sameBuild_layTop (injective : Function.Injective renumber) (defs : List Def)
    {globals globals' : Table String} (moved : Table.Moved renumber Eq globals globals') :
    SameBuild renumber (fun _ _ => True) (layTop globals defs)
      (layTop globals' (renameDefs renumber defs)) := by
  induction defs with
  | nil => exact .pure trivial
  | cons definition rest hypothesis =>
    cases definition with
    | fn function => exact (sameBuild_layFunction injective function).seq fun _ _ => hypothesis
    | var declared => exact (sameBuild_layGlobal injective declared moved).seq fun _ _ => hypothesis

end Steps

/-- A program and the program with its nodes renumbered have the same layout, up to numbers, or
none for the same reason. -/
theorem alike_ofProgram {renumber : NodeId → NodeId} (injective : Function.Injective renumber)
    {located : Prop} {program other : Program} (renamed : program.Renamed renumber located other) :
    Alike Eq (Renamed renumber) (ofProgram program) (ofProgram other) := by
  have start : Progress.Renamed renumber ⟨empty, serviceLabels⟩ ⟨empty, serviceLabels⟩ :=
    ⟨⟨.empty, .empty⟩, rfl⟩
  have whole : SameBuild renumber (fun _ _ => True) (layProgram program.defs)
      (layProgram other.defs) := by
    rw [renamed.defs]
    refine (sameBuild_reserveGlobals injective program.defs .empty).bind fun globals _ moved => ?_
    exact sameBuild_layTop injective program.defs moved
  exact (whole _ _ start).bind fun _ _ related => .ok related.2.layout

end ScopeStack.Layout
