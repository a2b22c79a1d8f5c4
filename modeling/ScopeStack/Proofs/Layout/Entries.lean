import ScopeStack.Proofs.Layout.Placement
import ScopeStack.Proofs.Scope

/-!
# Which entries a layout has

Every function of a program has a frame, and nothing else has one; only global
variables have a place outside all frames. `storageOfDefs` lists the variables
and parameters at any depth, and nothing but these has a place at all.
-/

namespace ScopeStack

mutual

/-- The numbers of all variables and parameters defined inside a statement. -/
def Stmt.storage : Stmt → List NodeId
  | .expr _ _ => []
  | .assign _ _ _ => []
  | .cond _ _ yes no => storageOfStmts yes ++ storageOfStmts no
  | .loop _ _ body => storageOfStmts body
  | .block _ defs body => storageOfDefs defs ++ storageOfStmts body

/-- The numbers of all variables and parameters defined inside statements. -/
def storageOfStmts : List Stmt → List NodeId
  | [] => []
  | stmt :: rest => stmt.storage ++ storageOfStmts rest

/-- The numbers of all variables and parameters among definitions and inside
them. -/
def storageOfDefs : List Def → List NodeId
  | [] => []
  | .fn function :: rest => function.storage ++ storageOfDefs rest
  | .var declared :: rest => declared.id :: storageOfDefs rest

/-- The numbers of the parameters of a function, and of all variables and
parameters defined inside it. -/
def FunDef.storage : FunDef → List NodeId
  | ⟨_, _, params, body⟩ => params.map Param.id ++ storageOfStmts body

end

namespace Layout

open Stateful

section Inside

variable {layout : Layout} {function : FunDef}

mutual

/-- A function inside a statement has been laid out. -/
theorem StmtLaid.inside {label : String} {depth : Nat} {before after : Extent} :
    (stmt : Stmt) → StmtLaid layout label depth stmt before after → function ∈ stmt.functions →
    ∃ outer level first last, FunctionLaid layout outer level function first last
  | .expr _ _, _, member => nomatch member
  | .assign _ _ _, _, member => nomatch member
  | .cond _ _ yes no, ⟨_, laidYes, laidNo⟩, member => by
    rcases List.mem_append.mp member with inYes | inNo
    · exact StmtsLaid.inside yes laidYes inYes
    · exact StmtsLaid.inside no laidNo inNo
  | .loop _ _ body, laid, member => StmtsLaid.inside body laid member
  | .block _ defs body, ⟨_, laidDefs, laidBody⟩, member => by
    rcases List.mem_append.mp member with inBody | inDefs
    · exact StmtsLaid.inside body laidBody inBody
    · exact DefsLaid.inside defs laidDefs inDefs

/-- A function inside statements has been laid out. -/
theorem StmtsLaid.inside {label : String} {depth : Nat} {before after : Extent} :
    (stmts : List Stmt) → StmtsLaid layout label depth stmts before after →
    function ∈ functionsOfStmts stmts →
    ∃ outer level first last, FunctionLaid layout outer level function first last
  | [], _, member => nomatch member
  | stmt :: rest, ⟨_, laidStmt, laidRest⟩, member => by
    rcases List.mem_append.mp member with inStmt | inRest
    · exact StmtLaid.inside stmt laidStmt inStmt
    · exact StmtsLaid.inside rest laidRest inRest

/-- A function among the definitions of a block, or inside them, has been laid
out. -/
theorem DefsLaid.inside {label : String} {depth : Nat} {before after : Extent} :
    (defs : List Def) → DefsLaid layout label depth defs before after →
    function ∈ functionsOfDefs defs →
    ∃ outer level first last, FunctionLaid layout outer level function first last
  | [], _, member => nomatch member
  | .fn own :: rest, ⟨_, laidOwn, laidRest⟩, member => by
    rw [functionsOfDefs_fn] at member
    rcases List.mem_append.mp member with inOwn | inRest
    · exact FunctionLaid.inside own laidOwn inOwn
    · exact DefsLaid.inside rest laidRest inRest
  | .var _ :: rest, ⟨_, _, laidRest⟩, member => DefsLaid.inside rest laidRest member

/-- A function and those inside it have been laid out together. -/
theorem FunctionLaid.inside {outer : Option String} {depth : Nat} {before after : LabelSet} :
    (own : FunDef) → FunctionLaid layout outer depth own before after →
    function ∈ own :: functionsOfStmts own.body →
    ∃ outer level first last, FunctionLaid layout outer level function first last
  | ⟨id, name, params, body⟩, laid, member => by
    rcases List.mem_cons.mp member with rfl | inBody
    · exact ⟨outer, depth, before, after, laid⟩
    · obtain ⟨-, label, labels, locals, -, laidBody, -⟩ := laid
      exact StmtsLaid.inside body laidBody inBody

end

/-- A function of a program has been laid out. -/
theorem TopLaid.inside {globals : Table String} {defs : List Def} {before after : LabelSet}
    (laid : TopLaid layout globals defs before after) (member : function ∈ functionsOfDefs defs) :
    ∃ outer level first last, FunctionLaid layout outer level function first last := by
  induction defs generalizing before with
  | nil => cases member
  | cons definition rest hypothesis =>
    cases definition with
    | fn own =>
      obtain ⟨labels, laidOwn, laidRest⟩ := laid
      rw [functionsOfDefs_fn] at member
      rcases List.mem_append.mp member with inOwn | inRest
      · exact FunctionLaid.inside own laidOwn inOwn
      · exact hypothesis laidRest inRest
    | var declared => exact hypothesis laid.2 member

end Inside

/-- A function without a body keeps its name. -/
theorem name_frameOf_external {layout : Layout} {globals : Table String} {defs : List Def}
    {before after : LabelSet} {function : FunDef}
    (laid : TopLaid layout globals defs before after) (inside : function ∈ functionsOfDefs defs)
    (external : function.isExternal = true) :
    (layout.frameOf function.id).name = function.name := by
  obtain ⟨outer, level, first, last, laidFunction⟩ := laid.inside inside
  obtain ⟨id, name, params, body⟩ := function
  obtain ⟨-, label, labels, locals, labelled, -, entered⟩ := laidFunction
  have empty : body.isEmpty = true := external
  rw [Labelled, if_pos empty] at labelled
  rw [frameOf_eq entered]
  exact labelled.1

/-- The global variables of a program have been laid out. -/
theorem globalLaid_of_mem_top {layout : Layout} {globals : Table String} {defs : List Def}
    {before after : LabelSet} {declared : VarDef}
    (laid : TopLaid layout globals defs before after) (inside : declared ∈ variablesIn defs) :
    GlobalLaid layout globals declared := by
  induction defs generalizing before with
  | nil => cases inside
  | cons definition rest hypothesis =>
    cases definition with
    | fn function =>
      obtain ⟨labels, -, second⟩ := laid
      exact hypothesis second inside
    | var first =>
      rcases List.mem_cons.mp inside with rfl | later
      · exact laid.1
      · exact hypothesis laid.2 later

/-- A layout has grown by frames of given functions, by places outside frames for
given variables and by places in frames for other ones. -/
structure Grown (functions : List FunDef) (globals storage : List NodeId)
    (before after : Layout) : Prop where
  frames : ∀ id frame, after.frames[id]? = some frame →
    before.frames[id]? = some frame ∨ id ∈ functions.map FunDef.id
  absolute : ∀ id access, after.accesses[id]? = some (.abs access) →
    before.accesses[id]? = some (.abs access) ∨ id ∈ globals
  relative : ∀ id access, after.accesses[id]? = some (.rel access) →
    before.accesses[id]? = some (.rel access) ∨ id ∈ storage

namespace Grown

/-- Nothing has been added to a layout that stays as it is. -/
theorem refl (layout : Layout) : Grown [] [] [] layout layout :=
  ⟨fun _ _ found => .inl found, fun _ _ found => .inl found, fun _ _ found => .inl found⟩

/-- What two steps add is what the first adds and then what the second does. -/
theorem trans {first second : List FunDef} {globals moreGlobals storage moreStorage : List NodeId}
    {before middle after : Layout} (grown : Grown first globals storage before middle)
    (grownAgain : Grown second moreGlobals moreStorage middle after) :
    Grown (first ++ second) (globals ++ moreGlobals) (storage ++ moreStorage) before after := by
  constructor
  · intro id frame found
    rw [List.map_append, List.mem_append]
    rcases grownAgain.frames id frame found with earlier | inSecond
    · rcases grown.frames id frame earlier with start | inFirst
      · exact .inl start
      · exact .inr (.inl inFirst)
    · exact .inr (.inr inSecond)
  · intro id access found
    rw [List.mem_append]
    rcases grownAgain.absolute id access found with earlier | inSecond
    · rcases grown.absolute id access earlier with start | inFirst
      · exact .inl start
      · exact .inr (.inl inFirst)
    · exact .inr (.inr inSecond)
  · intro id access found
    rw [List.mem_append]
    rcases grownAgain.relative id access found with earlier | inSecond
    · rcases grown.relative id access earlier with start | inFirst
      · exact .inl start
      · exact .inr (.inl inFirst)
    · exact .inr (.inr inSecond)

/-- The order in which functions are listed does not matter, and more variables
may be listed. -/
theorem mono {functions more : List FunDef} {globals storage moreStorage : List NodeId}
    {before after : Layout} (grown : Grown functions globals storage before after)
    (within : ∀ function ∈ functions, function ∈ more) (wider : ∀ id ∈ storage, id ∈ moreStorage) :
    Grown more globals moreStorage before after := by
  constructor
  · intro id frame found
    rcases grown.frames id frame found with start | inside
    · exact .inl start
    · obtain ⟨function, member, rfl⟩ := List.mem_map.mp inside
      exact .inr (List.mem_map_of_mem (within function member))
  · exact grown.absolute
  · intro id access found
    exact (grown.relative id access found).imp_right (wider id)

end Grown

/-- Recording a place makes one entry, and changes no frame. -/
theorem entry_of_setAccess {id : NodeId} {access : Access} {before : Progress}
    {result : Unit × Progress} (ran : (setAccess id access).run before = .ok result) :
    result.2.layout.frames = before.layout.frames ∧
      ∀ other entry, result.2.layout.accesses[other]? = some entry →
        before.layout.accesses[other]? = some entry ∨ other = id ∧ entry = access := by
  simp only [setAccess, run_modify_eq_ok] at ran
  subst ran
  refine ⟨rfl, fun other entry found => ?_⟩
  rw [Std.TreeMap.getElem?_insert] at found
  split at found
  next same => exact .inr ⟨(Std.compare_eq_iff_eq.mp same).symm, (Option.some.inj found).symm⟩
  next => exact .inl found

/-- Recording the place of a variable in a frame adds that place. -/
theorem grown_setAccess {id : NodeId} {access : RelAccess} {before : Progress}
    {result : Unit × Progress} (ran : (setAccess id (.rel access)).run before = .ok result) :
    Grown [] [] [id] before.layout result.2.layout := by
  obtain ⟨frames, entries⟩ := entry_of_setAccess ran
  constructor
  · intro other frame found
    exact .inl (frames ▸ found)
  · intro other absolute found
    rcases entries other _ found with earlier | ⟨-, new⟩
    · exact .inl earlier
    · cases new
  · intro other relative found
    rcases entries other _ found with earlier | ⟨same, -⟩
    · exact .inl earlier
    · exact .inr (List.mem_singleton.mpr same)

/-- Recording the place of a variable outside all frames adds that place. -/
theorem grown_setAccess_abs {id : NodeId} {access : AbsAccess} {before : Progress}
    {result : Unit × Progress} (ran : (setAccess id (.abs access)).run before = .ok result) :
    Grown [] [id] [] before.layout result.2.layout := by
  obtain ⟨frames, entries⟩ := entry_of_setAccess ran
  constructor
  · intro other frame found
    exact .inl (frames ▸ found)
  · intro other absolute found
    rcases entries other _ found with earlier | ⟨same, -⟩
    · exact .inl earlier
    · exact .inr (List.mem_singleton.mpr same)
  · intro other relative found
    rcases entries other _ found with earlier | ⟨-, new⟩
    · exact .inl earlier
    · cases new

/-- Recording parameters adds their places. -/
theorem grown_setParams {params : List Param} {accesses : List RelAccess} {before : Progress}
    {result : Unit × Progress} (ran : (setParams params accesses).run before = .ok result) :
    Grown [] [] (params.map Param.id) before.layout result.2.layout := by
  induction params generalizing accesses before with
  | nil =>
    simp only [setParams, run_pure_eq_ok] at ran
    subst ran
    exact .refl _
  | cons param rest hypothesis =>
    cases accesses with
    | nil =>
      simp only [setParams, run_pure_eq_ok] at ran
      subst ran
      exact (Grown.refl _).mono (fun _ inside => inside)
        (fun _ inside => (List.not_mem_nil inside).elim)
    | cons access later =>
      simp only [setParams, run_bind_eq_ok] at ran
      obtain ⟨⟨⟩, middle, recorded, remaining⟩ := ran
      exact (grown_setAccess recorded).trans (hypothesis remaining)

/-- Recording a frame adds that frame. -/
theorem grown_setFrame {function : FunDef} {frame : Frame} {before : Progress}
    {result : Unit × Progress} (ran : (setFrame function.id frame).run before = .ok result) :
    Grown [function] [] [] before.layout result.2.layout := by
  simp only [setFrame, run_modify_eq_ok] at ran
  subst ran
  refine ⟨?_, fun _ _ found => .inl found, fun _ _ found => .inl found⟩
  intro other own found
  by_cases same : function.id = other
  · subst same
    exact .inr (by simp)
  · simp only [Std.TreeMap.getElem?_insert, Std.compare_eq_iff_eq, same] at found
    exact .inl found

mutual

/-- Laying out a statement adds frames of the functions in it and places of the
variables in it. -/
theorem grown_layStmt {label : String} {depth : Nat} {locals : Locals} {before : Progress}
    {result : Locals × Progress} : (stmt : Stmt) →
    (layStmt label depth stmt locals).run before = .ok result →
    Grown stmt.functions [] stmt.storage before.layout result.2.layout
  | .expr _ _, ran => by
    simp only [layStmt, run_pure_eq_ok] at ran
    subst ran
    exact .refl _
  | .assign _ _ _, ran => by
    simp only [layStmt, run_pure_eq_ok] at ran
    subst ran
    exact .refl _
  | .cond _ _ yes no, ran => by
    simp only [layStmt, run_bind_eq_ok] at ran
    obtain ⟨between, middle, first, second⟩ := ran
    exact (grown_layStmts yes first).trans (grown_layStmts no second)
  | .loop _ _ body, ran => by
    simp only [layStmt] at ran
    exact grown_layStmts body ran
  | .block _ defs body, ran => by
    simp only [layStmt, run_bind_eq_ok] at ran
    obtain ⟨between, middle, first, second⟩ := ran
    refine ((grown_layDefs defs first).trans (grown_layStmts body second)).mono ?_
      fun _ inside => inside
    intro function inside
    rw [Stmt.functions]
    rcases List.mem_append.mp inside with inDefs | inBody
    · exact List.mem_append_right _ inDefs
    · exact List.mem_append_left _ inBody

/-- Laying out statements adds frames of the functions in them and places of the
variables in them. -/
theorem grown_layStmts {label : String} {depth : Nat} {locals : Locals} {before : Progress}
    {result : Locals × Progress} : (stmts : List Stmt) →
    (layStmts label depth stmts locals).run before = .ok result →
    Grown (functionsOfStmts stmts) [] (storageOfStmts stmts) before.layout result.2.layout
  | [], ran => by
    simp only [layStmts, run_pure_eq_ok] at ran
    subst ran
    exact .refl _
  | stmt :: rest, ran => by
    simp only [layStmts, run_bind_eq_ok] at ran
    obtain ⟨between, middle, first, second⟩ := ran
    exact (grown_layStmt stmt first).trans (grown_layStmts rest second)

/-- Laying out definitions adds frames of the functions in them and places of the
variables in them. -/
theorem grown_layDefs {label : String} {depth : Nat} {locals : Locals} {before : Progress}
    {result : Locals × Progress} : (defs : List Def) →
    (layDefs label depth defs locals).run before = .ok result →
    Grown (functionsOfDefs defs) [] (storageOfDefs defs) before.layout result.2.layout
  | [], ran => by
    simp only [layDefs, run_pure_eq_ok] at ran
    subst ran
    exact .refl _
  | .fn ⟨id, name, params, body⟩ :: rest, ran => by
    simp only [layDefs, run_bind_eq_ok] at ran
    obtain ⟨⟨⟩, middle, first, second⟩ := ran
    exact (grown_layFunction ⟨id, name, params, body⟩ first).trans (grown_layDefs rest second)
  | .var declared :: rest, ran => by
    simp only [layDefs, layLocal, run_bind_eq_ok, run_pure_eq_ok, run_lift_eq_ok] at ran
    obtain ⟨between, middle, ⟨measured, start, ⟨_, -, unchanged⟩, ⟨⟩, set, recorded, done⟩,
      second⟩ := ran
    cases unchanged
    cases done
    exact (grown_setAccess recorded).trans (grown_layDefs rest second)

/-- Laying out a function adds its frame and those of the functions in it, and
places of its parameters and of the variables in it. -/
theorem grown_layFunction {outer : Option String} {depth : Nat} {before : Progress}
    {result : Unit × Progress} : (function : FunDef) →
    (layFunction outer depth function).run before = .ok result →
    Grown (function :: functionsOfStmts function.body) [] function.storage before.layout
      result.2.layout
  | ⟨id, name, params, body⟩, ran => by
    rw [layFunction_eq] at ran
    simp only [run_bind_eq_ok] at ran
    obtain ⟨label, named, labelled, ⟨⟩, ready, recorded, locals, inside, laid, framed⟩ := ran
    have atParams := grown_setParams recorded
    rw [(labelled_functionLabel labelled).1] at atParams
    have own := @grown_setFrame ⟨id, name, params, body⟩ _ _ _ framed
    refine ((atParams.trans (grown_layStmts body laid)).trans own).mono ?_ ?_
    · intro function member
      rcases List.mem_append.mp member with inBody | same
      · exact List.mem_cons_of_mem _ inBody
      · obtain rfl := List.mem_singleton.mp same
        exact List.mem_cons_self
    · intro other member
      rwa [List.append_nil] at member

end

/-- Laying out the top level adds frames of all functions, places of the global
variables and places of the variables inside functions. -/
theorem grown_layTop {globals : Table String} {defs : List Def} {before : Progress}
    {result : Unit × Progress} (ran : (layTop globals defs).run before = .ok result) :
    Grown (functionsOfDefs defs) ((variablesIn defs).map VarDef.id) (storageOfDefs defs)
      before.layout result.2.layout := by
  induction defs generalizing before with
  | nil =>
    simp only [layTop, run_pure_eq_ok] at ran
    subst ran
    exact .refl _
  | cons definition rest hypothesis =>
    cases definition with
    | fn function =>
      simp only [layTop, run_bind_eq_ok] at ran
      obtain ⟨⟨⟩, middle, first, second⟩ := ran
      obtain ⟨id, name, params, body⟩ := function
      exact (grown_layFunction ⟨id, name, params, body⟩ first).trans (hypothesis second)
    | var declared =>
      simp only [layTop, layGlobal, run_bind_eq_ok, run_lift_eq_ok] at ran
      obtain ⟨⟨⟩, middle, ⟨pair, start, ⟨_, -, unchanged⟩, recorded⟩, second⟩ := ran
      cases unchanged
      refine ((grown_setAccess_abs recorded).trans (hypothesis second)).mono
        (fun _ inside => inside) ?_
      intro other inside
      exact List.mem_cons_of_mem _ inside

/-- A layout has no other entries than those that the program asks for. -/
theorem grown_of_ofProgram {program : Program} {layout : Layout}
    (laid : ofProgram program = .ok layout) :
    Grown program.functions ((variablesIn program.defs).map VarDef.id) (storageOfDefs program.defs)
      empty layout := by
  obtain ⟨globals, ready, after, reserved, top, rfl⟩ := ofProgram_eq_ok laid
  have grown := grown_layTop top
  rwa [layout_reserveGlobals reserved] at grown

/-- What has a frame is a function, and what has a place outside all frames is
a global variable. -/
theorem entries_of_ofProgram {program : Program} {layout : Layout}
    (laid : ofProgram program = .ok layout) :
    (∀ id frame, layout.frames[id]? = some frame → id ∈ program.functions.map FunDef.id) ∧
      ∀ id access, layout.accesses[id]? = some (.abs access) →
        id ∈ (variablesIn program.defs).map VarDef.id := by
  have grown := grown_of_ofProgram laid
  constructor
  · intro id frame found
    rcases grown.frames id frame found with absent | inside
    · simp [empty] at absent
    · exact inside
  · intro id access found
    rcases grown.absolute id access found with absent | inside
    · simp [empty] at absent
    · exact inside

end Layout

end ScopeStack
