import ScopeStack.Layout
import ScopeStack.Proofs.Identity
import ScopeStack.Proofs.Stateful

/-!
# Where a layout puts things

The relations `StmtLaid`, `DefsLaid` and `FunctionLaid` say, following the
tree, which entries the tables of a layout have: a local variable lies directly
below those before it, a parameter above the access link, and a frame ends
where the last of its local variables does. They also follow the set of labels
as functions reserve theirs. `TopLaid` says the same of a program. The layout of
a program whose numbers are distinct satisfies it, `topLaid_of_ofProgram`: no
step of the traversal touches the numbers of another node, so what a node
entered is still there at the end.
-/

namespace ScopeStack.Layout

open Stateful

/-- The frame of a function. -/
def frameOf (layout : Layout) (id : NodeId) : Frame :=
  layout.frames.getD id ⟨"", 0, 0, 0, [], []⟩

/-- The frame of a function that has one. -/
theorem frameOf_eq {layout : Layout} {id : NodeId} {frame : Frame}
    (found : layout.frames[id]? = some frame) : layout.frameOf id = frame := by
  rw [frameOf, Std.TreeMap.getD_eq_getD_getElem?, found, Option.getD_some]

/-- The place of parameter number `index`. -/
def paramAccess (depth index : Nat) (param : Param) : RelAccess :=
  { offset := 4 * (index + 1), depth, size := 4, inits := none, name := param.name }

/-- Every parameter has its place. -/
def ParamsLaid (layout : Layout) (depth : Nat) (params : List Param) : Prop :=
  ∀ (index : Nat) (param : Param), params[index]? = some param →
    layout.accesses[param.id]? = some (.rel (paramAccess depth index param))

/-- A local variable has its place below the variables before it. -/
def LocalLaid (layout : Layout) (depth : Nat) (declared : VarDef) (before after : Locals) : Prop :=
  ∃ flat size, measure declared = .ok (flat, size) ∧
    after.bottom = before.bottom - size ∧
    ∃ access : RelAccess,
      access = { offset := after.bottom, depth, size, inits := some flat, name := declared.name } ∧
      after.vars = before.vars ++ [access] ∧
      layout.accesses[declared.id]? = some (.rel access)

/-- A global variable has a label. -/
def GlobalLaid (layout : Layout) (globals : Table String) (declared : VarDef) : Prop :=
  ∃ flat size, measure declared = .ok (flat, size) ∧
    layout.accesses[declared.id]? =
      some (.abs { label := globals.getD declared.id declared.name, size, inits := flat })

/-- The label of a function: its name if it has no body, and otherwise one that
is reserved. -/
def Labelled (outer : Option String) (name : String) (body : List Stmt) (before : LabelSet)
    (label : String) (after : LabelSet) : Prop :=
  if body.isEmpty then label = name ∧ after = before
  else (label, after) = before.reserve (qualify outer name)

/-- How far the layout of a function has come: its local variables so far, and
the labels that are in use. -/
structure Extent where
  locals : Locals
  labels : LabelSet

mutual

/-- What a statement defines has its place, from the extent before it to the
one after it. -/
def StmtLaid (layout : Layout) (label : String) (depth : Nat) : Stmt → Extent → Extent → Prop
  | .expr _ _, before, after => after = before
  | .assign _ _ _, before, after => after = before
  | .cond _ _ yes no, before, after =>
    ∃ middle, StmtsLaid layout label depth yes before middle ∧
      StmtsLaid layout label depth no middle after
  | .loop _ _ body, before, after => StmtsLaid layout label depth body before after
  | .block _ defs body, before, after =>
    ∃ middle, DefsLaid layout label (depth + 1) defs before middle ∧
      StmtsLaid layout label (depth + 1) body middle after

/-- What statements define has its place. -/
def StmtsLaid (layout : Layout) (label : String) (depth : Nat) :
    List Stmt → Extent → Extent → Prop
  | [], before, after => after = before
  | stmt :: rest, before, after =>
    ∃ middle, StmtLaid layout label depth stmt before middle ∧
      StmtsLaid layout label depth rest middle after

/-- The definitions of a block have their places. -/
def DefsLaid (layout : Layout) (label : String) (depth : Nat) : List Def → Extent → Extent → Prop
  | [], before, after => after = before
  | .fn function :: rest, before, after =>
    ∃ labels, FunctionLaid layout (some label) depth function before.labels labels ∧
      DefsLaid layout label depth rest ⟨before.locals, labels⟩ after
  | .var declared :: rest, before, after =>
    ∃ locals, LocalLaid layout depth declared before.locals locals ∧
      DefsLaid layout label depth rest ⟨locals, before.labels⟩ after

/-- A function has its frame, and all that it defines has its place. -/
def FunctionLaid (layout : Layout) (outer : Option String) (depth : Nat) :
    FunDef → LabelSet → LabelSet → Prop
  | ⟨id, name, params, body⟩, before, after =>
    ParamsLaid layout (depth + 1) params ∧
    ∃ label labels locals,
      Labelled outer name body before label labels ∧
      StmtsLaid layout label (depth + 1) body ⟨.empty, labels⟩ ⟨locals, after⟩ ∧
      layout.frames[id]? =
        some
          { name := label
            depth := depth + 1
            parsSize := 4 * params.length + 4
            varsSize := -locals.bottom
            pars := paramAccesses (depth + 1) 0 params
            vars := locals.vars }

end

/-- Everything that a program defines has its place. -/
def TopLaid (layout : Layout) (globals : Table String) :
    List Def → LabelSet → LabelSet → Prop
  | [], before, after => after = before
  | .fn function :: rest, before, after =>
    ∃ labels, FunctionLaid layout none 0 function before labels ∧
      TopLaid layout globals rest labels after
  | .var declared :: rest, before, after =>
    GlobalLaid layout globals declared ∧ TopLaid layout globals rest before after

/-- Two layouts have the same entries for given numbers. -/
def AgreeOn (ids : List NodeId) (left right : Layout) : Prop :=
  ∀ id ∈ ids, left.accesses[id]? = right.accesses[id]? ∧ left.frames[id]? = right.frames[id]?

/-- Two layouts have the same entries except for given numbers. -/
def AgreeOutside (ids : List NodeId) (left right : Layout) : Prop :=
  ∀ id, id ∉ ids →
    left.accesses[id]? = right.accesses[id]? ∧ left.frames[id]? = right.frames[id]?

namespace AgreeOutside

/-- A layout agrees with itself. -/
theorem refl (ids : List NodeId) (layout : Layout) : AgreeOutside ids layout layout :=
  fun _ _ => ⟨rfl, rfl⟩

/-- Layouts that agree outside some nodes agree outside more of them. -/
theorem mono {ids more : List NodeId} {left right : Layout} (agree : AgreeOutside ids left right)
    (within : ∀ id ∈ ids, id ∈ more) : AgreeOutside more left right :=
  fun id outside => agree id fun inside => outside (within id inside)

/-- Two changes in a row touch the numbers that either touches. -/
theorem trans {first second : List NodeId} {left middle right : Layout}
    (changed : AgreeOutside first left middle) (changedAgain : AgreeOutside second middle right) :
    AgreeOutside (first ++ second) left right := by
  intro id outside
  rw [List.mem_append, not_or] at outside
  have atFirst := changed id outside.1
  have atSecond := changedAgain id outside.2
  exact ⟨atFirst.1.trans atSecond.1, atFirst.2.trans atSecond.2⟩

end AgreeOutside

/-- An agreement reaches back over a step that touches other numbers only. -/
theorem AgreeOn.before {ids touched : List NodeId} {final left right : Layout}
    (agree : AgreeOn ids final right) (changed : AgreeOutside touched left right)
    (apart : ∀ id ∈ ids, id ∉ touched) : AgreeOn ids final left := by
  intro id inside
  have atEnd := agree id inside
  have atStep := changed id (apart id inside)
  exact ⟨atEnd.1.trans atStep.1.symm, atEnd.2.trans atStep.2.symm⟩

/-- Layouts that agree on nodes agree on fewer of them. -/
theorem AgreeOn.mono {ids fewer : List NodeId} {left right : Layout} (agree : AgreeOn ids left right)
    (within : ∀ id ∈ fewer, id ∈ ids) : AgreeOn fewer left right :=
  fun id inside => agree id (within id inside)

/-- Recording a place touches its number alone, and no label. -/
theorem agreeOutside_setAccess {id : NodeId} {access : Access} {before : Progress}
    {result : Unit × Progress} (ran : (setAccess id access).run before = .ok result) :
    AgreeOutside [id] before.layout result.2.layout ∧
      result.2.layout.accesses[id]? = some access ∧ result.2.labels = before.labels := by
  simp only [setAccess, run_modify_eq_ok] at ran
  subst ran
  refine ⟨?_, ?_, rfl⟩
  · intro other outside
    have different : id ≠ other := fun same => outside (by simp [same])
    simp [Std.TreeMap.getElem?_insert, different]
  · simp

/-- Recording a frame touches its number alone, and no label. -/
theorem agreeOutside_setFrame {id : NodeId} {frame : Frame} {before : Progress}
    {result : Unit × Progress} (ran : (setFrame id frame).run before = .ok result) :
    AgreeOutside [id] before.layout result.2.layout ∧
      result.2.layout.frames[id]? = some frame ∧ result.2.labels = before.labels := by
  simp only [setFrame, run_modify_eq_ok] at ran
  subst ran
  refine ⟨?_, ?_, rfl⟩
  · intro other outside
    have different : id ≠ other := fun same => outside (by simp [same])
    simp [Std.TreeMap.getElem?_insert, different]
  · simp

/-- Reserving a label touches no entry. -/
theorem layout_reserveLabel {base : String} {before : Progress} {result : String × Progress}
    (ran : (reserveLabel base).run before = .ok result) :
    result.2.layout = before.layout := by
  simp only [reserveLabel, run_modifyGet_eq_ok] at ran
  subst ran
  rfl

/-- Recording parameters touches their numbers alone, and no label. -/
theorem agreeOutside_setParams {params : List Param} {accesses : List RelAccess}
    {before : Progress} {result : Unit × Progress}
    (ran : (setParams params accesses).run before = .ok result) :
    AgreeOutside (params.map Param.id) before.layout result.2.layout ∧
      result.2.labels = before.labels := by
  induction params generalizing accesses before with
  | nil =>
    simp only [setParams, run_pure_eq_ok] at ran
    subst ran
    exact ⟨.refl _ _, rfl⟩
  | cons param rest hypothesis =>
    cases accesses with
    | nil =>
      simp only [setParams, run_pure_eq_ok] at ran
      subst ran
      exact ⟨.refl _ _, rfl⟩
    | cons access later =>
      simp only [setParams, run_bind_eq_ok] at ran
      obtain ⟨⟨⟩, middle, recorded, remaining⟩ := ran
      obtain ⟨first, -, kept⟩ := agreeOutside_setAccess recorded
      obtain ⟨second, keptAgain⟩ := hypothesis remaining
      exact ⟨first.trans second, keptAgain.trans kept⟩

/-- The label of a function is reserved unless it has no body. -/
def functionLabel (outer : Option String) (name : String) (body : List Stmt) : Build String :=
  if body.isEmpty then pure name else reserveLabel (qualify outer name)

/-- The steps of laying out a function. -/
theorem layFunction_eq (outer : Option String) (depth : Nat) (id : NodeId) (name : String)
    (params : List Param) (body : List Stmt) :
    layFunction outer depth ⟨id, name, params, body⟩ = (do
      let label ← functionLabel outer name body
      setParams params (paramAccesses (depth + 1) 0 params)
      let locals ← layStmts label (depth + 1) body .empty
      setFrame id
        { name := label
          depth := depth + 1
          parsSize := 4 * (paramAccesses (depth + 1) 0 params).length + 4
          varsSize := -locals.bottom
          pars := paramAccesses (depth + 1) 0 params
          vars := locals.vars }) := by
  rw [layFunction, functionLabel]
  split <;> rfl

/-- Finding the label of a function touches no entry. -/
theorem labelled_functionLabel {outer : Option String} {name : String} {body : List Stmt}
    {before : Progress} {result : String × Progress}
    (ran : (functionLabel outer name body).run before = .ok result) :
    result.2.layout = before.layout ∧
      Labelled outer name body before.labels result.1 result.2.labels := by
  rw [functionLabel] at ran
  rw [Labelled]
  split at ran
  next empty =>
    rw [run_pure_eq_ok] at ran
    subst ran
    exact ⟨rfl, by rw [if_pos empty]; exact ⟨rfl, rfl⟩⟩
  next nonempty =>
    simp only [reserveLabel, run_modifyGet_eq_ok] at ran
    subst ran
    exact ⟨rfl, by rw [if_neg nonempty]⟩

mutual

/-- Laying out a statement touches the numbers in it alone. -/
theorem agreeOutside_layStmt {label : String} {depth : Nat} {locals : Locals} {before : Progress}
    {result : Locals × Progress} : (stmt : Stmt) →
    (layStmt label depth stmt locals).run before = .ok result →
    AgreeOutside stmt.ids before.layout result.2.layout
  | .expr _ _, ran => by
    simp only [layStmt, run_pure_eq_ok] at ran
    subst ran
    exact .refl _ _
  | .assign _ _ _, ran => by
    simp only [layStmt, run_pure_eq_ok] at ran
    subst ran
    exact .refl _ _
  | .cond id test yes no, ran => by
    simp only [layStmt, run_bind_eq_ok] at ran
    obtain ⟨between, middle, first, second⟩ := ran
    have both := (agreeOutside_layStmts yes first).trans (agreeOutside_layStmts no second)
    exact both.mono fun other inside => by simp [Stmt.ids, List.mem_append.mp inside]
  | .loop id test body, ran => by
    simp only [layStmt] at ran
    exact (agreeOutside_layStmts body ran).mono fun other inside => by simp [Stmt.ids, inside]
  | .block id defs body, ran => by
    simp only [layStmt, run_bind_eq_ok] at ran
    obtain ⟨between, middle, first, second⟩ := ran
    have both := (agreeOutside_layDefs defs first).trans (agreeOutside_layStmts body second)
    exact both.mono fun other inside => by simp [Stmt.ids, List.mem_append.mp inside]

/-- Laying out statements touches the numbers in them alone. -/
theorem agreeOutside_layStmts {label : String} {depth : Nat} {locals : Locals} {before : Progress}
    {result : Locals × Progress} : (stmts : List Stmt) →
    (layStmts label depth stmts locals).run before = .ok result →
    AgreeOutside (idsOfStmts stmts) before.layout result.2.layout
  | [], ran => by
    simp only [layStmts, run_pure_eq_ok] at ran
    subst ran
    exact .refl _ _
  | stmt :: rest, ran => by
    simp only [layStmts, run_bind_eq_ok] at ran
    obtain ⟨between, middle, first, second⟩ := ran
    exact (agreeOutside_layStmt stmt first).trans (agreeOutside_layStmts rest second)

/-- Laying out definitions touches the numbers in them alone. -/
theorem agreeOutside_layDefs {label : String} {depth : Nat} {locals : Locals} {before : Progress}
    {result : Locals × Progress} : (defs : List Def) →
    (layDefs label depth defs locals).run before = .ok result →
    AgreeOutside (idsOfDefs defs) before.layout result.2.layout
  | [], ran => by
    simp only [layDefs, run_pure_eq_ok] at ran
    subst ran
    exact .refl _ _
  | .fn function :: rest, ran => by
    simp only [layDefs, run_bind_eq_ok] at ran
    obtain ⟨⟨⟩, middle, first, second⟩ := ran
    exact (agreeOutside_layFunction function first).trans (agreeOutside_layDefs rest second)
  | .var declared :: rest, ran => by
    simp only [layDefs, layLocal, run_bind_eq_ok, run_pure_eq_ok, run_lift_eq_ok] at ran
    obtain ⟨between, middle, ⟨measured, start, ⟨_, -, unchanged⟩, ⟨⟩, set, recorded, done⟩, second⟩ := ran
    cases unchanged
    cases done
    have first := (agreeOutside_setAccess recorded).1
    exact first.trans (agreeOutside_layDefs rest second)

/-- Laying out a function touches its number and those in it alone. -/
theorem agreeOutside_layFunction {outer : Option String} {depth : Nat} {before : Progress}
    {result : Unit × Progress} : (function : FunDef) →
    (layFunction outer depth function).run before = .ok result →
    AgreeOutside function.ids before.layout result.2.layout
  | ⟨id, name, params, body⟩, ran => by
    rw [layFunction_eq] at ran
    simp only [run_bind_eq_ok] at ran
    obtain ⟨label, named, labelled, ⟨⟩, ready, recorded, locals, inside, laid, framed⟩ := ran
    have unchanged := (labelled_functionLabel labelled).1
    have atParams := (agreeOutside_setParams recorded).1
    rw [unchanged] at atParams
    have all := (atParams.trans (agreeOutside_layStmts body laid)).trans
      (agreeOutside_setFrame framed).1
    exact all.mono fun other inside => by
      simp only [List.mem_append, List.mem_singleton] at inside
      simp only [FunDef.ids, List.mem_cons, List.mem_append]
      rcases inside with (atParam | atBody) | atFrame
      · exact .inr (.inl atParam)
      · exact .inr (.inr atBody)
      · exact .inl atFrame

end

/-- Each parameter has a place. -/
@[simp] theorem length_paramAccesses (depth index : Nat) (params : List Param) :
    (paramAccesses depth index params).length = params.length := by
  induction params generalizing index with
  | nil => rfl
  | cons param rest hypothesis => simp [paramAccesses, hypothesis]

/-- Parameters get their places one after another, from number `start` on. -/
theorem access_of_setParams {final : Layout} {depth start : Nat} {params : List Param}
    {before : Progress} {result : Unit × Progress}
    (ran : (setParams params (paramAccesses depth start params)).run before = .ok result)
    (distinct : (params.map Param.id).Nodup)
    (agree : AgreeOn (params.map Param.id) final result.2.layout) :
    ∀ (index : Nat) (param : Param), params[index]? = some param →
      final.accesses[param.id]? = some (.rel (paramAccess depth (start + index) param)) := by
  induction params generalizing start before with
  | nil =>
    intro index param found
    simp at found
  | cons first rest hypothesis =>
    simp only [paramAccesses, setParams, run_bind_eq_ok] at ran
    obtain ⟨⟨⟩, middle, recorded, remaining⟩ := ran
    rw [List.map_cons, List.nodup_cons] at distinct
    intro index param found
    cases index with
    | zero =>
      obtain rfl : first = param := by simpa using found
      -- The entry is made first and kept, because the other numbers are different.
      have kept := (agreeOutside_setParams remaining).1 first.id distinct.1
      have entered := (agreeOutside_setAccess recorded).2.1
      rw [(agree first.id (by simp)).1, ← kept.1, entered]
      rfl
    | succ index =>
      have laterAgree : AgreeOn (rest.map Param.id) final result.2.layout :=
        agree.mono fun id inside => by simp [List.mem_map.mp inside]
      have placed := hypothesis remaining distinct.2 laterAgree index param (by simpa using found)
      rw [placed]
      simp only [paramAccess, Nat.add_assoc, Nat.add_comm 1]

mutual

/-- Laying out a statement gives what it defines a place. -/
theorem stmtLaid_of_layStmt {final : Layout} {label : String} {depth : Nat} {locals : Locals}
    {before : Progress} {result : Locals × Progress} : (stmt : Stmt) →
    (layStmt label depth stmt locals).run before = .ok result → stmt.ids.Nodup →
    AgreeOn stmt.ids final result.2.layout →
    StmtLaid final label depth stmt ⟨locals, before.labels⟩ ⟨result.1, result.2.labels⟩
  | .expr _ _, ran, _, _ => by
    simp only [layStmt, run_pure_eq_ok] at ran
    subst ran
    rfl
  | .assign _ _ _, ran, _, _ => by
    simp only [layStmt, run_pure_eq_ok] at ran
    subst ran
    rfl
  | .cond id test yes no, ran, distinct, agree => by
    simp only [layStmt, run_bind_eq_ok] at ran
    obtain ⟨between, middle, first, second⟩ := ran
    simp only [Stmt.ids, List.nodup_cons, List.nodup_append, List.mem_append] at distinct
    obtain ⟨-, -, ⟨distinctYes, distinctNo, apart⟩, -⟩ := distinct
    have agreeNo : AgreeOn (idsOfStmts no) final result.2.layout :=
      agree.mono fun other inside => by simp [Stmt.ids, inside]
    have agreeYes : AgreeOn (idsOfStmts yes) final middle.layout :=
      (agree.mono fun other inside => by simp [Stmt.ids, inside]).before
        (agreeOutside_layStmts no second) fun other inYes inNo => apart other inYes other inNo rfl
    exact ⟨⟨between, middle.labels⟩, stmtsLaid_of_layStmts yes first distinctYes agreeYes,
      stmtsLaid_of_layStmts no second distinctNo agreeNo⟩
  | .loop id test body, ran, distinct, agree => by
    simp only [layStmt] at ran
    simp only [Stmt.ids, List.nodup_cons, List.nodup_append] at distinct
    have agreeBody : AgreeOn (idsOfStmts body) final result.2.layout :=
      agree.mono fun other inside => by simp [Stmt.ids, inside]
    exact stmtsLaid_of_layStmts body ran distinct.2.2.1 agreeBody
  | .block id defs body, ran, distinct, agree => by
    simp only [layStmt, run_bind_eq_ok] at ran
    obtain ⟨between, middle, first, second⟩ := ran
    simp only [Stmt.ids, List.nodup_cons, List.nodup_append] at distinct
    obtain ⟨-, distinctDefs, distinctBody, apart⟩ := distinct
    have agreeBody : AgreeOn (idsOfStmts body) final result.2.layout :=
      agree.mono fun other inside => by simp [Stmt.ids, inside]
    have agreeDefs : AgreeOn (idsOfDefs defs) final middle.layout :=
      (agree.mono fun other inside => by simp [Stmt.ids, inside]).before
        (agreeOutside_layStmts body second) fun other inDefs inBody =>
          apart other inDefs other inBody rfl
    exact ⟨⟨between, middle.labels⟩, defsLaid_of_layDefs defs first distinctDefs agreeDefs,
      stmtsLaid_of_layStmts body second distinctBody agreeBody⟩

/-- Laying out statements gives what they define a place. -/
theorem stmtsLaid_of_layStmts {final : Layout} {label : String} {depth : Nat} {locals : Locals}
    {before : Progress} {result : Locals × Progress} : (stmts : List Stmt) →
    (layStmts label depth stmts locals).run before = .ok result → (idsOfStmts stmts).Nodup →
    AgreeOn (idsOfStmts stmts) final result.2.layout →
    StmtsLaid final label depth stmts ⟨locals, before.labels⟩ ⟨result.1, result.2.labels⟩
  | [], ran, _, _ => by
    simp only [layStmts, run_pure_eq_ok] at ran
    subst ran
    rfl
  | stmt :: rest, ran, distinct, agree => by
    simp only [layStmts, run_bind_eq_ok] at ran
    obtain ⟨between, middle, first, second⟩ := ran
    simp only [idsOfStmts, List.nodup_append] at distinct
    obtain ⟨distinctStmt, distinctRest, apart⟩ := distinct
    have agreeRest : AgreeOn (idsOfStmts rest) final result.2.layout :=
      agree.mono fun other inside => by simp [idsOfStmts, inside]
    have agreeStmt : AgreeOn stmt.ids final middle.layout :=
      (agree.mono fun other inside => by simp [idsOfStmts, inside]).before
        (agreeOutside_layStmts rest second) fun other inStmt inRest =>
          apart other inStmt other inRest rfl
    exact ⟨⟨between, middle.labels⟩, stmtLaid_of_layStmt stmt first distinctStmt agreeStmt,
      stmtsLaid_of_layStmts rest second distinctRest agreeRest⟩

/-- Laying out the definitions of a block gives them their places. -/
theorem defsLaid_of_layDefs {final : Layout} {label : String} {depth : Nat} {locals : Locals}
    {before : Progress} {result : Locals × Progress} : (defs : List Def) →
    (layDefs label depth defs locals).run before = .ok result → (idsOfDefs defs).Nodup →
    AgreeOn (idsOfDefs defs) final result.2.layout →
    DefsLaid final label depth defs ⟨locals, before.labels⟩ ⟨result.1, result.2.labels⟩
  | [], ran, _, _ => by
    simp only [layDefs, run_pure_eq_ok] at ran
    subst ran
    rfl
  | .fn function :: rest, ran, distinct, agree => by
    simp only [layDefs, run_bind_eq_ok] at ran
    obtain ⟨⟨⟩, middle, first, second⟩ := ran
    simp only [idsOfDefs, List.nodup_append] at distinct
    obtain ⟨distinctFunction, distinctRest, apart⟩ := distinct
    have agreeRest : AgreeOn (idsOfDefs rest) final result.2.layout :=
      agree.mono fun other inside => by simp [idsOfDefs, inside]
    have agreeFunction : AgreeOn function.ids final middle.layout :=
      (agree.mono fun other inside => by simp [idsOfDefs, inside]).before
        (agreeOutside_layDefs rest second) fun other inFunction inRest =>
          apart other inFunction other inRest rfl
    exact ⟨middle.labels, functionLaid_of_layFunction function first distinctFunction agreeFunction,
      defsLaid_of_layDefs rest second distinctRest agreeRest⟩
  | .var declared :: rest, ran, distinct, agree => by
    simp only [layDefs, layLocal, run_bind_eq_ok, run_pure_eq_ok, run_lift_eq_ok] at ran
    obtain ⟨between, middle, ⟨pair, start, ⟨_, measured, unchanged⟩, ⟨⟩, set, recorded, done⟩,
      second⟩ := ran
    cases unchanged
    cases done
    simp only [idsOfDefs, List.nodup_cons] at distinct
    have agreeRest : AgreeOn (idsOfDefs rest) final result.2.layout :=
      agree.mono fun other inside => by simp [idsOfDefs, inside]
    have kept := agreeOutside_layDefs rest second declared.id distinct.1
    obtain ⟨-, entered, sameLabels⟩ := agreeOutside_setAccess recorded
    have laidRest := defsLaid_of_layDefs rest second distinct.2 agreeRest
    rw [sameLabels] at laidRest
    refine ⟨_, ⟨pair.1, pair.2, measured, rfl, _, rfl, rfl, ?_⟩, laidRest⟩
    rw [(agree declared.id (by simp [idsOfDefs])).1, ← kept.1, entered]

/-- Laying out a function gives it a frame and what it defines a place. -/
theorem functionLaid_of_layFunction {final : Layout} {outer : Option String} {depth : Nat}
    {before : Progress} {result : Unit × Progress} : (function : FunDef) →
    (layFunction outer depth function).run before = .ok result → function.ids.Nodup →
    AgreeOn function.ids final result.2.layout →
    FunctionLaid final outer depth function before.labels result.2.labels
  | ⟨id, name, params, body⟩, ran, distinct, agree => by
    rw [layFunction_eq] at ran
    simp only [run_bind_eq_ok] at ran
    obtain ⟨label, named, labelled, ⟨⟩, ready, recorded, locals, inside, laid, framed⟩ := ran
    simp only [FunDef.ids, List.nodup_cons, List.nodup_append, List.mem_append, not_or] at distinct
    obtain ⟨⟨notParam, notBody⟩, distinctParams, distinctBody, apart⟩ := distinct
    have agreeBody : AgreeOn (idsOfStmts body) final inside.layout :=
      (agree.mono fun other inBody => by simp [FunDef.ids, inBody]).before
        (agreeOutside_setFrame framed).1 fun other inBody atFrame => by
          rw [List.mem_singleton] at atFrame
          exact notBody (atFrame ▸ inBody)
    have agreeParams : AgreeOn (params.map Param.id) final ready.layout :=
      ((agree.mono fun other inParams => by simp [FunDef.ids, List.mem_map.mp inParams]).before
        (agreeOutside_setFrame framed).1 fun other inParams atFrame => by
          rw [List.mem_singleton] at atFrame
          exact notParam (atFrame ▸ inParams)).before
        (agreeOutside_layStmts body laid) fun other inParams inBody =>
          apart other inParams other inBody rfl
    have params := access_of_setParams recorded distinctParams agreeParams
    simp only [Nat.zero_add] at params
    obtain ⟨-, entered, sameLabels⟩ := agreeOutside_setFrame framed
    have laidBody := stmtsLaid_of_layStmts body laid distinctBody agreeBody
    rw [(agreeOutside_setParams recorded).2, ← sameLabels] at laidBody
    refine ⟨params, label, named.labels, locals, (labelled_functionLabel labelled).2, laidBody, ?_⟩
    rw [(agree id (by simp [FunDef.ids])).2, entered, length_paramAccesses]

end

/-- Reserving the labels of the global variables touches no entry. -/
theorem layout_reserveGlobals {defs : List Def} {globals : Table String} {before : Progress}
    {result : Table String × Progress}
    (ran : (reserveGlobals defs globals).run before = .ok result) :
    result.2.layout = before.layout := by
  induction defs generalizing globals before with
  | nil =>
    simp only [reserveGlobals, run_pure_eq_ok] at ran
    subst ran
    rfl
  | cons definition rest hypothesis =>
    cases definition with
    | fn function =>
      simp only [reserveGlobals] at ran
      exact hypothesis ran
    | var declared =>
      simp only [reserveGlobals, run_bind_eq_ok] at ran
      obtain ⟨label, middle, reserved, remaining⟩ := ran
      rw [hypothesis remaining]
      exact layout_reserveLabel reserved

/-- The entry that laying out a global variable makes. -/
theorem layGlobal_entry {globals : Table String} {declared : VarDef} {before : Progress}
    {result : Unit × Progress} (ran : (layGlobal globals declared).run before = .ok result) :
    AgreeOutside [declared.id] before.layout result.2.layout ∧
      ∃ flat size, measure declared = .ok (flat, size) ∧
        result.2.layout.accesses[declared.id]? =
          some (.abs { label := globals.getD declared.id declared.name, size, inits := flat }) ∧
        result.2.labels = before.labels := by
  simp only [layGlobal, run_bind_eq_ok, run_lift_eq_ok] at ran
  obtain ⟨pair, start, ⟨_, measured, unchanged⟩, recorded⟩ := ran
  cases unchanged
  have entered := agreeOutside_setAccess recorded
  exact ⟨entered.1, pair.1, pair.2, measured, entered.2.1, entered.2.2⟩

/-- Laying out the top level touches the numbers in the definitions alone. -/
theorem agreeOutside_layTop {globals : Table String} {defs : List Def} {before : Progress}
    {result : Unit × Progress} (ran : (layTop globals defs).run before = .ok result) :
    AgreeOutside (idsOfDefs defs) before.layout result.2.layout := by
  induction defs generalizing before with
  | nil =>
    simp only [layTop, run_pure_eq_ok] at ran
    subst ran
    exact .refl _ _
  | cons definition rest hypothesis =>
    cases definition with
    | fn function =>
      simp only [layTop, run_bind_eq_ok] at ran
      obtain ⟨⟨⟩, middle, first, second⟩ := ran
      exact (agreeOutside_layFunction function first).trans (hypothesis second)
    | var declared =>
      simp only [layTop, run_bind_eq_ok] at ran
      obtain ⟨⟨⟩, middle, first, second⟩ := ran
      exact (layGlobal_entry first).1.trans (hypothesis second)

/-- Laying out the top level gives every definition its place. -/
theorem topLaid_of_layTop {final : Layout} {globals : Table String} {defs : List Def}
    {before : Progress} {result : Unit × Progress}
    (ran : (layTop globals defs).run before = .ok result) (distinct : (idsOfDefs defs).Nodup)
    (agree : AgreeOn (idsOfDefs defs) final result.2.layout) :
    TopLaid final globals defs before.labels result.2.labels := by
  induction defs generalizing before with
  | nil =>
    simp only [layTop, run_pure_eq_ok] at ran
    subst ran
    rfl
  | cons definition rest hypothesis =>
    have agreeRest : AgreeOn (idsOfDefs rest) final result.2.layout :=
      agree.mono fun other inside => by cases definition <;> simp [idsOfDefs, inside]
    cases definition with
    | fn function =>
      simp only [layTop, run_bind_eq_ok] at ran
      obtain ⟨⟨⟩, middle, first, second⟩ := ran
      simp only [idsOfDefs, List.nodup_append] at distinct
      obtain ⟨distinctFunction, distinctRest, apart⟩ := distinct
      have agreeFunction : AgreeOn function.ids final middle.layout :=
        (agree.mono fun other inside => by simp [idsOfDefs, inside]).before
          (agreeOutside_layTop second) fun other inFunction inRest =>
            apart other inFunction other inRest rfl
      exact ⟨middle.labels, functionLaid_of_layFunction function first distinctFunction agreeFunction,
        hypothesis second distinctRest agreeRest⟩
    | var declared =>
      simp only [layTop, run_bind_eq_ok] at ran
      obtain ⟨⟨⟩, middle, first, second⟩ := ran
      simp only [idsOfDefs, List.nodup_cons] at distinct
      obtain ⟨-, flat, size, measured, entered, sameLabels⟩ := layGlobal_entry first
      have kept := agreeOutside_layTop second declared.id distinct.1
      rw [← sameLabels]
      refine ⟨⟨flat, size, measured, ?_⟩, hypothesis second distinct.2 agreeRest⟩
      rw [(agree declared.id (by simp [idsOfDefs])).1, ← kept.1, entered]

/-- Laying out a program runs through its top level from an empty layout. -/
theorem ofProgram_eq_ok {program : Program} {layout : Layout}
    (laid : ofProgram program = .ok layout) :
    ∃ globals ready after,
      (reserveGlobals program.defs ∅).run ⟨empty, serviceLabels⟩ = .ok (globals, ready) ∧
      (layTop globals program.defs).run ready = .ok ((), after) ∧ after.layout = layout := by
  simp only [ofProgram, bind, Except.bind] at laid
  split at laid
  · cases laid
  next pair ran =>
    obtain ⟨⟨⟩, after⟩ := pair
    simp only [layProgram, run_bind_eq_ok] at ran
    obtain ⟨globals, ready, reserved, top⟩ := ran
    exact ⟨globals, ready, after, reserved, top, Except.ok.inj laid⟩

/-- In the layout of a program with distinct numbers everything has its place;
the labels of the global variables have been reserved before those of the
functions. -/
theorem topLaid_of_ofProgram {program : Program} {layout : Layout} (distinct : program.Distinct)
    (laid : ofProgram program = .ok layout) :
    ∃ globals ready after,
      (reserveGlobals program.defs ∅).run ⟨empty, serviceLabels⟩ = .ok (globals, ready) ∧
      TopLaid layout globals program.defs ready.labels after := by
  obtain ⟨globals, ready, after, reserved, top, rfl⟩ := ofProgram_eq_ok laid
  exact ⟨globals, ready, after.labels, reserved,
    topLaid_of_layTop top distinct fun _ _ => ⟨rfl, rfl⟩⟩

end ScopeStack.Layout
