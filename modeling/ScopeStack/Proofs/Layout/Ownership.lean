import Mathlib.Data.List.Nodup
import Mathlib.Data.List.Pairwise
import ScopeStack.Proofs.Layout.Slots

/-!
# What a function defines itself

`FunDef.defined` lists the parameters, variables and functions that a function defines directly: in
blocks of its body at any depth, but not inside the functions there. In a program with distinct
numbers every number is defined directly by one function only, `Program.definer_unique`.
-/

namespace ScopeStack

mutual

/-- The functions that a statement defines, without those inside them. -/
def Stmt.localFunctions : Stmt → List FunDef
  | .expr _ _ => []
  | .assign _ _ _ => []
  | .cond _ _ yes no => localFunctionsOfStmts yes ++ localFunctionsOfStmts no
  | .loop _ _ body => localFunctionsOfStmts body
  | .block _ defs body => functionsIn defs ++ localFunctionsOfStmts body

/-- The functions that statements define, without those inside them. -/
def localFunctionsOfStmts : List Stmt → List FunDef
  | [] => []
  | stmt :: rest => stmt.localFunctions ++ localFunctionsOfStmts rest

end

/-- The numbers of what a function defines directly. -/
def FunDef.defined (function : FunDef) : List NodeId :=
  function.params.map Param.id ++ ((localsOfStmts function.body).map VarDef.id ++
    (localFunctionsOfStmts function.body).map FunDef.id)

mutual

/-- A node is defined at most once inside a statement. -/
theorem Stmt.count_defined (id : NodeId) : (stmt : Stmt) →
    (stmt.functions.flatMap FunDef.defined).count id + (stmt.locals.map VarDef.id).count id +
      (stmt.localFunctions.map FunDef.id).count id ≤ stmt.ids.count id
  | .expr _ _ => Nat.zero_le _
  | .assign _ _ _ => Nat.zero_le _
  | .cond _ _ yes no => by
    have inYes := count_definedOfStmts id yes
    have inNo := count_definedOfStmts id no
    simp only [Stmt.functions, Stmt.locals, Stmt.localFunctions, Stmt.ids, List.flatMap_append,
      List.map_append, List.count_append, List.count_cons]
    omega
  | .loop _ _ body => by
    have inBody := count_definedOfStmts id body
    simp only [Stmt.functions, Stmt.locals, Stmt.localFunctions, Stmt.ids, List.count_append,
      List.count_cons]
    omega
  | .block _ defs body => by
    have inBody := count_definedOfStmts id body
    have inDefs := count_definedOfDefs id defs
    simp only [Stmt.functions, Stmt.locals, Stmt.localFunctions, Stmt.ids, List.flatMap_append,
      List.map_append, List.count_append, List.count_cons]
    omega

/-- A node is defined at most once inside statements. -/
theorem count_definedOfStmts (id : NodeId) : (stmts : List Stmt) →
    ((functionsOfStmts stmts).flatMap FunDef.defined).count id +
      ((localsOfStmts stmts).map VarDef.id).count id +
      ((localFunctionsOfStmts stmts).map FunDef.id).count id ≤ (idsOfStmts stmts).count id
  | [] => Nat.zero_le _
  | stmt :: rest => by
    have inStmt := stmt.count_defined id
    have inRest := count_definedOfStmts id rest
    simp only [functionsOfStmts, localsOfStmts, localFunctionsOfStmts, idsOfStmts,
      List.flatMap_append, List.map_append, List.count_append]
    omega

/-- What the functions among definitions and inside them define directly, and the definitions
themselves, are different nodes of the tree. -/
theorem count_definedOfDefs (id : NodeId) : (defs : List Def) →
    ((functionsOfDefs defs).flatMap FunDef.defined).count id +
      ((variablesIn defs).map VarDef.id).count id +
      ((functionsIn defs).map FunDef.id).count id ≤ (idsOfDefs defs).count id
  | [] => Nat.zero_le _
  | .fn ⟨own, name, params, body⟩ :: rest => by
    have inBody := count_definedOfStmts id body
    have inRest := count_definedOfDefs id rest
    have sameFunctions : functionsIn (.fn ⟨own, name, params, body⟩ :: rest) =
      ⟨own, name, params, body⟩ :: functionsIn rest := rfl
    have sameVariables : variablesIn (.fn ⟨own, name, params, body⟩ :: rest) = variablesIn rest :=
      rfl
    simp only [sameFunctions, sameVariables, functionsOfDefs, idsOfDefs, FunDef.ids, FunDef.defined,
      List.cons_append, List.flatMap_cons, List.flatMap_append, List.map_cons, List.count_append,
      List.count_cons]
    omega
  | .var declared :: rest => by
    have inRest := count_definedOfDefs id rest
    have sameFunctions : functionsIn (.var declared :: rest) = functionsIn rest := rfl
    have sameVariables : variablesIn (.var declared :: rest) = declared :: variablesIn rest := rfl
    simp only [sameFunctions, sameVariables, functionsOfDefs, idsOfDefs, List.map_cons,
      List.count_cons]
    omega

end

namespace Program

variable {program : Program} {id : NodeId}

/-- A number is defined directly by one function only. -/
theorem definer_unique (distinct : program.Distinct) {first second : FunDef}
    (inFirst : first ∈ program.functions) (inSecond : second ∈ program.functions)
    (byFirst : id ∈ first.defined) (bySecond : id ∈ second.defined) : first = second := by
  have apart : (program.functions.flatMap FunDef.defined).Nodup := by
    refine nodup_of_count_le distinct fun id => ?_
    have all := count_definedOfDefs id program.defs
    rw [Program.functions]
    omega
  have symmetric : Std.Symm (Function.onFun List.Disjoint FunDef.defined) :=
    ⟨fun _ _ disjoint _ inSecond inFirst => disjoint inFirst inSecond⟩
  by_contra different
  have disjoint := (List.nodup_flatMap.mp apart).2.forall inFirst inSecond different
  exact disjoint byFirst bySecond

/-- What a function defines directly is not defined at the top level. -/
theorem not_top_of_defined (distinct : program.Distinct) {owner : FunDef}
    (inside : owner ∈ program.functions) (defines : id ∈ owner.defined) :
    id ∉ (variablesIn program.defs).map VarDef.id ++ (functionsIn program.defs).map FunDef.id := by
  have apart : ∀ id ∈ program.functions.flatMap FunDef.defined,
      id ∉ (variablesIn program.defs).map VarDef.id ++
        (functionsIn program.defs).map FunDef.id := by
    refine apart_of_count_le distinct fun id => ?_
    rw [List.count_append, ← Nat.add_assoc]
    exact count_definedOfDefs id program.defs
  exact apart id (List.mem_flatMap.mpr ⟨owner, inside, defines⟩)

end Program

end ScopeStack
