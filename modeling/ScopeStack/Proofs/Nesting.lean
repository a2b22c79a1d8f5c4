import Mathlib.Data.List.Nodup
import ScopeStack.Proofs.Scope

/-!
# How functions nest

`Program.nesting` lists the functions of a program, each with the functions
around it from the innermost outward. In a program whose numbers are distinct a
function stands in one place only, and not inside itself.
-/

namespace ScopeStack

mutual

/-- The functions in a statement, each with those around it. -/
def Stmt.nested (around : List FunDef) : Stmt → List (List FunDef × FunDef)
  | .expr _ _ => []
  | .assign _ _ _ => []
  | .cond _ _ yes no => nestedInStmts around yes ++ nestedInStmts around no
  | .loop _ _ body => nestedInStmts around body
  | .block _ defs body => nestedInStmts around body ++ nestedInDefs around defs

/-- The functions in statements, each with those around it. -/
def nestedInStmts (around : List FunDef) : List Stmt → List (List FunDef × FunDef)
  | [] => []
  | stmt :: rest => stmt.nested around ++ nestedInStmts around rest

/-- The functions among definitions and inside them, each with those around
it. -/
def nestedInDefs (around : List FunDef) : List Def → List (List FunDef × FunDef)
  | [] => []
  | .fn ⟨id, name, params, body⟩ :: rest =>
    (around, ⟨id, name, params, body⟩) ::
      nestedInStmts (⟨id, name, params, body⟩ :: around) body ++ nestedInDefs around rest
  | .var _ :: rest => nestedInDefs around rest

end

/-- The functions of a program, each with those around it. -/
def Program.nesting (program : Program) : List (List FunDef × FunDef) :=
  nestedInDefs [] program.defs

mutual

/-- The functions nested in a statement are those inside it. -/
theorem Stmt.map_snd_nested {around : List FunDef} : (stmt : Stmt) →
    (stmt.nested around).map Prod.snd = stmt.functions
  | .expr _ _ => rfl
  | .assign _ _ _ => rfl
  | .cond _ _ yes no => by
    rw [Stmt.nested, List.map_append, map_snd_nestedInStmts, map_snd_nestedInStmts, Stmt.functions]
  | .loop _ _ body => map_snd_nestedInStmts body
  | .block _ defs body => by
    rw [Stmt.nested, List.map_append, map_snd_nestedInStmts, map_snd_nestedInDefs, Stmt.functions]

/-- The functions nested in statements are those inside them. -/
theorem map_snd_nestedInStmts {around : List FunDef} : (stmts : List Stmt) →
    (nestedInStmts around stmts).map Prod.snd = functionsOfStmts stmts
  | [] => rfl
  | stmt :: rest => by
    rw [nestedInStmts, List.map_append, stmt.map_snd_nested, map_snd_nestedInStmts, functionsOfStmts]

/-- The functions nested in definitions are those inside them. -/
theorem map_snd_nestedInDefs {around : List FunDef} : (defs : List Def) →
    (nestedInDefs around defs).map Prod.snd = functionsOfDefs defs
  | [] => rfl
  | .fn ⟨id, name, params, body⟩ :: rest => by
    rw [nestedInDefs, List.map_append, List.map_cons, map_snd_nestedInStmts, map_snd_nestedInDefs,
      functionsOfDefs]
  | .var _ :: rest => map_snd_nestedInDefs rest

end

mutual

/-- A function inside a statement is one of its nodes. -/
theorem Stmt.count_functions (id : NodeId) : (stmt : Stmt) →
    (stmt.functions.map FunDef.id).count id ≤ stmt.ids.count id
  | .expr _ _ => Nat.zero_le _
  | .assign _ _ _ => Nat.zero_le _
  | .cond _ _ yes no => by
    have inYes := count_functionsOfStmts id yes
    have inNo := count_functionsOfStmts id no
    simp only [Stmt.functions, Stmt.ids, List.map_append, List.count_append, List.count_cons]
    omega
  | .loop _ _ body => by
    have inBody := count_functionsOfStmts id body
    simp only [Stmt.functions, Stmt.ids, List.count_append, List.count_cons]
    omega
  | .block _ defs body => by
    have inBody := count_functionsOfStmts id body
    have inDefs := count_functionsOfDefs id defs
    simp only [Stmt.functions, Stmt.ids, List.map_append, List.count_append, List.count_cons]
    omega

/-- A function inside statements is one of their nodes. -/
theorem count_functionsOfStmts (id : NodeId) : (stmts : List Stmt) →
    ((functionsOfStmts stmts).map FunDef.id).count id ≤ (idsOfStmts stmts).count id
  | [] => Nat.zero_le _
  | stmt :: rest => by
    have inStmt := stmt.count_functions id
    have inRest := count_functionsOfStmts id rest
    simp only [functionsOfStmts, idsOfStmts, List.map_append, List.count_append]
    omega

/-- The number of a function is among the numbers of a tree as often as it has
functions with this number. -/
theorem count_functionsOfDefs (id : NodeId) : (defs : List Def) →
    ((functionsOfDefs defs).map FunDef.id).count id ≤ (idsOfDefs defs).count id
  | [] => Nat.zero_le _
  | .fn ⟨own, name, params, body⟩ :: rest => by
    have inBody := count_functionsOfStmts id body
    have inRest := count_functionsOfDefs id rest
    simp only [functionsOfDefs, idsOfDefs, FunDef.ids, List.map_append, List.map_cons,
      List.cons_append, List.count_append, List.count_cons]
    omega
  | .var declared :: rest => by
    have inRest := count_functionsOfDefs id rest
    simp only [functionsOfDefs, idsOfDefs, List.count_cons]
    omega

end

section Apart

variable {own : List FunDef × FunDef}

mutual

/-- No function inside a statement is around itself. -/
theorem Stmt.not_mem_around {around : List FunDef} : (stmt : Stmt) →
    (around.map FunDef.id ++ stmt.ids).Nodup → own ∈ stmt.nested around →
    own.2.id ∉ own.1.map FunDef.id
  | .expr _ _, _, inside => nomatch inside
  | .assign _ _ _, _, inside => nomatch inside
  | .cond _ test yes no, nodup, inside => by
    rcases List.mem_append.mp inside with inYes | inNo
    · refine not_mem_around_stmts yes (nodup_of_count_le nodup fun id => ?_) inYes
      simp only [Stmt.ids, List.count_append, List.count_cons]
      omega
    · refine not_mem_around_stmts no (nodup_of_count_le nodup fun id => ?_) inNo
      simp only [Stmt.ids, List.count_append, List.count_cons]
      omega
  | .loop _ test body, nodup, inside => by
    refine not_mem_around_stmts body (nodup_of_count_le nodup fun id => ?_) inside
    simp only [Stmt.ids, List.count_append, List.count_cons]
    omega
  | .block _ defs body, nodup, inside => by
    rcases List.mem_append.mp inside with inBody | inDefs
    · refine not_mem_around_stmts body (nodup_of_count_le nodup fun id => ?_) inBody
      simp only [Stmt.ids, List.count_append, List.count_cons]
      omega
    · refine not_mem_around_defs defs (nodup_of_count_le nodup fun id => ?_) inDefs
      simp only [Stmt.ids, List.count_append, List.count_cons]
      omega

/-- No function inside statements is around itself. -/
theorem not_mem_around_stmts {around : List FunDef} : (stmts : List Stmt) →
    (around.map FunDef.id ++ idsOfStmts stmts).Nodup → own ∈ nestedInStmts around stmts →
    own.2.id ∉ own.1.map FunDef.id
  | [], _, inside => nomatch inside
  | stmt :: rest, nodup, inside => by
    rcases List.mem_append.mp inside with inStmt | inRest
    · refine stmt.not_mem_around (nodup_of_count_le nodup fun id => ?_) inStmt
      simp only [idsOfStmts, List.count_append]
      omega
    · refine not_mem_around_stmts rest (nodup_of_count_le nodup fun id => ?_) inRest
      simp only [idsOfStmts, List.count_append]
      omega

/-- A function has another number than those around it. -/
theorem not_mem_around_defs {around : List FunDef} : (defs : List Def) →
    (around.map FunDef.id ++ idsOfDefs defs).Nodup → own ∈ nestedInDefs around defs →
    own.2.id ∉ own.1.map FunDef.id
  | [], _, inside => nomatch inside
  | .fn ⟨id, name, params, body⟩ :: rest, nodup, inside => by
    rcases List.mem_append.mp inside with inFunction | inRest
    · rcases List.mem_cons.mp inFunction with rfl | inBody
      · intro enclosing
        refine List.disjoint_of_nodup_append nodup enclosing ?_
        simp [idsOfDefs, FunDef.ids]
      · refine not_mem_around_stmts body (nodup_of_count_le nodup fun other => ?_) inBody
        simp only [idsOfDefs, FunDef.ids, List.map_cons, List.count_append, List.count_cons]
        omega
    · refine not_mem_around_defs rest (nodup_of_count_le nodup fun other => ?_) inRest
      simp only [idsOfDefs, List.count_append]
      omega
  | .var declared :: rest, nodup, inside => by
    refine not_mem_around_defs rest (nodup_of_count_le nodup fun other => ?_) inside
    simp only [idsOfDefs, List.count_append, List.count_cons]
    omega

end

end Apart

/-- The functions among definitions stand inside those around the definitions. -/
theorem mem_nestedInDefs {around : List FunDef} {defs : List Def} {function : FunDef}
    (inside : function ∈ functionsIn defs) : (around, function) ∈ nestedInDefs around defs := by
  rw [mem_functionsIn] at inside
  induction defs with
  | nil => cases inside
  | cons definition rest hypothesis =>
    cases definition with
    | fn own =>
      obtain ⟨id, name, params, body⟩ := own
      rcases List.mem_cons.mp inside with same | later
      · cases same
        exact List.mem_cons_self
      · exact List.mem_cons_of_mem _ (List.mem_append_right _ (hypothesis later))
    | var declared =>
      rcases List.mem_cons.mp inside with same | later
      · cases same
      · exact hypothesis later

section Inside

variable {own inner : List FunDef × FunDef}

mutual

/-- What is nested in a function is nested in the statement around it. -/
theorem Stmt.nested_of_body {around : List FunDef} : (stmt : Stmt) → own ∈ stmt.nested around →
    inner ∈ nestedInStmts (own.2 :: own.1) own.2.body → inner ∈ stmt.nested around
  | .expr _ _, inside, _ => nomatch inside
  | .assign _ _ _, inside, _ => nomatch inside
  | .cond _ _ yes no, inside, within => by
    rcases List.mem_append.mp inside with inYes | inNo
    · exact List.mem_append_left _ (nestedInStmts_of_body yes inYes within)
    · exact List.mem_append_right _ (nestedInStmts_of_body no inNo within)
  | .loop _ _ body, inside, within => nestedInStmts_of_body body inside within
  | .block _ defs body, inside, within => by
    rcases List.mem_append.mp inside with inBody | inDefs
    · exact List.mem_append_left _ (nestedInStmts_of_body body inBody within)
    · exact List.mem_append_right _ (nestedInDefs_of_body defs inDefs within)

/-- What is nested in a function is nested in the statements around it. -/
theorem nestedInStmts_of_body {around : List FunDef} : (stmts : List Stmt) →
    own ∈ nestedInStmts around stmts →
    inner ∈ nestedInStmts (own.2 :: own.1) own.2.body → inner ∈ nestedInStmts around stmts
  | [], inside, _ => nomatch inside
  | stmt :: rest, inside, within => by
    rcases List.mem_append.mp inside with inStmt | inRest
    · exact List.mem_append_left _ (stmt.nested_of_body inStmt within)
    · exact List.mem_append_right _ (nestedInStmts_of_body rest inRest within)

/-- What stands inside a function stands where the function does. -/
theorem nestedInDefs_of_body {around : List FunDef} : (defs : List Def) →
    own ∈ nestedInDefs around defs →
    inner ∈ nestedInStmts (own.2 :: own.1) own.2.body → inner ∈ nestedInDefs around defs
  | [], inside, _ => nomatch inside
  | .fn ⟨id, name, params, body⟩ :: rest, inside, within => by
    rcases List.mem_append.mp inside with inFunction | inRest
    · refine List.mem_append_left _ ?_
      rcases List.mem_cons.mp inFunction with rfl | inBody
      · exact List.mem_cons_of_mem _ within
      · exact List.mem_cons_of_mem _ (nestedInStmts_of_body body inBody within)
    · exact List.mem_append_right _ (nestedInDefs_of_body rest inRest within)
  | .var _ :: rest, inside, within => nestedInDefs_of_body rest inside within

end

end Inside

namespace Program

variable {program : Program}

/-- No function stands inside itself. -/
theorem not_mem_around (distinct : program.Distinct) {around : List FunDef} {function : FunDef}
    (inside : (around, function) ∈ program.nesting) : function.id ∉ around.map FunDef.id :=
  @not_mem_around_defs (around, function) [] program.defs distinct inside

/-- The functions of a program have different numbers. -/
theorem nodup_functions (distinct : program.Distinct) : (program.functions.map FunDef.id).Nodup :=
  nodup_of_count_le distinct fun id => count_functionsOfDefs id program.defs

/-- A function is determined by its number. -/
theorem functions_unique (distinct : program.Distinct) {first second : FunDef}
    (inFirst : first ∈ program.functions) (inSecond : second ∈ program.functions)
    (same : first.id = second.id) : first = second :=
  List.inj_on_of_nodup_map (nodup_functions distinct) inFirst inSecond same

/-- Every nested function is a function of the program. -/
theorem mem_functions_of_nesting {around : List FunDef} {function : FunDef}
    (inside : (around, function) ∈ program.nesting) : function ∈ program.functions := by
  rw [functions, ← map_snd_nestedInDefs program.defs]
  exact List.mem_map_of_mem inside

/-- A function stands in one place only. -/
theorem nesting_unique (distinct : program.Distinct) {first second : List FunDef × FunDef}
    (inFirst : first ∈ program.nesting) (inSecond : second ∈ program.nesting)
    (same : first.2.id = second.2.id) : first = second := by
  have nodup : (program.nesting.map fun own => own.2.id).Nodup := by
    have ids := nodup_functions distinct
    rw [functions, ← map_snd_nestedInDefs program.defs, List.map_map] at ids
    exact ids
  exact List.inj_on_of_nodup_map nodup inFirst inSecond same

end Program

end ScopeStack
