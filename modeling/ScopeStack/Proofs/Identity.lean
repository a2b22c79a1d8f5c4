import ScopeStack.Program

/-!
# Numbers of nodes

Attributes are tables by node number, so what is known about a node survives
the rest of a traversal only if no other node has its number. `ids` lists the
numbers of all definitions, parameters, statements and expressions of a tree,
and `Program.Distinct` says that none occurs twice. The constants of an
expression and the items of an initializer have no attributes of their own,
and their numbers do not matter.
-/

namespace ScopeStack

mutual

/-- The numbers of an expression and of all its parts. -/
def Expr.ids : Expr → List NodeId
  | .atom id _ => [id]
  | .unary id _ operand => id :: operand.ids
  | .binary id _ first second => id :: (first.ids ++ second.ids)
  | .var id _ => [id]
  | .call id _ args => id :: idsOfExprs args

/-- The numbers of expressions and of all their parts. -/
def idsOfExprs : List Expr → List NodeId
  | [] => []
  | expr :: rest => expr.ids ++ idsOfExprs rest

end

mutual

/-- The numbers of a statement and of all that it contains. -/
def Stmt.ids : Stmt → List NodeId
  | .expr id value => id :: value.ids
  | .assign id target source => id :: (target.ids ++ source.ids)
  | .cond id test yes no => id :: (test.ids ++ (idsOfStmts yes ++ idsOfStmts no))
  | .loop id test body => id :: (test.ids ++ idsOfStmts body)
  | .block id defs body => id :: (idsOfDefs defs ++ idsOfStmts body)

/-- The numbers of statements and of all that they contain. -/
def idsOfStmts : List Stmt → List NodeId
  | [] => []
  | stmt :: rest => stmt.ids ++ idsOfStmts rest

/-- The numbers of definitions and of all that they contain. -/
def idsOfDefs : List Def → List NodeId
  | [] => []
  | .fn function :: rest => function.ids ++ idsOfDefs rest
  | .var declared :: rest => declared.id :: idsOfDefs rest

/-- The numbers of a function, its parameters and all that its body
contains. -/
def FunDef.ids : FunDef → List NodeId
  | ⟨id, _, params, body⟩ => id :: (params.map Param.id ++ idsOfStmts body)

end

/-- Numbers that a list without repetitions counts in are not repeated. -/
theorem nodup_of_count_le {part whole : List NodeId} (distinct : whole.Nodup)
    (le : ∀ id, part.count id ≤ whole.count id) : part.Nodup := by
  rw [List.nodup_iff_count] at distinct ⊢
  exact fun id => Nat.le_trans (le id) (distinct id)

/-- Numbers that a list counts in are in it. -/
theorem mem_of_count_le {part whole : List NodeId}
    (le : ∀ id, part.count id ≤ whole.count id) : ∀ id ∈ part, id ∈ whole :=
  fun id inside => List.count_pos_iff.mp (Nat.lt_of_lt_of_le (List.count_pos_iff.mpr inside) (le id))

/-- Two lists that a list without repetitions counts in together have nothing in
common. -/
theorem apart_of_count_le {first second whole : List NodeId} (distinct : whole.Nodup)
    (le : ∀ id, first.count id + second.count id ≤ whole.count id) :
    ∀ id ∈ first, id ∉ second := by
  intro id inFirst inSecond
  have once := List.nodup_iff_count.mp distinct id
  have atFirst := List.count_pos_iff.mpr inFirst
  have atSecond := List.count_pos_iff.mpr inSecond
  have together := le id
  omega

/-- No number belongs to two nodes. -/
def Program.Distinct (program : Program) : Prop := (idsOfDefs program.defs).Nodup

instance (program : Program) : Decidable program.Distinct :=
  inferInstanceAs (Decidable (List.Nodup _))

end ScopeStack
