import ScopeStack.Program

/-!
# Renumbering a program

`Program.rename` gives every node of a program another number and moves the entries of its tables
along. `Program.Renamed` is what this means for whoever looks things up in the tables; it also
covers a program whose locations are different ones.
-/

namespace ScopeStack

/-- Give a constant another number. -/
def Atom.rename (renumber : NodeId → NodeId) (atom : Atom) : Atom :=
  { atom with id := renumber atom.id }

/-- Give an element of an initializer and its constants other numbers. -/
def InitItem.rename (renumber : NodeId → NodeId) (item : InitItem) : InitItem :=
  ⟨renumber item.id, item.count.rename renumber, item.value.rename renumber⟩

/-- Give a variable and its initializer other numbers. -/
def VarDef.rename (renumber : NodeId → NodeId) (declared : VarDef) : VarDef :=
  ⟨renumber declared.id, declared.name, declared.items.map (InitItem.rename renumber)⟩

/-- Give a parameter another number. -/
def Param.rename (renumber : NodeId → NodeId) (param : Param) : Param :=
  { param with id := renumber param.id }

mutual

/-- Give an expression and its parts other numbers. -/
def Expr.rename (renumber : NodeId → NodeId) : Expr → Expr
  | .atom id atom => .atom (renumber id) (atom.rename renumber)
  | .unary id op operand => .unary (renumber id) op (operand.rename renumber)
  | .binary id op first second =>
    .binary (renumber id) op (first.rename renumber) (second.rename renumber)
  | .var id name => .var (renumber id) name
  | .call id name args => .call (renumber id) name (renameExprs renumber args)

/-- Give expressions and their parts other numbers. -/
def renameExprs (renumber : NodeId → NodeId) : List Expr → List Expr
  | [] => []
  | expr :: rest => expr.rename renumber :: renameExprs renumber rest

end

mutual

/-- Give all nodes of a statement other numbers. -/
def Stmt.rename (renumber : NodeId → NodeId) : Stmt → Stmt
  | .expr id value => .expr (renumber id) (value.rename renumber)
  | .assign id target source =>
    .assign (renumber id) (target.rename renumber) (source.rename renumber)
  | .cond id test yes no =>
    .cond (renumber id) (test.rename renumber) (renameStmts renumber yes) (renameStmts renumber no)
  | .loop id test body => .loop (renumber id) (test.rename renumber) (renameStmts renumber body)
  | .block id defs body =>
    .block (renumber id) (renameDefs renumber defs) (renameStmts renumber body)

/-- Give all nodes of statements other numbers. -/
def renameStmts (renumber : NodeId → NodeId) : List Stmt → List Stmt
  | [] => []
  | stmt :: rest => stmt.rename renumber :: renameStmts renumber rest

/-- Give all nodes of definitions other numbers. -/
def renameDefs (renumber : NodeId → NodeId) : List Def → List Def
  | [] => []
  | .fn function :: rest => .fn (function.rename renumber) :: renameDefs renumber rest
  | .var declared :: rest => .var (declared.rename renumber) :: renameDefs renumber rest

/-- Give a function and all nodes in it other numbers. -/
def FunDef.rename (renumber : NodeId → NodeId) : FunDef → FunDef
  | ⟨id, name, params, body⟩ =>
    ⟨renumber id, name, params.map (Param.rename renumber), renameStmts renumber body⟩

end

/-- Move the entries of a table to other numbers, and change what they hold. -/
def Table.rename {α β : Type} (renumber : NodeId → NodeId) (change : α → β) (table : Table α) :
    Table β :=
  Std.TreeMap.ofList (table.toList.map fun entry => (renumber entry.1, change entry.2))

/-- Give all nodes of a program other numbers, in its tree and in its tables. -/
def Program.rename (renumber : NodeId → NodeId) (program : Program) : Program where
  defs := renameDefs renumber program.defs
  locations := program.locations.rename renumber id
  definitions := program.definitions.rename renumber renumber
  places := program.places.rename renumber id

/-- The entry of a renumbered node is that of the node. -/
theorem Table.getElem?_rename {α β : Type} {renumber : NodeId → NodeId} {change : α → β}
    (injective : Function.Injective renumber) (table : Table α) (id : NodeId) :
    (table.rename renumber change)[renumber id]? = table[id]?.map change := by
  rw [Table.rename]
  cases found : table[id]? with
  | none =>
    refine Std.TreeMap.getElem?_ofList_of_contains_eq_false ?_
    rw [Bool.eq_false_iff, ne_eq, List.contains_iff_mem, List.map_map, List.mem_map]
    rintro ⟨⟨key, value⟩, listed, same⟩
    obtain rfl := injective same
    rw [Std.TreeMap.mem_toList_iff_getElem?_eq_some, found] at listed
    cases listed
  | some value =>
    have listed := Std.TreeMap.mem_toList_iff_getElem?_eq_some.mpr found
    refine Std.TreeMap.getElem?_ofList_of_mem Std.compare_self ?_
      (List.mem_map_of_mem listed)
    rw [List.pairwise_map]
    refine Std.TreeMap.distinct_keys_toList.imp fun {one other} different same => different ?_
    rw [Std.compare_eq_iff_eq] at same ⊢
    exact injective same

/-- The entries of a table are, up to a relation, those of another one at the new numbers. -/
def Table.Moved {α β : Type} (renumber : NodeId → NodeId) (related : α → β → Prop)
    (table : Table α) (other : Table β) : Prop :=
  ∀ id, Option.Rel related table[id]? other[renumber id]?

namespace Table.Moved

variable {α β : Type} {renumber : NodeId → NodeId} {related : α → β → Prop}

/-- Nothing is moved from an empty table. -/
theorem empty : Table.Moved renumber related (∅ : Table α) (∅ : Table β) := by
  intro id
  rw [Std.TreeMap.getElem?_emptyc, Std.TreeMap.getElem?_emptyc]
  exact .none

/-- An entry may be added on both sides. -/
theorem insert (injective : Function.Injective renumber) {table : Table α} {other : Table β}
    (moved : Table.Moved renumber related table other) (id : NodeId) {value : α} {value' : β}
    (same : related value value') :
    Table.Moved renumber related (table.insert id value) (other.insert (renumber id) value') := by
  intro key
  rw [Std.TreeMap.getElem?_insert, Std.TreeMap.getElem?_insert]
  by_cases isKey : id = key
  · subst isKey
    rw [if_pos Std.compare_self, if_pos Std.compare_self]
    exact .some same
  · rw [if_neg fun equal => isKey (Std.compare_eq_iff_eq.mp equal),
      if_neg fun equal => isKey (injective (Std.compare_eq_iff_eq.mp equal))]
    exact moved key

/-- Related options are both empty or hold related values. -/
theorem cases_of_rel {one : Option α} {other : Option β} (rel : Option.Rel related one other) :
    (one = none ∧ other = none) ∨
      ∃ value value', one = some value ∧ other = some value' ∧ related value value' := by
  cases rel with
  | some same => exact .inr ⟨_, _, rfl, rfl, same⟩
  | none => exact .inl ⟨rfl, rfl⟩

/-- A node has related entries on both sides, or none. -/
theorem entries {table : Table α} {other : Table β}
    (moved : Table.Moved renumber related table other) (id : NodeId) :
    (table[id]? = none ∧ other[renumber id]? = none) ∨
      ∃ value value', table[id]? = some value ∧ other[renumber id]? = some value' ∧
        related value value' := cases_of_rel (moved id)

/-- Tables that hold the same have the same entries. -/
theorem getElem?_eq {table other : Table α} (moved : Table.Moved renumber Eq table other)
    (id : NodeId) : other[renumber id]? = table[id]? := by
  rcases moved.entries id with ⟨absent, absent'⟩ | ⟨value, value', found, found', same⟩
  · rw [absent, absent']
  · rw [found, found', same]

/-- The same nodes have entries. -/
theorem contains_eq {table : Table α} {other : Table β}
    (moved : Table.Moved renumber related table other) (id : NodeId) :
    other.contains (renumber id) = table.contains id := by
  rw [Std.TreeMap.contains_eq_isSome_getElem?, Std.TreeMap.contains_eq_isSome_getElem?]
  rcases moved.entries id with ⟨absent, absent'⟩ | ⟨value, value', found, found', -⟩
  · rw [absent, absent', Option.isSome_none, Option.isSome_none]
  · rw [found, found', Option.isSome_some, Option.isSome_some]

end Table.Moved

section Trees

variable (renumber : NodeId → NodeId)

/-- New numbers do not add or take away statements. -/
theorem isEmpty_renameStmts (stmts : List Stmt) :
    (renameStmts renumber stmts).isEmpty = stmts.isEmpty := by
  cases stmts <;> rfl

/-- A variable gets its new number. -/
@[simp] theorem id_rename_varDef (declared : VarDef) :
    (declared.rename renumber).id = renumber declared.id := rfl

/-- A function gets its new number. -/
theorem FunDef.id_rename (function : FunDef) :
    (function.rename renumber).id = renumber function.id := by
  cases function
  rfl

/-- A function keeps its name. -/
theorem FunDef.name_rename (function : FunDef) :
    (function.rename renumber).name = function.name := by
  cases function
  rfl

/-- A function without a body stays so. -/
theorem FunDef.isExternal_rename (function : FunDef) :
    (function.rename renumber).isExternal = function.isExternal := by
  cases function
  exact isEmpty_renameStmts renumber _

mutual

/-- Whether a statement leaves a value does not depend on numbers. -/
theorem Stmt.leavesValue_rename : (stmt : Stmt) →
    (stmt.rename renumber).leavesValue = stmt.leavesValue
  | .expr _ _ => rfl
  | .assign _ _ _ => rfl
  | .cond _ _ _ _ => rfl
  | .loop _ _ _ => rfl
  | .block _ _ body => leavesValue_renameStmts body

/-- Whether statements leave a value does not depend on numbers. -/
theorem leavesValue_renameStmts : (stmts : List Stmt) →
    leavesValue (renameStmts renumber stmts) = leavesValue stmts
  | [] => rfl
  | stmt :: rest => by
    rw [renameStmts, leavesValue, leavesValue, isEmpty_renameStmts, stmt.leavesValue_rename,
      leavesValue_renameStmts rest]

end

mutual

/-- The functions inside a statement are renumbered. -/
theorem Stmt.functions_rename : (stmt : Stmt) →
    (stmt.rename renumber).functions = stmt.functions.map (FunDef.rename renumber)
  | .expr _ _ => rfl
  | .assign _ _ _ => rfl
  | .cond _ _ yes no => by
    rw [Stmt.rename, Stmt.functions, Stmt.functions, List.map_append, functionsOfStmts_rename yes,
      functionsOfStmts_rename no]
  | .loop _ _ body => functionsOfStmts_rename body
  | .block _ defs body => by
    rw [Stmt.rename, Stmt.functions, Stmt.functions, List.map_append, functionsOfStmts_rename body,
      functionsOfDefs_rename defs]

/-- The functions inside statements are renumbered. -/
theorem functionsOfStmts_rename : (stmts : List Stmt) →
    functionsOfStmts (renameStmts renumber stmts) =
      (functionsOfStmts stmts).map (FunDef.rename renumber)
  | [] => rfl
  | stmt :: rest => by
    rw [renameStmts, functionsOfStmts, functionsOfStmts, List.map_append, stmt.functions_rename,
      functionsOfStmts_rename rest]

/-- The functions of renumbered definitions are those of the definitions, renumbered. -/
theorem functionsOfDefs_rename : (defs : List Def) →
    functionsOfDefs (renameDefs renumber defs) =
      (functionsOfDefs defs).map (FunDef.rename renumber)
  | [] => rfl
  | .fn ⟨id, name, params, body⟩ :: rest => by
    rw [renameDefs, FunDef.rename, functionsOfDefs, functionsOfDefs, List.map_append, List.map_cons,
      functionsOfStmts_rename body, functionsOfDefs_rename rest, FunDef.rename]
  | .var declared :: rest => by
    rw [renameDefs, functionsOfDefs, functionsOfDefs, functionsOfDefs_rename rest]

end

mutual

/-- An expression is not changed by numbers that stay. -/
theorem Expr.rename_id : (expr : Expr) → expr.rename id = expr
  | .atom _ _ => rfl
  | .var _ _ => rfl
  | .unary _ _ operand => by rw [Expr.rename, operand.rename_id, id]
  | .binary _ _ first second => by rw [Expr.rename, first.rename_id, second.rename_id, id]
  | .call _ _ args => by rw [Expr.rename, renameExprs_id args, id]

/-- Expressions are not changed by numbers that stay. -/
theorem renameExprs_id : (exprs : List Expr) → renameExprs id exprs = exprs
  | [] => rfl
  | expr :: rest => by rw [renameExprs, expr.rename_id, renameExprs_id rest]

end

mutual

/-- A statement is not changed by numbers that stay. -/
theorem Stmt.rename_id : (stmt : Stmt) → stmt.rename id = stmt
  | .expr _ value => by rw [Stmt.rename, value.rename_id, id]
  | .assign _ target source => by rw [Stmt.rename, target.rename_id, source.rename_id, id]
  | .cond _ test yes no => by
    rw [Stmt.rename, test.rename_id, renameStmts_id yes, renameStmts_id no, id]
  | .loop _ test body => by rw [Stmt.rename, test.rename_id, renameStmts_id body, id]
  | .block _ defs body => by rw [Stmt.rename, renameDefs_id defs, renameStmts_id body, id]

/-- Statements are not changed by numbers that stay. -/
theorem renameStmts_id : (stmts : List Stmt) → renameStmts id stmts = stmts
  | [] => rfl
  | stmt :: rest => by rw [renameStmts, stmt.rename_id, renameStmts_id rest]

/-- Giving every node its own number changes nothing. -/
theorem renameDefs_id : (defs : List Def) → renameDefs id defs = defs
  | [] => rfl
  | .fn ⟨own, name, params, body⟩ :: rest => by
    have same : params.map (Param.rename id) = params := List.map_id params
    rw [renameDefs, FunDef.rename, same, renameStmts_id body, renameDefs_id rest, id]
  | .var declared :: rest => by
    have same : declared.items.map (InitItem.rename id) = declared.items := List.map_id _
    rw [renameDefs, VarDef.rename, same, renameDefs_id rest, id]

end

end Trees

namespace Program

/-- A program is another one with its nodes renumbered: the numbers in its tree and in its tables
are the new ones. Its locations are those of the other program, or, where `located` is not asked
for, any. -/
structure Renamed (renumber : NodeId → NodeId) (located : Prop) (program other : Program) :
    Prop where
  defs : other.defs = renameDefs renumber program.defs
  location : located → ∀ id, other.location? (renumber id) = program.location? id
  definition : ∀ id, other.definition? (renumber id) = (program.definition? id).map renumber
  place : ∀ id, other.isPlace (renumber id) = program.isPlace id

/-- The entry point is that of the other program, renumbered. -/
theorem Renamed.entry {renumber : NodeId → NodeId} {located : Prop} {program other : Program}
    (renamed : program.Renamed renumber located other) :
    other.entry? = program.entry?.map (FunDef.rename renumber) := by
  rw [Program.entry?, Program.entry?, renamed.defs]
  induction program.defs with
  | nil => rfl
  | cons definition rest hypothesis =>
    cases definition with
    | var declared => exact hypothesis
    | fn function =>
      rw [renameDefs, List.findSome?_cons, List.findSome?_cons]
      dsimp only
      rw [function.name_rename, function.isExternal_rename]
      by_cases isEntry : function.name = entryPoint ∧ (!function.isExternal) = true
      · rw [if_pos isEntry, if_pos isEntry]
        rfl
      · rw [if_neg isEntry, if_neg isEntry]
        exact hypothesis

/-- A program is renamed by giving its nodes other numbers. -/
theorem renamed_rename {renumber : NodeId → NodeId} (injective : Function.Injective renumber)
    (located : Prop) (program : Program) :
    program.Renamed renumber located (program.rename renumber) where
  defs := rfl
  location := fun _ id => by
    rw [location?, Program.rename, Table.getElem?_rename injective, Option.map_id]
    rfl
  definition := fun id => by
    rw [definition?, Program.rename, Table.getElem?_rename injective, definition?]
  place := fun id => by
    rw [isPlace, Program.rename, Table.getElem?_rename injective, Option.map_id]
    rfl

/-- Only locations are different if others are put in their place. -/
theorem renamed_locations (program : Program) (locations : Table Span) :
    program.Renamed id False { program with locations } where
  defs := (renameDefs_id program.defs).symm
  location := False.elim
  definition := fun _ => (Option.map_id_apply).symm
  place := fun _ => rfl

end Program

end ScopeStack
