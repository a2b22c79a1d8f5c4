import ScopeStack.Proofs.Emission.Records

/-!
# The code of nodes

The code of a statement, an expression or a local variable is a consecutive part of the code of
the innermost function around it, and a function has code of its own exactly if it has a body:
`filed_of_ofProgram`. The code of a function inside another one is not part of it, so `ownIds`
leaves out the functions that a statement defines.
-/

namespace ScopeStack

mutual

/-- The numbers of a statement, of its parts and of the variables that it defines, without
those of the functions inside it. -/
def Stmt.ownIds : Stmt → List NodeId
  | .expr id value => id :: value.ids
  | .assign id target source => id :: (target.ids ++ source.ids)
  | .cond id test yes no => id :: (test.ids ++ (ownIdsOfStmts yes ++ ownIdsOfStmts no))
  | .loop id test body => id :: (test.ids ++ ownIdsOfStmts body)
  | .block id defs body => id :: ((variablesIn defs).map VarDef.id ++ ownIdsOfStmts body)

/-- The numbers of statements, of their parts and of the variables that they define. -/
def ownIdsOfStmts : List Stmt → List NodeId
  | [] => []
  | stmt :: rest => stmt.ownIds ++ ownIdsOfStmts rest

end

namespace Emission

/-- The code recorded for nodes is part of given code. -/
def Covers (whole : Code) (table : Table Code) (ids : List NodeId) : Prop :=
  ∀ id ∈ ids, ∃ part, table[id]? = some part ∧ part <:+: whole

/-- A function without a body has no code. Otherwise the code of what it consists of is part
of its own. -/
def Filed (table : Table Code) (function : FunDef) : Prop :=
  match table[function.id]? with
  | none => function.isExternal = true
  | some own => function.isExternal = false ∧ Covers own table (ownIdsOfStmts function.body)

section Covers

variable {context : Context} {table : Table Code} {code : Code} {ids more : List NodeId}
  {id : NodeId}

/-- Code covers the nodes of two lists if it covers both. -/
theorem Covers.append (first : Covers code table ids) (second : Covers code table more) :
    Covers code table (ids ++ more) := List.forall_mem_append.mpr ⟨first, second⟩

/-- Code covers one more node if it is recorded for it. -/
theorem Covers.cons (own : table[id]? = some code) (rest : Covers code table ids) :
    Covers code table (id :: ids) :=
  List.forall_mem_cons.mpr ⟨⟨code, own, List.infix_rfl⟩, rest⟩

/-- What is part of a part is part of the whole. -/
theorem Contains.covers {property : Code → Prop} (contains : Contains code property)
    (each : ∀ part, property part → Covers part table ids) : Covers code table ids := by
  obtain ⟨part, within, has⟩ := contains
  intro id inside
  obtain ⟨own, found, inPart⟩ := each part has id inside
  exact ⟨own, found, inPart.trans within⟩

/-- The code of a use of a variable covers the use. -/
theorem VariableRecorded.covers (recorded : VariableRecorded context table id code) :
    Covers code table [id] := .cons recorded.1 (List.forall_mem_nil _)

mutual

/-- The code of an expression covers all nodes of the expression. -/
theorem ValueRecorded.covers {code : Code} : (expr : Expr) →
    ValueRecorded context table expr code → Covers code table expr.ids
  | .atom _ _, own => .cons own (List.forall_mem_nil _)
  | .var _ _, ⟨own, _⟩ => .cons own (List.forall_mem_nil _)
  | .call _ _ args, ⟨own, _, given⟩ => .cons own (given.covers fun _ => ArgsRecorded.covers args)
  | .unary _ _ operand, recorded => by
    obtain ⟨own, inner | ⟨use, name, rfl, inner⟩⟩ := valueRecorded_unary recorded
    · exact .cons own (inner.covers fun _ => ValueRecorded.covers operand)
    · exact .cons own inner.covers
  | .binary _ _ first second, ⟨own, left, right⟩ =>
    .cons own ((left.covers fun _ => ValueRecorded.covers first).append
      (right.covers fun _ => ValueRecorded.covers second))

/-- The code of arguments covers all nodes of the arguments. -/
theorem ArgsRecorded.covers {code : Code} : (args : List Expr) →
    ArgsRecorded context table args code → Covers code table (idsOfExprs args)
  | [], _ => List.forall_mem_nil _
  | arg :: rest, ⟨own, later⟩ =>
    (own.covers fun _ => ValueRecorded.covers arg).append
      (later.covers fun _ => ArgsRecorded.covers rest)

end

/-- The code of a place covers all nodes of the place. -/
theorem PlaceRecorded.covers {expr : Expr} (recorded : PlaceRecorded context table expr code) :
    Covers code table expr.ids := by
  rw [PlaceRecorded.eq_def] at recorded
  split at recorded
  next id name => exact VariableRecorded.covers recorded
  next id pointer => exact .cons recorded.1 (ValueRecorded.covers pointer recorded.2)
  next => exact recorded.elim

mutual

/-- What a statement consists of is part of its code. -/
theorem StmtRecorded.covers {code : Code} : (stmt : Stmt) →
    StmtRecorded context table stmt code → Covers code table stmt.ownIds
  | .expr _ value, ⟨own, inner⟩ => .cons own (inner.covers fun _ => ValueRecorded.covers value)
  | .assign _ _ source, ⟨own, place, value⟩ =>
    .cons own ((place.covers fun _ => PlaceRecorded.covers).append
      (value.covers fun _ => ValueRecorded.covers source))
  | .cond _ test yes no, ⟨own, tested, first, second⟩ =>
    .cons own ((tested.covers fun _ => ValueRecorded.covers test).append
      ((first.covers fun _ => StmtsRecorded.covers yes).append
        (second.covers fun _ => StmtsRecorded.covers no)))
  | .loop _ test body, ⟨own, tested, inner⟩ =>
    .cons own ((tested.covers fun _ => ValueRecorded.covers test).append
      (inner.covers fun _ => StmtsRecorded.covers body))
  | .block _ defs body, ⟨own, locals, inner, _⟩ => by
    refine .cons own (.append (locals.covers fun start recorded id inside => ?_)
      (inner.covers fun _ => StmtsRecorded.covers body))
    obtain ⟨declared, member, rfl⟩ := List.mem_map.mp inside
    obtain ⟨part, within, found⟩ := recorded declared member
    exact ⟨part, found, within⟩

/-- What statements consist of is part of their code. -/
theorem StmtsRecorded.covers {code : Code} : (stmts : List Stmt) →
    StmtsRecorded context table stmts code → Covers code table (ownIdsOfStmts stmts)
  | [], _ => List.forall_mem_nil _
  | stmt :: rest, ⟨own, later⟩ =>
    (own.covers fun _ => StmtRecorded.covers stmt).append
      (later.covers fun _ => StmtsRecorded.covers rest)

end

end Covers

section Filed

variable {table : Table Code} {function : FunDef}

mutual

/-- The functions in a statement have their code. -/
theorem StmtRecorded.filed {context : Context} {code : Code} : (stmt : Stmt) →
    StmtRecorded context table stmt code → function ∈ stmt.functions → Filed table function
  | .expr _ _, _, inside => nomatch inside
  | .assign _ _ _, _, inside => nomatch inside
  | .cond _ _ yes no, ⟨_, _, ⟨_, _, first⟩, ⟨_, _, second⟩⟩, inside => by
    rcases List.mem_append.mp inside with inYes | inNo
    · exact StmtsRecorded.filed yes first inYes
    · exact StmtsRecorded.filed no second inNo
  | .loop _ _ body, ⟨_, _, ⟨_, _, inner⟩⟩, inside => StmtsRecorded.filed body inner inside
  | .block _ defs body, ⟨_, _, ⟨_, _, inner⟩, functions⟩, inside => by
    rcases List.mem_append.mp inside with inBody | inDefs
    · exact StmtsRecorded.filed body inner inBody
    · exact FunctionsRecorded.filed defs functions inDefs

/-- The functions in statements have their code. -/
theorem StmtsRecorded.filed {context : Context} {code : Code} : (stmts : List Stmt) →
    StmtsRecorded context table stmts code → function ∈ functionsOfStmts stmts →
    Filed table function
  | [], _, inside => nomatch inside
  | stmt :: rest, ⟨⟨_, _, own⟩, ⟨_, _, later⟩⟩, inside => by
    rcases List.mem_append.mp inside with inStmt | inRest
    · exact StmtRecorded.filed stmt own inStmt
    · exact StmtsRecorded.filed rest later inRest

/-- The functions among definitions and inside them have their code. -/
theorem FunctionsRecorded.filed {context : Context} : (defs : List Def) →
    FunctionsRecorded context table defs → function ∈ functionsOfDefs defs → Filed table function
  | [], _, inside => nomatch inside
  | .fn own :: rest, ⟨first, later⟩, inside => by
    rw [functionsOfDefs_fn] at inside
    rcases List.mem_append.mp inside with inFunction | inRest
    · exact FunctionRecorded.filed own first inFunction
    · exact FunctionsRecorded.filed rest later inRest
  | .var _ :: rest, later, inside => FunctionsRecorded.filed rest later inside

/-- A function and those inside it have their code. -/
theorem FunctionRecorded.filed {context : Context} : (own : FunDef) →
    FunctionRecorded context table own → function ∈ own :: functionsOfStmts own.body →
    Filed table function
  | ⟨id, name, params, body⟩, ⟨external, held⟩, inside => by
    cases empty : body.isEmpty with
    | true =>
      rw [List.isEmpty_iff.mp empty] at inside
      obtain rfl := List.mem_singleton.mp inside
      rw [Filed, external empty]
      rfl
    | false =>
      obtain ⟨code, found, contains⟩ := held empty
      rcases List.mem_cons.mp inside with rfl | inBody
      · rw [Filed, found]
        exact ⟨empty, contains.covers fun _ => StmtsRecorded.covers body⟩
      · obtain ⟨_, -, inner⟩ := contains
        exact StmtsRecorded.filed body inner inBody

end

end Filed

/-- In an image a function has code exactly if it has a body, and the code of what it consists
of is part of its own. -/
theorem filed_of_ofProgram {program : Program} {layout : Layout} {image : Image}
    {function : FunDef} (distinct : program.Distinct)
    (assembled : Image.ofProgram program layout = .ok image)
    (inside : function ∈ program.functions) : Filed image.nodeCode function :=
  FunctionsRecorded.filed program.defs (functionsRecorded_of_ofProgram distinct assembled) inside

end Emission

end ScopeStack
