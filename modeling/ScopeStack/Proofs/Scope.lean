import ScopeStack.Builder
import ScopeStack.Proofs.Identity

/-!
# Scopes, and rules that hold everywhere in a program

A scope is the list of blocks and functions around a point of a program, from
the innermost outward. A definition at the top level is visible everywhere, a
definition of a block in all definitions and statements of the block, and a
parameter in the body of its function.

A `Rule` says what single nodes must be like in their scope, and `Obeys`
that every node of a tree is like that. The conditions under which programs
are well-formed are rules; `Rule.linked` is lexical scoping itself.
-/

namespace ScopeStack

/-- The blocks and functions around a point of a program. -/
inductive Scope where
  /-- The top level with its definitions. -/
  | top (defs : List Def)
  /-- The body of a function. -/
  | enter (function : FunDef) (outer : Scope)
  /-- A block with its definitions. -/
  | block (defs : List Def) (outer : Scope)

/-- The functions among definitions. -/
def functionsIn (defs : List Def) : List FunDef :=
  defs.filterMap fun
    | .fn function => some function
    | .var _ => none

/-- The variables among definitions. -/
def variablesIn (defs : List Def) : List VarDef :=
  defs.filterMap fun
    | .fn _ => none
    | .var declared => some declared

/-- The functions among definitions. -/
@[simp] theorem mem_functionsIn {function : FunDef} {defs : List Def} :
    function ∈ functionsIn defs ↔ .fn function ∈ defs := by
  rw [functionsIn, List.mem_filterMap]
  constructor
  · rintro ⟨definition, inside, found⟩
    cases definition with
    | fn other =>
      cases found
      exact inside
    | var declared => cases found
  · intro inside
    exact ⟨.fn function, inside, rfl⟩

/-- The variables among definitions. -/
@[simp] theorem mem_variablesIn {declared : VarDef} {defs : List Def} :
    declared ∈ variablesIn defs ↔ .var declared ∈ defs := by
  rw [variablesIn, List.mem_filterMap]
  constructor
  · rintro ⟨definition, inside, found⟩
    cases definition with
    | fn function => cases found
    | var other =>
      cases found
      exact inside
  · intro inside
    exact ⟨.var declared, inside, rfl⟩

/-- The numbers in definitions are those of the variables and those in the
functions. -/
theorem count_idsOfDefs (defs : List Def) (id : NodeId) :
    (idsOfDefs defs).count id =
      ((variablesIn defs).map VarDef.id).count id +
        ((functionsIn defs).flatMap FunDef.ids).count id := by
  induction defs with
  | nil => rfl
  | cons definition rest hypothesis =>
    cases definition with
    | fn function =>
      have sameFunctions : functionsIn (.fn function :: rest) = function :: functionsIn rest := rfl
      have sameVariables : variablesIn (.fn function :: rest) = variablesIn rest := rfl
      rw [idsOfDefs, sameFunctions, sameVariables, List.flatMap_cons, List.count_append,
        List.count_append, hypothesis]
      omega
    | var declared =>
      have sameFunctions : functionsIn (.var declared :: rest) = functionsIn rest := rfl
      have sameVariables : variablesIn (.var declared :: rest) = declared :: variablesIn rest := rfl
      rw [idsOfDefs, sameFunctions, sameVariables, List.map_cons, List.count_cons, List.count_cons,
        hypothesis]
      omega

namespace Program

/-- The entry point is a function of the program with a body. -/
theorem mem_functions_of_entry {program : Program} {main : FunDef} (entry : program.entry? = some main) :
    main ∈ functionsIn program.defs ∧ main.isExternal = false := by
  rw [Program.entry?, List.findSome?_eq_some_iff] at entry
  obtain ⟨before, definition, after, split, found, -⟩ := entry
  cases definition with
  | var declared => cases found
  | fn function =>
    dsimp only at found
    split at found
    next named =>
      cases found
      rw [mem_functionsIn, split]
      refine ⟨List.mem_append_right _ List.mem_cons_self, ?_⟩
      simpa using named.2
    next => cases found

/-- A program has a function to start in if one at the top level has the name of
the entry point and a body. -/
theorem exists_entry_iff {program : Program} :
    (∃ main, program.entry? = some main) ↔
      ∃ function ∈ functionsIn program.defs,
        function.name = entryPoint ∧ function.isExternal = false := by
  rw [← Option.isSome_iff_exists, Program.entry?, List.findSome?_isSome_iff]
  constructor
  · rintro ⟨definition, inside, found⟩
    cases definition with
    | var declared => cases found
    | fn function =>
      dsimp only at found
      split at found
      next named => exact ⟨function, mem_functionsIn.mpr inside, named.1, by simpa using named.2⟩
      next => cases found
  · rintro ⟨function, inside, named, hasBody⟩
    refine ⟨.fn function, mem_functionsIn.mp inside, ?_⟩
    dsimp only
    rw [if_pos ⟨named, by simp [hasBody]⟩]
    rfl

end Program

namespace Scope

/-- The number of blocks and functions around a point. -/
def depth : Scope → Nat
  | .top _ => 0
  | .enter _ outer => outer.depth + 1
  | .block _ outer => outer.depth + 1

/-- The functions around a point, innermost first. -/
def enclosing : Scope → List FunDef
  | .top _ => []
  | .enter function outer => function :: outer.enclosing
  | .block _ outer => outer.enclosing

/-- The numbers of the visible variables and parameters. -/
def variableIds : Scope → List NodeId
  | .top defs => (variablesIn defs).map VarDef.id
  | .enter function outer => function.params.map Param.id ++ outer.variableIds
  | .block defs outer => (variablesIn defs).map VarDef.id ++ outer.variableIds

/-- The visible functions. -/
def functions : Scope → List FunDef
  | .top defs => functionsIn defs
  | .enter _ outer => outer.functions
  | .block defs outer => functionsIn defs ++ outer.functions

end Scope

/-- What single nodes must be like in the scope in which they stand. A
definition stands in the scope of the block that it belongs to. -/
structure Rule where
  expr : Scope → Expr → Prop
  stmt : Scope → Stmt → Prop
  function : Scope → FunDef → Prop
  declared : Scope → VarDef → Prop

mutual

/-- Every part of an expression obeys a rule. -/
def Expr.Obeys (rule : Rule) (scope : Scope) : Expr → Prop
  | .atom id atom => rule.expr scope (.atom id atom)
  | .unary id op operand => rule.expr scope (.unary id op operand) ∧ operand.Obeys rule scope
  | .binary id op first second =>
    rule.expr scope (.binary id op first second) ∧ first.Obeys rule scope ∧ second.Obeys rule scope
  | .var id name => rule.expr scope (.var id name)
  | .call id name args => rule.expr scope (.call id name args) ∧ ExprsObey rule scope args

/-- Every part of expressions obeys a rule. -/
def ExprsObey (rule : Rule) (scope : Scope) : List Expr → Prop
  | [] => True
  | expr :: rest => expr.Obeys rule scope ∧ ExprsObey rule scope rest

end

mutual

/-- All nodes of a statement obey a rule. -/
def Stmt.Obeys (rule : Rule) (scope : Scope) : Stmt → Prop
  | .expr id value => rule.stmt scope (.expr id value) ∧ value.Obeys rule scope
  | .assign id target source =>
    rule.stmt scope (.assign id target source) ∧ target.Obeys rule scope ∧ source.Obeys rule scope
  | .cond id test yes no =>
    rule.stmt scope (.cond id test yes no) ∧ test.Obeys rule scope ∧
      StmtsObey rule scope yes ∧ StmtsObey rule scope no
  | .loop id test body =>
    rule.stmt scope (.loop id test body) ∧ test.Obeys rule scope ∧ StmtsObey rule scope body
  | .block id defs body =>
    rule.stmt scope (.block id defs body) ∧ DefsObey rule (.block defs scope) defs ∧
      StmtsObey rule (.block defs scope) body

/-- All nodes of statements obey a rule. -/
def StmtsObey (rule : Rule) (scope : Scope) : List Stmt → Prop
  | [] => True
  | stmt :: rest => stmt.Obeys rule scope ∧ StmtsObey rule scope rest

/-- All nodes of definitions obey a rule. -/
def DefsObey (rule : Rule) (scope : Scope) : List Def → Prop
  | [] => True
  | .fn function :: rest => function.Obeys rule scope ∧ DefsObey rule scope rest
  | .var declared :: rest => rule.declared scope declared ∧ DefsObey rule scope rest

/-- A function and all nodes of its body obey a rule. -/
def FunDef.Obeys (rule : Rule) (scope : Scope) : FunDef → Prop
  | ⟨id, name, params, body⟩ =>
    rule.function scope ⟨id, name, params, body⟩ ∧
      StmtsObey rule (.enter ⟨id, name, params, body⟩ scope) body

end

/-- All nodes of a program obey a rule. -/
def Program.Obeys (program : Program) (rule : Rule) : Prop :=
  DefsObey rule (.top program.defs) program.defs

/-- The part of `FunDef.Obeys` about the function and the part about its
body. -/
theorem FunDef.obeys_iff {rule : Rule} {scope : Scope} {function : FunDef} :
    function.Obeys rule scope ↔
      rule.function scope function ∧ StmtsObey rule (.enter function scope) function.body := by
  cases function
  rfl

/-- A function among definitions obeys what they obey. -/
theorem obeys_of_mem_functionsIn {rule : Rule} {scope : Scope} {defs : List Def}
    (obey : DefsObey rule scope defs) {function : FunDef} (inside : function ∈ functionsIn defs) :
    function.Obeys rule scope := by
  rw [mem_functionsIn] at inside
  induction defs with
  | nil => cases inside
  | cons definition rest hypothesis =>
    cases definition with
    | fn first =>
      rcases List.mem_cons.mp inside with same | later
      · cases same
        exact obey.1
      · exact hypothesis obey.2 later
    | var declared =>
      rcases List.mem_cons.mp inside with same | later
      · cases same
      · exact hypothesis obey.2 later

/-- A variable among definitions obeys what they obey. -/
theorem declared_of_mem_variablesIn {rule : Rule} {scope : Scope} {defs : List Def}
    (obey : DefsObey rule scope defs) {declared : VarDef} (inside : declared ∈ variablesIn defs) :
    rule.declared scope declared := by
  rw [mem_variablesIn] at inside
  induction defs with
  | nil => cases inside
  | cons definition rest hypothesis =>
    cases definition with
    | fn function =>
      rcases List.mem_cons.mp inside with same | later
      · cases same
      · exact hypothesis obey.2 later
    | var first =>
      rcases List.mem_cons.mp inside with same | later
      · cases same
        exact obey.1
      · exact hypothesis obey.2 later

/-- The functions of a first definition, which is a function, and of the remaining ones. -/
theorem functionsOfDefs_fn (function : FunDef) (rest : List Def) :
    functionsOfDefs (.fn function :: rest) =
      (function :: functionsOfStmts function.body) ++ functionsOfDefs rest := by
  cases function
  rfl

section Inside

variable {rule : Rule} {function : FunDef}

mutual

/-- A function inside a statement obeys what the statement obeys. -/
theorem Stmt.Obeys.inside {scope : Scope} : (stmt : Stmt) → stmt.Obeys rule scope →
    function ∈ stmt.functions → ∃ inner, function.Obeys rule inner
  | .expr _ _, _, member => nomatch member
  | .assign _ _ _, _, member => nomatch member
  | .cond _ _ yes no, ⟨_, _, obeyYes, obeyNo⟩, member => by
    rcases List.mem_append.mp member with inYes | inNo
    · exact StmtsObey.inside yes obeyYes inYes
    · exact StmtsObey.inside no obeyNo inNo
  | .loop _ _ body, ⟨_, _, obeyBody⟩, member => StmtsObey.inside body obeyBody member
  | .block _ defs body, ⟨_, obeyDefs, obeyBody⟩, member => by
    rcases List.mem_append.mp member with inBody | inDefs
    · exact StmtsObey.inside body obeyBody inBody
    · exact DefsObey.inside defs obeyDefs inDefs

/-- A function inside statements obeys what the statements obey. -/
theorem StmtsObey.inside {scope : Scope} : (stmts : List Stmt) → StmtsObey rule scope stmts →
    function ∈ functionsOfStmts stmts → ∃ inner, function.Obeys rule inner
  | [], _, member => nomatch member
  | stmt :: rest, ⟨obeysStmt, obeyRest⟩, member => by
    rcases List.mem_append.mp member with inStmt | inRest
    · exact Stmt.Obeys.inside stmt obeysStmt inStmt
    · exact StmtsObey.inside rest obeyRest inRest

/-- A function among definitions, or inside them, obeys what they obey. -/
theorem DefsObey.inside {scope : Scope} : (defs : List Def) → DefsObey rule scope defs →
    function ∈ functionsOfDefs defs → ∃ inner, function.Obeys rule inner
  | [], _, member => nomatch member
  | .fn ⟨id, name, params, body⟩ :: rest, ⟨obeysOwn, obeyRest⟩, member => by
    rw [functionsOfDefs_fn] at member
    rcases List.mem_append.mp member with inOwn | inRest
    · rcases List.mem_cons.mp inOwn with rfl | inBody
      · exact ⟨scope, obeysOwn⟩
      · exact StmtsObey.inside body obeysOwn.2 inBody
    · exact DefsObey.inside rest obeyRest inRest
  | .var _ :: rest, ⟨_, obeyRest⟩, member => DefsObey.inside rest obeyRest member

end

end Inside

mutual

/-- Expressions obey a rule that holds of all expressions. -/
theorem Expr.obeys_of_forall {rule : Rule} {scope : Scope}
    (all : ∀ expr, rule.expr scope expr) : (expr : Expr) → expr.Obeys rule scope
  | .atom _ _ => all _
  | .var _ _ => all _
  | .call _ _ args => ⟨all _, exprsObey_of_forall all args⟩
  | .unary _ _ operand => ⟨all _, operand.obeys_of_forall all⟩
  | .binary _ _ first second => ⟨all _, first.obeys_of_forall all, second.obeys_of_forall all⟩

/-- Expressions obey a rule that all expressions obey. -/
theorem exprsObey_of_forall {rule : Rule} {scope : Scope} (all : ∀ expr, rule.expr scope expr) :
    (exprs : List Expr) → ExprsObey rule scope exprs
  | [] => trivial
  | expr :: rest => ⟨expr.obeys_of_forall all, exprsObey_of_forall all rest⟩

end

/-- Whatever obeys one rule obeys another. -/
structure Rule.Implies (first second : Rule) : Prop where
  expr : ∀ scope expr, first.expr scope expr → second.expr scope expr
  stmt : ∀ scope stmt, first.stmt scope stmt → second.stmt scope stmt
  function : ∀ scope function, first.function scope function → second.function scope function
  declared : ∀ scope declared, first.declared scope declared → second.declared scope declared

section Implies

variable {first second : Rule}

mutual

/-- An expression that obeys a rule obeys a weaker one. -/
theorem Expr.Obeys.mono (implies : first.Implies second) {scope : Scope} : {expr : Expr} →
    expr.Obeys first scope → expr.Obeys second scope
  | .atom _ _, obeys => implies.expr _ _ obeys
  | .var _ _, obeys => implies.expr _ _ obeys
  | .call _ _ _, ⟨own, args⟩ => ⟨implies.expr _ _ own, ExprsObey.mono implies args⟩
  | .unary _ _ _, ⟨own, operand⟩ => ⟨implies.expr _ _ own, Expr.Obeys.mono implies operand⟩
  | .binary _ _ _ _, ⟨own, left, right⟩ =>
    ⟨implies.expr _ _ own, Expr.Obeys.mono implies left, Expr.Obeys.mono implies right⟩

/-- Expressions that obey a rule obey a weaker one. -/
theorem ExprsObey.mono (implies : first.Implies second) {scope : Scope} : {exprs : List Expr} →
    ExprsObey first scope exprs → ExprsObey second scope exprs
  | [], _ => trivial
  | _ :: _, ⟨own, rest⟩ => ⟨Expr.Obeys.mono implies own, ExprsObey.mono implies rest⟩

end

mutual

/-- A statement that obeys a rule obeys a weaker one. -/
theorem Stmt.Obeys.mono (implies : first.Implies second) {scope : Scope} : {stmt : Stmt} →
    stmt.Obeys first scope → stmt.Obeys second scope
  | .expr _ _, ⟨own, value⟩ => ⟨implies.stmt _ _ own, value.mono implies⟩
  | .assign _ _ _, ⟨own, target, source⟩ =>
    ⟨implies.stmt _ _ own, target.mono implies, source.mono implies⟩
  | .cond _ _ _ _, ⟨own, test, yes, no⟩ =>
    ⟨implies.stmt _ _ own, test.mono implies, StmtsObey.mono implies yes,
      StmtsObey.mono implies no⟩
  | .loop _ _ _, ⟨own, test, body⟩ =>
    ⟨implies.stmt _ _ own, test.mono implies, StmtsObey.mono implies body⟩
  | .block _ _ _, ⟨own, defs, body⟩ =>
    ⟨implies.stmt _ _ own, DefsObey.mono implies defs, StmtsObey.mono implies body⟩

/-- Statements that obey a rule obey a weaker one. -/
theorem StmtsObey.mono (implies : first.Implies second) {scope : Scope} : {stmts : List Stmt} →
    StmtsObey first scope stmts → StmtsObey second scope stmts
  | [], _ => trivial
  | _ :: _, ⟨own, rest⟩ => ⟨Stmt.Obeys.mono implies own, StmtsObey.mono implies rest⟩

/-- Definitions that obey a rule obey a weaker one. -/
theorem DefsObey.mono (implies : first.Implies second) {scope : Scope} : {defs : List Def} →
    DefsObey first scope defs → DefsObey second scope defs
  | [], _ => trivial
  | .fn _ :: _, ⟨own, rest⟩ => ⟨FunDef.Obeys.mono implies own, DefsObey.mono implies rest⟩
  | .var _ :: _, ⟨own, rest⟩ => ⟨implies.declared _ _ own, DefsObey.mono implies rest⟩

/-- A function that obeys a rule obeys a weaker one. -/
theorem FunDef.Obeys.mono (implies : first.Implies second) {scope : Scope} : {function : FunDef} →
    function.Obeys first scope → function.Obeys second scope
  | ⟨_, _, _, _⟩, ⟨own, body⟩ => ⟨implies.function _ _ own, StmtsObey.mono implies body⟩

end

end Implies

namespace Rule

/-- Two rules at once. -/
def and (first second : Rule) : Rule where
  expr scope expr := first.expr scope expr ∧ second.expr scope expr
  stmt scope stmt := first.stmt scope stmt ∧ second.stmt scope stmt
  function scope function := first.function scope function ∧ second.function scope function
  declared scope declared := first.declared scope declared ∧ second.declared scope declared

/-- A rule about expressions alone. -/
def onExprs (holds : Scope → Expr → Prop) : Rule where
  expr := holds
  stmt _ _ := True
  function _ _ := True
  declared _ _ := True

/-- Lexical scoping: a use of a variable is linked to a visible variable or
parameter, and a call to a visible function. -/
def linked (program : Program) : Rule :=
  onExprs fun
    | scope, .var id _ => ∃ target ∈ scope.variableIds, program.definition? id = some target
    | scope, .call id _ _ =>
      ∃ function ∈ scope.functions, program.definition? id = some function.id
    | _, _ => True

/-- A call has as many arguments as the function that it is linked to has
parameters. -/
def matched (program : Program) : Rule :=
  onExprs fun
    | _, .call id _ args =>
      ∃ function ∈ program.functions, program.definition? id = some function.id ∧
        args.length = function.params.length
    | _, _ => True

/-- A rule that can be checked node by node. -/
class Checkable (rule : Rule) where
  expr : ∀ scope expr, Decidable (rule.expr scope expr)
  stmt : ∀ scope stmt, Decidable (rule.stmt scope stmt)
  function : ∀ scope function, Decidable (rule.function scope function)
  declared : ∀ scope declared, Decidable (rule.declared scope declared)

instance (program : Program) : (linked program).Checkable where
  expr
    | scope, .var id _ =>
      inferInstanceAs (Decidable (∃ target ∈ scope.variableIds, program.definition? id = some target))
    | scope, .call id _ _ =>
      inferInstanceAs
        (Decidable (∃ function ∈ scope.functions, program.definition? id = some function.id))
    | _, .atom _ _ | _, .unary _ _ _ | _, .binary _ _ _ _ => .isTrue trivial
  stmt _ _ := .isTrue trivial
  function _ _ := .isTrue trivial
  declared _ _ := .isTrue trivial

instance (program : Program) : (matched program).Checkable where
  expr
    | _, .call id _ args =>
      inferInstanceAs
        (Decidable (∃ function ∈ program.functions, program.definition? id = some function.id ∧
          args.length = function.params.length))
    | _, .atom _ _ | _, .var _ _ | _, .unary _ _ _ | _, .binary _ _ _ _ => .isTrue trivial
  stmt _ _ := .isTrue trivial
  function _ _ := .isTrue trivial
  declared _ _ := .isTrue trivial

instance (first second : Rule) [left : first.Checkable] [right : second.Checkable] :
    (first.and second).Checkable where
  expr scope expr := @instDecidableAnd _ _ (left.expr scope expr) (right.expr scope expr)
  stmt scope stmt := @instDecidableAnd _ _ (left.stmt scope stmt) (right.stmt scope stmt)
  function scope function :=
    @instDecidableAnd _ _ (left.function scope function) (right.function scope function)
  declared scope declared :=
    @instDecidableAnd _ _ (left.declared scope declared) (right.declared scope declared)

end Rule

section And

variable {first second : Rule}

mutual

/-- An expression that obeys two rules obeys both at once. -/
theorem Expr.Obeys.and {scope : Scope} : {expr : Expr} → expr.Obeys first scope →
    expr.Obeys second scope → expr.Obeys (first.and second) scope
  | .atom _ _, one, other => ⟨one, other⟩
  | .var _ _, one, other => ⟨one, other⟩
  | .call _ _ _, ⟨one, args⟩, ⟨other, otherArgs⟩ => ⟨⟨one, other⟩, ExprsObey.and args otherArgs⟩
  | .unary _ _ _, ⟨one, operand⟩, ⟨other, otherOperand⟩ =>
    ⟨⟨one, other⟩, Expr.Obeys.and operand otherOperand⟩
  | .binary _ _ _ _, ⟨one, left, right⟩, ⟨other, otherLeft, otherRight⟩ =>
    ⟨⟨one, other⟩, Expr.Obeys.and left otherLeft, Expr.Obeys.and right otherRight⟩

/-- Expressions that obey two rules obey both at once. -/
theorem ExprsObey.and {scope : Scope} : {exprs : List Expr} → ExprsObey first scope exprs →
    ExprsObey second scope exprs → ExprsObey (first.and second) scope exprs
  | [], _, _ => trivial
  | _ :: _, ⟨one, rest⟩, ⟨other, otherRest⟩ =>
    ⟨Expr.Obeys.and one other, ExprsObey.and rest otherRest⟩

end

mutual

/-- A statement that obeys two rules obeys both at once. -/
theorem Stmt.Obeys.and {scope : Scope} : {stmt : Stmt} → stmt.Obeys first scope →
    stmt.Obeys second scope → stmt.Obeys (first.and second) scope
  | .expr _ _, ⟨one, value⟩, ⟨other, otherValue⟩ => ⟨⟨one, other⟩, value.and otherValue⟩
  | .assign _ _ _, ⟨one, target, source⟩, ⟨other, otherTarget, otherSource⟩ =>
    ⟨⟨one, other⟩, target.and otherTarget, source.and otherSource⟩
  | .cond _ _ _ _, ⟨one, test, yes, no⟩, ⟨other, otherTest, otherYes, otherNo⟩ =>
    ⟨⟨one, other⟩, test.and otherTest, StmtsObey.and yes otherYes, StmtsObey.and no otherNo⟩
  | .loop _ _ _, ⟨one, test, body⟩, ⟨other, otherTest, otherBody⟩ =>
    ⟨⟨one, other⟩, test.and otherTest, StmtsObey.and body otherBody⟩
  | .block _ _ _, ⟨one, defs, body⟩, ⟨other, otherDefs, otherBody⟩ =>
    ⟨⟨one, other⟩, DefsObey.and defs otherDefs, StmtsObey.and body otherBody⟩

/-- Statements that obey two rules obey both at once. -/
theorem StmtsObey.and {scope : Scope} : {stmts : List Stmt} → StmtsObey first scope stmts →
    StmtsObey second scope stmts → StmtsObey (first.and second) scope stmts
  | [], _, _ => trivial
  | _ :: _, ⟨one, rest⟩, ⟨other, otherRest⟩ =>
    ⟨Stmt.Obeys.and one other, StmtsObey.and rest otherRest⟩

/-- Definitions that obey two rules obey both at once. -/
theorem DefsObey.and {scope : Scope} : {defs : List Def} → DefsObey first scope defs →
    DefsObey second scope defs → DefsObey (first.and second) scope defs
  | [], _, _ => trivial
  | .fn _ :: _, ⟨one, rest⟩, ⟨other, otherRest⟩ =>
    ⟨FunDef.Obeys.and one other, DefsObey.and rest otherRest⟩
  | .var _ :: _, ⟨one, rest⟩, ⟨other, otherRest⟩ => ⟨⟨one, other⟩, DefsObey.and rest otherRest⟩

/-- A function that obeys two rules obeys both at once. -/
theorem FunDef.Obeys.and {scope : Scope} : {function : FunDef} → function.Obeys first scope →
    function.Obeys second scope → function.Obeys (first.and second) scope
  | ⟨_, _, _, _⟩, ⟨one, body⟩, ⟨other, otherBody⟩ => ⟨⟨one, other⟩, StmtsObey.and body otherBody⟩

end

end And

section Checks

variable (rule : Rule) [checks : rule.Checkable]

mutual

/-- Check the parts of an expression. -/
def Expr.checkObeys (scope : Scope) : (expr : Expr) → Decidable (expr.Obeys rule scope)
  | .atom id atom => checks.expr scope (.atom id atom)
  | .unary id op operand =>
    @instDecidableAnd _ _ (checks.expr scope (.unary id op operand))
      (Expr.checkObeys scope operand)
  | .binary id op first second =>
    @instDecidableAnd _ _ (checks.expr scope (.binary id op first second))
      (@instDecidableAnd _ _ (Expr.checkObeys scope first) (Expr.checkObeys scope second))
  | .var id name => checks.expr scope (.var id name)
  | .call id name args =>
    @instDecidableAnd _ _ (checks.expr scope (.call id name args)) (checkExprsObey scope args)

/-- Check the parts of expressions. -/
def checkExprsObey (scope : Scope) : (exprs : List Expr) → Decidable (ExprsObey rule scope exprs)
  | [] => .isTrue trivial
  | expr :: rest =>
    @instDecidableAnd _ _ (Expr.checkObeys scope expr) (checkExprsObey scope rest)

end

mutual

/-- Check the nodes of a statement. -/
def Stmt.checkObeys (scope : Scope) : (stmt : Stmt) → Decidable (stmt.Obeys rule scope)
  | .expr id value =>
    @instDecidableAnd _ _ (checks.stmt scope (.expr id value)) (Expr.checkObeys rule scope value)
  | .assign id target source =>
    @instDecidableAnd _ _ (checks.stmt scope (.assign id target source))
      (@instDecidableAnd _ _ (Expr.checkObeys rule scope target)
        (Expr.checkObeys rule scope source))
  | .cond id test yes no =>
    @instDecidableAnd _ _ (checks.stmt scope (.cond id test yes no))
      (@instDecidableAnd _ _ (Expr.checkObeys rule scope test)
        (@instDecidableAnd _ _ (checkStmtsObey scope yes) (checkStmtsObey scope no)))
  | .loop id test body =>
    @instDecidableAnd _ _ (checks.stmt scope (.loop id test body))
      (@instDecidableAnd _ _ (Expr.checkObeys rule scope test) (checkStmtsObey scope body))
  | .block id defs body =>
    @instDecidableAnd _ _ (checks.stmt scope (.block id defs body))
      (@instDecidableAnd _ _ (checkDefsObey (.block defs scope) defs)
        (checkStmtsObey (.block defs scope) body))

/-- Check the nodes of statements. -/
def checkStmtsObey (scope : Scope) : (stmts : List Stmt) → Decidable (StmtsObey rule scope stmts)
  | [] => .isTrue trivial
  | stmt :: rest =>
    @instDecidableAnd _ _ (Stmt.checkObeys scope stmt) (checkStmtsObey scope rest)

/-- Check the nodes of definitions. -/
def checkDefsObey (scope : Scope) : (defs : List Def) → Decidable (DefsObey rule scope defs)
  | [] => .isTrue trivial
  | .fn function :: rest =>
    @instDecidableAnd _ _ (FunDef.checkObeys scope function) (checkDefsObey scope rest)
  | .var declared :: rest =>
    @instDecidableAnd _ _ (checks.declared scope declared) (checkDefsObey scope rest)

/-- Check a function and the nodes of its body. -/
def FunDef.checkObeys (scope : Scope) : (function : FunDef) → Decidable (function.Obeys rule scope)
  | ⟨id, name, params, body⟩ =>
    @instDecidableAnd _ _ (checks.function scope ⟨id, name, params, body⟩)
      (checkStmtsObey (.enter ⟨id, name, params, body⟩ scope) body)

end

instance (program : Program) : Decidable (program.Obeys rule) :=
  checkDefsObey rule (.top program.defs) program.defs

end Checks

/-- The program that given steps build from nothing; it is empty if they use a
number that names no definition. -/
def Builder.program (steps : Builder (List Def)) : Program :=
  match steps.run .empty with
  | .ok (defs, progress) => progress.finish defs
  | .error _ => ⟨[], ∅, ∅, ∅⟩

end ScopeStack
