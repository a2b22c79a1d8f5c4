import ScopeStack.Proofs.Emission.Records
import ScopeStack.Proofs.Execution.Staging
import ScopeStack.Proofs.Layout.Ownership

/-!
# Uses of variables and functions

Three things are known of an expression at a point of a program. Lexical scoping says what it is
linked to. Layout says where everything that is defined around the point has its place:
`defsObey_housed`. Emission has recorded its code: `defsObey_recorded`. All three are rules that
the program obeys, so that a property of every use of a variable follows if it can be shown of one
use from the three: `onUses_of_functionsRecorded`.
-/

namespace ScopeStack

open Emission

/-- A rule about the uses of variables. -/
def Rule.onUses (holds : Scope → NodeId → Prop) : Rule :=
  .onExprs fun
    | scope, .var use _ => holds scope use
    | _, _ => True

/-- Code has been recorded for a use of a variable: that of its address, and of reading the word
there if the use does. -/
def Image.Computes (image : Image) (use : NodeId) (address : List Instr) : Prop :=
  ∃ code, image.nodeCode[use]? = some code ∧
    (code.items = address ∨ code.items = address ++ [.load])

/-- Code has been recorded for a call: that of its arguments, and then that of the call itself. -/
def Image.Calls (image : Image) (id : NodeId) (call : List Instr) : Prop :=
  ∃ code pushed, image.nodeCode[id]? = some code ∧ code.items = pushed ++ call

namespace Scope

/-- What is defined around a point has been laid out. What a block defines is among what the
innermost function around it defines directly. -/
def Housed (program : Program) (layout : Layout) : Scope → Prop
  | .top defs => defs = program.defs
  | .enter function outer =>
    (∃ label before after, layout.FunctionLaid label outer.depth function before after) ∧
      function ∈ program.functions ∧ outer.Housed program layout
  | .block defs outer =>
    (∃ owner label before after, outer.enclosing.head? = some owner ∧
      layout.DefsLaid label (outer.depth + 1) defs before after ∧
      (∀ declared ∈ variablesIn defs, declared ∈ localsOfStmts owner.body) ∧
      ∀ function ∈ functionsIn defs, function ∈ localFunctionsOfStmts owner.body) ∧
    outer.Housed program layout

section Housed

variable {program : Program} {layout : Layout} {scope home : Scope} {hops : Nat}

/-- What is defined around an outer scope has been laid out. -/
theorem Housed.around (housed : scope.Housed program layout) (around : scope.Around home hops) :
    home.Housed program layout := by
  induction around with
  | here => exact housed
  | enter _ hypothesis => exact hypothesis housed.2.2
  | block _ hypothesis => exact hypothesis housed.2

/-- The frames of the functions around a point have the depths that the point sees. -/
theorem Housed.levelled (housed : scope.Housed program layout) : scope.Levelled layout := by
  induction scope with
  | top defs => trivial
  | enter function outer hypothesis =>
    obtain ⟨⟨label, before, after, laid⟩, -, outward⟩ := housed
    obtain ⟨frame, framed, deep⟩ := laid.frame
    exact ⟨by rw [Layout.frameOf_eq framed, deep], hypothesis outward⟩
  | block defs outer hypothesis => exact hypothesis housed.2

/-- The functions around a point are functions of the program, and have been laid out. -/
theorem Housed.enclosing (housed : scope.Housed program layout) {owner : FunDef}
    (inside : owner ∈ scope.enclosing) :
    owner ∈ program.functions ∧
      ∃ label depth before after, layout.FunctionLaid label depth owner before after := by
  induction scope with
  | top defs => cases inside
  | enter function outer hypothesis =>
    obtain ⟨⟨label, before, after, laid⟩, member, outward⟩ := housed
    rcases List.mem_cons.mp inside with rfl | isOuter
    · exact ⟨member, label, _, before, after, laid⟩
    · exact hypothesis outward isOuter
  | block defs outer hypothesis => exact hypothesis housed.2 inside

/-- A variable that is defined in a scope is global, or has its place in the frame of the
innermost function. -/
theorem Housed.ownVariable (housed : home.Housed program layout) {target : NodeId}
    (inside : target ∈ home.ownVariableIds) :
    (∃ declared ∈ variablesIn program.defs, declared.id = target) ∨
      ∃ owner access, home.enclosing.head? = some owner ∧ layout.Owns owner target access ∧
        access.depth = home.depth := by
  cases home with
  | top defs =>
    obtain rfl : defs = program.defs := housed
    exact .inl (List.mem_map.mp inside)
  | enter function outer =>
    obtain ⟨⟨label, before, after, laid⟩, -⟩ := housed
    obtain ⟨params, -⟩ := laid.body
    obtain ⟨param, member, rfl⟩ := List.mem_map.mp inside
    obtain ⟨index, found⟩ := List.mem_iff_getElem?.mp member
    exact .inr ⟨function, _, rfl, ⟨params index param found, .inl inside⟩, rfl⟩
  | block defs outer =>
    obtain ⟨⟨owner, label, before, after, innermost, laid, locals, -⟩, -⟩ := housed
    obtain ⟨declared, member, rfl⟩ := List.mem_map.mp inside
    obtain ⟨-, -, access, -, found, deep, -⟩ := laid.entry member
    exact .inr ⟨owner, access, innermost,
      ⟨found, .inr (List.mem_map_of_mem (locals declared member))⟩, deep⟩

end Housed

end Scope

/-- The access that code for a use finds. -/
theorem accessOf?_of_found {program : Program} {layout : Layout} {scope : Scope}
    {use target : NodeId} {place : Access} (linked : program.definition? use = some target)
    (found : layout.accesses[target]? = some place) :
    (scope.context program layout).accessOf? use = some place := by
  rw [Context.accessOf?, Scope.context, linked, Option.bind_some, found]

/-- The frame that code for a call finds. -/
theorem calleeOf?_of_found {program : Program} {layout : Layout} {scope : Scope}
    {id target : NodeId} {frame : Frame} (linked : program.definition? id = some target)
    (found : layout.frames[target]? = some frame) :
    (scope.context program layout).calleeOf? id = some frame := by
  rw [Context.calleeOf?, Scope.context, linked, Option.bind_some, found]

namespace Rule

/-- Everything around an expression has been laid out. -/
def housed (program : Program) (layout : Layout) : Rule :=
  .onExprs fun scope _ => scope.Housed program layout

/-- The code of uses of variables and of calls has been recorded. -/
def recorded (program : Program) (layout : Layout) (image : Image) : Rule :=
  .onExprs fun
    | scope, .var use _ => image.Computes use (variableInstrs (scope.context program layout) use)
    | scope, .call id _ _ => image.Calls id (calleeInstrs (scope.context program layout) id)
    | _, _ => True

end Rule

section Housed

variable {program : Program} {layout : Layout}

variable (program) in
/-- What a statement defines belongs to a function of a program: the variables and the first of the
functions directly, the other functions to the program. -/
structure Belongs (owner : FunDef) (locals : List VarDef) (direct functions : List FunDef) :
    Prop where
  locals : ∀ declared ∈ locals, declared ∈ localsOfStmts owner.body
  direct : ∀ function ∈ direct, function ∈ localFunctionsOfStmts owner.body
  functions : ∀ function ∈ functions, function ∈ program.functions

section Belongs

variable {owner : FunDef} {locals moreLocals : List VarDef}
  {direct moreDirect functions moreFunctions : List FunDef}

/-- What a first part defines belongs to the function. -/
theorem Belongs.left (belongs : Belongs program owner (locals ++ moreLocals)
    (direct ++ moreDirect) (functions ++ moreFunctions)) :
    Belongs program owner locals direct functions :=
  ⟨fun declared inside => belongs.locals declared (List.mem_append_left _ inside),
    fun function inside => belongs.direct function (List.mem_append_left _ inside),
    fun function inside => belongs.functions function (List.mem_append_left _ inside)⟩

/-- What a second part defines belongs to the function. -/
theorem Belongs.right (belongs : Belongs program owner (locals ++ moreLocals)
    (direct ++ moreDirect) (functions ++ moreFunctions)) :
    Belongs program owner moreLocals moreDirect moreFunctions :=
  ⟨fun declared inside => belongs.locals declared (List.mem_append_right _ inside),
    fun function inside => belongs.direct function (List.mem_append_right _ inside),
    fun function inside => belongs.functions function (List.mem_append_right _ inside)⟩

end Belongs

mutual

/-- Everything around the expressions of a statement has been laid out. -/
theorem Stmt.obeys_housed {scope : Scope} {owner : FunDef} {label : String}
    {before after : Layout.Extent} : (stmt : Stmt) → scope.Housed program layout →
    scope.enclosing.head? = some owner →
    Belongs program owner stmt.locals stmt.localFunctions stmt.functions →
    layout.StmtLaid label scope.depth stmt before after →
    stmt.Obeys (.housed program layout) scope
  | .expr _ value, housed, _, _, _ => ⟨trivial, value.obeys_of_forall fun _ => housed⟩
  | .assign _ target source, housed, _, _, _ =>
    ⟨trivial, target.obeys_of_forall fun _ => housed, source.obeys_of_forall fun _ => housed⟩
  | .cond _ test yes no, housed, innermost, belongs, ⟨_, laidYes, laidNo⟩ =>
    ⟨trivial, test.obeys_of_forall fun _ => housed,
      stmtsObey_housed yes housed innermost belongs.left laidYes,
      stmtsObey_housed no housed innermost belongs.right laidNo⟩
  | .loop _ test body, housed, innermost, belongs, laid =>
    ⟨trivial, test.obeys_of_forall fun _ => housed,
      stmtsObey_housed body housed innermost belongs laid⟩
  | .block _ defs body, housed, innermost, ⟨locals, direct, functions⟩,
      ⟨_, laidDefs, laidBody⟩ => by
    have inner : (Scope.block defs scope).Housed program layout :=
      ⟨⟨owner, label, _, _, innermost, laidDefs,
        fun declared inside => locals declared (List.mem_append_left _ inside),
        fun function inside => direct function (List.mem_append_left _ inside)⟩, housed⟩
    refine ⟨trivial, ?_, ?_⟩
    · refine defsObey_housed defs inner (fun function inside => ?_)
        fun function inside => functions function (List.mem_append_right _ inside)
      obtain ⟨first, last, laid⟩ := Layout.functionLaid_of_mem_block laidDefs inside
      exact ⟨some label, first, last, laid⟩
    · exact stmtsObey_housed body inner innermost
        ⟨fun declared inside => locals declared (List.mem_append_right _ inside),
          fun function inside => direct function (List.mem_append_right _ inside),
          fun function inside => functions function (List.mem_append_left _ inside)⟩ laidBody

/-- All scopes inside statements are housed. -/
theorem stmtsObey_housed {scope : Scope} {owner : FunDef} {label : String}
    {before after : Layout.Extent} : (stmts : List Stmt) → scope.Housed program layout →
    scope.enclosing.head? = some owner →
    Belongs program owner (localsOfStmts stmts) (localFunctionsOfStmts stmts)
      (functionsOfStmts stmts) →
    layout.StmtsLaid label scope.depth stmts before after →
    StmtsObey (.housed program layout) scope stmts
  | [], _, _, _, _ => trivial
  | stmt :: rest, housed, innermost, belongs, ⟨_, laid, laidRest⟩ =>
    ⟨stmt.obeys_housed housed innermost belongs.left laid,
      stmtsObey_housed rest housed innermost belongs.right laidRest⟩

/-- All scopes inside definitions are housed. -/
theorem defsObey_housed {scope : Scope} : (defs : List Def) → scope.Housed program layout →
    (∀ function ∈ functionsIn defs,
      ∃ label before after, layout.FunctionLaid label scope.depth function before after) →
    (∀ function ∈ functionsOfDefs defs, function ∈ program.functions) →
    DefsObey (.housed program layout) scope defs
  | [], _, _, _ => trivial
  | .fn ⟨id, name, params, body⟩ :: rest, housed, laid, functions =>
    ⟨FunDef.obeys_housed ⟨id, name, params, body⟩ housed (laid _ List.mem_cons_self)
        fun function inside => functions function (List.mem_append_left _ inside),
      defsObey_housed rest housed
        (fun other inside => laid other (List.mem_cons_of_mem _ inside))
        fun function inside => functions function (List.mem_append_right _ inside)⟩
  | .var _ :: rest, housed, laid, functions =>
    ⟨trivial, defsObey_housed rest housed laid functions⟩

/-- All scopes inside a function are housed. -/
theorem FunDef.obeys_housed {scope : Scope} : (function : FunDef) →
    scope.Housed program layout →
    (∃ label before after, layout.FunctionLaid label scope.depth function before after) →
    (∀ inner ∈ function :: functionsOfStmts function.body, inner ∈ program.functions) →
    function.Obeys (.housed program layout) scope
  | ⟨id, name, params, body⟩, housed, ⟨label, before, after, laid⟩, functions => by
    have inner : (Scope.enter ⟨id, name, params, body⟩ scope).Housed program layout :=
      ⟨⟨label, before, after, laid⟩, functions _ List.mem_cons_self, housed⟩
    obtain ⟨-, _, _, _, -, laidBody, -⟩ := laid
    exact ⟨trivial, stmtsObey_housed body inner rfl
      ⟨fun _ inside => inside, fun _ inside => inside,
        fun other inside => functions other (List.mem_cons_of_mem _ inside)⟩ laidBody⟩

end

end Housed

section Recorded

variable {program : Program} {layout : Layout} {image : Image}

mutual

/-- The code of what an expression uses has been recorded if the expression has. -/
theorem Expr.obeys_recorded {scope : Scope} {code : Code} : (expr : Expr) →
    ValueRecorded (scope.context program layout) image.nodeCode expr code →
    expr.Obeys (.recorded program layout image) scope
  | .atom _ _, _ => trivial
  | .var _ _, ⟨found, items⟩ => ⟨code, found, .inr items⟩
  | .call _ _ args, ⟨found, ⟨pushed, items⟩, _, _, recorded⟩ =>
    ⟨⟨code, pushed, found, items⟩, exprsObey_recorded args recorded⟩
  | .unary _ _ operand, recorded => by
    obtain ⟨-, ⟨_, -, inner⟩ | ⟨use, name, rfl, inner⟩⟩ := valueRecorded_unary recorded
    · exact ⟨trivial, operand.obeys_recorded inner⟩
    · exact ⟨trivial, code, inner.1, .inl inner.2⟩
  | .binary _ _ first second, ⟨_, ⟨_, _, firstRecorded⟩, ⟨_, _, secondRecorded⟩⟩ =>
    ⟨trivial, first.obeys_recorded firstRecorded, second.obeys_recorded secondRecorded⟩

/-- Code has been recorded for all uses in arguments. -/
theorem exprsObey_recorded {scope : Scope} {code : Code} : (args : List Expr) →
    ArgsRecorded (scope.context program layout) image.nodeCode args code →
    ExprsObey (.recorded program layout image) scope args
  | [], _ => trivial
  | arg :: rest, ⟨⟨_, _, recorded⟩, ⟨_, _, restRecorded⟩⟩ =>
    ⟨arg.obeys_recorded recorded, exprsObey_recorded rest restRecorded⟩

end

/-- Code has been recorded for all uses in a place. -/
theorem Expr.obeys_recorded_of_place {scope : Scope} {expr : Expr} {code : Code}
    (recorded : PlaceRecorded (scope.context program layout) image.nodeCode expr code) :
    expr.Obeys (.recorded program layout image) scope := by
  rw [PlaceRecorded.eq_def] at recorded
  split at recorded
  · exact ⟨code, recorded.1, .inl recorded.2⟩
  · exact ⟨trivial, Expr.obeys_recorded _ recorded.2⟩
  · exact recorded.elim

mutual

/-- The code of what a statement uses has been recorded if the statement has. -/
theorem Stmt.obeys_recorded {scope : Scope} {code : Code} : (stmt : Stmt) →
    StmtRecorded (scope.context program layout) image.nodeCode stmt code →
    stmt.Obeys (.recorded program layout image) scope
  | .expr _ value, ⟨_, _, _, recorded⟩ => ⟨trivial, value.obeys_recorded recorded⟩
  | .assign _ _ source, ⟨_, ⟨_, _, targetRecorded⟩, ⟨_, _, sourceRecorded⟩⟩ =>
    ⟨trivial, Expr.obeys_recorded_of_place targetRecorded, source.obeys_recorded sourceRecorded⟩
  | .cond _ test yes no,
      ⟨_, ⟨_, _, testRecorded⟩, ⟨_, _, yesRecorded⟩, ⟨_, _, noRecorded⟩⟩ =>
    ⟨trivial, test.obeys_recorded testRecorded, stmtsObey_recorded yes yesRecorded,
      stmtsObey_recorded no noRecorded⟩
  | .loop _ test body, ⟨_, ⟨_, _, testRecorded⟩, ⟨_, _, bodyRecorded⟩⟩ =>
    ⟨trivial, test.obeys_recorded testRecorded, stmtsObey_recorded body bodyRecorded⟩
  | .block _ defs body, ⟨_, _, ⟨_, _, bodyRecorded⟩, functionsRecorded⟩ =>
    ⟨trivial, @defsObey_recorded (.block defs scope) defs functionsRecorded,
      @stmtsObey_recorded (.block defs scope) _ body bodyRecorded⟩

/-- Code has been recorded for all uses in statements. -/
theorem stmtsObey_recorded {scope : Scope} {code : Code} : (stmts : List Stmt) →
    StmtsRecorded (scope.context program layout) image.nodeCode stmts code →
    StmtsObey (.recorded program layout image) scope stmts
  | [], _ => trivial
  | stmt :: rest, ⟨⟨_, _, recorded⟩, ⟨_, _, restRecorded⟩⟩ =>
    ⟨stmt.obeys_recorded recorded, stmtsObey_recorded rest restRecorded⟩

/-- Code has been recorded for all uses in definitions. -/
theorem defsObey_recorded {scope : Scope} : (defs : List Def) →
    FunctionsRecorded (scope.context program layout) image.nodeCode defs →
    DefsObey (.recorded program layout image) scope defs
  | [], _ => trivial
  | .fn function :: rest, ⟨recorded, restRecorded⟩ =>
    ⟨function.obeys_recorded recorded, defsObey_recorded rest restRecorded⟩
  | .var _ :: rest, restRecorded => ⟨trivial, defsObey_recorded rest restRecorded⟩

/-- Code has been recorded for all uses in a function. -/
theorem FunDef.obeys_recorded {scope : Scope} : (function : FunDef) →
    FunctionRecorded (scope.context program layout) image.nodeCode function →
    function.Obeys (.recorded program layout image) scope
  | ⟨id, name, params, body⟩, ⟨_, recorded⟩ => by
    refine ⟨trivial, ?_⟩
    cases empty : body.isEmpty with
    | true =>
      rw [List.isEmpty_iff.mp empty]
      trivial
    | false =>
      obtain ⟨own, -, part, -, bodyRecorded⟩ := recorded empty
      exact @stmtsObey_recorded (.enter ⟨id, name, params, body⟩ scope) _ body bodyRecorded

end

end Recorded

section Uses

variable {program : Program} {layout : Layout} {image : Image} {holds : Scope → NodeId → Prop}

variable (program layout image holds) in
/-- A property holds of every use that is linked to a visible variable and has its code. -/
def FollowsAll : Prop :=
  ∀ scope : Scope, scope.Housed program layout → ∀ use target, target ∈ scope.variableIds →
    program.definition? use = some target →
    image.Computes use (variableInstrs (scope.context program layout) use) → holds scope use

/-- What follows for the uses of variables holds throughout a program. -/
theorem onUses_of_functionsRecorded (each : FollowsAll program layout image holds) (defs : List Def)
    (housed : (Scope.top defs).Housed program layout)
    (laid : ∀ function ∈ functionsIn defs,
      ∃ label before after, layout.FunctionLaid label 0 function before after)
    (linked : DefsObey (.linked program) (.top defs) defs)
    (recorded : FunctionsRecorded ((Scope.top defs).context program layout) image.nodeCode defs) :
    DefsObey (.onUses holds) (.top defs) defs := by
  obtain rfl : defs = program.defs := housed
  have around := @defsObey_housed program layout (.top program.defs) program.defs rfl laid
    fun _ inside => inside
  refine ((linked.and around).and (defsObey_recorded _ recorded)).mono ⟨?_, ?_, ?_, ?_⟩
  · rintro scope (_ | _ | _ | ⟨use, name⟩ | _) ⟨⟨linked, housed⟩, recorded⟩
    case var =>
      obtain ⟨target, visible, defined⟩ := linked
      exact each scope housed use target visible defined recorded
    all_goals trivial
  all_goals exact fun _ _ _ => trivial

end Uses

end ScopeStack
