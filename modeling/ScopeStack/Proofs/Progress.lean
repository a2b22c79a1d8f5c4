import ScopeStack.Proofs.Execution.Calls
import ScopeStack.Proofs.Semantics

/-!
# Evaluation does not get stuck

`Rule.meaningful` collects what a program needs to have a meaning: lexical scoping with
matching arguments, variables that hold a word, the services that read, write and exit,
and no pointers. Evaluation of such a program always finds the locations of its
variables and the functions that it calls, and so it never gets stuck.

`Eval.Meets` reasons about an evaluation backward: it says what must hold of the value
and the world after it, and of the reason if it stops.
-/

namespace ScopeStack

/-- Constants are numbers and characters, and nothing is a pointer. -/
def Rule.pointerFree : Rule where
  expr
    | _, .atom _ atom => atom.kind ≠ .str
    | _, .unary _ .addressOf _ => False
    | _, .unary _ .valueAt _ => False
    | _, _ => True
  stmt
    | _, .assign _ target _ => target.IsVariable
    | _, _ => True
  function _ _ := True
  declared _ _ := True

instance : Rule.pointerFree.Checkable where
  expr
    | _, .atom _ atom => inferInstanceAs (Decidable (atom.kind ≠ .str))
    | _, .unary _ .addressOf _ | _, .unary _ .valueAt _ => .isFalse id
    | _, .unary _ .not _ | _, .unary _ .plus _ | _, .unary _ .minus _
    | _, .var _ _ | _, .call _ _ _ | _, .binary _ _ _ _ => .isTrue trivial
  stmt
    | _, .assign _ target _ => inferInstanceAs (Decidable target.IsVariable)
    | _, .expr _ _ | _, .cond _ _ _ _ | _, .loop _ _ _ | _, .block _ _ _ => .isTrue trivial
  function _ _ := .isTrue trivial
  declared _ _ := .isTrue trivial

/-- What a program needs to have a meaning. -/
def Rule.meaningful (program : Program) : Rule :=
  ((linked program).and (matched program)).and
    ((sized.and (services [.exit, .getint, .putint])).and pointerFree)

instance (program : Program) : (Rule.meaningful program).Checkable :=
  inferInstanceAs ((((Rule.linked program).and (Rule.matched program)).and
    ((Rule.sized.and (Rule.services [.exit, .getint, .putint])).and Rule.pointerFree)).Checkable)

/-- Meaningful programs have no variables without words. -/
theorem Rule.meaningful_sized (program : Program) : (meaningful program).Implies .sized :=
  ⟨fun _ _ _ => trivial, fun _ _ _ => trivial, fun _ _ _ => trivial, fun _ _ own => own.2.1.1⟩

/-- A function without a body that obeys the rule is one of the services that have a
meaning. -/
theorem FunDef.Obeys.service {program : Program} {home : Scope} {function : FunDef}
    (obeys : function.Obeys (.meaningful program) home) (external : function.isExternal = true) :
    ∃ service ∈ [Service.exit, .getint, .putint], Service.ofName? function.name = some service ∧
      function.params.length = service.arity :=
  (FunDef.obeys_iff.mp obeys).1.2.1.2 external

namespace Eval

variable {α β : Type} {eval : Eval α} {later : α → Eval β} {stops : Stop → World → Prop}
  {world : World}

/-- An evaluation gives a value for which one property holds in the world after it, or it
stops for a reason for which another one does. -/
def Meets (eval : Eval α) (stops : Stop → World → Prop) (next : α → World → Prop)
    (world : World) : Prop :=
  match eval.run world with
  | .ok value after => next value after
  | .error stop after => stops stop after

/-- An evaluation in two parts meets what its first part meets, if that leads on. -/
theorem meets_bind {next : β → World → Prop} :
    (eval >>= later).Meets stops next world ↔
      eval.Meets stops (fun value => (later value).Meets stops next) world := by
  simp only [Meets, bind, EStateM.bind, EStateM.run]
  cases eval world with
  | ok value after => rfl
  | error stop after => rfl

/-- What is met may be weakened. -/
theorem Meets.mono {next more : α → World → Prop} (meets : eval.Meets stops next world)
    (implies : ∀ value after, next value after → more value after) :
    eval.Meets stops more world := by
  rw [Meets] at meets ⊢
  split at meets
  · exact implies _ _ meets
  · exact meets

/-- Looking at the world. -/
theorem meets_get {next : World → World → Prop} :
    (get : Eval World).Meets stops next world ↔ next world world :=
  Iff.rfl

/-- Changing the world. -/
theorem meets_modify {change : World → World} {next : PUnit → World → Prop} :
    (modify change : Eval PUnit).Meets stops next world ↔ next ⟨⟩ (change world) :=
  Iff.rfl

/-- The word at a location that is in use. -/
theorem meets_fetch {location : Nat} {word : Word} {next : Word → World → Prop}
    (found : world.store[location]? = some word) :
    (fetch location).Meets stops next world ↔ next word world := by
  rw [fetch, meets_bind, meets_get, found]
  rfl

/-- An evaluation does not get stuck, loses no location, and gives a value with a
property. -/
def Proceeds (eval : Eval α) (holds : α → Prop) (world : World) : Prop :=
  eval.Meets (fun stop _ => stop ≠ .stuck)
    (fun value after => world.store.length ≤ after.store.length ∧ holds value) world

/-- An evaluation in two parts proceeds if both do. -/
theorem Proceeds.bind {first : α → Prop} {second : β → Prop}
    (proceeds : eval.Proceeds first world)
    (more : ∀ value after, world.store.length ≤ after.store.length → first value →
      (later value).Proceeds second after) :
    (eval >>= later).Proceeds second world := by
  refine meets_bind.mpr (Meets.mono proceeds fun value after ⟨kept, holds⟩ => ?_)
  refine Meets.mono (more value after kept holds) fun result last ⟨keptAgain, holdsAgain⟩ => ?_
  exact ⟨Nat.le_trans kept keptAgain, holdsAgain⟩

/-- Giving a value proceeds. -/
theorem Proceeds.pure {value : α} {holds : α → Prop} (own : holds value) :
    (Pure.pure value : Eval α).Proceeds holds world :=
  ⟨Nat.le_refl _, own⟩

end Eval

namespace Env

/-- The scope of an environment. -/
def scope : Env → Scope
  | .top defs _ => .top defs
  | .enter function _ outer => .enter function outer.scope
  | .block defs _ outer => .block defs outer.scope

/-- The variables that are bound in an environment itself. -/
def bindings : Env → Bindings
  | .top _ globals => globals
  | .enter _ params _ => params
  | .block _ locals _ => locals

/-- An environment is another one or around it, with a number of functions between. -/
inductive Around : Env → Env → Nat → Prop
  | here {env : Env} : Around env env 0
  | enter {function : FunDef} {params : Bindings} {outer home : Env} {hops : Nat}
      (around : Around outer home hops) : Around (.enter function params outer) home (hops + 1)
  | block {defs : List Def} {locals : Bindings} {outer home : Env} {hops : Nat}
      (around : Around outer home hops) : Around (.block defs locals outer) home hops

variable {env home : Env} {hops : Nat} {id : NodeId}

/-- The scope of an outer environment is around the scope of an inner one. -/
theorem Around.scope (around : env.Around home hops) : env.scope.Around home.scope hops := by
  induction around with
  | here => exact .here
  | enter _ hypothesis => exact .enter hypothesis
  | block _ hypothesis => exact .block hypothesis

/-- An environment around one that is around another. -/
theorem Around.trans {outer : Env} {more : Nat} (around : env.Around home hops)
    (farther : home.Around outer more) : env.Around outer (hops + more) := by
  induction around with
  | here => rwa [Nat.zero_add]
  | enter _ hypothesis =>
    rw [Nat.add_right_comm]
    exact .enter (hypothesis farther)
  | block _ hypothesis => exact .block (hypothesis farther)

/-- A variable that has a location is bound in an environment around. -/
theorem exists_around_of_location {location : Nat} (found : env.location? id = some location) :
    ∃ home hops, env.Around home hops ∧ home.bindings.lookup id = some location := by
  induction env with
  | top defs globals => exact ⟨_, 0, .here, found⟩
  | enter function params outer hypothesis =>
    rcases Option.or_eq_some_iff.mp found with own | ⟨-, isOuter⟩
    · exact ⟨_, 0, .here, own⟩
    · obtain ⟨home, hops, around, bound⟩ := hypothesis isOuter
      exact ⟨home, hops + 1, .enter around, bound⟩
  | block defs locals outer hypothesis =>
    rcases Option.or_eq_some_iff.mp found with own | ⟨-, isOuter⟩
    · exact ⟨_, 0, .here, own⟩
    · obtain ⟨home, hops, around, bound⟩ := hypothesis isOuter
      exact ⟨home, hops, .block around, bound⟩

/-- A function is found in the environment in which it is defined. -/
theorem exists_around_of_function {function : FunDef}
    (found : env.function? id = some (function, home)) :
    ∃ hops, env.Around home hops ∧ function ∈ home.scope.ownFunctions ∧ function.id = id := by
  induction env with
  | top defs globals =>
    obtain ⟨own, isOwn, same⟩ := Option.map_eq_some_iff.mp found
    cases same
    exact ⟨0, .here, List.mem_of_find?_eq_some isOwn, by simpa using List.find?_some isOwn⟩
  | enter _ params outer hypothesis =>
    obtain ⟨hops, around, own⟩ := hypothesis found
    exact ⟨hops + 1, .enter around, own⟩
  | block defs locals outer hypothesis =>
    rw [function?] at found
    split at found
    next own isOwn =>
      cases found
      exact ⟨0, .here, List.mem_of_find?_eq_some isOwn, by simpa using List.find?_some isOwn⟩
    next =>
      obtain ⟨hops, around, own⟩ := hypothesis found
      exact ⟨hops, .block around, own⟩

/-- A visible function is found. -/
theorem exists_function {function : FunDef} (visible : function ∈ env.scope.functions) :
    ∃ found home, env.function? function.id = some (found, home) := by
  have own {defs : List Def} (inside : function ∈ functionsIn defs) :
      ∃ found, (functionsIn defs).find? (fun other => other.id == function.id) = some found :=
    Option.isSome_iff_exists.mp (List.find?_isSome.mpr ⟨function, inside, beq_self_eq_true _⟩)
  induction env with
  | top defs globals =>
    obtain ⟨found, isFound⟩ := own visible
    exact ⟨found, .top defs globals, by rw [function?, isFound]; rfl⟩
  | enter _ params outer hypothesis => exact hypothesis visible
  | block defs locals outer hypothesis =>
    rw [function?]
    split
    · exact ⟨_, _, rfl⟩
    next missing =>
      rcases List.mem_append.mp visible with inside | isOuter
      · obtain ⟨found, isFound⟩ := own inside
        rw [missing] at isFound
        cases isFound
      · exact hypothesis isOuter

/-- The bindings have locations below a number for given variables. -/
def Covers (count : Nat) (ids : List NodeId) (bindings : Bindings) : Prop :=
  (∀ id ∈ ids, ∃ location, bindings.lookup id = some location) ∧
    ∀ id location, bindings.lookup id = some location → location < count

/-- All variables around have locations below a number. -/
def Covered (count : Nat) (env : Env) : Prop :=
  ∀ home hops, env.Around home hops → Covers count home.scope.ownVariableIds home.bindings

/-- What a number of locations covers is covered by more of them. -/
theorem Covered.mono {fewer more : Nat} (covered : env.Covered fewer) (le : fewer ≤ more) :
    env.Covered more := fun home hops around =>
  ⟨(covered home hops around).1,
    fun id location found => Nat.lt_of_lt_of_le ((covered home hops around).2 id location found) le⟩

/-- An outer environment is covered if an inner one is. -/
theorem Covered.around {count : Nat} (covered : env.Covered count) (around : env.Around home hops) :
    home.Covered count :=
  fun outer _ farther => covered outer _ (around.trans farther)

/-- The outermost environment is covered if its variables are. -/
theorem covered_top {count : Nat} {defs : List Def} {globals : Bindings}
    (own : Covers count ((variablesIn defs).map VarDef.id) globals) :
    (Env.top defs globals).Covered count := by
  rintro home hops ⟨⟩
  exact own

/-- An environment with parameters is covered if they are. -/
theorem Covered.enter {count : Nat} {function : FunDef} {params : Bindings}
    (covered : env.Covered count) (own : Covers count (function.params.map Param.id) params) :
    (Env.enter function params env).Covered count := by
  intro home hops around
  cases around with
  | here => exact own
  | enter around => exact covered home _ around

/-- An environment with the variables of a block is covered if they are. -/
theorem Covered.block {count : Nat} {defs : List Def} {locals : Bindings}
    (covered : env.Covered count) (own : Covers count ((variablesIn defs).map VarDef.id) locals) :
    (Env.block defs locals env).Covered count := by
  intro home hops around
  cases around with
  | here => exact own
  | block around => exact covered home _ around

/-- A visible variable has a location. -/
theorem Covered.exists_location {count : Nat} (covered : env.Covered count)
    (visible : id ∈ env.scope.variableIds) : ∃ location < count, env.location? id = some location := by
  have low {location : Nat} (found : env.location? id = some location) : location < count := by
    obtain ⟨home, hops, around, bound⟩ := exists_around_of_location found
    exact (covered home hops around).2 id location bound
  suffices exists_ : ∃ location, env.location? id = some location by
    obtain ⟨location, found⟩ := exists_
    exact ⟨location, low found, found⟩
  clear low
  have own := (covered env 0 .here).1
  induction env with
  | top defs globals => exact own id visible
  | enter function params outer hypothesis =>
    rw [← Option.isSome_iff_exists, location?, Option.isSome_or, Bool.or_eq_true]
    rcases List.mem_append.mp visible with inside | isOuter
    · exact .inl (Option.isSome_iff_exists.mpr (own id inside))
    · have around := covered.around (.enter .here)
      exact .inr (Option.isSome_iff_exists.mpr (hypothesis around isOuter (around _ 0 .here).1))
  | block defs locals outer hypothesis =>
    rw [← Option.isSome_iff_exists, location?, Option.isSome_or, Bool.or_eq_true]
    rcases List.mem_append.mp visible with inside | isOuter
    · exact .inl (Option.isSome_iff_exists.mpr (own id inside))
    · have around := covered.around (.block .here)
      exact .inr (Option.isSome_iff_exists.mpr (hypothesis around isOuter (around _ 0 .here).1))

end Env

namespace Scope

variable {program : Program} {rule : Rule} {scope home : Scope} {hops : Nat}

/-- The definitions around a point are parts of a program, and those of blocks obey a
rule. -/
def Within (program : Program) (rule : Rule) : Scope → Prop
  | .top defs => defs = program.defs
  | .enter _ outer => outer.Within program rule
  | .block defs outer =>
    (DefsObey rule (.block defs outer) defs ∧
      ∀ function ∈ functionsOfDefs defs, function ∈ program.functions) ∧
    outer.Within program rule

/-- An outer scope is within a program if an inner one is. -/
theorem Within.around (within : scope.Within program rule) (around : scope.Around home hops) :
    home.Within program rule := by
  induction around with
  | here => exact within
  | enter _ hypothesis => exact hypothesis within
  | block _ hypothesis => exact hypothesis within.2

/-- A function that is defined at a point obeys the rule, and it belongs to the program
with all functions inside it. -/
theorem Within.function (within : home.Within program rule) (obeys : program.Obeys rule)
    {function : FunDef} (own : function ∈ home.ownFunctions) :
    function.Obeys rule home ∧
      ∀ inner ∈ function :: functionsOfStmts function.body, inner ∈ program.functions := by
  have inside {defs : List Def} (member : function ∈ functionsIn defs) :
      ∀ inner ∈ function :: functionsOfStmts function.body, inner ∈ functionsOfDefs defs := by
    induction defs with
    | nil => cases member
    | cons definition rest hypothesis =>
      cases definition with
      | var declared => exact hypothesis member
      | fn first =>
        intro inner isInner
        rw [functionsOfDefs_fn]
        rcases List.mem_cons.mp member with rfl | later
        · exact List.mem_append_left _ isInner
        · exact List.mem_append_right _ (hypothesis later inner isInner)
  cases home with
  | enter _ _ => cases own
  | top defs =>
    obtain rfl : defs = program.defs := within
    exact ⟨obeys_of_mem_functionsIn obeys own, inside own⟩
  | block defs outer =>
    exact ⟨obeys_of_mem_functionsIn within.1.1 own,
      fun inner isInner => within.1.2 inner (inside own inner isInner)⟩

end Scope

namespace Eval

/-- Binding variables to fresh locations. -/
theorem proceeds_bindAll {ids : List NodeId} {values : List Word} (world : World)
    (lengths : ids.length = values.length) :
    (bindAll ids values).Meets (fun stop _ => stop ≠ .stuck)
      (fun bindings after => world.store.length ≤ after.store.length ∧
        Env.Covers after.store.length ids bindings) world := by
  induction ids generalizing values world with
  | nil => exact ⟨Nat.le_refl _, nofun, nofun⟩
  | cons id ids hypothesis =>
    cases values with
    | nil => cases lengths
    | cons value values =>
      refine meets_bind.mpr (meets_bind.mpr ?_)
      refine Meets.mono (hypothesis _ (Nat.succ.inj lengths)) fun bindings after ⟨kept, covers⟩ => ?_
      rw [List.length_append, List.length_singleton] at kept
      refine ⟨by omega, fun other member => ?_, fun other location found => ?_⟩
      · rw [List.lookup_cons]
        split
        · exact ⟨_, rfl⟩
        next different =>
          rcases List.mem_cons.mp member with rfl | inside
          · rw [beq_self_eq_true] at different
            cases different
          · exact covers.1 other inside
      · rw [List.lookup_cons] at found
        split at found
        · cases found
          exact kept
        · exact covers.2 other location found

section Services

variable {function : FunDef} {stops : Stop → World → Prop} {next : Word → World → Prop}
  {world : World}

/-- The service that stops evaluation. -/
theorem meets_exit {code : Word} (named : Service.ofName? function.name = some .exit) :
    (serve function [code]).Meets stops next world ↔ stops (.exit code.toInt) world := by
  unfold serve
  rw [named]
  rfl

/-- The service that reads a number. -/
theorem meets_getint (named : Service.ofName? function.name = some .getint) :
    (serve function []).Meets stops next world ↔
      match Input.readInt world.input with
      | (.ok value, rest) => next (Word.ofInt value) { world with input := rest }
      | (.error fault, rest) => stops (.fault fault) { world with input := rest } := by
  unfold serve
  rw [named]
  dsimp only
  rw [meets_bind, meets_get]
  cases Input.readInt world.input with
  | mk result rest =>
    dsimp only
    rw [meets_bind, meets_modify]
    cases result with
    | ok value => rfl
    | error fault => rfl

/-- The service that shows a number. -/
theorem meets_putint {value : Word} (named : Service.ofName? function.name = some .putint) :
    (serve function [value]).Meets stops next world ↔
      if world.output.fits (Utf8.encode (Decimal.render value.toInt)) then
        next 1 { world with
          output := world.output.write (Utf8.encode (Decimal.render value.toInt)) }
      else
        stops (.fault .outputFull) { world with
          output := world.output.write (Utf8.encode (Decimal.render value.toInt)) } := by
  unfold serve
  rw [named]
  dsimp only
  rw [meets_bind, meets_get, meets_bind, meets_modify]
  cases world.output.fits (Utf8.encode (Decimal.render value.toInt)) with
  | true => rfl
  | false => rfl

end Services

section Tree

variable {program : Program} {call : FunDef → Env → List Word → Eval Word} {env : Env}

/-- A call of a function proceeds if the function is known and gets its arguments. -/
def CallProceeds (program : Program) (call : FunDef → Env → List Word → Eval Word) : Prop :=
  ∀ (function : FunDef) (home : Env) (args : List Word) (world : World),
    function ∈ home.scope.ownFunctions → home.scope.Within program (.meaningful program) →
    home.Covered world.store.length → args.length = function.params.length →
    (call function home args).Proceeds (fun _ => True) world

/-- A use of a variable is found. -/
theorem proceeds_locate {id : NodeId} {name : String} {world : World}
    (covered : env.Covered world.store.length)
    (obeys : (Expr.var id name).Obeys (.meaningful program) env.scope) :
    (locate program env id).Proceeds (fun location => location < world.store.length) world := by
  obtain ⟨⟨target, visible, linked⟩, -⟩ := obeys.1
  obtain ⟨location, low, found⟩ := covered.exists_location visible
  rw [locate, linked, Option.bind_some, found]
  exact .pure low

/-- A call is linked to the function that the environment gives, and passes as many
arguments as this has parameters. -/
theorem exists_callee {id : NodeId} {name : String} {args : List Expr}
    (distinct : program.Distinct) (obeys : program.Obeys (.meaningful program))
    (within : env.scope.Within program (.meaningful program))
    (own : (Rule.meaningful program).expr env.scope (.call id name args)) :
    ∃ function home hops, (program.definition? id).bind env.function? = some (function, home) ∧
      env.Around home hops ∧ function ∈ home.scope.ownFunctions ∧
      args.length = function.params.length := by
  obtain ⟨⟨visible, isVisible, linked⟩, other, isOther, sameLink, lengths⟩ := own.1
  obtain ⟨function, home, found⟩ := Env.exists_function isVisible
  obtain ⟨hops, around, isOwn, sameId⟩ := Env.exists_around_of_function found
  have inside := ((within.around around.scope).function obeys isOwn).2 function List.mem_cons_self
  have same : function.id = other.id :=
    sameId.trans (Option.some.inj (linked.symm.trans sameLink))
  obtain rfl := Program.functions_unique distinct inside isOther same
  exact ⟨function, home, hops, by rw [linked, Option.bind_some, found], around, isOwn, lengths⟩

mutual

/-- Expressions proceed. -/
theorem proceeds_value {world : World} (distinct : program.Distinct)
    (obeysAll : program.Obeys (.meaningful program)) (calls : CallProceeds program call)
    (within : env.scope.Within program (.meaningful program))
    (covered : env.Covered world.store.length) : (expr : Expr) →
    expr.Obeys (.meaningful program) env.scope →
    (value program call env expr).Proceeds (fun _ => True) world
  | .atom _ atom, obeys => by
    rw [value, if_neg obeys.2.2]
    exact .pure trivial
  | .var id name, obeys => by
    refine Proceeds.bind (proceeds_locate covered obeys) fun location after kept low => ?_
    have found : after.store[location]? = some after.store[location] :=
      List.getElem?_eq_getElem (by omega)
    exact (meets_fetch found).mpr ⟨Nat.le_refl _, trivial⟩
  | .call id name args, ⟨own, obey⟩ => by
    obtain ⟨function, home, hops, found, around, isOwn, lengths⟩ :=
      exists_callee distinct obeysAll within own
    refine Proceeds.bind (proceeds_values distinct obeysAll calls within covered args obey)
      fun words after kept same => ?_
    rw [found]
    exact calls function home words after isOwn (within.around around.scope)
      ((covered.mono kept).around around) (same.trans lengths)
  | .unary _ .plus operand, ⟨_, obeys⟩ =>
    proceeds_value distinct obeysAll calls within covered operand obeys
  | .unary _ .not operand, ⟨_, obeys⟩ =>
    Proceeds.bind (proceeds_value distinct obeysAll calls within covered operand obeys)
      fun _ _ _ _ => .pure trivial
  | .unary _ .minus operand, ⟨_, obeys⟩ =>
    Proceeds.bind (proceeds_value distinct obeysAll calls within covered operand obeys)
      fun _ _ _ _ => .pure trivial
  | .unary _ .addressOf _, ⟨own, _⟩ => own.2.2.elim
  | .unary _ .valueAt _, ⟨own, _⟩ => own.2.2.elim
  | .binary _ op first second, ⟨_, obeysFirst, obeysSecond⟩ => by
    refine Proceeds.bind (proceeds_value distinct obeysAll calls within covered first obeysFirst)
      fun left after kept _ => ?_
    refine Proceeds.bind
      (proceeds_value distinct obeysAll calls within (covered.mono kept) second obeysSecond)
      fun right last _ _ => ?_
    split
    · exact .pure trivial
    · exact Stop.noConfusion

/-- Arguments proceed, and each has a value. -/
theorem proceeds_values {world : World} (distinct : program.Distinct)
    (obeysAll : program.Obeys (.meaningful program)) (calls : CallProceeds program call)
    (within : env.scope.Within program (.meaningful program))
    (covered : env.Covered world.store.length) : (args : List Expr) →
    ExprsObey (.meaningful program) env.scope args →
    (values program call env args).Proceeds (fun words => words.length = args.length) world
  | [], _ => .pure rfl
  | arg :: rest, ⟨obeysFirst, obeyRest⟩ => by
    refine Proceeds.bind (proceeds_values distinct obeysAll calls within covered rest obeyRest)
      fun later after kept same => ?_
    refine Proceeds.bind
      (proceeds_value distinct obeysAll calls within (covered.mono kept) arg obeysFirst)
      fun first last _ _ => ?_
    exact .pure (congrArg (· + 1) same)

end

/-- A loop proceeds if its rounds do. -/
theorem proceeds_iterate {round : Eval Bool} {world : World} (rounds : Nat)
    (each : ∀ after : World, world.store.length ≤ after.store.length →
      round.Proceeds (fun _ => True) after) :
    (iterate rounds round).Proceeds (fun _ => True) world := by
  induction rounds generalizing world with
  | zero => exact Stop.noConfusion
  | succ rounds hypothesis =>
    refine Proceeds.bind (each world (Nat.le_refl _)) fun again after kept _ => ?_
    split
    · exact hypothesis fun last keptAgain => each last (Nat.le_trans kept keptAgain)
    · exact .pure trivial

mutual

/-- Statements proceed. -/
theorem proceeds_execute {env : Env} {world : World} (distinct : program.Distinct)
    (obeysAll : program.Obeys (.meaningful program)) (calls : CallProceeds program call)
    (within : env.scope.Within program (.meaningful program)) (rounds : Nat)
    (covered : env.Covered world.store.length) : (stmt : Stmt) →
    stmt.Obeys (.meaningful program) env.scope →
    (∀ function ∈ stmt.functions, function ∈ program.functions) →
    (execute program call rounds env stmt).Proceeds (fun _ => True) world
  | .expr _ expr, ⟨_, obeys⟩, _ =>
    Proceeds.bind (proceeds_value distinct obeysAll calls within covered expr obeys)
      fun _ _ _ _ => .pure trivial
  | .assign id target source, ⟨own, obeysTarget, obeysSource⟩, _ => by
    refine Proceeds.bind (proceeds_value distinct obeysAll calls within covered source obeysSource)
      fun word after kept _ => ?_
    cases target with
    | var use name =>
      refine Proceeds.bind (proceeds_locate (covered.mono kept) obeysTarget)
        fun location last _ _ => meets_bind.mpr ?_
      exact ⟨by simp, trivial⟩
    | atom _ _ | call _ _ _ | unary _ _ _ | binary _ _ _ _ => exact own.2.2.elim
  | .cond _ test yes no, ⟨_, obeysTest, obeyYes, obeyNo⟩, inside => by
    refine Proceeds.bind (proceeds_value distinct obeysAll calls within covered test obeysTest)
      fun truth after kept _ => ?_
    have known := covered.mono kept
    split
    · exact Proceeds.bind (proceeds_executeAll distinct obeysAll calls within rounds known no obeyNo
        fun function member => inside function (List.mem_append_right _ member))
        fun _ _ _ _ => .pure trivial
    · exact Proceeds.bind (proceeds_executeAll distinct obeysAll calls within rounds known yes obeyYes
        fun function member => inside function (List.mem_append_left _ member))
        fun _ _ _ _ => .pure trivial
  | .loop _ test body, ⟨_, obeysTest, obeyBody⟩, inside => by
    refine Proceeds.bind (proceeds_iterate rounds fun after kept => ?_)
      fun _ _ _ _ => (show Proceeds _ (fun _ => True) _ from .pure trivial)
    refine Proceeds.bind
      (proceeds_value distinct obeysAll calls within (covered.mono kept) test obeysTest)
      fun truth middle keptTest _ => ?_
    split
    · exact .pure trivial
    · exact Proceeds.bind
        (proceeds_executeAll distinct obeysAll calls within rounds
          (covered.mono (Nat.le_trans kept keptTest)) body obeyBody inside)
        fun _ _ _ _ => .pure trivial
  | .block _ defs body, ⟨_, obeyDefs, obeyBody⟩, inside => by
    refine meets_bind.mpr (Meets.mono (proceeds_bindAll world ?_)
      fun locals after ⟨kept, covers⟩ => ?_)
    · rw [List.length_map, List.length_map]
    · have entered := @proceeds_executeAll (.block defs locals env) _ distinct obeysAll calls
        ⟨⟨obeyDefs, fun function member => inside function (List.mem_append_right _ member)⟩, within⟩
        rounds ((covered.mono kept).block covers) body obeyBody
        fun function member => inside function (List.mem_append_left _ member)
      exact Meets.mono entered fun _ _ ⟨keptAgain, _⟩ => ⟨Nat.le_trans kept keptAgain, trivial⟩

/-- Lists of statements proceed. -/
theorem proceeds_executeAll {env : Env} {world : World} (distinct : program.Distinct)
    (obeysAll : program.Obeys (.meaningful program)) (calls : CallProceeds program call)
    (within : env.scope.Within program (.meaningful program)) (rounds : Nat)
    (covered : env.Covered world.store.length) : (stmts : List Stmt) →
    StmtsObey (.meaningful program) env.scope stmts →
    (∀ function ∈ functionsOfStmts stmts, function ∈ program.functions) →
    (executeAll program call rounds env stmts).Proceeds (fun _ => True) world
  | [], _, _ => .pure trivial
  | stmt :: rest, ⟨obeys, obeyRest⟩, inside => by
    refine Proceeds.bind (proceeds_execute distinct obeysAll calls within rounds covered stmt obeys
      fun function member => inside function (List.mem_append_left _ member))
      fun result after kept _ => ?_
    split
    · exact .pure trivial
    · exact proceeds_executeAll distinct obeysAll calls within rounds (covered.mono kept) rest obeyRest
        fun function member => inside function (List.mem_append_right _ member)

end

/-- The services that have a meaning proceed. -/
theorem proceeds_serve {function : FunDef} {home : Scope} {args : List Word} {world : World}
    (obeys : function.Obeys (.meaningful program) home) (external : function.isExternal = true)
    (lengths : args.length = function.params.length) :
    (serve function args).Proceeds (fun _ => True) world := by
  obtain ⟨service, allowed, named, arity⟩ := obeys.service external
  rw [arity] at lengths
  simp only [List.mem_cons, List.not_mem_nil, or_false] at allowed
  rcases allowed with rfl | rfl | rfl
  · obtain ⟨code, rfl⟩ := List.length_eq_one_iff.mp lengths
    exact (meets_exit named).mpr Stop.noConfusion
  · obtain rfl := List.length_eq_zero_iff.mp lengths
    refine (meets_getint named).mpr ?_
    split
    · exact ⟨Nat.le_refl _, trivial⟩
    · exact Stop.noConfusion
  · obtain ⟨value, rfl⟩ := List.length_eq_one_iff.mp lengths
    refine (meets_putint named).mpr ?_
    split
    · exact ⟨Nat.le_refl _, trivial⟩
    · exact Stop.noConfusion

/-- Calls proceed. -/
theorem proceeds_invoke (distinct : program.Distinct)
    (obeys : program.Obeys (.meaningful program)) (depth : Nat) :
    CallProceeds program (invoke program depth) := by
  induction depth with
  | zero => exact fun _ _ _ _ _ _ _ _ => Stop.noConfusion
  | succ depth hypothesis =>
    intro function home args world own within covered lengths
    obtain ⟨obeysOwn, inside⟩ := within.function obeys own
    rw [invoke]
    split
    next external => exact proceeds_serve obeysOwn external lengths
    next =>
      refine meets_bind.mpr (Meets.mono (proceeds_bindAll world ?_)
        fun params after ⟨kept, covers⟩ => ?_)
      · rw [List.length_map, lengths]
      · have entered := @proceeds_executeAll _ _ (.enter function params home) _ distinct obeys
          hypothesis within depth ((covered.mono kept).enter covers) function.body
          (FunDef.obeys_iff.mp obeysOwn).2
          fun inner member => inside inner (List.mem_cons_of_mem _ member)
        refine meets_bind.mpr (Meets.mono entered fun _ _ ⟨keptAgain, _⟩ => ?_)
        exact ⟨Nat.le_trans kept keptAgain, trivial⟩

end Tree

end Eval

/-- Evaluation of a program always stops for a reason, and it does not get stuck. -/
theorem Program.evaluate_proceeds {program : Program} {main : FunDef} (distinct : program.Distinct)
    (obeys : program.Obeys (.meaningful program)) (entry : program.entry? = some main)
    (noParams : main.params = []) (fuel : Nat) (input : List UInt8) (outputLimit : Option Nat) :
    ∃ stop world, program.evaluate fuel input outputLimit = .error stop world ∧ stop ≠ .stuck := by
  have isTop := (Program.mem_functions_of_entry entry).1
  have meets : (program.perform fuel).Meets (fun stop _ => stop ≠ .stuck) (fun _ _ => False)
      ⟨[], input, .empty outputLimit⟩ := by
    rw [Program.perform, entry]
    refine Eval.meets_bind.mpr (Eval.Meets.mono (Eval.proceeds_bindAll _ ?_)
      fun globals after ⟨_, covers⟩ => ?_)
    · rw [List.length_map, List.length_map]
    · refine Eval.meets_bind.mpr (Eval.Meets.mono (Eval.proceeds_invoke distinct obeys fuel main
        (.top program.defs globals) [] after isTop rfl (Env.covered_top covers) ?_) fun _ _ _ => ?_)
      · rw [noParams, List.length_nil, List.length_nil]
      · exact Stop.noConfusion
  rw [Eval.Meets] at meets
  rw [Program.evaluate]
  split at meets
  · exact meets.elim
  next stop world ended => exact ⟨stop, world, ended, meets⟩

end ScopeStack
