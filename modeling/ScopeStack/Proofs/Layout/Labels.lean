import ScopeStack.Proofs.Layout.Allocation
import ScopeStack.Proofs.Layout.Placement
import ScopeStack.Proofs.Scope

/-!
# Labels of a layout

Reserving a label never hands out one that is in use. Hence the labels that a
layout gives to functions with a body and to global variables are different
from each other and from the names of the services. If no name contains a colon,
no label does.
-/

namespace ScopeStack

/-- A text without a colon. Labels of definitions are plain, those of branches
and constants are not. -/
def Plain (text : String) : Prop := ':' ∉ text.toList

instance (text : String) : Decidable (Plain text) := inferInstanceAs (Decidable (¬_))

/-- A name put together from two is plain if both are. -/
theorem plain_append {first second : String} :
    Plain (first ++ second) ↔ Plain first ∧ Plain second := by
  rw [Plain, Plain, Plain, String.toList_append, List.mem_append, not_or]

/-- A number is written without a colon. -/
theorem plain_toString (number : Nat) : Plain (toString number) := by
  intro inside
  change ':' ∈ number.repr.toList at inside
  rw [Nat.toList_repr] at inside
  exact absurd (Nat.isDigit_of_mem_toDigits (by decide) (by decide) inside) (by decide)

/-- Names of functions and variables have no colon. -/
def Rule.plainNames : Rule where
  expr _ _ := True
  stmt _ _ := True
  function _ function := Plain function.name
  declared _ declared := Plain declared.name

instance : Rule.plainNames.Checkable where
  expr _ _ := .isTrue trivial
  stmt _ _ := .isTrue trivial
  function _ function := inferInstanceAs (Decidable (Plain function.name))
  declared _ declared := inferInstanceAs (Decidable (Plain declared.name))

namespace LabelSet

/-- The search for a plain name finds a plain label. -/
theorem plain_search {set : LabelSet} {base : String} {probes index : Nat} (plain : Plain base) :
    Plain (search set base probes index) := by
  have candidates (index : Nat) : Plain (candidate base index) := by
    cases index with
    | zero => exact plain
    | succ index =>
      exact plain_append.mpr ⟨plain_append.mpr ⟨plain, by decide⟩, plain_toString (index + 1)⟩
  induction probes generalizing index with
  | zero => exact candidates index
  | succ probes hypothesis =>
    rw [search]
    split
    · exact hypothesis
    · exact candidates index

/-- No label of a set is listed twice, and none contains a colon. -/
structure Sound (set : LabelSet) : Prop where
  distinct : set.labels.Nodup
  plain : ∀ label ∈ set.labels, Plain label

/-- Reserving a label for a plain name keeps a set sound. -/
theorem Sound.reserve {set : LabelSet} {base : String} (sound : set.Sound) (plain : Plain base) :
    (set.reserve base).2.Sound := by
  refine ⟨List.nodup_cons.mpr ⟨free_not_mem set base, sound.distinct⟩, ?_⟩
  intro label inside
  rcases List.mem_cons.mp inside with rfl | before
  · exact plain_search plain
  · exact sound.plain label before

end LabelSet

namespace Layout

open Stateful

/-- The labels of the functions that have a body. -/
def labelsOf (layout : Layout) (functions : List FunDef) : List String :=
  (functions.filter fun function => !function.isExternal).map fun function =>
    (layout.frameOf function.id).name

/-- The labels of two lists of functions. -/
theorem labelsOf_append (layout : Layout) (first second : List FunDef) :
    layout.labelsOf (first ++ second) = layout.labelsOf first ++ layout.labelsOf second := by
  simp [labelsOf]

/-- A set of labels has grown by those of functions, and has stayed sound. -/
structure Reserves (layout : Layout) (functions : List FunDef) (before after : LabelSet) : Prop where
  count : ∀ label, after.labels.count label =
    before.labels.count label + (layout.labelsOf functions).count label
  sound : before.Sound → after.Sound

namespace Reserves

/-- No functions reserve no labels. -/
theorem nothing (layout : Layout) (labels : LabelSet) : Reserves layout [] labels labels :=
  ⟨fun _ => rfl, fun sound => sound⟩

/-- Functions reserve their labels one after another. -/
theorem trans {layout : Layout} {first second : List FunDef} {before middle after : LabelSet}
    (reserved : Reserves layout first before middle)
    (reservedNext : Reserves layout second middle after) :
    Reserves layout (first ++ second) before after := by
  refine ⟨fun label => ?_, fun sound => reservedNext.sound (reserved.sound sound)⟩
  rw [reservedNext.count, reserved.count, labelsOf_append, List.count_append, Nat.add_assoc]

/-- The order in which functions are listed does not matter. -/
theorem swap {layout : Layout} {first second : List FunDef} {before after : LabelSet}
    (reserved : Reserves layout (first ++ second) before after) :
    Reserves layout (second ++ first) before after := by
  refine ⟨fun label => ?_, reserved.sound⟩
  rw [reserved.count, labelsOf_append, labelsOf_append, List.count_append, List.count_append,
    Nat.add_comm (List.count label (layout.labelsOf first))]

end Reserves

/-- A qualified name is plain if its parts are. -/
theorem plain_qualify {outer : Option String} {name : String}
    (plainOuter : ∀ label, outer = some label → Plain label) (plainName : Plain name) :
    Plain (qualify outer name) := by
  cases outer with
  | none => exact plainName
  | some label =>
    exact plain_append.mpr ⟨plain_append.mpr ⟨plainOuter label rfl, by decide⟩, plainName⟩

mutual

/-- Laying out a statement reserves the labels of the functions in it. -/
theorem reserves_of_stmtLaid {layout : Layout} {label : String} {depth : Nat} {scope : Scope}
    {before after : Extent} : (stmt : Stmt) → StmtLaid layout label depth stmt before after →
    stmt.Obeys .plainNames scope → Plain label →
    Reserves layout stmt.functions before.labels after.labels
  | .expr _ _, laid, _, _ => by
    obtain rfl := laid
    exact .nothing layout _
  | .assign _ _ _, laid, _, _ => by
    obtain rfl := laid
    exact .nothing layout _
  | .cond _ _ yes no, ⟨_, first, second⟩, ⟨_, _, plainYes, plainNo⟩, plain =>
    (reserves_of_stmtsLaid yes first plainYes plain).trans
      (reserves_of_stmtsLaid no second plainNo plain)
  | .loop _ _ body, laid, ⟨_, _, plainBody⟩, plain =>
    reserves_of_stmtsLaid body laid plainBody plain
  | .block _ defs body, ⟨_, first, second⟩, ⟨_, plainDefs, plainBody⟩, plain =>
    ((reserves_of_defsLaid defs first plainDefs plain).trans
      (reserves_of_stmtsLaid body second plainBody plain)).swap

/-- Laying out statements reserves the labels of the functions in them. -/
theorem reserves_of_stmtsLaid {layout : Layout} {label : String} {depth : Nat} {scope : Scope}
    {before after : Extent} : (stmts : List Stmt) →
    StmtsLaid layout label depth stmts before after → StmtsObey .plainNames scope stmts →
    Plain label → Reserves layout (functionsOfStmts stmts) before.labels after.labels
  | [], laid, _, _ => by
    obtain rfl := laid
    exact .nothing layout _
  | stmt :: rest, ⟨_, first, second⟩, ⟨plainStmt, plainRest⟩, plain =>
    (reserves_of_stmtLaid stmt first plainStmt plain).trans
      (reserves_of_stmtsLaid rest second plainRest plain)

/-- Laying out definitions reserves the labels of the functions in them. -/
theorem reserves_of_defsLaid {layout : Layout} {label : String} {depth : Nat} {scope : Scope}
    {before after : Extent} : (defs : List Def) → DefsLaid layout label depth defs before after →
    DefsObey .plainNames scope defs → Plain label →
    Reserves layout (functionsOfDefs defs) before.labels after.labels
  | [], laid, _, _ => by
    obtain rfl := laid
    exact .nothing layout _
  | .fn ⟨id, name, params, body⟩ :: rest, ⟨_, first, second⟩, ⟨plainFunction, plainRest⟩, plain => by
    have atFunction := reserves_of_functionLaid ⟨id, name, params, body⟩ first plainFunction
      fun other same => Option.some.inj same ▸ plain
    exact atFunction.trans (reserves_of_defsLaid rest second plainRest plain)
  | .var _ :: rest, ⟨_, _, laid⟩, ⟨_, plainRest⟩, plain => by
    have later := reserves_of_defsLaid rest laid plainRest plain
    exact later

/-- Laying out a function reserves its label and those of the functions in
it. -/
theorem reserves_of_functionLaid {layout : Layout} {outer : Option String} {depth : Nat}
    {scope : Scope} {before after : LabelSet} : (function : FunDef) →
    FunctionLaid layout outer depth function before after → function.Obeys .plainNames scope →
    (∀ label, outer = some label → Plain label) →
    Reserves layout (function :: functionsOfStmts function.body) before after
  | ⟨id, name, params, []⟩, ⟨_, _, _, _, labelled, laid, _⟩, _, _ => by
    obtain ⟨-, rfl⟩ := labelled
    cases laid
    exact ⟨fun _ => rfl, fun sound => sound⟩
  | ⟨id, name, params, first :: rest⟩, ⟨_, label, labels, locals, labelled, laid, framed⟩,
      ⟨plainName, plainBody⟩, plainOuter => by
    have reserved : (label, labels) = before.reserve (qualify outer name) := labelled
    have plainBase := plain_qualify plainOuter plainName
    obtain ⟨rfl, rfl⟩ := Prod.mk.inj reserved
    have own : Reserves layout [⟨id, name, params, first :: rest⟩] before
        (before.reserve (qualify outer name)).2 := by
      refine ⟨fun other => ?_, fun sound => sound.reserve plainBase⟩
      have label : layout.labelsOf [⟨id, name, params, first :: rest⟩] =
          [before.free (qualify outer name)] := by
        simp [labelsOf, FunDef.isExternal, frameOf_eq framed]
      rw [label, LabelSet.reserve, List.count_cons, List.count_singleton]
    exact own.trans (reserves_of_stmtsLaid (first :: rest) laid plainBody
      (LabelSet.plain_search plainBase))

end

/-- Laying out the top level reserves the labels of all functions. -/
theorem reserves_of_topLaid {layout : Layout} {globals : Table String} {scope : Scope}
    {defs : List Def} {before after : LabelSet} (laid : TopLaid layout globals defs before after)
    (plain : DefsObey .plainNames scope defs) :
    Reserves layout (functionsOfDefs defs) before after := by
  induction defs generalizing before with
  | nil =>
    obtain rfl := laid
    exact .nothing layout _
  | cons definition rest hypothesis =>
    cases definition with
    | fn function =>
      obtain ⟨labels, first, second⟩ := laid
      obtain ⟨id, name, params, body⟩ := function
      exact (reserves_of_functionLaid _ first plain.1 (fun _ none => nomatch none)).trans
        (hypothesis second plain.2)
    | var declared => exact hypothesis laid.2 plain.2

/-- The labels of global variables. -/
def globalLabels (layout : Layout) (defs : List Def) : List String :=
  (variablesIn defs).filterMap fun declared : VarDef =>
    match layout.accesses[declared.id]? with
    | some (.abs access) => some access.label
    | _ => none

/-- The names of global variables in a table of reserved labels. -/
theorem globalLabels_of_topLaid {layout : Layout} {globals : Table String} {defs : List Def}
    {before after : LabelSet} (laid : TopLaid layout globals defs before after) :
    layout.globalLabels defs =
      (variablesIn defs).map fun declared => globals.getD declared.id declared.name := by
  induction defs generalizing before with
  | nil => rfl
  | cons definition rest hypothesis =>
    cases definition with
    | fn function =>
      obtain ⟨labels, -, second⟩ := laid
      exact hypothesis second
    | var declared =>
      obtain ⟨⟨flat, size, -, placed⟩, second⟩ := laid
      have remaining := hypothesis second
      have unfolded : variablesIn (.var declared :: rest) = declared :: variablesIn rest := rfl
      rw [globalLabels] at remaining ⊢
      rw [unfolded, List.filterMap_cons, placed, remaining]
      rfl

/-- Reserving the labels of the global variables gives each its own. -/
theorem count_reserveGlobals {defs : List Def} {scope : Scope} {globals : Table String}
    {before : Progress} {result : Table String × Progress}
    (ran : (reserveGlobals defs globals).run before = .ok result)
    (distinct : ((variablesIn defs).map VarDef.id).Nodup)
    (plain : DefsObey .plainNames scope defs) :
    (∀ label, result.2.labels.labels.count label = before.labels.labels.count label +
      ((variablesIn defs).map fun declared =>
        result.1.getD declared.id declared.name).count label) ∧
      (before.labels.Sound → result.2.labels.Sound) ∧
      ∀ id, id ∉ (variablesIn defs).map VarDef.id → result.1[id]? = globals[id]? := by
  induction defs generalizing globals before with
  | nil =>
    simp only [reserveGlobals, run_pure_eq_ok] at ran
    subst ran
    exact ⟨fun _ => rfl, fun sound => sound, fun _ _ => rfl⟩
  | cons definition rest hypothesis =>
    cases definition with
    | fn function =>
      simp only [reserveGlobals] at ran
      exact hypothesis ran distinct plain.2
    | var declared =>
      have unfolded : variablesIn (.var declared :: rest) = declared :: variablesIn rest := rfl
      rw [unfolded, List.map_cons, List.nodup_cons] at distinct
      simp only [reserveGlobals, run_bind_eq_ok] at ran
      obtain ⟨label, middle, reserved, remaining⟩ := ran
      simp only [reserveLabel, run_modifyGet_eq_ok, Prod.mk.injEq] at reserved
      obtain ⟨rfl, rfl⟩ := reserved
      obtain ⟨count, sound, kept⟩ := hypothesis remaining distinct.2 plain.2
      have own : result.1.getD declared.id declared.name =
          (before.labels.reserve declared.name).1 := by
        rw [Std.TreeMap.getD_eq_getD_getElem?, kept declared.id distinct.1,
          Std.TreeMap.getElem?_insert_self, Option.getD_some]
      refine ⟨fun other => ?_, fun before => sound (before.reserve plain.1), fun id outside => ?_⟩
      · rw [count other, unfolded, List.map_cons, own, List.count_cons]
        change (before.labels.free declared.name :: before.labels.labels).count other + _ = _
        rw [List.count_cons]
        change _ = _ + (_ + if before.labels.free declared.name == other then 1 else 0)
        omega
      · rw [unfolded, List.map_cons, List.mem_cons, not_or] at outside
        rw [kept id outside.2, Std.TreeMap.getElem?_insert]
        simp [Ne.symm outside.1]

/-- The names of the services are different and plain. -/
theorem sound_serviceLabels : serviceLabels.Sound := ⟨by decide, by decide⟩

/-- The labels of functions with a body and of global variables are different
from each other and from the names of the services, and they have no colon. -/
theorem labels_of_ofProgram {program : Program} {layout : Layout} (distinct : program.Distinct)
    (plain : program.Obeys .plainNames) (laid : ofProgram program = .ok layout) :
    (layout.labelsOf program.functions ++ layout.globalLabels program.defs).Nodup ∧
      ∀ label ∈ layout.labelsOf program.functions ++ layout.globalLabels program.defs,
        Plain label ∧ label ∉ Service.all.map Service.name := by
  obtain ⟨globals, ready, after, reserved, top⟩ := topLaid_of_ofProgram distinct laid
  have distinctGlobals : ((variablesIn program.defs).map VarDef.id).Nodup := by
    refine nodup_of_count_le distinct fun id => ?_
    rw [count_idsOfDefs]
    omega
  obtain ⟨countGlobals, soundGlobals, -⟩ := count_reserveGlobals reserved distinctGlobals plain
  dsimp only at countGlobals soundGlobals
  have functions := reserves_of_topLaid top plain
  have sound := functions.sound (soundGlobals sound_serviceLabels)
  have total (label : String) : after.labels.count label =
      (Service.all.map Service.name).count label +
        (layout.labelsOf program.functions ++ layout.globalLabels program.defs).count label := by
    rw [functions.count, countGlobals, List.count_append, globalLabels_of_topLaid top]
    change (Service.all.map Service.name).count label + _ +
      (layout.labelsOf program.functions).count label = _
    omega
  have once (label : String) := List.nodup_iff_count.mp sound.distinct label
  constructor
  · rw [List.nodup_iff_count]
    intro label
    have bound := once label
    rw [total] at bound
    omega
  · intro label inside
    have present := List.count_pos_iff.mpr inside
    have bound := once label
    rw [total] at bound
    refine ⟨sound.plain label (List.count_pos_iff.mp (by rw [total]; omega)), fun service => ?_⟩
    have served := List.count_pos_iff.mpr service
    omega

end Layout

end ScopeStack
