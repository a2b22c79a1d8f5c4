import ScopeStack.Proofs.Initializers
import ScopeStack.Proofs.Layout.Entries
import ScopeStack.Proofs.Linking.Labels

/-!
# The names in an image

Every name in the code of a program is a label that its image binds, or a
service: the names of branches and constants belong to the same statement or
node, those of variables to global variables, and those of calls to functions
of the program. Hence an image can be loaded unless the configuration does not
allow it, `load_image_cases`.
-/

namespace ScopeStack.Emission

open Executable

/-- All names in instructions are known. -/
def NamesIn (known : String → Prop) (instrs : List Instr) : Prop :=
  ∀ target, .name target ∈ instrs → known target

section NamesIn

variable {known : String → Prop}

/-- No code has no names. -/
theorem namesIn_nil : NamesIn known [] := fun _ inside => nomatch inside

/-- The names in two pieces of code are known if those in both are. -/
theorem namesIn_append {first second : List Instr} :
    NamesIn known (first ++ second) ↔ NamesIn known first ∧ NamesIn known second := by
  simp only [NamesIn, List.mem_append, or_imp, forall_and]

/-- The name in a first instruction and those in the remaining ones are known. -/
theorem namesIn_cons {instr : Instr} {rest : List Instr} :
    NamesIn known (instr :: rest) ↔
      (∀ target, instr = .name target → known target) ∧ NamesIn known rest := by
  simp only [NamesIn, List.mem_cons, or_imp, forall_and, eq_comm]

/-- Following access links needs no names. -/
theorem namesIn_framePointer (hops : Nat) : NamesIn known (framePointer hops) := by
  intro target inside
  rcases List.mem_cons.mp inside with same | load
  · cases same
  · cases List.eq_of_mem_replicate load

/-- The labels of global variables are known. -/
def KnowsGlobals (layout : Layout) (known : String → Prop) : Prop :=
  ∀ (id : NodeId) (access : AbsAccess), layout.accesses[id]? = some (.abs access) →
    known access.label

/-- The labels of all called functions are known. -/
def Rule.knowsCallees (program : Program) (layout : Layout) (known : String → Prop) : Rule :=
  .onExprs fun
    | _, .call id _ _ =>
      ∀ callee, (Context.ofProgram program layout).calleeOf? id = some callee → known callee.name
    | _, _ => True

/-- A context of a program under a layout. -/
def Context.Of (context : Context) (program : Program) (layout : Layout) : Prop :=
  context.program = program ∧ context.layout = layout

/-- The code of a variable uses the label of a global one at most. -/
theorem namesIn_variableInstrs {context : Context} (globals : KnowsGlobals context.layout known)
    (id : NodeId) : NamesIn known (variableInstrs context id) := by
  rw [variableInstrs]
  split
  · exact namesIn_nil
  next access found =>
    intro target inside
    cases List.mem_singleton.mp inside
    obtain ⟨definition, -, placed⟩ := Option.bind_eq_some_iff.mp found
    exact globals definition access placed
  next access found =>
    exact namesIn_append.mpr ⟨namesIn_framePointer _, by simp [NamesIn]⟩

mutual

/-- The names in the code of an expression are known. -/
theorem namesIn_valueInstrs {program : Program} {layout : Layout} {context : Context}
    {naming : Naming} {scope : Scope} (own : context.Of program layout)
    (globals : KnowsGlobals layout known) : (expr : Expr) →
    (∀ own ∈ valueData expr, known (naming.constantLabel own.id)) →
    expr.Obeys (Rule.knowsCallees program layout known) scope →
    NamesIn known (valueInstrs context naming expr)
  | .atom id atom, constants, _ => by
    rw [valueInstrs, atomInstrs]
    split
    next text =>
      intro target inside
      cases List.mem_singleton.mp inside
      exact constants ⟨id, none, atom.codes ++ [0]⟩ (by rw [valueData, if_pos text]; simp)
    next => simp [NamesIn]
  | .var id _, _, _ => by
    rw [valueInstrs]
    exact namesIn_append.mpr ⟨namesIn_variableInstrs (own.2 ▸ globals) id, by simp [NamesIn]⟩
  | .call id _ args, constants, ⟨callees, obeysArgs⟩ => by
    rw [valueInstrs]
    refine namesIn_append.mpr ⟨namesIn_argInstrs own globals args constants obeysArgs, ?_⟩
    rw [calleeInstrs]
    split
    · exact namesIn_nil
    next callee found =>
      obtain ⟨rfl, rfl⟩ := own
      refine namesIn_append.mpr ⟨namesIn_framePointer _, ?_⟩
      intro target inside
      obtain rfl : target = callee.name := by simpa using inside
      exact callees callee found
  | .unary _ op operand, constants, ⟨_, obeys⟩ => by
    cases op with
    | addressOf =>
      rw [valueInstrs]
      exact namesIn_variableInstrs (own.2 ▸ globals) operand.id
    | plus =>
      rw [valueInstrs]
      exact namesIn_valueInstrs own globals operand constants obeys
    | not | minus | valueAt =>
      rw [valueInstrs]
      exact namesIn_append.mpr
        ⟨namesIn_valueInstrs own globals operand constants obeys, by simp [NamesIn]⟩
  | .binary _ _ first second, constants, ⟨_, obeysFirst, obeysSecond⟩ => by
    rw [valueInstrs]
    exact namesIn_append.mpr ⟨namesIn_append.mpr
      ⟨namesIn_valueInstrs own globals first
        (fun own inside => constants own (List.mem_append_left _ inside)) obeysFirst,
      namesIn_valueInstrs own globals second
        (fun own inside => constants own (List.mem_append_right _ inside)) obeysSecond⟩, by simp [NamesIn]⟩

/-- The names in the code of arguments are known. -/
theorem namesIn_argInstrs {program : Program} {layout : Layout} {context : Context}
    {naming : Naming} {scope : Scope} (own : context.Of program layout)
    (globals : KnowsGlobals layout known) : (args : List Expr) →
    (∀ own ∈ argData args, known (naming.constantLabel own.id)) →
    ExprsObey (Rule.knowsCallees program layout known) scope args →
    NamesIn known (argInstrs context naming args)
  | [], _, _ => namesIn_nil
  | arg :: rest, constants, ⟨obeysArg, obeysRest⟩ =>
    namesIn_append.mpr
      ⟨namesIn_argInstrs own globals rest
        (fun own inside => constants own (List.mem_append_left _ inside)) obeysRest,
      namesIn_valueInstrs own globals arg
        (fun own inside => constants own (List.mem_append_right _ inside)) obeysArg⟩

end

/-- The names in the code of a place are known. -/
theorem namesIn_placeInstrs {program : Program} {layout : Layout} {context : Context}
    {naming : Naming} {scope : Scope} (own : context.Of program layout)
    (globals : KnowsGlobals layout known) {expr : Expr}
    (constants : ∀ own ∈ placeData expr, known (naming.constantLabel own.id))
    (obeys : expr.Obeys (Rule.knowsCallees program layout known) scope) :
    NamesIn known (placeInstrs context naming expr) := by
  rw [placeInstrs.eq_def]
  split
  · exact namesIn_valueInstrs own globals _ constants obeys.2
  · exact namesIn_variableInstrs (own.2 ▸ globals) _

/-- The code that initializes variables uses the labels of their initial words. -/
theorem namesIn_localsInstrs {context : Context} {naming : Naming} {defs : List Def}
    (constants : ∀ own ∈ localsData context.layout defs, known (naming.constantLabel own.id)) :
    NamesIn known (localsInstrs context naming defs) := by
  induction defs with
  | nil => exact namesIn_nil
  | cons definition rest hypothesis =>
    cases definition with
    | fn function => exact hypothesis constants
    | var declared =>
      rw [localsData, List.forall_mem_cons] at constants
      refine namesIn_append.mpr ⟨?_, hypothesis constants.2⟩
      rw [localInstrs]
      split
      · simpa [NamesIn] using constants.1
      · exact namesIn_nil

mutual

/-- The names in the code of a statement and of the functions in it are
known, if its labels and constants are. -/
theorem namesIn_stmt {program : Program} {layout : Layout} {context : Context} {naming : Naming}
    {scope : Scope} {tail : Bool} (own : context.Of program layout)
    (globals : KnowsGlobals layout known) : (stmt : Stmt) →
    (∀ own ∈ stmtData layout stmt, known (naming.constantLabel own.id)) →
    (∀ label ∈ labelsIn (stmtInstrs context naming tail stmt) ++
      blockLabels (stmtBlocks context naming stmt), known label) →
    stmt.Obeys (Rule.knowsCallees program layout known) scope →
    NamesIn known (stmtInstrs context naming tail stmt) ∧
      NamesIn known ((stmtBlocks context naming stmt).flatMap CodeBlock.instrs)
  | .expr _ value, constants, _, ⟨_, obeys⟩ => by
    refine ⟨?_, namesIn_nil⟩
    rw [stmtInstrs]
    refine namesIn_append.mpr ⟨namesIn_valueInstrs own globals value constants obeys, ?_⟩
    cases tail <;> simp [NamesIn]
  | .assign _ target source, constants, _, ⟨_, obeysTarget, obeysSource⟩ => by
    refine ⟨?_, namesIn_nil⟩
    rw [stmtInstrs]
    exact namesIn_append.mpr ⟨namesIn_append.mpr
      ⟨namesIn_valueInstrs own globals source
        (fun own inside => constants own (List.mem_append_left _ inside)) obeysSource,
      namesIn_placeInstrs own globals
        (fun own inside => constants own (List.mem_append_right _ inside)) obeysTarget⟩,
      by simp [NamesIn]⟩
  | .cond id test yes no, constants, labels, ⟨_, obeysTest, obeysYes, obeysNo⟩ => by
    simp only [stmtData, List.mem_append, or_imp, forall_and] at constants
    obtain ⟨⟨constantsTest, constantsYes⟩, constantsNo⟩ := constants
    simp only [stmtInstrs, stmtBlocks, blockLabels_append, labelsIn_append, labelsIn_cons,
      labelsIn_nil, Instr.label?, Option.toList, List.mem_append, or_imp, forall_and,
      List.mem_singleton, forall_eq, List.not_mem_nil, false_imp_iff, and_true, true_and]
      at labels
    obtain ⟨⟨⟨⟨⟨⟨-, labelThen⟩, labelsYes⟩, labelElse⟩, labelsNo⟩, labelEnd⟩, blocksYes,
      blocksNo⟩ := labels
    have partYes := namesIn_stmts own globals yes constantsYes
      (fun label inside => (List.mem_append.mp inside).elim (labelsYes label) (blocksYes label))
      obeysYes
    have partNo := namesIn_stmts own globals no constantsNo
      (fun label inside => (List.mem_append.mp inside).elim (labelsNo label) (blocksNo label))
      obeysNo
    have partTest := namesIn_valueInstrs own globals test constantsTest obeysTest
    simp only [stmtInstrs, stmtBlocks, List.flatMap_append, namesIn_append]
    refine ⟨⟨⟨⟨⟨⟨partTest, ?_⟩, partYes.1⟩, ?_⟩, partNo.1⟩, ?_⟩, partYes.2, partNo.2⟩
    · simp [NamesIn, labelThen, labelElse]
    · simp [NamesIn, labelEnd]
    · simp [NamesIn]
  | .loop id test body, constants, labels, ⟨_, obeysTest, obeysBody⟩ => by
    simp only [stmtData, List.mem_append, or_imp, forall_and] at constants
    simp only [stmtInstrs, stmtBlocks, labelsIn_append, labelsIn_cons, labelsIn_nil,
      Instr.label?, Option.toList, List.mem_append, or_imp, forall_and, List.mem_singleton,
      forall_eq, List.not_mem_nil, false_imp_iff, and_true, true_and] at labels
    obtain ⟨⟨⟨⟨⟨labelWhile, -⟩, labelDo⟩, labelsBody⟩, labelEnd⟩, blocksBody⟩ := labels
    have partBody := namesIn_stmts own globals body constants.2
      (fun label inside => (List.mem_append.mp inside).elim (labelsBody label) (blocksBody label))
      obeysBody
    have partTest := namesIn_valueInstrs own globals test constants.1 obeysTest
    simp only [stmtInstrs, stmtBlocks, namesIn_append]
    refine ⟨⟨⟨⟨⟨?_, partTest⟩, ?_⟩, partBody.1⟩, ?_⟩, partBody.2⟩
    · simp [NamesIn]
    · simp [NamesIn, labelDo, labelEnd]
    · simp [NamesIn, labelWhile]
  | .block id defs body, constants, labels, ⟨_, obeysDefs, obeysBody⟩ => by
    simp only [stmtData, List.mem_append, or_imp, forall_and] at constants
    simp only [stmtInstrs, stmtBlocks, blockLabels_append, labelsIn_append, List.mem_append,
      or_imp, forall_and] at labels
    obtain ⟨⟨-, labelsBody⟩, blocksBody, blocksDefs⟩ := labels
    have partBody := namesIn_stmts own globals body constants.1.2
      (fun label inside => (List.mem_append.mp inside).elim (labelsBody label) (blocksBody label))
      obeysBody
    have partDefs := namesIn_defs own globals defs constants.2 blocksDefs obeysDefs
    have partLocals := namesIn_localsInstrs (own.2 ▸ constants.1.1)
    simp only [stmtInstrs, stmtBlocks, List.flatMap_append, namesIn_append]
    exact ⟨⟨partLocals, partBody.1⟩, partBody.2, partDefs⟩

/-- The names in the code of statements and of the functions in them are
known. -/
theorem namesIn_stmts {program : Program} {layout : Layout} {context : Context} {naming : Naming}
    {scope : Scope} {tail : Bool} (own : context.Of program layout)
    (globals : KnowsGlobals layout known) : (stmts : List Stmt) →
    (∀ own ∈ stmtsData layout stmts, known (naming.constantLabel own.id)) →
    (∀ label ∈ labelsIn (stmtsInstrs context naming tail stmts) ++
      blockLabels (stmtsBlocks context naming stmts), known label) →
    StmtsObey (Rule.knowsCallees program layout known) scope stmts →
    NamesIn known (stmtsInstrs context naming tail stmts) ∧
      NamesIn known ((stmtsBlocks context naming stmts).flatMap CodeBlock.instrs)
  | [], _, _, _ => ⟨namesIn_nil, namesIn_nil⟩
  | stmt :: rest, constants, labels, ⟨obeysStmt, obeysRest⟩ => by
    simp only [stmtsData, List.mem_append, or_imp, forall_and] at constants
    simp only [stmtsInstrs, stmtsBlocks, blockLabels_append, labelsIn_append, List.mem_append,
      or_imp, forall_and] at labels
    obtain ⟨⟨labelsStmt, labelsRest⟩, blocksStmt, blocksRest⟩ := labels
    have partStmt := namesIn_stmt own globals stmt constants.1
      (fun label inside => (List.mem_append.mp inside).elim (labelsStmt label) (blocksStmt label))
      obeysStmt
    have partRest := namesIn_stmts own globals rest constants.2
      (fun label inside => (List.mem_append.mp inside).elim (labelsRest label) (blocksRest label))
      obeysRest
    simp only [stmtsInstrs, stmtsBlocks, List.flatMap_append, namesIn_append]
    exact ⟨⟨partStmt.1, partRest.1⟩, partStmt.2, partRest.2⟩

/-- The names in the code of the functions among definitions are known. -/
theorem namesIn_defs {program : Program} {layout : Layout} {context : Context} {naming : Naming}
    {scope : Scope} (own : context.Of program layout) (globals : KnowsGlobals layout known) :
    (defs : List Def) → (∀ own ∈ defsData layout defs, known (naming.constantLabel own.id)) →
    (∀ label ∈ blockLabels (defsBlocks context naming defs), known label) →
    DefsObey (Rule.knowsCallees program layout known) scope defs →
    NamesIn known ((defsBlocks context naming defs).flatMap CodeBlock.instrs)
  | [], _, _, _ => namesIn_nil
  | .fn function :: rest, constants, labels, ⟨obeysFunction, obeysRest⟩ => by
    simp only [defsData, List.mem_append, or_imp, forall_and] at constants
    simp only [defsBlocks, blockLabels_append, List.mem_append, or_imp, forall_and] at labels
    rw [defsBlocks, List.flatMap_append]
    exact namesIn_append.mpr
      ⟨namesIn_function own globals function constants.1 labels.1 obeysFunction,
        namesIn_defs own globals rest constants.2 labels.2 obeysRest⟩
  | .var _ :: rest, constants, labels, ⟨_, obeysRest⟩ =>
    namesIn_defs own globals rest constants labels obeysRest

/-- The names in the code of a function and of those in it are known. -/
theorem namesIn_function {program : Program} {layout : Layout} {context : Context}
    {naming : Naming} {scope : Scope} (own : context.Of program layout)
    (globals : KnowsGlobals layout known) : (function : FunDef) →
    (∀ own ∈ functionData layout function, known (naming.constantLabel own.id)) →
    (∀ label ∈ blockLabels (functionBlocks context naming function), known label) →
    function.Obeys (Rule.knowsCallees program layout known) scope →
    NamesIn known ((functionBlocks context naming function).flatMap CodeBlock.instrs)
  | ⟨id, name, params, []⟩, _, _, _ => namesIn_nil
  | ⟨id, name, params, first :: rest⟩, constants, labels, ⟨_, obeysBody⟩ => by
    have code : (functionBlocks context naming ⟨id, name, params, first :: rest⟩) =
        ⟨id, functionInstrs context naming (context.layout.frameOf id) (first :: rest)⟩ ::
          stmtsBlocks (context.enter (context.layout.frameOf id)) naming (first :: rest) := by
      rw [functionBlocks]
      rfl
    rw [code] at labels ⊢
    simp only [blockLabels_cons, functionInstrs, labelsIn_append, List.mem_append, or_imp,
      forall_and] at labels
    obtain ⟨⟨⟨⟨-, labelsBody⟩, -⟩, -⟩, blocksBody⟩ := labels
    have ownBody : (context.enter (context.layout.frameOf id)).Of program layout := own
    have partBody := namesIn_stmts ownBody globals (first :: rest) constants
      (fun label inside => (List.mem_append.mp inside).elim (labelsBody label) (blocksBody label))
      obeysBody
    rw [List.flatMap_cons, functionInstrs]
    refine namesIn_append.mpr ⟨?_, partBody.2⟩
    simp only [namesIn_append]
    refine ⟨⟨⟨?_, partBody.1⟩, ?_⟩, ?_⟩
    · simp [NamesIn]
    · split <;> simp [NamesIn]
    · simp [NamesIn]

end

end NamesIn

mutual

/-- The functions in a statement bind their labels. -/
theorem count_labelsOf_stmt (context : Context) (naming : Naming) (name : String) :
    (stmt : Stmt) → (context.layout.labelsOf stmt.functions).count name ≤
      (blockLabels (stmtBlocks context naming stmt)).count name
  | .expr _ _ => Nat.le_refl _
  | .assign _ _ _ => Nat.le_refl _
  | .cond _ _ yes no => by
    have atYes := count_labelsOf_stmts context naming name yes
    have atNo := count_labelsOf_stmts context naming name no
    rw [Stmt.functions, Layout.labelsOf_append, stmtBlocks, blockLabels_append, List.count_append,
      List.count_append]
    omega
  | .loop _ _ body => count_labelsOf_stmts context naming name body
  | .block _ defs body => by
    have atBody := count_labelsOf_stmts context naming name body
    have atDefs := count_labelsOf_defs context naming name defs
    rw [Stmt.functions, Layout.labelsOf_append, stmtBlocks, blockLabels_append, List.count_append,
      List.count_append]
    omega

/-- The functions in statements bind their labels. -/
theorem count_labelsOf_stmts (context : Context) (naming : Naming) (name : String) :
    (stmts : List Stmt) → (context.layout.labelsOf (functionsOfStmts stmts)).count name ≤
      (blockLabels (stmtsBlocks context naming stmts)).count name
  | [] => Nat.le_refl _
  | stmt :: rest => by
    have atStmt := count_labelsOf_stmt context naming name stmt
    have atRest := count_labelsOf_stmts context naming name rest
    rw [functionsOfStmts, Layout.labelsOf_append, stmtsBlocks, blockLabels_append,
      List.count_append, List.count_append]
    omega

/-- The functions in definitions bind their labels. -/
theorem count_labelsOf_defs (context : Context) (naming : Naming) (name : String) :
    (defs : List Def) → (context.layout.labelsOf (functionsOfDefs defs)).count name ≤
      (blockLabels (defsBlocks context naming defs)).count name
  | [] => Nat.le_refl _
  | .fn ⟨id, own, params, []⟩ :: rest => count_labelsOf_defs context naming name rest
  | .fn ⟨id, own, params, first :: later⟩ :: rest => by
    have atBody := count_labelsOf_stmts (context.enter (context.layout.frameOf id)) naming name
      (first :: later)
    have atRest := count_labelsOf_defs context naming name rest
    have ownLabel : context.layout.labelsOf (functionsOfDefs
        (.fn ⟨id, own, params, first :: later⟩ :: rest)) = (context.layout.frameOf id).name ::
          context.layout.labelsOf (functionsOfStmts (first :: later) ++ functionsOfDefs rest) := rfl
    have ownCode : (blockLabels (defsBlocks context naming
        (.fn ⟨id, own, params, first :: later⟩ :: rest))).count name =
          (labelsIn (functionInstrs context naming (context.layout.frameOf id)
            (first :: later))).count name +
          (blockLabels (stmtsBlocks (context.enter (context.layout.frameOf id)) naming
            (first :: later))).count name +
          (blockLabels (defsBlocks context naming rest)).count name := by
      rw [defsBlocks, functionBlocks, blockLabels_append, blockLabels_cons, List.count_append,
        List.count_append]
      rfl
    change (context.layout.labelsOf _).count name ≤ _ at atBody
    rw [ownCode, ownLabel, Layout.labelsOf_append, List.count_cons, List.count_append,
      functionInstrs, labelsIn_append, labelsIn_append, labelsIn_append, labelsIn_cons,
      List.count_append, List.count_append, List.count_append, List.count_append]
    simp only [Instr.label?, Option.toList, List.count_singleton]
    omega
  | .var _ :: rest => count_labelsOf_defs context naming name rest

end

/-- The names that a loader can resolve. -/
def Resolvable (image : Image) (name : String) : Prop :=
  name ∈ imageLabels image ∨ (Service.ofName? name).isSome

/-- Called functions without a body are services. -/
def Rule.callsServices (program : Program) : Rule :=
  .onExprs fun
    | _, .call id _ _ => ∀ function ∈ program.functions, function.isExternal →
      program.definition? id = some function.id → (Service.ofName? function.name).isSome
    | _, _ => True

instance (program : Program) : (Rule.callsServices program).Checkable where
  expr
    | _, .call id _ _ => inferInstanceAs (Decidable (∀ function ∈ program.functions,
        function.isExternal → program.definition? id = some function.id →
          (Service.ofName? function.name).isSome))
    | _, .var _ _ | _, .atom _ _ | _, .unary _ _ _ | _, .binary _ _ _ _ => .isTrue trivial
  stmt _ _ := .isTrue trivial
  function _ _ := .isTrue trivial
  declared _ _ := .isTrue trivial

section Resolvable

variable {program : Program} {layout : Layout} {main : FunDef} {image : Image}

/-- The labels of functions with a body can be resolved. -/
theorem resolvable_of_mem_labelsOf (shaped : Shaped program layout main image) {name : String}
    (inside : name ∈ layout.labelsOf program.functions) : Resolvable image name := by
  have present := List.count_pos_iff.mpr inside
  have bound := count_labelsOf_defs (.ofProgram program layout) (.ofProgram program layout) name
    program.defs
  have inBlocks : name ∈ blockLabels (programBlocks program layout) :=
    List.count_pos_iff.mp (Nat.lt_of_lt_of_le present bound)
  refine .inl (List.mem_append_left _ ?_)
  rw [shaped.code]
  change name ∈ labelsIn (_ ++ _)
  rw [labelsIn_append]
  exact List.mem_append_right _ inBlocks

/-- The labels of constants can be resolved. -/
theorem resolvable_constantLabel (shaped : Shaped program layout main image) {own : DataBlock}
    (inside : own ∈ topData layout program.defs) :
    Resolvable image ((Naming.ofProgram program layout).constantLabel own.id) := by
  refine .inl (List.mem_append_right _ ?_)
  rw [shaped.data]
  apply List.count_pos_iff.mp
  change 0 < (dataLabelsIn _ _).count _
  rw [count_dataLabelsIn]
  have present := List.count_pos_iff.mpr
    (List.mem_map_of_mem (f := fun own : DataBlock =>
      (Naming.ofProgram program layout).constantLabel own.id) inside)
  omega

/-- The labels of global variables can be resolved. -/
theorem knowsGlobals (laid : Layout.ofProgram program = .ok layout)
    (shaped : Shaped program layout main image) : KnowsGlobals layout (Resolvable image) := by
  intro id access placed
  obtain ⟨declared, inside, rfl⟩ :=
    List.mem_map.mp ((Layout.entries_of_ofProgram laid).2 id access placed)
  have global : access.label ∈ layout.globalLabels program.defs :=
    List.mem_filterMap.mpr ⟨declared, inside, by rw [placed]⟩
  refine .inl (List.mem_append_right _ ?_)
  rw [shaped.data]
  apply List.count_pos_iff.mp
  change 0 < (dataLabelsIn _ _).count _
  rw [count_dataLabelsIn, rooms_topData]
  have present := List.count_pos_iff.mpr global
  omega

/-- The label of a function of the program: one that is reserved for it if it
has a body, and its name otherwise. -/
theorem label_of_mem_functions (distinct : program.Distinct)
    (laid : Layout.ofProgram program = .ok layout) {function : FunDef} {frame : Frame}
    (inside : function ∈ program.functions) (framed : layout.frames[function.id]? = some frame) :
    (function.isExternal = false ∧ frame.name ∈ layout.labelsOf program.functions) ∨
      (function.isExternal = true ∧ frame.name = function.name) := by
  cases external : function.isExternal with
  | false =>
    refine .inl ⟨rfl, List.mem_map.mpr ⟨function, List.mem_filter.mpr ⟨inside, ?_⟩, ?_⟩⟩
    · rw [external]
      rfl
    · rw [Layout.frameOf_eq framed]
  | true =>
    obtain ⟨globals, ready, after, -, top⟩ := Layout.topLaid_of_ofProgram distinct laid
    rw [← Layout.frameOf_eq framed]
    exact .inr ⟨rfl, Layout.name_frameOf_external top inside external⟩

/-- The labels of called functions can be resolved. -/
theorem knowsCallees (distinct : program.Distinct) (laid : Layout.ofProgram program = .ok layout)
    (shaped : Shaped program layout main image) (services : program.Obeys (Rule.callsServices program)) :
    program.Obeys (Rule.knowsCallees program layout (Resolvable image)) := by
  refine DefsObey.mono ⟨?_, fun _ _ _ => trivial, fun _ _ _ => trivial, fun _ _ _ => trivial⟩ services
  intro scope expr calls
  cases expr with
  | call id name args =>
    intro callee found
    obtain ⟨target, defined, framed⟩ := Option.bind_eq_some_iff.mp found
    obtain ⟨function, inside, rfl⟩ :=
      List.mem_map.mp ((Layout.entries_of_ofProgram laid).1 target callee framed)
    rcases label_of_mem_functions distinct laid inside framed with ⟨-, own⟩ | ⟨external, same⟩
    · exact resolvable_of_mem_labelsOf shaped own
    · rw [same]
      exact .inr (calls function inside external defined)
  | _ => trivial

/-- A function among the definitions at the top level is a function of the
program. -/
theorem mem_functionsOfDefs {function : FunDef} {defs : List Def}
    (inside : function ∈ functionsIn defs) : function ∈ functionsOfDefs defs := by
  induction defs with
  | nil => cases inside
  | cons definition rest hypothesis =>
    cases definition with
    | fn first =>
      obtain ⟨id, name, params, body⟩ := first
      rcases List.mem_cons.mp inside with rfl | later
      · exact List.mem_cons_self
      · exact List.mem_cons_of_mem _ (List.mem_append_right _ (hypothesis later))
    | var declared => exact hypothesis inside

/-- All names in the code of an image can be resolved. -/
theorem namesIn_code (distinct : program.Distinct) (laid : Layout.ofProgram program = .ok layout)
    (shaped : Shaped program layout main image)
    (services : program.Obeys (Rule.callsServices program)) :
    NamesIn (Resolvable image) image.code.items := by
  have globals := knowsGlobals laid shaped
  have constants : ∀ own ∈ topData layout program.defs,
      Resolvable image ((Naming.ofProgram program layout).constantLabel own.id) :=
    fun own inside => resolvable_constantLabel shaped inside
  rw [shaped.code]
  refine namesIn_append.mpr ⟨?_, ?_⟩
  · rw [startInstrs]
    refine namesIn_append.mpr ⟨?_, ?_⟩
    · intro target inside
      obtain ⟨declared, member, named⟩ := List.mem_flatMap.mp inside
      have own : globalData layout declared ∈ topData layout program.defs :=
        globalData_mem_topData member
      rw [globalInstrs] at named
      split at named
      next access placed =>
        have known := constants _ own
        rw [id_globalData] at known
        have global := globals declared.id access placed
        simp only [List.mem_cons, Instr.name.injEq, reduceCtorEq, List.not_mem_nil, or_false] at named
        rcases named with rfl | rfl
        · exact global
        · exact known
      next => cases named
    · obtain ⟨inTop, body⟩ := Program.mem_functions_of_entry shaped.entry
      have own : (layout.frameOf main.id).name ∈ layout.labelsOf program.functions :=
        List.mem_map.mpr ⟨main, List.mem_filter.mpr
          ⟨mem_functionsOfDefs inTop, by rw [body]; rfl⟩, rfl⟩
      have known := resolvable_of_mem_labelsOf shaped own
      have exit : Resolvable image Service.exit.name := .inr (by decide)
      simp only [namesIn_cons, Instr.name.injEq, reduceCtorEq, false_imp_iff, implies_true,
        forall_eq', true_and]
      exact ⟨known, exit, namesIn_nil⟩
  · have code := shaped.code
    refine namesIn_defs ⟨rfl, rfl⟩ globals program.defs ?_ ?_
      (knowsCallees distinct laid shaped services)
    · intro own inside
      exact constants own (mem_topData_of_mem_defsData inside)
    · intro label inside
      refine .inl (List.mem_append_left _ ?_)
      rw [code]
      change label ∈ labelsIn (_ ++ _)
      rw [labelsIn_append]
      exact List.mem_append_right _ inside

/-- The bytes that a data block reserves for a variable. -/
def DataBlock.roomSize (own : DataBlock) : Int :=
  match own.room with
  | some (_, size) => size
  | none => 0

/-- A block takes a word for each of its words. -/
@[simp] theorem itemsSize_block (label : String) (words : List Int) :
    itemsSize (block label words) = 4 * words.length := by
  have wordsSize : itemsSize (words.map Datum.data) = 4 * words.length := by
    induction words with
    | nil => rfl
    | cons word rest hypothesis =>
      rw [List.map_cons, itemsSize_cons, hypothesis, List.length_cons]
      simp only [Datum.byteSize]
      omega
  rw [block, itemsSize_cons, wordsSize]
  exact Int.zero_add _

/-- A data block takes its room and a word for each of its words. -/
theorem itemsSize_dataBlock (naming : Naming) (own : DataBlock) :
    itemsSize (own.items naming) = own.roomSize + 4 * own.words.length := by
  rw [DataBlock.items, DataBlock.roomSize, itemsSize_append, itemsSize_block]
  cases own.room with
  | none => rfl
  | some room => simp [Datum.byteSize]

/-- Every data block of a program takes a number of bytes that is not negative, and has a room that
is not negative unless the block is larger than a word can say. -/
theorem dataBlock_bounds (distinct : program.Distinct)
    (laid : Layout.ofProgram program = .ok layout) {own : DataBlock}
    (member : own ∈ topData layout program.defs) :
    0 ≤ own.roomSize + 4 * own.words.length ∧
      (own.roomSize + 4 * own.words.length ≤ 2147483647 → 0 ≤ own.roomSize) := by
  rcases mem_topData_cases member with inFunction | ⟨declared, isGlobal, rfl⟩
  · rw [DataBlock.roomSize, room_defsData program.defs inFunction]
    exact ⟨by dsimp only; omega, fun _ => Int.le_refl 0⟩
  · obtain ⟨globals, ready, after, -, top⟩ := Layout.topLaid_of_ofProgram distinct laid
    obtain ⟨flat, size, measured, placed⟩ := Layout.globalLaid_of_mem_top top isGlobal
    rw [globalData, placed]
    exact ⟨Layout.bytes_nonneg_of_measure measured, Layout.size_nonneg_of_measure measured⟩

/-- A block is no larger than the data that it belongs to, if no block takes a negative number of
bytes. -/
theorem itemsSize_le_flatMap {naming : Naming} {blocks : List DataBlock}
    (nonneg : ∀ own ∈ blocks, 0 ≤ itemsSize (own.items naming)) :
    0 ≤ itemsSize (blocks.flatMap (DataBlock.items naming)) ∧
      ∀ own ∈ blocks,
        itemsSize (own.items naming) ≤ itemsSize (blocks.flatMap (DataBlock.items naming)) := by
  induction blocks with
  | nil => exact ⟨Int.le_refl 0, nofun⟩
  | cons first rest hypothesis =>
    obtain ⟨firstNonneg, restNonneg⟩ := List.forall_mem_cons.mp nonneg
    obtain ⟨total, each⟩ := hypothesis restNonneg
    rw [List.flatMap_cons, itemsSize_append]
    refine ⟨by omega, List.forall_mem_cons.mpr ⟨by omega, fun own inside => ?_⟩⟩
    have bound := each own inside
    omega

/-- The rooms of an image have no negative size, unless it is larger than any memory. -/
theorem rooms_nonneg (distinct : program.Distinct) (laid : Layout.ofProgram program = .ok layout)
    (shaped : Shaped program layout main image)
    (small : image.code.size + image.data.size ≤ Config.maxStackTop) :
    ∀ bytes, .size bytes ∈ image.data.map Located.item → 0 ≤ bytes := by
  intro bytes inside
  rw [Data.size_eq, Code.size_eq, shaped.data, Config.maxStackTop] at small
  rw [shaped.data] at inside
  obtain ⟨own, member, listed⟩ := List.mem_flatMap.mp inside
  have code := instrsSize_nonneg image.code.items
  have within := (@itemsSize_le_flatMap (.ofProgram program layout) _ fun own member => by
    rw [itemsSize_dataBlock]
    exact (dataBlock_bounds distinct laid member).1).2 own member
  rw [itemsSize_dataBlock] at within
  have nonneg := (dataBlock_bounds distinct laid member).2 (by omega)
  have notWord : ∀ label words, .size bytes ∉ block label words := by simp [block]
  rw [DataBlock.items, List.mem_append] at listed
  rw [DataBlock.roomSize] at nonneg
  cases room : own.room with
  | none =>
    rw [room] at listed
    simp only [List.not_mem_nil, false_or] at listed
    exact absurd listed (notWord _ _)
  | some pair =>
    rw [room] at listed nonneg
    simp only [List.mem_cons, reduceCtorEq, Datum.size.injEq, List.not_mem_nil, or_false,
      false_or] at listed
    rcases listed with rfl | inWords
    · exact nonneg
    · exact absurd inWords (notWord _ _)

/-- An image can be loaded unless the configuration does not allow it. -/
theorem load_image_cases (distinct : program.Distinct) (plain : program.Obeys .plainNames)
    (laid : Layout.ofProgram program = .ok layout) (shaped : Shaped program layout main image)
    (services : program.Obeys (Rule.callsServices program)) (config : Config) :
    (∃ executable, Executable.load config image.code image.data = .ok executable ∧
        Loaded config image.code.items (image.data.map Located.item) executable) ∨
      Executable.load config image.code image.data = .error (.invalidStackTop config.stackTop) ∨
      ∃ size, Executable.load config image.code image.data =
        .error (.imageTooLarge size config.stackTop) :=
  load_cases config (nodup_imageLabels distinct plain laid shaped).1
    (namesIn_code distinct laid shaped services) (rooms_nonneg distinct laid shaped)

end Resolvable

end ScopeStack.Emission
