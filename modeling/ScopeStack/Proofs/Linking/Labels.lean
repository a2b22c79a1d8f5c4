import Mathlib.Data.List.Nodup
import ScopeStack.Proofs.Emission.Image
import ScopeStack.Proofs.Layout.Labels
import ScopeStack.Proofs.Linking.Loader

/-!
# The labels of an image

The code of a program binds the labels of its functions and three labels for
each branching statement; its data bind the labels of the global variables and
one for each constant. Labels of definitions have no colon, those of constants
start with one, and those of branches have one later. Therefore no label is
bound twice, and none is the name of a service: `nodup_imageLabels`.
-/

namespace ScopeStack.Emission

open Executable

/-- The labels that instructions bind. -/
def labelsIn (instrs : List Instr) : List String := instrs.filterMap Instr.label?

/-- No code has no labels. -/
@[simp] theorem labelsIn_nil : labelsIn [] = [] := rfl

/-- The labels in two pieces of code. -/
@[simp] theorem labelsIn_append (first second : List Instr) :
    labelsIn (first ++ second) = labelsIn first ++ labelsIn second := by
  simp [labelsIn]

/-- The label of a first instruction and those of the remaining ones. -/
theorem labelsIn_cons (instr : Instr) (rest : List Instr) :
    labelsIn (instr :: rest) = instr.label?.toList ++ labelsIn rest := by
  rw [labelsIn, List.filterMap_cons]
  cases instr.label? <;> rfl

/-- The labels that the code of functions binds. -/
def blockLabels (blocks : List CodeBlock) : List String :=
  labelsIn (blocks.flatMap CodeBlock.instrs)

/-- No blocks have no labels. -/
@[simp] theorem blockLabels_nil : blockLabels [] = [] := rfl

/-- The labels in two lists of blocks. -/
@[simp] theorem blockLabels_append (first second : List CodeBlock) :
    blockLabels (first ++ second) = blockLabels first ++ blockLabels second := by
  simp [blockLabels]

/-- The labels of a first block and those of the remaining ones. -/
theorem blockLabels_cons (own : CodeBlock) (rest : List CodeBlock) :
    blockLabels (own :: rest) = labelsIn own.instrs ++ blockLabels rest := by
  simp [blockLabels]

/-- The labels that a branching statement may bind. -/
def branchTags (naming : Naming) (id : NodeId) : List String :=
  ["then", "else", "end", "while", "do"].map (branchLabel · (naming.branch id))

/-- Following access links needs no labels. -/
theorem labelsIn_framePointer (hops : Nat) : labelsIn (framePointer hops) = [] := by
  rw [labelsIn, List.filterMap_eq_nil_iff]
  intro instr inside
  rcases List.mem_cons.mp inside with rfl | load
  · rfl
  · rw [List.eq_of_mem_replicate load]
    rfl

/-- The code of a variable sets no labels. -/
theorem labelsIn_variableInstrs (context : Context) (id : NodeId) :
    labelsIn (variableInstrs context id) = [] := by
  rw [variableInstrs]
  split
  · rfl
  · rfl
  · rw [labelsIn_append, labelsIn_framePointer]
    rfl

/-- The code before a call sets no labels. -/
theorem labelsIn_calleeInstrs (context : Context) (id : NodeId) :
    labelsIn (calleeInstrs context id) = [] := by
  rw [calleeInstrs]
  split
  · rfl
  · rw [callInstrs, labelsIn_append, labelsIn_framePointer]
    rfl

mutual

/-- The code of an expression binds no label. -/
theorem labelsIn_valueInstrs (context : Context) (naming : Naming) : (expr : Expr) →
    labelsIn (valueInstrs context naming expr) = []
  | .atom _ atom => by
    rw [valueInstrs, atomInstrs]
    split <;> rfl
  | .var id _ => by
    rw [valueInstrs, labelsIn_append, labelsIn_variableInstrs]
    rfl
  | .call id _ args => by
    rw [valueInstrs, labelsIn_append, labelsIn_argInstrs context naming args,
      labelsIn_calleeInstrs]
    rfl
  | .unary _ op operand => by
    have inside := labelsIn_valueInstrs context naming operand
    cases op with
    | addressOf =>
      rw [valueInstrs]
      exact labelsIn_variableInstrs context operand.id
    | plus =>
      rw [valueInstrs]
      exact inside
    | not | minus | valueAt =>
      rw [valueInstrs, labelsIn_append, inside]
      rfl
  | .binary _ _ first second => by
    rw [valueInstrs, labelsIn_append, labelsIn_append, labelsIn_valueInstrs context naming first,
      labelsIn_valueInstrs context naming second]
    rfl

/-- The code of arguments binds no label. -/
theorem labelsIn_argInstrs (context : Context) (naming : Naming) : (args : List Expr) →
    labelsIn (argInstrs context naming args) = []
  | [] => rfl
  | arg :: rest => by
    rw [argInstrs, labelsIn_append, labelsIn_argInstrs context naming rest,
      labelsIn_valueInstrs context naming arg]
    rfl

end

/-- The code of a place sets no labels. -/
theorem labelsIn_placeInstrs (context : Context) (naming : Naming) (expr : Expr) :
    labelsIn (placeInstrs context naming expr) = [] := by
  rw [placeInstrs.eq_def]
  split
  · exact labelsIn_valueInstrs context naming _
  · exact labelsIn_variableInstrs context _

/-- The code that initializes variables sets no labels. -/
theorem labelsIn_localsInstrs (context : Context) (naming : Naming) (defs : List Def) :
    labelsIn (localsInstrs context naming defs) = [] := by
  induction defs with
  | nil => rfl
  | cons definition rest hypothesis =>
    cases definition with
    | fn function => exact hypothesis
    | var declared =>
      rw [localsInstrs, labelsIn_append, hypothesis, localInstrs]
      split <;> rfl

mutual

/-- A statement and the functions in it bind their own labels only, each at
most once. -/
theorem count_labels_stmt (context : Context) (naming : Naming) (tail : Bool) (name : String) :
    (stmt : Stmt) →
    (labelsIn (stmtInstrs context naming tail stmt)).count name +
        (blockLabels (stmtBlocks context naming stmt)).count name ≤
      ((stmtBranches stmt).flatMap (branchTags naming)).count name +
        (context.layout.labelsOf stmt.functions).count name
  | .expr _ value => by
    rw [stmtInstrs, labelsIn_append, labelsIn_valueInstrs]
    cases tail <;> exact Nat.zero_le _
  | .assign _ target source => by
    rw [stmtInstrs, labelsIn_append, labelsIn_append, labelsIn_valueInstrs, labelsIn_placeInstrs]
    exact Nat.zero_le _
  | .cond id test yes no => by
    have atYes := count_labels_stmts context naming false name yes
    have atNo := count_labels_stmts context naming false name no
    simp only [stmtInstrs, labelsIn_append, labelsIn_valueInstrs, stmtBlocks, blockLabels_append,
      stmtBranches, List.flatMap_cons, List.flatMap_append, Stmt.functions,
      Layout.labelsOf_append, List.count_append, branchTags, labelsIn_cons, labelsIn_nil,
      Instr.label?, Option.toList, List.map_cons, List.map_nil, List.count_cons, List.count_nil]
    omega
  | .loop id test body => by
    have atBody := count_labels_stmts context naming false name body
    simp only [stmtInstrs, labelsIn_append, labelsIn_valueInstrs, stmtBlocks,
      stmtBranches, List.flatMap_cons, Stmt.functions, List.count_append, branchTags,
      labelsIn_cons, labelsIn_nil, Instr.label?, Option.toList, List.map_cons, List.map_nil,
      List.count_cons, List.count_nil]
    omega
  | .block _ defs body => by
    have atBody := count_labels_stmts context naming tail name body
    have atDefs := count_labels_defs context naming name defs
    simp only [stmtInstrs, labelsIn_append, labelsIn_localsInstrs, stmtBlocks, blockLabels_append,
      stmtBranches, List.flatMap_append, Stmt.functions, Layout.labelsOf_append,
      List.count_append, List.count_nil]
    omega

/-- Statements and the functions in them bind their own labels only. -/
theorem count_labels_stmts (context : Context) (naming : Naming) (tail : Bool) (name : String) :
    (stmts : List Stmt) →
    (labelsIn (stmtsInstrs context naming tail stmts)).count name +
        (blockLabels (stmtsBlocks context naming stmts)).count name ≤
      ((stmtsBranches stmts).flatMap (branchTags naming)).count name +
        (context.layout.labelsOf (functionsOfStmts stmts)).count name
  | [] => Nat.le_refl _
  | stmt :: rest => by
    have atStmt := count_labels_stmt context naming (tail && rest.isEmpty) name stmt
    have atRest := count_labels_stmts context naming tail name rest
    simp only [stmtsInstrs, labelsIn_append, stmtsBlocks, blockLabels_append, stmtsBranches,
      List.flatMap_append, functionsOfStmts, Layout.labelsOf_append, List.count_append]
    omega

/-- The functions among definitions bind their own labels only. -/
theorem count_labels_defs (context : Context) (naming : Naming) (name : String) :
    (defs : List Def) →
    (blockLabels (defsBlocks context naming defs)).count name ≤
      ((defsBranches defs).flatMap (branchTags naming)).count name +
        (context.layout.labelsOf (functionsOfDefs defs)).count name
  | [] => Nat.le_refl _
  | .fn ⟨id, own, params, body⟩ :: rest => by
    have atFunction := count_labels_function context naming name ⟨id, own, params, body⟩
    have atRest := count_labels_defs context naming name rest
    dsimp only at atFunction
    rw [functionsOfDefs, Layout.labelsOf_append, defsBlocks, blockLabels_append, defsBranches,
      List.flatMap_append, List.count_append, List.count_append, List.count_append]
    omega
  | .var _ :: rest => count_labels_defs context naming name rest

/-- A function and those in it bind their own labels only. -/
theorem count_labels_function (context : Context) (naming : Naming) (name : String) :
    (function : FunDef) →
    (blockLabels (functionBlocks context naming function)).count name ≤
      ((functionBranches function).flatMap (branchTags naming)).count name +
        (context.layout.labelsOf (function :: functionsOfStmts function.body)).count name
  | ⟨id, own, params, []⟩ => Nat.zero_le _
  | ⟨id, own, params, first :: rest⟩ => by
    have atBody := count_labels_stmts (context.enter (context.layout.frameOf id)) naming true name
      (first :: rest)
    have ownLabel : context.layout.labelsOf
        (⟨id, own, params, first :: rest⟩ :: functionsOfStmts (first :: rest)) =
          (context.layout.frameOf id).name ::
            context.layout.labelsOf (functionsOfStmts (first :: rest)) := rfl
    have ownCode : labelsIn (functionInstrs context naming (context.layout.frameOf id)
        (first :: rest)) = (context.layout.frameOf id).name ::
          labelsIn (stmtsInstrs (context.enter (context.layout.frameOf id)) naming true
            (first :: rest)) := by
      rw [functionInstrs, labelsIn_append, labelsIn_append, labelsIn_append]
      split <;> simp [labelsIn_cons, Instr.label?]
    rw [functionBlocks, blockLabels_cons, ownLabel, List.count_append, List.count_cons]
    change (labelsIn (functionInstrs context naming (context.layout.frameOf id)
      (first :: rest))).count name + _ ≤ _
    rw [ownCode, List.count_cons]
    change _ ≤ ((stmtsBranches (first :: rest)).flatMap (branchTags naming)).count name + _
    change _ ≤ _ + (context.layout.labelsOf (functionsOfStmts (first :: rest))).count name at atBody
    omega

end

/-- The labels that the data of nodes bind. -/
def dataLabelsIn (naming : Naming) (blocks : List DataBlock) : List String :=
  (blocks.flatMap (DataBlock.items naming)).filterMap Datum.label?

/-- A block of words has one label. -/
theorem filterMap_label_block (label : String) (words : List Int) :
    (block label words).filterMap Datum.label? = [label] := by
  rw [block, List.filterMap_cons]
  dsimp only [Datum.label?]
  rw [List.filterMap_map, List.cons.injEq]
  exact ⟨rfl, List.filterMap_eq_nil_iff.mpr fun _ _ => rfl⟩

/-- Each block of data binds its constant label, and that of its room. -/
theorem count_dataLabelsIn (naming : Naming) (blocks : List DataBlock) (name : String) :
    (dataLabelsIn naming blocks).count name =
      (blocks.map fun own => naming.constantLabel own.id).count name +
        (blocks.filterMap fun own => own.room.map Prod.fst).count name := by
  induction blocks with
  | nil => rfl
  | cons own rest hypothesis =>
    rw [dataLabelsIn] at hypothesis ⊢
    rw [List.flatMap_cons, List.filterMap_append, List.count_append, hypothesis, List.map_cons,
      List.filterMap_cons, List.count_cons, DataBlock.items, List.filterMap_append,
      filterMap_label_block, List.count_append, List.count_singleton]
    cases own.room with
    | none =>
      simp only [Option.map_none, List.filterMap_nil, List.count_nil]
      omega
    | some room =>
      obtain ⟨label, size⟩ := room
      simp only [Option.map_some, List.filterMap_cons, Datum.label?, List.filterMap_nil,
        List.count_cons, List.count_nil]
      omega

mutual

/-- The data of expressions have no room. -/
theorem room_valueData {own : DataBlock} : (expr : Expr) → own ∈ valueData expr → own.room = none
  | .atom _ atom, inside => by
    rw [valueData] at inside
    split at inside
    · rw [List.mem_singleton.mp inside]
    · cases inside
  | .var _ _, inside => nomatch inside
  | .call _ _ args, inside => room_argData args inside
  | .unary _ op operand, inside => by
    cases op with
    | addressOf => cases inside
    | not | plus | minus | valueAt => exact room_valueData operand inside
  | .binary _ _ first second, inside => by
    rcases List.mem_append.mp inside with inFirst | inSecond
    · exact room_valueData first inFirst
    · exact room_valueData second inSecond

/-- The data of arguments have no room. -/
theorem room_argData {own : DataBlock} : (args : List Expr) → own ∈ argData args → own.room = none
  | [], inside => nomatch inside
  | arg :: rest, inside => by
    rcases List.mem_append.mp inside with inRest | inArg
    · exact room_argData rest inRest
    · exact room_valueData arg inArg

end

/-- The constants in a place have no room of their own. -/
theorem room_placeData {own : DataBlock} {expr : Expr} (inside : own ∈ placeData expr) :
    own.room = none := by
  rw [placeData.eq_def] at inside
  split at inside
  · exact room_valueData _ inside
  · cases inside

/-- The initial words of local variables have no room of their own. -/
theorem room_localsData {layout : Layout} {own : DataBlock} {defs : List Def}
    (inside : own ∈ localsData layout defs) : own.room = none := by
  induction defs with
  | nil => cases inside
  | cons definition rest hypothesis =>
    cases definition with
    | fn function => exact hypothesis inside
    | var declared =>
      rcases List.mem_cons.mp inside with rfl | later
      · rfl
      · exact hypothesis later

mutual

/-- The data of statements have no room. -/
theorem room_stmtData {layout : Layout} {own : DataBlock} : (stmt : Stmt) →
    own ∈ stmtData layout stmt → own.room = none
  | .expr _ value, inside => room_valueData value inside
  | .assign _ target source, inside => by
    rcases List.mem_append.mp inside with inSource | inTarget
    · exact room_valueData source inSource
    · exact room_placeData inTarget
  | .cond _ test yes no, inside => by
    rcases List.mem_append.mp inside with inFront | inNo
    · rcases List.mem_append.mp inFront with inTest | inYes
      · exact room_valueData test inTest
      · exact room_stmtsData yes inYes
    · exact room_stmtsData no inNo
  | .loop _ test body, inside => by
    rcases List.mem_append.mp inside with inTest | inBody
    · exact room_valueData test inTest
    · exact room_stmtsData body inBody
  | .block _ defs body, inside => by
    rcases List.mem_append.mp inside with inFront | inDefs
    · rcases List.mem_append.mp inFront with inLocals | inBody
      · exact room_localsData inLocals
      · exact room_stmtsData body inBody
    · exact room_defsData defs inDefs

/-- The data of lists of statements have no room. -/
theorem room_stmtsData {layout : Layout} {own : DataBlock} : (stmts : List Stmt) →
    own ∈ stmtsData layout stmts → own.room = none
  | [], inside => nomatch inside
  | stmt :: rest, inside => by
    rcases List.mem_append.mp inside with inStmt | inRest
    · exact room_stmtData stmt inStmt
    · exact room_stmtsData rest inRest

/-- The data of the functions among definitions have no room. -/
theorem room_defsData {layout : Layout} {own : DataBlock} : (defs : List Def) →
    own ∈ defsData layout defs → own.room = none
  | [], inside => nomatch inside
  | .fn function :: rest, inside => by
    rcases List.mem_append.mp inside with inFunction | inRest
    · exact room_functionData function inFunction
    · exact room_defsData rest inRest
  | .var _ :: rest, inside => room_defsData rest inside

/-- The data of functions have no room. -/
theorem room_functionData {layout : Layout} {own : DataBlock} : (function : FunDef) →
    own ∈ functionData layout function → own.room = none
  | ⟨_, _, _, body⟩, inside => room_stmtsData body inside

end

/-- The rooms of a program are those of its global variables. -/
theorem rooms_topData (layout : Layout) (defs : List Def) :
    ((topData layout defs).filterMap fun own => own.room.map Prod.fst) =
      layout.globalLabels defs := by
  induction defs with
  | nil => rfl
  | cons definition rest hypothesis =>
    cases definition with
    | fn function =>
      have nothing : ((functionData layout function).filterMap fun own =>
          own.room.map Prod.fst) = [] :=
        List.filterMap_eq_nil_iff.mpr fun own inside => by
          rw [room_functionData function inside]
          rfl
      rw [topData, List.filterMap_append, nothing, hypothesis]
      rfl
    | var declared =>
      have unfolded : variablesIn (.var declared :: rest) = declared :: variablesIn rest := rfl
      rw [Layout.globalLabels] at hypothesis ⊢
      rw [topData, List.filterMap_cons, hypothesis, unfolded, List.filterMap_cons, globalData]
      cases layout.accesses[declared.id]? with
      | none => rfl
      | some access => cases access <;> rfl

/-- A label with a colon determines what stands before and after the first
colon. -/
theorem append_colon_injective {first second : String} {number other : Nat} (plain : Plain first)
    (same : first ++ ":" ++ toString number = second ++ ":" ++ toString other) :
    first = second ∧ number = other := by
  have lists := congrArg String.toList same
  rw [String.toList_append, String.toList_append, String.toList_append, String.toList_append,
    List.append_assoc, List.append_assoc] at lists
  have parts := (List.append_cons_inj_of_notMem plain (plain_toString number)).mp lists
  exact ⟨String.toList_inj.mp parts.1, Nat.repr_injective (String.toList_inj.mp parts.2.2)⟩

/-- The kinds of branch targets are plain and not empty. -/
theorem exists_kind_of_mem_branchTags {naming : Naming} {id : NodeId} {label : String}
    (inside : label ∈ branchTags naming id) :
    ∃ kind, Plain kind ∧ kind ≠ "" ∧ label = kind ++ ":" ++ toString (naming.branch id) := by
  obtain ⟨kind, member, rfl⟩ := List.mem_map.mp inside
  have shape : ∀ kind ∈ ["then", "else", "end", "while", "do"], Plain kind ∧ kind ≠ "" := by decide
  exact ⟨kind, (shape kind member).1, (shape kind member).2, rfl⟩

/-- Branch labels have a colon. -/
theorem not_plain_of_mem_branchTags {naming : Naming} {id : NodeId} {label : String}
    (inside : label ∈ branchTags naming id) : ¬Plain label := by
  obtain ⟨kind, -, -, rfl⟩ := exists_kind_of_mem_branchTags inside
  intro plain
  have colon := (plain_append.mp (plain_append.mp plain).1).2
  exact absurd colon (by decide)

/-- Constant labels have a colon. -/
theorem not_plain_constantLabel (naming : Naming) (id : NodeId) :
    ¬Plain (naming.constantLabel id) := by
  intro plain
  exact absurd (plain_append.mp plain).1 (by decide)

/-- A constant label is no branch label. -/
theorem constantLabel_not_mem_branchTags (naming : Naming) (id branch : NodeId) :
    naming.constantLabel id ∉ branchTags naming branch := by
  intro inside
  obtain ⟨kind, -, nonempty, same⟩ := exists_kind_of_mem_branchTags inside
  have empty : Plain "" := by decide
  have start : naming.constantLabel id = "" ++ ":" ++ toString (naming.constant id) := rfl
  exact nonempty (append_colon_injective empty (start.symm.trans same)).1.symm

/-- The labels of a branching statement are different. -/
theorem nodup_branchTags (naming : Naming) (id : NodeId) : (branchTags naming id).Nodup := by
  have kinds : ∀ kind ∈ ["then", "else", "end", "while", "do"], Plain kind := by decide
  refine List.Nodup.map_on ?_ (by decide)
  intro first inFirst second _ same
  exact (append_colon_injective (kinds first inFirst) same).1

/-- Statements with different numbers have different branch labels. -/
theorem nodup_branches {naming : Naming} {branches : List NodeId} (distinct : branches.Nodup)
    (injective : ∀ first ∈ branches, ∀ second ∈ branches,
      naming.branch first = naming.branch second → first = second) :
    (branches.flatMap (branchTags naming)).Nodup := by
  rw [List.nodup_flatMap]
  refine ⟨fun id _ => nodup_branchTags naming id, ?_⟩
  refine distinct.imp_of_mem ?_
  intro first second inFirst inSecond different label atFirst atSecond
  obtain ⟨kind, plain, -, shape⟩ := exists_kind_of_mem_branchTags atFirst
  obtain ⟨other, -, -, otherShape⟩ := exists_kind_of_mem_branchTags atSecond
  have same := (append_colon_injective plain (shape.symm.trans otherShape)).2
  exact different (injective first inFirst second inSecond same)

/-- Blocks with different numbers have different constant labels. -/
theorem nodup_constants {naming : Naming} {ids : List NodeId} (distinct : ids.Nodup)
    (injective : ∀ first ∈ ids, ∀ second ∈ ids,
      naming.constant first = naming.constant second → first = second) :
    (ids.map naming.constantLabel).Nodup := by
  refine List.Nodup.map_on ?_ distinct
  intro first inFirst second inSecond same
  exact injective first inFirst second inSecond
    (Nat.repr_injective ((String.append_right_inj ":").mp same))

/-- The code at address zero binds no label. -/
theorem labelsIn_startInstrs (context : Context) (naming : Naming) (main : FunDef) :
    labelsIn (startInstrs context naming main) = [] := by
  have globals (declared : List VarDef) :
      labelsIn (declared.flatMap (globalInstrs context.layout naming)) = [] := by
    induction declared with
    | nil => rfl
    | cons first rest hypothesis =>
      rw [List.flatMap_cons, labelsIn_append, hypothesis, globalInstrs]
      split <;> rfl
  rw [startInstrs, labelsIn_append, globals]
  rfl

/-- The labels that an image binds. -/
def imageLabels (image : Image) : List String :=
  boundLabels image.code.items (image.data.map Located.item)

/-- The labels of an image, counted by what they stand for. -/
theorem count_imageLabels {program : Program} {layout : Layout} {main : FunDef} {image : Image}
    (shaped : Shaped program layout main image) (name : String) :
    (imageLabels image).count name ≤
      ((defsBranches program.defs).flatMap (branchTags (.ofProgram program layout))).count name +
        (((topData layout program.defs).map DataBlock.id).map
          (Naming.ofProgram program layout).constantLabel).count name +
        (layout.labelsOf program.functions ++ layout.globalLabels program.defs).count name := by
  have code := count_labels_defs (.ofProgram program layout) (.ofProgram program layout) name
    program.defs
  have data := count_dataLabelsIn (.ofProgram program layout) (topData layout program.defs) name
  rw [imageLabels, boundLabels, shaped.code, shaped.data, List.count_append]
  change (labelsIn (_ ++ _)).count name + (dataLabelsIn _ _).count name ≤ _
  rw [labelsIn_append, labelsIn_startInstrs, data, rooms_topData, List.nil_append,
    List.count_append, List.map_map]
  change (blockLabels (defsBlocks _ _ _)).count name + _ ≤ _
  change _ ≤ _ + (layout.labelsOf program.functions).count name at code
  simp only [Function.comp_def]
  omega

/-- No label of an image is bound twice, and none is the name of a service. -/
theorem nodup_imageLabels {program : Program} {layout : Layout} {main : FunDef} {image : Image}
    (distinct : program.Distinct) (plain : program.Obeys .plainNames)
    (laid : Layout.ofProgram program = .ok layout) (shaped : Shaped program layout main image) :
    (imageLabels image).Nodup ∧
      ∀ label ∈ imageLabels image, label ∉ Service.all.map Service.name := by
  obtain ⟨distinctOwn, ownShape⟩ := Layout.labels_of_ofProgram distinct plain laid
  have distinctBranches : (defsBranches program.defs).Nodup :=
    nodup_of_count_le distinct fun id => count_defsBranches id program.defs
  have distinctData : ((topData layout program.defs).map DataBlock.id).Nodup :=
    nodup_of_count_le distinct fun id => count_topData layout id program.defs
  have branches : ((defsBranches program.defs).flatMap
      (branchTags (.ofProgram program layout))).Nodup :=
    nodup_branches distinctBranches fun _ inFirst _ _ same => (List.idxOf_inj inFirst).mp same
  have constants : (((topData layout program.defs).map DataBlock.id).map
      (Naming.ofProgram program layout).constantLabel).Nodup :=
    nodup_constants distinctData fun _ inFirst _ _ same => (List.idxOf_inj inFirst).mp same
  have notBranch : ∀ name, Plain name → name ∉
      (defsBranches program.defs).flatMap (branchTags (.ofProgram program layout)) := by
    intro name isPlain inside
    obtain ⟨id, -, tagged⟩ := List.mem_flatMap.mp inside
    exact not_plain_of_mem_branchTags tagged isPlain
  have notConstant : ∀ name, Plain name → name ∉
      ((topData layout program.defs).map DataBlock.id).map
        (Naming.ofProgram program layout).constantLabel := by
    intro name isPlain inside
    obtain ⟨id, -, rfl⟩ := List.mem_map.mp inside
    exact not_plain_constantLabel _ id isPlain
  constructor
  · rw [List.nodup_iff_count]
    intro name
    have bound := count_imageLabels shaped name
    by_cases own : name ∈ layout.labelsOf program.functions ++ layout.globalLabels program.defs
    · have isPlain := (ownShape name own).1
      have once := List.nodup_iff_count.mp distinctOwn name
      have noBranch := List.count_eq_zero.mpr (notBranch name isPlain)
      have noConstant := List.count_eq_zero.mpr (notConstant name isPlain)
      omega
    · have noOwn := List.count_eq_zero.mpr own
      by_cases constant : name ∈ ((topData layout program.defs).map DataBlock.id).map
          (Naming.ofProgram program layout).constantLabel
      · have once := List.nodup_iff_count.mp constants name
        have noBranch : ((defsBranches program.defs).flatMap
            (branchTags (.ofProgram program layout))).count name = 0 := by
          refine List.count_eq_zero.mpr fun inside => ?_
          obtain ⟨id, -, rfl⟩ := List.mem_map.mp constant
          obtain ⟨branch, -, tagged⟩ := List.mem_flatMap.mp inside
          exact constantLabel_not_mem_branchTags _ id branch tagged
        omega
      · have noConstant := List.count_eq_zero.mpr constant
        have once := List.nodup_iff_count.mp branches name
        omega
  · intro name inside service
    have present := List.count_pos_iff.mpr inside
    have bound := count_imageLabels shaped name
    -- The names of services have no colon, so the label would be that of a definition.
    have isPlain : Plain name := Layout.sound_serviceLabels.plain name service
    have noBranch := List.count_eq_zero.mpr (notBranch name isPlain)
    have noConstant := List.count_eq_zero.mpr (notConstant name isPlain)
    exact (ownShape name (List.count_pos_iff.mp (by omega))).2 service

end ScopeStack.Emission
