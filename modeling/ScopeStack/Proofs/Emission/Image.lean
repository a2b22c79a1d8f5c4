import ScopeStack.Proofs.Emission.Statements

/-!
# Images in closed form

If a program whose numbers are distinct is compiled, its image is the closed
form of its code and data under the naming of the program: `Shaped` says so,
and `shaped_of_ofProgram` proves it. Everything about images is derived from
this description, and none of it looks at emission again.
-/

namespace ScopeStack.Emission

open Stateful

mutual

/-- The data of an expression belong to its numbers. -/
theorem count_valueData (id : NodeId) : (expr : Expr) →
    ((valueData expr).map DataBlock.id).count id ≤ expr.ids.count id
  | .atom own atom => by
    rw [valueData]
    split
    · exact Nat.le_refl _
    · exact Nat.zero_le _
  | .var _ _ => Nat.zero_le _
  | .call own name args => by
    have inside := count_argData id args
    rw [valueData, Expr.ids, List.count_cons]
    omega
  | .unary own op operand => by
    have inside := count_valueData id operand
    rw [Expr.ids, List.count_cons]
    cases op <;> simp only [valueData, List.map_nil, List.count_nil] <;> omega
  | .binary own op first second => by
    have atFirst := count_valueData id first
    have atSecond := count_valueData id second
    rw [valueData, Expr.ids, List.map_append, List.count_append, List.count_cons,
      List.count_append]
    omega

/-- The data of arguments belong to their numbers. -/
theorem count_argData (id : NodeId) : (args : List Expr) →
    ((argData args).map DataBlock.id).count id ≤ (idsOfExprs args).count id
  | [] => Nat.le_refl _
  | arg :: rest => by
    have atArg := count_valueData id arg
    have atRest := count_argData id rest
    rw [argData, idsOfExprs, List.map_append, List.count_append, List.count_append]
    omega

end

/-- The data of a place belong to its numbers. -/
theorem count_placeData (id : NodeId) (expr : Expr) :
    ((placeData expr).map DataBlock.id).count id ≤ expr.ids.count id := by
  rw [placeData.eq_def]
  split
  · next own pointer =>
    have inside := count_valueData id pointer
    rw [Expr.ids, List.count_cons]
    omega
  · exact Nat.zero_le _

/-- The initial words of the variables of a block belong to their numbers. -/
theorem map_id_localsData (layout : Layout) (defs : List Def) :
    (localsData layout defs).map DataBlock.id = (variablesIn defs).map VarDef.id := by
  induction defs with
  | nil => rfl
  | cons definition rest hypothesis =>
    cases definition with
    | fn function => exact hypothesis
    | var declared =>
      rw [localsData, List.map_cons, hypothesis]
      rfl

mutual

/-- The data of a statement belong to its numbers. -/
theorem count_stmtData (layout : Layout) (id : NodeId) : (stmt : Stmt) →
    ((stmtData layout stmt).map DataBlock.id).count id ≤ stmt.ids.count id
  | .expr own value => by
    have inside := count_valueData id value
    rw [stmtData, Stmt.ids, List.count_cons]
    omega
  | .assign own target source => by
    have atTarget := count_placeData id target
    have atSource := count_valueData id source
    rw [stmtData, Stmt.ids, List.map_append, List.count_append, List.count_cons,
      List.count_append]
    omega
  | .cond own test yes no => by
    have atTest := count_valueData id test
    have atYes := count_stmtsData layout id yes
    have atNo := count_stmtsData layout id no
    simp only [stmtData, Stmt.ids, List.map_append, List.count_append, List.count_cons]
    omega
  | .loop own test body => by
    have atTest := count_valueData id test
    have atBody := count_stmtsData layout id body
    simp only [stmtData, Stmt.ids, List.map_append, List.count_append, List.count_cons]
    omega
  | .block own defs body => by
    have atBody := count_stmtsData layout id body
    have atDefs := count_defsData layout id defs
    have split := count_idsOfDefs defs id
    simp only [stmtData, Stmt.ids, List.map_append, map_id_localsData, List.count_append,
      List.count_cons]
    omega

/-- The data of statements belong to their numbers. -/
theorem count_stmtsData (layout : Layout) (id : NodeId) : (stmts : List Stmt) →
    ((stmtsData layout stmts).map DataBlock.id).count id ≤ (idsOfStmts stmts).count id
  | [] => Nat.le_refl _
  | stmt :: rest => by
    have atStmt := count_stmtData layout id stmt
    have atRest := count_stmtsData layout id rest
    rw [stmtsData, idsOfStmts, List.map_append, List.count_append, List.count_append]
    omega

/-- The data of the functions among definitions belong to their numbers. -/
theorem count_defsData (layout : Layout) (id : NodeId) : (defs : List Def) →
    ((defsData layout defs).map DataBlock.id).count id ≤
      ((functionsIn defs).flatMap FunDef.ids).count id
  | [] => Nat.le_refl _
  | .fn function :: rest => by
    have atFunction := count_functionData layout id function
    have atRest := count_defsData layout id rest
    change _ ≤ (function.ids ++ (functionsIn rest).flatMap FunDef.ids).count id
    rw [defsData, List.map_append, List.count_append, List.count_append]
    omega
  | .var declared :: rest => count_defsData layout id rest

/-- The data of a function belong to its numbers. -/
theorem count_functionData (layout : Layout) (id : NodeId) : (function : FunDef) →
    ((functionData layout function).map DataBlock.id).count id ≤ function.ids.count id
  | ⟨own, name, params, body⟩ => by
    have atBody := count_stmtsData layout id body
    rw [functionData, FunDef.ids, List.count_cons, List.count_append]
    omega

end

/-- The data of a global variable belong to its number. -/
theorem id_globalData (layout : Layout) (declared : VarDef) :
    (globalData layout declared).id = declared.id := by
  rw [globalData]
  split <;> rfl

/-- The data of a program belong to its numbers. -/
theorem count_topData (layout : Layout) (id : NodeId) (defs : List Def) :
    ((topData layout defs).map DataBlock.id).count id ≤ (idsOfDefs defs).count id := by
  induction defs with
  | nil => exact Nat.le_refl _
  | cons definition rest hypothesis =>
    cases definition with
    | fn function =>
      have atFunction := count_functionData layout id function
      rw [topData, idsOfDefs, List.map_append, List.count_append, List.count_append]
      omega
    | var declared =>
      rw [topData, idsOfDefs, List.map_cons, id_globalData, List.count_cons, List.count_cons]
      omega

mutual

/-- Branching statements are among the numbers of a statement. -/
theorem count_stmtBranches (id : NodeId) : (stmt : Stmt) →
    (stmtBranches stmt).count id ≤ stmt.ids.count id
  | .expr _ _ => Nat.zero_le _
  | .assign _ _ _ => Nat.zero_le _
  | .cond own test yes no => by
    have atYes := count_stmtsBranches id yes
    have atNo := count_stmtsBranches id no
    simp only [stmtBranches, Stmt.ids, List.count_append, List.count_cons]
    omega
  | .loop own test body => by
    have atBody := count_stmtsBranches id body
    simp only [stmtBranches, Stmt.ids, List.count_append, List.count_cons]
    omega
  | .block own defs body => by
    have atBody := count_stmtsBranches id body
    have atDefs := count_defsBranches id defs
    simp only [stmtBranches, Stmt.ids, List.count_append, List.count_cons]
    omega

/-- Branching statements are among the numbers of statements. -/
theorem count_stmtsBranches (id : NodeId) : (stmts : List Stmt) →
    (stmtsBranches stmts).count id ≤ (idsOfStmts stmts).count id
  | [] => Nat.le_refl _
  | stmt :: rest => by
    have atStmt := count_stmtBranches id stmt
    have atRest := count_stmtsBranches id rest
    rw [stmtsBranches, idsOfStmts, List.count_append, List.count_append]
    omega

/-- Branching statements are among the numbers of definitions. -/
theorem count_defsBranches (id : NodeId) : (defs : List Def) →
    (defsBranches defs).count id ≤ (idsOfDefs defs).count id
  | [] => Nat.le_refl _
  | .fn function :: rest => by
    have atFunction := count_functionBranches id function
    have atRest := count_defsBranches id rest
    rw [defsBranches, idsOfDefs, List.count_append, List.count_append]
    omega
  | .var declared :: rest => by
    have atRest := count_defsBranches id rest
    rw [defsBranches, idsOfDefs, List.count_cons]
    omega

/-- Branching statements are among the numbers of a function. -/
theorem count_functionBranches (id : NodeId) : (function : FunDef) →
    (functionBranches function).count id ≤ function.ids.count id
  | ⟨own, name, params, body⟩ => by
    have atBody := count_stmtsBranches id body
    rw [functionBranches, FunDef.ids, List.count_cons, List.count_append]
    omega

end

mutual

/-- The functions of a statement have code in their order. -/
theorem map_id_stmtBlocks (context : Context) (naming : Naming) : (stmt : Stmt) →
    (stmtBlocks context naming stmt).map CodeBlock.id = stmt.functions.map FunDef.id
  | .expr _ _ => rfl
  | .assign _ _ _ => rfl
  | .cond _ _ yes no => by
    rw [stmtBlocks, Stmt.functions, List.map_append, List.map_append,
      map_id_stmtsBlocks context naming yes, map_id_stmtsBlocks context naming no]
  | .loop _ _ body => map_id_stmtsBlocks context naming body
  | .block _ defs body => by
    rw [stmtBlocks, Stmt.functions, List.map_append, List.map_append,
      map_id_stmtsBlocks context naming body, map_id_defsBlocks context naming defs]

/-- The functions of statements have code in their order. -/
theorem map_id_stmtsBlocks (context : Context) (naming : Naming) : (stmts : List Stmt) →
    (stmtsBlocks context naming stmts).map CodeBlock.id =
      (functionsOfStmts stmts).map FunDef.id
  | [] => rfl
  | stmt :: rest => by
    rw [stmtsBlocks, functionsOfStmts, List.map_append, List.map_append,
      map_id_stmtBlocks context naming stmt, map_id_stmtsBlocks context naming rest]

/-- The functions of definitions have code in their order. -/
theorem map_id_defsBlocks (context : Context) (naming : Naming) : (defs : List Def) →
    (defsBlocks context naming defs).map CodeBlock.id = (functionsOfDefs defs).map FunDef.id
  | [] => rfl
  | .fn ⟨id, name, params, body⟩ :: rest => by
    rw [defsBlocks, functionBlocks, functionsOfDefs, List.map_append,
      map_id_defsBlocks context naming rest, List.map_cons,
      map_id_stmtsBlocks (context.enter (context.layout.frameOf id)) naming body]
    simp
  | .var _ :: rest => map_id_defsBlocks context naming rest

end

/-- The functions of a program have code among that of all definitions. -/
theorem mem_topBlocks_of_mem_defsBlocks {context : Context} {naming : Naming} {own : CodeBlock}
    {defs : List Def} (inside : own ∈ defsBlocks context naming defs) :
    own ∈ topBlocks context naming defs := by
  induction defs with
  | nil => exact inside
  | cons definition rest hypothesis =>
    cases definition with
    | fn function =>
      rcases List.mem_append.mp inside with first | later
      · exact List.mem_append_left _ first
      · exact List.mem_append_right _ (hypothesis later)
    | var declared => exact List.mem_cons_of_mem _ (hypothesis inside)

/-- The global variables have code among that of all definitions. -/
theorem mem_topBlocks_of_mem_variablesIn {context : Context} {naming : Naming} {declared : VarDef}
    {defs : List Def} (inside : declared ∈ variablesIn defs) :
    ⟨declared.id, globalInstrs context.layout naming declared⟩ ∈ topBlocks context naming defs := by
  induction defs with
  | nil => cases inside
  | cons definition rest hypothesis =>
    cases definition with
    | fn function => exact List.mem_append_right _ (hypothesis inside)
    | var first =>
      rcases List.mem_cons.mp inside with rfl | later
      · exact List.mem_cons_self
      · exact List.mem_cons_of_mem _ (hypothesis later)

/-- The data of functions are among those of all definitions. -/
theorem mem_topData_of_mem_defsData {layout : Layout} {own : DataBlock} {defs : List Def}
    (inside : own ∈ defsData layout defs) : own ∈ topData layout defs := by
  induction defs with
  | nil => exact inside
  | cons definition rest hypothesis =>
    cases definition with
    | fn function =>
      rcases List.mem_append.mp inside with first | later
      · exact List.mem_append_left _ first
      · exact List.mem_append_right _ (hypothesis later)
    | var declared => exact List.mem_cons_of_mem _ (hypothesis inside)

/-- The data of a function are among those of the definitions that it stands among. -/
theorem mem_defsData_of_mem_functionsIn {layout : Layout} {own : DataBlock} {defs : List Def}
    {function : FunDef} (inside : function ∈ functionsIn defs)
    (member : own ∈ functionData layout function) : own ∈ defsData layout defs := by
  rw [mem_functionsIn] at inside
  induction defs with
  | nil => cases inside
  | cons definition rest hypothesis =>
    cases definition with
    | fn first =>
      rcases List.mem_cons.mp inside with same | later
      · cases same
        exact List.mem_append_left _ member
      · exact List.mem_append_right _ (hypothesis later)
    | var declared =>
      rcases List.mem_cons.mp inside with same | later
      · cases same
      · exact hypothesis later

/-- The initial words of a variable are among those of all variables of its block. -/
theorem mem_localsData {layout : Layout} {declared : VarDef} {defs : List Def}
    (inside : declared ∈ variablesIn defs) :
    ⟨declared.id, none, ((layout.accesses[declared.id]?).bind Access.inits?).getD []⟩ ∈
      localsData layout defs := by
  induction defs with
  | nil => cases inside
  | cons definition rest hypothesis =>
    cases definition with
    | fn function => exact hypothesis inside
    | var first =>
      rcases List.mem_cons.mp inside with rfl | later
      · exact List.mem_cons_self
      · exact List.mem_cons_of_mem _ (hypothesis later)

/-- The data of global variables are among those of all definitions. -/
theorem globalData_mem_topData {layout : Layout} {declared : VarDef} {defs : List Def}
    (inside : declared ∈ variablesIn defs) : globalData layout declared ∈ topData layout defs := by
  induction defs with
  | nil => cases inside
  | cons definition rest hypothesis =>
    cases definition with
    | fn function => exact List.mem_append_right _ (hypothesis inside)
    | var first =>
      rcases List.mem_cons.mp inside with rfl | later
      · exact List.mem_cons_self
      · exact List.mem_cons_of_mem _ (hypothesis later)

/-- Each block of data belongs to a function or to a global variable. -/
theorem mem_topData_cases {layout : Layout} {own : DataBlock} {defs : List Def}
    (inside : own ∈ topData layout defs) :
    own ∈ defsData layout defs ∨
      ∃ declared ∈ variablesIn defs, own = globalData layout declared := by
  induction defs with
  | nil => cases inside
  | cons definition rest hypothesis =>
    cases definition with
    | fn function =>
      rcases List.mem_append.mp inside with first | later
      · exact .inl (List.mem_append_left _ first)
      · rcases hypothesis later with inRest | ⟨declared, member, same⟩
        · exact .inl (List.mem_append_right _ inRest)
        · exact .inr ⟨declared, member, same⟩
    | var declared =>
      rcases List.mem_cons.mp inside with rfl | later
      · exact .inr ⟨declared, List.mem_cons_self, rfl⟩
      · rcases hypothesis later with inRest | ⟨other, member, same⟩
        · exact .inl inRest
        · exact .inr ⟨other, List.mem_cons_of_mem _ member, same⟩

/-- The context of the top level. -/
def Context.ofProgram (program : Program) (layout : Layout) : Context := ⟨program, layout, []⟩

/-- The code of the functions of a program. -/
def programBlocks (program : Program) (layout : Layout) : List CodeBlock :=
  defsBlocks (.ofProgram program layout) (.ofProgram program layout) program.defs

/-- An image is the closed form of a program that starts in a given
function. -/
structure Shaped (program : Program) (layout : Layout) (main : FunDef) (image : Image) : Prop where
  entry : program.entry? = some main
  code : image.code.items =
    startInstrs (.ofProgram program layout) (.ofProgram program layout) main ++
      (programBlocks program layout).flatMap CodeBlock.instrs
  data : image.data.map Located.item =
    (topData layout program.defs).flatMap (DataBlock.items (.ofProgram program layout))
  nodeCode : ∀ own ∈ programBlocks program layout,
    Code.items ((image.nodeCode[own.id]?).getD []) = own.instrs
  nodeData : ∀ own ∈ topData layout program.defs,
    ((image.nodeData[own.id]?).getD []).map Located.item = own.items (.ofProgram program layout)

/-- The names of a program go on from the empty state. -/
theorem continues_ofProgram {program : Program} (layout : Layout) (distinct : program.Distinct) :
    (Naming.ofProgram program layout).Continues .empty
      (.ofTop (.ofProgram program layout) program.defs) := by
  constructor
  · exact numbered_idxOf (nodup_of_count_le distinct fun id => count_topData layout id program.defs)
  · exact numbered_idxOf (nodup_of_count_le distinct fun id => count_defsBranches id program.defs)

/-- The code of functions, put together from a table that holds it. -/
theorem items_functionCode {table : Table Code} {functions : List FunDef}
    {blocks : List CodeBlock} (order : blocks.map CodeBlock.id = functions.map FunDef.id)
    (held : ∀ own ∈ blocks, Code.items ((table[own.id]?).getD []) = own.instrs) :
    Code.items (functionCode table functions) = blocks.flatMap CodeBlock.instrs := by
  induction blocks generalizing functions with
  | nil =>
    obtain rfl := List.map_eq_nil_iff.mp order.symm
    rfl
  | cons own rest hypothesis =>
    cases functions with
    | nil => cases order
    | cons function later =>
      rw [List.map_cons, List.map_cons, List.cons.injEq] at order
      have remaining := hypothesis order.2 fun other inside =>
        held other (List.mem_cons_of_mem _ inside)
      rw [functionCode] at remaining ⊢
      rw [List.flatMap_cons, Code.items_append, remaining, ← order.1,
        held own List.mem_cons_self, List.flatMap_cons]

/-- The code of the global variables, put together from a table that holds
it. -/
theorem items_globalCode {table : Table Code} {layout : Layout} {naming : Naming}
    {defs : List Def}
    (held : ∀ declared ∈ variablesIn defs,
      Code.items ((table[declared.id]?).getD []) = globalInstrs layout naming declared) :
    Code.items (globalCode table defs) = (variablesIn defs).flatMap (globalInstrs layout naming) := by
  induction defs with
  | nil => rfl
  | cons definition rest hypothesis =>
    cases definition with
    | fn function => exact hypothesis held
    | var declared =>
      have remaining := hypothesis fun other inside => held other (List.mem_cons_of_mem _ inside)
      rw [globalCode, Code.items_append, remaining, held declared List.mem_cons_self]
      rfl

/-- The data of nodes, put together from a table that holds them. -/
theorem items_orderedData {table : Table Data} {naming : Naming} {blocks : List DataBlock}
    (held : ∀ own ∈ blocks, ((table[own.id]?).getD []).map Located.item = own.items naming) :
    (orderedData table (blocks.map DataBlock.id)).map Located.item =
      blocks.flatMap (DataBlock.items naming) := by
  induction blocks with
  | nil => rfl
  | cons own rest hypothesis =>
    have remaining := hypothesis fun other inside => held other (List.mem_cons_of_mem _ inside)
    rw [orderedData] at remaining ⊢
    rw [List.map_cons, List.flatMap_cons, List.map_append, remaining, held own List.mem_cons_self,
      List.flatMap_cons]

/-- Assembling an image runs through the top level and puts the code and the
data together. -/
theorem ofProgram_eq_ok {program : Program} {layout : Layout} {image : Image}
    (compiled : Image.ofProgram program layout = .ok image) :
    ∃ progress start,
      (emitTop (.ofProgram program layout) program.defs).run .empty = .ok ((), progress) ∧
      startCode (.ofProgram program layout) progress.code = .ok start ∧
      image.code = start ++ functionCode progress.code program.functions ∧
      image.data = orderedData progress.data progress.dataOrder ∧
      image.nodeCode = progress.code ∧ image.nodeData = progress.data := by
  simp only [Image.ofProgram, bind, Except.bind] at compiled
  split at compiled
  · cases compiled
  next pair ran =>
    obtain ⟨⟨⟩, progress⟩ := pair
    dsimp only at compiled
    split at compiled
    · cases compiled
    next start started =>
      cases compiled
      exact ⟨progress, start, ran, started, rfl, rfl, rfl, rfl⟩

/-- The image of a program whose numbers are distinct is its closed form. -/
theorem shaped_of_ofProgram {program : Program} {layout : Layout} {image : Image}
    (distinct : program.Distinct) (compiled : Image.ofProgram program layout = .ok image) :
    ∃ main, Shaped program layout main image := by
  obtain ⟨progress, start, ran, started, code, data, nodeCode, nodeData⟩ := ofProgram_eq_ok compiled
  have emitted := emitted_emitTop program.defs ran distinct (fun id _ => by simp [Progress.empty])
  obtain ⟨heldData, heldCode⟩ := emitted.entries (.ofProgram program layout) progress distinct
    (fun _ _ => ⟨rfl, rfl⟩) (continues_ofProgram layout distinct)
  have heldFunctions : ∀ own ∈ programBlocks program layout,
      Code.items ((progress.code[own.id]?).getD []) = own.instrs :=
    fun own inside => heldCode own (mem_topBlocks_of_mem_defsBlocks inside)
  rw [startCode] at started
  split at started
  · cases started
  next main found =>
    simp only [bind, Except.bind] at started
    split at started
    · cases started
    next frame framed =>
      cases started
      have frame_eq := Layout.frameOf_eq (Context.frame_eq_ok.mp framed)
      refine ⟨main, found, ?_, ?_, ?_, ?_⟩
      · have functions : Code.items (functionCode progress.code program.functions) =
            (programBlocks program layout).flatMap CodeBlock.instrs :=
          items_functionCode (map_id_defsBlocks _ _ _) heldFunctions
        have globals :
            Code.items (globalCode progress.code (Context.ofProgram program layout).program.defs) =
              (variablesIn (Context.ofProgram program layout).program.defs).flatMap
                (globalInstrs layout (.ofProgram program layout)) :=
          items_globalCode fun declared inside =>
            heldCode _ (mem_topBlocks_of_mem_variablesIn inside)
        rw [code, Code.items_append, Code.items_append, startInstrs, frame_eq, Code.items_codeAt,
          functions, globals]
        rfl
      · have order : progress.dataOrder = (topData layout program.defs).map DataBlock.id := by
          rw [emitted.order]
          rfl
        rw [data, order]
        exact items_orderedData heldData
      · rw [nodeCode]
        exact heldFunctions
      · rw [nodeData]
        exact heldData

end ScopeStack.Emission
