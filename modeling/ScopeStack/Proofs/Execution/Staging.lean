import ScopeStack.Proofs.Layout.Slots
import ScopeStack.Proofs.Linking.Arrangement
import ScopeStack.Proofs.Nesting

/-!
# Where execution stands

`Installed` collects what execution relies on in a loaded program. At a point of
the program, `Scope.Staged` gives for every block and function around it the layout
and the code of what is defined there. What is visible at the point is defined in a
scope around it, `Scope.Around`; the number of functions that lie between is the
number of access links that compiled code follows to get there.
-/

namespace ScopeStack

open Emission

/-- Every variable is at least one word long. -/
def Rule.sized : Rule where
  expr _ _ := True
  stmt _ _ := True
  function _ _ := True
  declared _ declared := Initializer.contents? declared.items ≠ some []

instance : Rule.sized.Checkable where
  expr _ _ := .isTrue trivial
  stmt _ _ := .isTrue trivial
  function _ _ := .isTrue trivial
  declared _ declared := inferInstanceAs (Decidable (Initializer.contents? declared.items ≠ some []))

/-- No function has a frame that is larger than a word can say. -/
def Program.FramesFit (program : Program) : Prop :=
  ∀ layout, Layout.ofProgram program = .ok layout →
    ∀ function ∈ program.functions, Word.Fits (layout.frameOf function.id).varsSize

instance (program : Program) : Decidable program.FramesFit :=
  match found : Layout.ofProgram program with
  | .error _ => .isTrue fun _ laid => nomatch found.symm.trans laid
  | .ok layout =>
    decidable_of_iff
      (∀ function ∈ program.functions, Word.Fits (layout.frameOf function.id).varsSize)
      ⟨fun fits _ laid => Except.ok.inj (found.symm.trans laid) ▸ fits, fun fits => fits layout found⟩

/-- A program in memory that obeys a rule, with its layout and the addresses of its
parts. -/
structure Installed (program : Program) (layout : Layout) (rule : Rule) (executable : Executable)
    (link : Linkage) : Prop where
  distinct : program.Distinct
  obeys : program.Obeys rule
  laid : ∃ globals before after, layout.TopLaid globals program.defs before after
  /-- No frame is larger than a word can say. -/
  fits : ∀ function ∈ program.functions, Word.Fits (layout.frameOf function.id).varsSize
  slots : link.slots = executable.slots
  arranged : Arranged program layout executable link
  functions : link.FunctionsAt (.ofProgram program layout) program.defs
  service : ∀ function ∈ program.functions, function.isExternal = true →
    ∀ service, Service.ofName? function.name = some service →
      link.entry function.id = service.address

section Data

variable {layout : Layout} {declared : VarDef} {function : FunDef} {own : DataBlock}

mutual

/-- The initial words of the variables of a statement are among its data. -/
theorem mem_stmtData_of_local : (stmt : Stmt) → declared ∈ stmt.locals →
    ⟨declared.id, none, ((layout.accesses[declared.id]?).bind Access.inits?).getD []⟩ ∈
      stmtData layout stmt
  | .expr _ _, inside => nomatch inside
  | .assign _ _ _, inside => nomatch inside
  | .cond _ _ yes no, inside => by
    rcases List.mem_append.mp inside with inYes | inNo
    · exact List.mem_append_left _ (List.mem_append_right _ (mem_stmtsData_of_local yes inYes))
    · exact List.mem_append_right _ (mem_stmtsData_of_local no inNo)
  | .loop _ _ body, inside => List.mem_append_right _ (mem_stmtsData_of_local body inside)
  | .block _ defs body, inside => by
    rcases List.mem_append.mp inside with inDefs | inBody
    · exact List.mem_append_left _ (List.mem_append_left _ (mem_localsData inDefs))
    · exact List.mem_append_left _ (List.mem_append_right _ (mem_stmtsData_of_local body inBody))

/-- The initial words of the variables of statements are among their data. -/
theorem mem_stmtsData_of_local : (stmts : List Stmt) → declared ∈ localsOfStmts stmts →
    ⟨declared.id, none, ((layout.accesses[declared.id]?).bind Access.inits?).getD []⟩ ∈
      stmtsData layout stmts
  | [], inside => nomatch inside
  | stmt :: rest, inside => by
    rcases List.mem_append.mp inside with inStmt | inRest
    · exact List.mem_append_left _ (mem_stmtData_of_local stmt inStmt)
    · exact List.mem_append_right _ (mem_stmtsData_of_local rest inRest)

end

mutual

/-- The data of the functions inside a statement are among its data. -/
theorem mem_stmtData_of_function (member : own ∈ functionData layout function) : (stmt : Stmt) →
    function ∈ stmt.functions → own ∈ stmtData layout stmt
  | .expr _ _, inside => nomatch inside
  | .assign _ _ _, inside => nomatch inside
  | .cond _ _ yes no, inside => by
    rcases List.mem_append.mp inside with inYes | inNo
    · exact List.mem_append_left _
        (List.mem_append_right _ (mem_stmtsData_of_function member yes inYes))
    · exact List.mem_append_right _ (mem_stmtsData_of_function member no inNo)
  | .loop _ _ body, inside => List.mem_append_right _ (mem_stmtsData_of_function member body inside)
  | .block _ defs body, inside => by
    rcases List.mem_append.mp inside with inBody | inDefs
    · exact List.mem_append_left _
        (List.mem_append_right _ (mem_stmtsData_of_function member body inBody))
    · exact List.mem_append_right _ (mem_defsData_of_function member defs inDefs)

/-- The data of the functions inside statements are among their data. -/
theorem mem_stmtsData_of_function (member : own ∈ functionData layout function) :
    (stmts : List Stmt) → function ∈ functionsOfStmts stmts → own ∈ stmtsData layout stmts
  | [], inside => nomatch inside
  | stmt :: rest, inside => by
    rcases List.mem_append.mp inside with inStmt | inRest
    · exact List.mem_append_left _ (mem_stmtData_of_function member stmt inStmt)
    · exact List.mem_append_right _ (mem_stmtsData_of_function member rest inRest)

/-- The data of the functions inside definitions are among their data. -/
theorem mem_defsData_of_function (member : own ∈ functionData layout function) :
    (defs : List Def) → function ∈ functionsOfDefs defs → own ∈ defsData layout defs
  | [], inside => nomatch inside
  | .fn ⟨id, name, params, body⟩ :: rest, inside => by
    rcases List.mem_append.mp inside with inFunction | inRest
    · refine List.mem_append_left _ ?_
      rcases List.mem_cons.mp inFunction with rfl | inBody
      · exact member
      · exact mem_stmtsData_of_function member body inBody
    · exact List.mem_append_right _ (mem_defsData_of_function member rest inRest)
  | .var _ :: rest, inside => mem_defsData_of_function member rest inside

end

end Data

/-- Variables whose flat forms are short have lengths that are words. -/
theorem Layout.Adds.lengthsFit {layout : Layout} {declared : List VarDef} {before after : Locals}
    (adds : layout.Adds declared before after)
    (short : ∀ own ∈ declared,
      (((layout.accesses[own.id]?).bind Access.inits?).getD []).length ≤ 2147483647) :
    ∀ own ∈ declared, own.LengthsFit := by
  obtain ⟨added, -, placed, -⟩ := adds
  induction placed with
  | nil => exact nofun
  | cons own _ hypothesis =>
    obtain ⟨ownShort, restShort⟩ := List.forall_mem_cons.mp short
    obtain ⟨found, flat, measured, initial⟩ := own
    rw [found, Option.bind_some, Access.inits?, initial, Option.getD_some] at ownShort
    exact List.forall_mem_cons.mpr
      ⟨lengthsFit_of_short measured (by omega), hypothesis restShort⟩

section Globals

variable {program : Program} {layout : Layout} {executable : Executable} {link : Linkage}
  {globals : Table String} {before after : LabelSet}
  (arranged : Arranged program layout executable link)
  (laid : layout.TopLaid globals program.defs before after) {declared : VarDef}
  (member : declared ∈ variablesIn program.defs)

include arranged laid member

/-- The lengths in the initializer of a global variable are words. -/
theorem Arranged.lengthsFit : declared.LengthsFit := by
  obtain ⟨flat, size, measured, found⟩ := Layout.globalLaid_of_mem_top laid member
  have short := arranged.short (@globalData_mem_topData layout _ _ member)
  rw [globalData, found] at short
  exact Layout.lengthsFit_of_short measured (Nat.le_succ_of_le short)

/-- The room of a global variable is as long as the contents of its initializer. -/
theorem Arranged.exists_contents :
    ∃ runs label, Initializer.runs declared.items = .ok runs ∧
      Initializer.contents? declared.items = some (Initializer.expand runs) ∧
      layout.accesses[declared.id]? =
        some (.abs ⟨label, 4 * (Initializer.expand runs).length, Initializer.encode runs⟩) := by
  obtain ⟨flat, size, measured, found⟩ := Layout.globalLaid_of_mem_top laid member
  obtain ⟨runs, read, rfl, rfl⟩ :=
    Layout.exists_runs_of_measure (arranged.lengthsFit laid member) measured
  exact ⟨runs, _, read, (Initializer.contents?_of_runs read).1, found⟩

end Globals

/-- The lengths in the initializers of a function of a program in memory are words. -/
theorem Arranged.lengthsFit_function {program : Program} {layout : Layout}
    {executable : Executable} {link : Linkage} {outer : Option String} {depth : Nat}
    {function : FunDef} {before after : LabelSet}
    (arranged : Arranged program layout executable link)
    (laid : layout.FunctionLaid outer depth function before after)
    (member : function ∈ program.functions) : function.LengthsFit := by
  obtain ⟨-, -, label, first, last, laidBody, -⟩ := laid.body
  refine (Layout.StmtsLaid.adds function.body laidBody).lengthsFit fun declared inside => ?_
  have own : ⟨declared.id, none, ((layout.accesses[declared.id]?).bind Access.inits?).getD []⟩ ∈
      functionData layout function := by
    cases function
    exact mem_stmtsData_of_local _ inside
  exact arranged.short (mem_topData_of_mem_defsData (mem_defsData_of_function own _ member))

/-- The frame has room for a word at a distance from its base, among the local
variables or the parameters. -/
def Frame.HasRoom (frame : Frame) (offset : Int) : Prop :=
  (-frame.varsSize ≤ offset ∧ offset + 4 ≤ -headerSize) ∨
    (4 ≤ offset ∧ offset + 4 ≤ frame.parsSize)

namespace Scope

/-- A scope is another one or around it, with a number of functions between. -/
inductive Around : Scope → Scope → Nat → Prop
  | here {scope : Scope} : Around scope scope 0
  | enter {function : FunDef} {outer home : Scope} {hops : Nat} (around : Around outer home hops) :
      Around (.enter function outer) home (hops + 1)
  | block {defs : List Def} {outer home : Scope} {hops : Nat} (around : Around outer home hops) :
      Around (.block defs outer) home hops

/-- The variables and parameters that are defined in a scope itself. -/
def ownVariableIds : Scope → List NodeId
  | .top defs => (variablesIn defs).map VarDef.id
  | .enter function _ => function.params.map Param.id
  | .block defs _ => (variablesIn defs).map VarDef.id

/-- The functions that are defined in a scope itself. -/
def ownFunctions : Scope → List FunDef
  | .top defs => functionsIn defs
  | .enter _ _ => []
  | .block defs _ => functionsIn defs

/-- A visible variable is defined in a scope around. -/
theorem exists_around_of_variable {scope : Scope} {target : NodeId}
    (visible : target ∈ scope.variableIds) :
    ∃ home hops, scope.Around home hops ∧ target ∈ home.ownVariableIds := by
  induction scope with
  | top defs => exact ⟨_, 0, .here, visible⟩
  | enter function outer hypothesis =>
    rcases List.mem_append.mp visible with isOwn | isOuter
    · exact ⟨_, 0, .here, isOwn⟩
    · obtain ⟨home, hops, around, inside⟩ := hypothesis isOuter
      exact ⟨home, hops + 1, around.enter, inside⟩
  | block defs outer hypothesis =>
    rcases List.mem_append.mp visible with isOwn | isOuter
    · exact ⟨_, 0, .here, isOwn⟩
    · obtain ⟨home, hops, around, inside⟩ := hypothesis isOuter
      exact ⟨home, hops, around.block, inside⟩

/-- A visible function is defined in a scope around. -/
theorem exists_around_of_function {scope : Scope} {function : FunDef}
    (visible : function ∈ scope.functions) :
    ∃ home hops, scope.Around home hops ∧ function ∈ home.ownFunctions := by
  induction scope with
  | top defs => exact ⟨_, 0, .here, visible⟩
  | enter _ outer hypothesis =>
    obtain ⟨home, hops, around, inside⟩ := hypothesis visible
    exact ⟨home, hops + 1, around.enter, inside⟩
  | block defs outer hypothesis =>
    rcases List.mem_append.mp visible with isOwn | isOuter
    · exact ⟨_, 0, .here, isOwn⟩
    · obtain ⟨home, hops, around, inside⟩ := hypothesis isOuter
      exact ⟨home, hops, around.block, inside⟩

/-- Scopes further out are not deeper. -/
theorem Around.depth_le {scope home : Scope} {hops : Nat} (around : scope.Around home hops) :
    home.depth ≤ scope.depth := by
  induction around with
  | here => exact Nat.le_refl _
  | enter _ hypothesis => exact Nat.le_succ_of_le hypothesis
  | block _ hypothesis => exact Nat.le_succ_of_le hypothesis

/-- The functions around an outer scope are the outer ones of those around a point. -/
theorem Around.enclosing {scope home : Scope} {hops : Nat} (around : scope.Around home hops) :
    home.enclosing = scope.enclosing.drop hops := by
  induction around with
  | here => rfl
  | enter _ hypothesis => exact hypothesis
  | block _ hypothesis => exact hypothesis

/-- The frames of the functions around a point, innermost first. -/
def frames (layout : Layout) (scope : Scope) : List Frame :=
  scope.enclosing.map fun function => layout.frameOf function.id

/-- What the code at a point has been emitted from. -/
def context (program : Program) (layout : Layout) (scope : Scope) : Context :=
  ⟨program, layout, scope.frames layout⟩

/-- The frames of the functions around a point are as deep as their bodies. -/
def Levelled (layout : Layout) : Scope → Prop
  | .top _ => True
  | .enter function outer =>
    (layout.frameOf function.id).depth = outer.depth + 1 ∧ outer.Levelled layout
  | .block _ outer => outer.Levelled layout

section Levelled

variable {layout : Layout} {scope home : Scope} {hops : Nat}

/-- No function around a point is deeper than the point. -/
theorem Levelled.depth_le (levelled : scope.Levelled layout) {frame : Frame}
    (inside : frame ∈ scope.frames layout) : frame.depth ≤ scope.depth := by
  induction scope with
  | top defs => cases inside
  | enter function outer hypothesis =>
    rcases List.mem_cons.mp inside with rfl | later
    · exact Nat.le_of_eq levelled.1
    · exact Nat.le_succ_of_le (hypothesis levelled.2 later)
  | block defs outer hypothesis => exact Nat.le_succ_of_le (hypothesis levelled inside)

/-- The number of frames that compiled code passes on its way to a scope in a function around is
that of the functions between. -/
theorem Levelled.distance {program : Program} (levelled : scope.Levelled layout)
    (around : scope.Around home hops) (inFunction : home.enclosing ≠ []) :
    (scope.context program layout).distance home.depth = hops := by
  induction around with
  | here =>
    rename_i scope
    obtain ⟨function, rest, enclosing⟩ := List.exists_cons_of_ne_nil inFunction
    have frames : scope.frames layout =
        layout.frameOf function.id :: rest.map fun function => layout.frameOf function.id := by
      rw [Scope.frames, enclosing, List.map_cons]
    have shallow := levelled.depth_le (frames ▸ List.mem_cons_self)
    rw [Context.distance, Scope.context, frames, List.findIdx_cons, decide_eq_true shallow]
    rfl
  | @enter function outer home hops around hypothesis =>
    have deeper : ¬(layout.frameOf function.id).depth ≤ home.depth := by
      have deep := levelled.1
      have above := around.depth_le
      omega
    have frames : (Scope.enter function outer).frames layout =
        layout.frameOf function.id :: outer.frames layout := rfl
    rw [Context.distance, Scope.context, frames, List.findIdx_cons, decide_eq_false deeper]
    exact congrArg (· + 1) (hypothesis levelled.2 inFunction)
  | block _ hypothesis => exact hypothesis levelled inFunction

end Levelled

section Staged

variable (program : Program) (layout : Layout) (rule : Rule) (link : Linkage)

/-- A function in the scope in which it is defined. -/
structure Rooted (home : Scope) (function : FunDef) : Prop where
  nested : (home.enclosing, function) ∈ program.nesting
  obeys : function.Obeys rule home
  laid : ∃ label before after, layout.FunctionLaid label home.depth function before after
  data : ∀ own ∈ functionData layout function, own ∈ topData layout program.defs
  code : link.FunctionAt (home.context program layout) function

/-- What is defined around a point has its layout and its code. The variables of a
block lie in the frame of the innermost function around it. -/
def Staged : Scope → Prop
  | .top defs => defs = program.defs
  | .enter function outer => Rooted program layout rule link outer function ∧ outer.Staged
  | .block defs outer =>
    (∃ owner label before after, outer.enclosing.head? = some owner ∧
      layout.DefsLaid label (outer.depth + 1) defs before after ∧
      -(layout.frameOf owner.id).varsSize ≤ after.locals.bottom ∧
      before.locals.bottom ≤ -Frame.headerSize) ∧
    (∀ declared ∈ variablesIn defs,
      rule.declared (.block defs outer) declared ∧ declared.LengthsFit) ∧
    (∀ function ∈ functionsIn defs, Rooted program layout rule link (.block defs outer) function) ∧
    outer.Staged

end Staged

section Lookup

variable {program : Program} {layout : Layout} {rule : Rule} {link : Linkage}
  {executable : Executable} {scope home : Scope} {hops : Nat}

/-- What is defined around an outer scope has its layout and its code. -/
theorem Staged.around (staged : scope.Staged program layout rule link)
    (around : scope.Around home hops) : home.Staged program layout rule link := by
  induction around with
  | here => exact staged
  | enter _ hypothesis => exact hypothesis staged.2
  | block _ hypothesis => exact hypothesis staged.2.2.2

/-- The depth of the frame of a function. -/
theorem Rooted.depth {function : FunDef} (rooted : Rooted program layout rule link home function) :
    (layout.frameOf function.id).depth = home.depth + 1 := by
  obtain ⟨label, before, after, laid⟩ := rooted.laid
  obtain ⟨frame, framed, deep⟩ := laid.frame
  rw [Layout.frameOf_eq framed, deep]

/-- The frames of the functions around a point have the depths that the point sees. -/
theorem Staged.levelled (staged : scope.Staged program layout rule link) :
    scope.Levelled layout := by
  induction scope with
  | top defs => trivial
  | enter function outer hypothesis => exact ⟨staged.1.depth, hypothesis staged.2⟩
  | block defs outer hypothesis => exact hypothesis staged.2.2.2

/-- The access links that compiled code follows to a scope in a function around. -/
theorem Staged.distance (staged : scope.Staged program layout rule link)
    (around : scope.Around home hops) (inFunction : home.enclosing ≠ []) :
    (scope.context program layout).distance home.depth = hops :=
  staged.levelled.distance around inFunction

/-- A function that is defined in a scope stands there with its code. -/
theorem Staged.rooted (installed : Installed program layout rule executable link)
    (staged : home.Staged program layout rule link) {function : FunDef}
    (inside : function ∈ home.ownFunctions) : Rooted program layout rule link home function := by
  cases home with
  | enter _ _ => cases inside
  | block defs outer => exact staged.2.2.1 function inside
  | top defs =>
    obtain rfl : defs = program.defs := staged
    obtain ⟨globals, before, after, laid⟩ := installed.laid
    obtain ⟨first, last, own⟩ := Layout.functionLaid_of_mem_functionsIn laid inside
    exact ⟨mem_nestedInDefs inside, obeys_of_mem_functionsIn installed.obeys inside,
      ⟨none, first, last, own⟩,
      fun own member => mem_topData_of_mem_defsData (mem_defsData_of_mem_functionsIn inside member),
      Linkage.functionAt_of_mem installed.functions inside⟩

/-- A variable that is at least one word long takes at least four bytes. -/
theorem four_le_of_measure {declared : VarDef} {flat : List Int} {size : Int}
    (sized : Initializer.contents? declared.items ≠ some []) (fit : declared.LengthsFit)
    (measured : Layout.measure declared = .ok (flat, size)) : 4 ≤ size :=
  (Layout.four_le_iff_of_measure fit measured).mpr sized

/-- Where a variable that is defined in a scope lies: at the top level in its own
room, and otherwise in the frame of the innermost function. -/
theorem Staged.ownVariable (installed : Installed program layout rule executable link)
    (sized : rule.Implies .sized) (staged : home.Staged program layout rule link) {target : NodeId}
    (inside : target ∈ home.ownVariableIds) :
    (home.enclosing = [] ∧ ∃ declared ∈ variablesIn program.defs, declared.id = target ∧
      ∃ access : AbsAccess, layout.accesses[target]? = some (.abs access) ∧ 4 ≤ access.size) ∨
    ∃ (access : RelAccess) (owner : FunDef), layout.accesses[target]? = some (.rel access) ∧
      access.depth = home.depth ∧ home.enclosing.head? = some owner ∧
      (layout.frameOf owner.id).HasRoom access.offset := by
  cases home with
  | top defs =>
    obtain rfl : defs = program.defs := staged
    obtain ⟨declared, member, rfl⟩ := List.mem_map.mp inside
    obtain ⟨globals, before, after, laid⟩ := installed.laid
    obtain ⟨flat, size, measured, found⟩ := Layout.globalLaid_of_mem_top laid member
    have obeys := declared_of_mem_variablesIn installed.obeys member
    have fit := installed.arranged.lengthsFit laid member
    exact .inl ⟨rfl, declared, member, rfl, _, found,
      four_le_of_measure (sized.declared _ _ obeys) fit measured⟩
  | enter function outer =>
    obtain ⟨param, member, rfl⟩ := List.mem_map.mp inside
    obtain ⟨index, found⟩ := List.mem_iff_getElem?.mp member
    obtain ⟨label, before, after, laid⟩ := staged.1.laid
    obtain ⟨params, parsSize, -⟩ := laid.body
    have shorter := (List.getElem?_eq_some_iff.mp found).1
    refine .inr ⟨_, function, params index param found, rfl, rfl, .inr ?_⟩
    simp only [Layout.paramAccess, parsSize]
    omega
  | block defs outer =>
    obtain ⟨⟨owner, label, before, after, innermost, laid, low, high⟩, obey, -⟩ := staged
    obtain ⟨declared, member, rfl⟩ := List.mem_map.mp inside
    obtain ⟨flat, size, access, measured, found, deep, -, above, below⟩ :=
      laid.slot (fun own inside => (obey own inside).2) member
    obtain ⟨obeys, fit⟩ := obey declared member
    have long := four_le_of_measure (sized.declared _ _ obeys) fit measured
    refine .inr ⟨access, owner, found, deep, innermost, .inl ?_⟩
    omega

end Lookup

section Hosts

variable (program : Program) (layout : Layout) (rule : Rule)

/-- The variables between two extents lie in the frame of the innermost function
around a point. -/
def Encloses (scope : Scope) (before after : Layout.Extent) : Prop :=
  before.locals.bottom ≤ -Frame.headerSize ∧
    ∃ owner, scope.enclosing.head? = some owner ∧
      -(layout.frameOf owner.id).varsSize ≤ after.locals.bottom

/-- A statement stands in a scope, and what it defines has been laid out from one
extent to another. -/
structure Hosts (scope : Scope) (stmt : Stmt) (before after : Layout.Extent) : Prop where
  obeys : stmt.Obeys rule scope
  nested : ∀ own ∈ stmt.nested scope.enclosing, own ∈ program.nesting
  data : ∀ own ∈ stmtData layout stmt, own ∈ topData layout program.defs
  laid : ∃ label, layout.StmtLaid label scope.depth stmt before after
  room : scope.Encloses layout before after

/-- Statements stand in a scope. -/
structure HostsAll (scope : Scope) (stmts : List Stmt) (before after : Layout.Extent) : Prop where
  obey : StmtsObey rule scope stmts
  nested : ∀ own ∈ nestedInStmts scope.enclosing stmts, own ∈ program.nesting
  data : ∀ own ∈ stmtsData layout stmts, own ∈ topData layout program.defs
  laid : ∃ label, layout.StmtsLaid label scope.depth stmts before after
  room : scope.Encloses layout before after

variable {program layout rule} {executable : Executable} {link : Linkage} {scope : Scope}
  {before after : Layout.Extent} (arranged : Arranged program layout executable link)

include arranged

/-- The lengths in the initializers of a statement are words. -/
theorem Hosts.lengthsFit {stmt : Stmt}
    (hosts : scope.Hosts program layout rule stmt before after) :
    ∀ declared ∈ stmt.locals, declared.LengthsFit := by
  obtain ⟨label, laid⟩ := hosts.laid
  exact (Layout.StmtLaid.adds stmt laid).lengthsFit fun declared member =>
    arranged.short (hosts.data _ (mem_stmtData_of_local stmt member))

/-- The lengths in the initializers of statements are words. -/
theorem HostsAll.lengthsFit {stmts : List Stmt}
    (hosts : scope.HostsAll program layout rule stmts before after) :
    ∀ declared ∈ localsOfStmts stmts, declared.LengthsFit := by
  obtain ⟨label, laid⟩ := hosts.laid
  exact (Layout.StmtsLaid.adds stmts laid).lengthsFit fun declared member =>
    arranged.short (hosts.data _ (mem_stmtsData_of_local stmts member))

/-- What a statement defines lies below what has been laid out before it. -/
theorem Hosts.bottom_le {stmt : Stmt}
    (hosts : scope.Hosts program layout rule stmt before after) :
    after.locals.bottom ≤ before.locals.bottom := by
  obtain ⟨label, laid⟩ := hosts.laid
  exact ((Layout.StmtLaid.adds stmt laid).stacked (hosts.lengthsFit arranged)).le

/-- What statements define lies below what has been laid out before them. -/
theorem HostsAll.bottom_le {stmts : List Stmt}
    (hosts : scope.HostsAll program layout rule stmts before after) :
    after.locals.bottom ≤ before.locals.bottom := by
  obtain ⟨label, laid⟩ := hosts.laid
  exact ((Layout.StmtsLaid.adds stmts laid).stacked (hosts.lengthsFit arranged)).le

/-- A first statement and the remaining ones stand one after the other. -/
theorem HostsAll.cons {stmt : Stmt} {rest : List Stmt}
    (hosts : scope.HostsAll program layout rule (stmt :: rest) before after) :
    ∃ middle, scope.Hosts program layout rule stmt before middle ∧
      scope.HostsAll program layout rule rest middle after := by
  obtain ⟨fit, fitRest⟩ := List.forall_mem_append.mp (hosts.lengthsFit arranged)
  obtain ⟨⟨obeys, obeyRest⟩, nested, data, ⟨label, middle, laid, laidRest⟩, high, owner, innermost,
    low⟩ := hosts
  have lower := ((Layout.StmtLaid.adds stmt laid).stacked fit).le
  have lowest := ((Layout.StmtsLaid.adds rest laidRest).stacked fitRest).le
  exact ⟨middle,
    ⟨obeys, fun own inside => nested own (List.mem_append_left _ inside),
      fun own inside => data own (List.mem_append_left _ inside), ⟨label, laid⟩,
      high, owner, innermost, by omega⟩,
    ⟨obeyRest, fun own inside => nested own (List.mem_append_right _ inside),
      fun own inside => data own (List.mem_append_right _ inside), ⟨label, laidRest⟩,
      by omega, owner, innermost, low⟩⟩

/-- The parts of a conditional statement stand in its scope. -/
theorem Hosts.cond {id : NodeId} {test : Expr} {yes no : List Stmt}
    (hosts : scope.Hosts program layout rule (.cond id test yes no) before after) :
    test.Obeys rule scope ∧ ∃ middle, scope.HostsAll program layout rule yes before middle ∧
      scope.HostsAll program layout rule no middle after := by
  obtain ⟨fitYes, fitNo⟩ := List.forall_mem_append.mp (hosts.lengthsFit arranged)
  obtain ⟨⟨-, obeysTest, obeyYes, obeyNo⟩, nested, data, ⟨label, middle, laidYes, laidNo⟩, high,
    owner, innermost, low⟩ := hosts
  have lower := ((Layout.StmtsLaid.adds yes laidYes).stacked fitYes).le
  have lowest := ((Layout.StmtsLaid.adds no laidNo).stacked fitNo).le
  exact ⟨obeysTest, middle,
    ⟨obeyYes, fun own inside => nested own (List.mem_append_left _ inside),
      fun own inside => data own (List.mem_append_left _ (List.mem_append_right _ inside)),
      ⟨label, laidYes⟩, high, owner, innermost, by omega⟩,
    ⟨obeyNo, fun own inside => nested own (List.mem_append_right _ inside),
      fun own inside => data own (List.mem_append_right _ inside), ⟨label, laidNo⟩,
      by omega, owner, innermost, low⟩⟩

omit arranged in
/-- The parts of a loop stand in its scope. -/
theorem Hosts.loop {id : NodeId} {test : Expr} {body : List Stmt}
    (hosts : scope.Hosts program layout rule (.loop id test body) before after) :
    test.Obeys rule scope ∧ scope.HostsAll program layout rule body before after := by
  obtain ⟨⟨-, obeysTest, obeyBody⟩, nested, data, laid, room⟩ := hosts
  exact ⟨obeysTest, obeyBody, nested, fun own inside => data own (List.mem_append_right _ inside),
    laid, room⟩

/-- The scope inside a block. -/
theorem Hosts.block {id : NodeId} {defs : List Def} {body : List Stmt}
    (staged : scope.Staged program layout rule link)
    (hosts : scope.Hosts program layout rule (.block id defs body) before after)
    (code : link.FunctionsAt (scope.context program layout) defs) :
    ∃ middle, (∃ label, layout.DefsLaid label (scope.depth + 1) defs before middle) ∧
      (∀ own ∈ localsData layout defs, own ∈ topData layout program.defs) ∧
      (Scope.block defs scope).Staged program layout rule link ∧
      scope.Encloses layout before middle ∧
      (Scope.block defs scope).HostsAll program layout rule body middle after := by
  obtain ⟨fitDefs, fitBody⟩ := List.forall_mem_append.mp (hosts.lengthsFit arranged)
  obtain ⟨⟨-, obeyDefs, obeyBody⟩, nested, data, ⟨label, middle, laidDefs, laidBody⟩, high, owner,
    innermost, low⟩ := hosts
  have lower := (laidDefs.adds.stacked fitDefs).le
  have lowest := ((Layout.StmtsLaid.adds body laidBody).stacked fitBody).le
  refine ⟨middle, ⟨label, laidDefs⟩,
    fun own inside => data own (List.mem_append_left _ (List.mem_append_left _ inside)),
    ⟨⟨owner, label, before, middle, innermost, laidDefs, by omega, high⟩,
      fun declared inside =>
        ⟨declared_of_mem_variablesIn obeyDefs inside, fitDefs declared inside⟩,
      fun function inside => ?_, staged⟩,
    ⟨high, owner, innermost, by omega⟩,
    ⟨obeyBody, fun own inside => nested own (List.mem_append_left _ inside),
      fun own inside => data own (List.mem_append_left _ (List.mem_append_right _ inside)),
      ⟨label, laidBody⟩, by omega, owner, innermost, low⟩⟩
  obtain ⟨first, last, laidOwn⟩ := Layout.functionLaid_of_mem_block laidDefs inside
  exact ⟨nested _ (List.mem_append_right _ (mem_nestedInDefs inside)),
    obeys_of_mem_functionsIn obeyDefs inside, ⟨some label, first, last, laidOwn⟩,
    fun own member =>
      data own (List.mem_append_right _ (mem_defsData_of_mem_functionsIn inside member)),
    Linkage.functionAt_of_mem code inside⟩

omit arranged in
/-- The scope inside a function. -/
theorem Rooted.hosts {home : Scope} {function : FunDef}
    (rooted : Rooted program layout rule link home function) :
    ∃ first last, first.locals.bottom = -Frame.headerSize ∧
      (Scope.enter function home).HostsAll program layout rule function.body first last := by
  have data : ∀ own ∈ stmtsData layout function.body, own ∈ topData layout program.defs := by
    cases function
    exact rooted.data
  obtain ⟨label, before, after, laid⟩ := rooted.laid
  obtain ⟨-, -, label, first, last, laidBody, top, bottom⟩ := laid.body
  refine ⟨first, last, top, (FunDef.obeys_iff.mp rooted.obeys).2, fun own inside => ?_, data,
    ⟨label, laidBody⟩, Int.le_of_eq top, function, rfl, Int.le_of_eq bottom.symm⟩
  exact nestedInDefs_of_body program.defs rooted.nested inside

end Hosts

end Scope

end ScopeStack
