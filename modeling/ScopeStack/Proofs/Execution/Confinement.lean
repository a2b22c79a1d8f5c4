import ScopeStack.Builder
import ScopeStack.Proofs.Execution.Addressing
import ScopeStack.Proofs.Execution.Uses

/-!
# Variables keep to their storage

A use of a variable reads or writes the word at an address that the code of the use computes.
Layout reserves storage for each variable: a room in the data for a global one, and a place in the
frame of its function for any other. The address is that of the storage of the variable, and as
the storage of different variables does not overlap, writing a variable changes nothing else.

There is one exception. An initializer may have no words at all, and then its variable has no
storage, although the code of its uses reads and writes a word. So the word lies in the storage of
the variable exactly if the initializer has a word. `Confined` puts all of this together; it holds
of every use of a variable in a compiled program.

Sizes are those of the initializers as long as the lengths of their texts are words. This is so in
every program that can be loaded, which is too short for a text that long.
-/

namespace ScopeStack

open Emission Executable

/-- Storing a word at an address changes no byte of a stretch of memory. -/
def Spares (address : Int) (stretch : Stretch) : Prop :=
  ∀ (memory : Memory) (value : Word),
    Memory.Intact (fun index => stretch.start ≤ index ∧ index < stretch.start + stretch.length)
      memory (memory.setWord address value)

/-- Storing a word leaves alone what lies apart from it. -/
theorem spares_of_apart {address : Int} {stretch : Stretch}
    (apart : Stretch.Apart ⟨address, 4⟩ stretch) : Spares address stretch := by
  intro memory value
  refine (Memory.Put.setWord memory address value).outside.mono fun index inside => ?_
  simp only [Stretch.Apart, Memory.Apart] at apart
  omega

/-- The storage of a variable in a frame with a given base. -/
def RelAccess.stretch (access : RelAccess) (base : Int) : Stretch :=
  ⟨base + access.offset, access.size⟩

/-- What storing a word in the frame of a function leaves alone, if the word belongs to a variable
or parameter. -/
structure SparesFrame (layout : Layout) (owner : FunDef) (target : NodeId) (base address : Int) :
    Prop where
  /-- The saved frame pointer and the return address. -/
  header : Spares address ⟨base - Frame.headerSize, Frame.headerSize⟩
  link : Spares address ⟨base, 4⟩
  others : ∀ other place, layout.Owns owner other place → other ≠ target →
    Spares address (place.stretch base)
  outside : ∀ stretch : Stretch,
    stretch.start + stretch.length ≤ base - (layout.frameOf owner.id).varsSize ∨
      base + (layout.frameOf owner.id).parsSize ≤ stretch.start → Spares address stretch

/-- A use of a variable or parameter that lies in the frame of a function around. -/
structure UsesFrame (program : Program) (layout : Layout) (image : Image) (scope : Scope)
    (use : NodeId) (owner : FunDef) (hops : Nat) (target : NodeId) (access : RelAccess) : Prop where
  linked : program.definition? use = some target
  enclosing : scope.enclosing[hops]? = some owner
  owns : layout.Owns owner target access
  computes : image.Computes use (framePointer hops ++ [.push access.offset, .binary .add])
  designates : ∀ (executable : Executable) (fp sp : Int) (memory : Memory),
    memory.Links sp hops fp →
    executable.Designates (framePointer hops ++ [.push access.offset, .binary .add]) fp sp memory
      (memory.follow hops fp + access.offset)
  area : owner.LengthsFit → layout.Area owner target access
  /-- The storage has room for a word unless the initializer of the variable has none. -/
  fits : owner.LengthsFit → (4 ≤ access.size ↔
    ∀ declared ∈ localsOfStmts owner.body, declared.id = target →
      Initializer.contents? declared.items ≠ some [])
  spares : owner.LengthsFit → 4 ≤ access.size → ∀ base,
    SparesFrame layout owner target base (base + access.offset)
  /-- All of this holds of every program that can be loaded. -/
  loaded : ∀ config executable, image.load config = .ok executable → owner.LengthsFit

/-- What storing a word in a loaded program leaves alone, if the word belongs to a global
variable. -/
structure SparesData (program : Program) (layout : Layout) (image : Image) (executable : Executable)
    (declared : VarDef) (access : AbsAccess) (address : Int) : Prop where
  code : Spares address ⟨0, image.code.size⟩
  /-- The rooms, initializers and texts of all others. -/
  others : ∀ own ∈ topData layout program.defs, own.id ≠ declared.id →
    ∀ stretch ∈ own.stretches executable.labels (.ofProgram program layout), Spares address stretch
  /-- The initializer of the variable. -/
  words : Spares address
    ⟨addressOf executable.labels ((Naming.ofProgram program layout).constantLabel declared.id),
      4 * access.inits.length⟩
  /-- Heap and stack. -/
  beyond : ∀ stretch : Stretch, executable.dataEnd ≤ stretch.start → Spares address stretch

/-- A use of a global variable. -/
structure UsesGlobal (program : Program) (layout : Layout) (image : Image) (use : NodeId)
    (declared : VarDef) (access : AbsAccess) : Prop where
  linked : program.definition? use = some declared.id
  member : declared ∈ variablesIn program.defs
  found : layout.accesses[declared.id]? = some (.abs access)
  computes : image.Computes use [.name access.label]
  /-- The data of the variable start with its label and its room. -/
  room : [.label access.label, .size access.size] <+:
    ((image.nodeData[declared.id]?).getD []).map Located.item
  /-- The room is that of a word at least unless the initializer of the variable has none. -/
  fits : declared.LengthsFit → (4 ≤ access.size ↔ Initializer.contents? declared.items ≠ some [])
  /-- In every loaded program the label is that of a stretch of the data. -/
  loaded : ∀ config executable, image.load config = .ok executable → declared.LengthsFit ∧
    ∃ address, executable.label? access.label = some address ∧
      (∀ fp sp memory, executable.Designates [.name access.label] fp sp memory address) ∧
      Stretch.Within ⟨address, access.size⟩ image.code.size executable.dataEnd ∧
      (4 ≤ access.size → SparesData program layout image executable declared access address)

/-- A use of a variable keeps to the storage of the variable, which is the room of a global
variable or a place in the frame of a function around. -/
def Confined (program : Program) (layout : Layout) (image : Image) (scope : Scope)
    (use : NodeId) : Prop :=
  (∃ declared access, UsesGlobal program layout image use declared access) ∨
    ∃ owner hops target access, UsesFrame program layout image scope use owner hops target access

section Frames

variable {layout : Layout} {outer : Option String} {depth : Nat} {owner : FunDef}
  {before after : LabelSet} {target : NodeId} {access : RelAccess}

/-- A word of a variable or parameter overlaps with nothing else. -/
theorem Layout.FunctionLaid.spares (laid : layout.FunctionLaid outer depth owner before after)
    (fit : owner.LengthsFit) (owns : layout.Owns owner target access) (long : 4 ≤ access.size)
    (base : Int) : SparesFrame layout owner target base (base + access.offset) := by
  have area := laid.area fit owns
  have room := (laid.stacked fit).le
  have parsSize := laid.body.2.1
  simp only [Layout.Area, Frame.headerSize] at area room
  refine ⟨spares_of_apart ?_, spares_of_apart ?_, fun other place ownsOther different =>
    spares_of_apart ?_, fun stretch apart => spares_of_apart ?_⟩
  · simp only [Stretch.Apart, Memory.Apart, Frame.headerSize]
    omega
  · simp only [Stretch.Apart, Memory.Apart]
    omega
  · have apart := laid.apart fit owns ownsOther different.symm
    simp only [Stretch.Apart, Memory.Apart, RelAccess.stretch]
    omega
  · simp only [Stretch.Apart, Memory.Apart]
    omega

end Frames

section Data

variable {program : Program} {layout : Layout} {main : FunDef} {image : Image} {config : Config}
  {executable : Executable} {declared : VarDef} {access : AbsAccess}
  (shaped : Shaped program layout main image)
  (loaded : Loaded config image.code.items (image.data.map Located.item) executable)
  (member : declared ∈ variablesIn program.defs)
  (found : layout.accesses[declared.id]? = some (.abs access))

include member found

/-- The room and the initial words of a global variable are among the data. -/
theorem mem_topData_of_found :
    ⟨declared.id, some (access.label, access.size), access.inits⟩ ∈
      topData layout program.defs := by
  have inside := @globalData_mem_topData layout _ _ member
  rwa [globalData, found] at inside

include shaped loaded

/-- The room of a global variable lies in the data. -/
theorem room_within : Stretch.Within ⟨addressOf executable.labels access.label, access.size⟩
    image.code.size executable.dataEnd := by
  refine (stretches_of_loaded shaped loaded).1 _ (List.mem_flatMap.mpr
    ⟨_, mem_topData_of_found member found, ?_⟩)
  rw [DataBlock.stretches]
  exact List.mem_cons_self

/-- A word of a global variable overlaps with nothing else. -/
theorem sparesData_of_loaded (long : 4 ≤ access.size) :
    SparesData program layout image executable declared access
      (addressOf executable.labels access.label) := by
  obtain ⟨low, -, high⟩ := room_within shaped loaded member found
  have isBlock := mem_topData_of_found member found
  -- the word is the first one of the room, so it is enough that the room is apart
  have shorten {stretch : Stretch}
      (apart : Stretch.Apart ⟨addressOf executable.labels access.label, access.size⟩ stretch) :
      Spares (addressOf executable.labels access.label) stretch := by
    refine spares_of_apart ?_
    simp only [Stretch.Apart, Memory.Apart] at apart ⊢
    omega
  refine ⟨shorten (.inr ?_), fun own inside different stretch listed => ?_, ?_,
    fun stretch above => shorten (.inl ?_)⟩
  · dsimp only at low ⊢
    omega
  · have distinct : ⟨declared.id, some (access.label, access.size), access.inits⟩ ≠ own := by
      rintro rfl
      exact different rfl
    exact shorten (apart_of_mem_stretches shaped loaded isBlock inside distinct
      List.mem_cons_self listed)
  · obtain ⟨within, -⟩ := List.pairwise_flatMap.mp (stretches_of_loaded shaped loaded).2
    have own := within _ isBlock
    simp only [DataBlock.stretches, List.pairwise_cons] at own
    exact shorten (own.1 _ (List.mem_singleton_self _))
  · exact Int.le_trans high above

end Data

section Uses

variable {program : Program} {layout : Layout} {image : Image} (distinct : program.Distinct)
  (laid : Layout.ofProgram program = .ok layout)
  (assembled : Image.ofProgram program layout = .ok image)

include distinct laid assembled

/-- An image is loaded with the layout that it was made with. -/
theorem exists_loaded_of_ofProgram {config : Config} {executable : Executable}
    (loads : image.load config = .ok executable) :
    ∃ main, Shaped program layout main image ∧
      Loaded config image.code.items (image.data.map Located.item) executable := by
  obtain ⟨again, main, same, -, shaped, -, loaded⟩ :=
    exists_loaded distinct (Program.compile_eq_ok.mpr ⟨layout, laid, assembled⟩) loads
  cases laid.symm.trans same
  exact ⟨main, shaped, loaded⟩

/-- A use of a global variable goes to its room. -/
theorem exists_usesGlobal {scope : Scope} {use : NodeId}
    {declared : VarDef} (member : declared ∈ variablesIn program.defs)
    (linked : program.definition? use = some declared.id)
    (recorded : image.Computes use (variableInstrs (scope.context program layout) use)) :
    ∃ access, UsesGlobal program layout image use declared access := by
  obtain ⟨globals, ready, after, -, top⟩ := Layout.topLaid_of_ofProgram distinct laid
  obtain ⟨flat, size, measured, found⟩ := Layout.globalLaid_of_mem_top top member
  obtain ⟨main, shaped⟩ := shaped_of_ofProgram distinct assembled
  rw [variableInstrs, accessOf?_of_found linked found] at recorded
  refine ⟨_, linked, member, found, recorded, ?_,
    fun fit => Layout.four_le_iff_of_measure fit measured, fun config executable loads => ?_⟩
  · exact ⟨_, (shaped.nodeData _ (mem_topData_of_found member found)).symm⟩
  · obtain ⟨main, shaped, loaded⟩ := exists_loaded_of_ofProgram distinct laid assembled loads
    have arranged := arranged_of_loaded shaped loaded
    exact ⟨arranged.lengthsFit top member, _,
      (label?_dataBlock shaped loaded (mem_topData_of_found member found)).2 _ _ rfl,
      fun _ _ _ => designates_name _, room_within shaped loaded member found,
      sparesData_of_loaded shaped loaded member found⟩

/-- A use of a variable or parameter of a function goes to its place in the frame of the
function. -/
theorem usesFrame_of_around {scope home : Scope} {hops : Nat} {use target : NodeId} {owner : FunDef}
    {access : RelAccess} (housed : scope.Housed program layout) (around : scope.Around home hops)
    (innermost : home.enclosing.head? = some owner) (owns : layout.Owns owner target access)
    (deep : access.depth = home.depth) (linked : program.definition? use = some target)
    (recorded : image.Computes use (variableInstrs (scope.context program layout) use)) :
    UsesFrame program layout image scope use owner hops target access := by
  obtain ⟨member, label, depth, before, after, laidOwner⟩ :=
    (housed.around around).enclosing (List.mem_of_head? innermost)
  have inFunction : home.enclosing ≠ [] := by
    intro empty
    rw [empty] at innermost
    cases innermost
  -- the code counts frames by depth, and so gets to the function that defines the variable
  have distance := @Scope.Levelled.distance _ _ _ _ program housed.levelled around inFunction
  rw [variableInstrs, accessOf?_of_found linked owns.1] at recorded
  dsimp only at recorded
  rw [deep, distance] at recorded
  rw [around.enclosing, List.head?_drop] at innermost
  refine ⟨linked, innermost, owns, recorded, fun _ _ _ _ links => designates_frame links,
    fun fit => laidOwner.area fit owns, fun fit => laidOwner.four_le_iff fit owns,
    fun fit => laidOwner.spares fit owns, fun config executable loads => ?_⟩
  obtain ⟨main, shaped, loaded⟩ := exists_loaded_of_ofProgram distinct laid assembled loads
  exact (arranged_of_loaded shaped loaded).lengthsFit_function laidOwner member

/-- A use of a visible variable goes to the storage of the variable. -/
theorem confined_of_visible {scope : Scope} {use target : NodeId}
    (housed : scope.Housed program layout) (visible : target ∈ scope.variableIds)
    (linked : program.definition? use = some target)
    (recorded : image.Computes use (variableInstrs (scope.context program layout) use)) :
    Confined program layout image scope use := by
  obtain ⟨home, hops, around, own⟩ := Scope.exists_around_of_variable visible
  rcases (housed.around around).ownVariable own with
    ⟨declared, member, rfl⟩ | ⟨owner, access, innermost, owns, deep⟩
  · obtain ⟨access, uses⟩ := exists_usesGlobal distinct laid assembled member linked recorded
    exact .inl ⟨declared, access, uses⟩
  · exact .inr ⟨owner, hops, target, access,
      usesFrame_of_around distinct laid assembled housed around innermost owns deep linked recorded⟩

end Uses

/-- Whatever a use of a visible variable computes, it keeps to the storage of the variable. -/
theorem followsAll_confined {program : Program} {layout : Layout} {image : Image}
    (distinct : program.Distinct) (laid : Layout.ofProgram program = .ok layout)
    (assembled : Image.ofProgram program layout = .ok image) :
    FollowsAll program layout image (Confined program layout image) :=
  fun _ housed _ _ visible linked recorded =>
    confined_of_visible distinct laid assembled housed visible linked recorded

/-- In a compiled program with lexical scoping every use of a variable goes to the storage of the
variable, and writing there changes nothing else, unless the variable has no storage. -/
theorem variables_confined {program : Program} {layout : Layout} {image : Image}
    (distinct : program.Distinct) (linked : program.Obeys (.linked program))
    (laid : Layout.ofProgram program = .ok layout)
    (assembled : Image.ofProgram program layout = .ok image) :
    program.Obeys (.onUses (Confined program layout image)) := by
  obtain ⟨globals, ready, after, -, top⟩ := Layout.topLaid_of_ofProgram distinct laid
  refine onUses_of_functionsRecorded (followsAll_confined distinct laid assembled) program.defs rfl
    (fun function inside => ?_) linked (functionsRecorded_of_ofProgram distinct assembled)
  obtain ⟨first, last, own⟩ := Layout.functionLaid_of_mem_functionsIn top inside
  exact ⟨none, first, last, own⟩

/-- A program that uses a global variable, a parameter, a variable of the function around, and one
without words. -/
def Program.reaching : Program :=
  Builder.program do
    let limit ← Builder.varDef "limit" [← Builder.initItem 1 (← Builder.intAtom 3)]
    let main ← Builder.reserveFunction "main"
    let inner ← Builder.reserveFunction "inner"
    let pair ← Builder.varDef "pair" [← Builder.initItem 2 (← Builder.intAtom 1)]
    let gap ← Builder.varDef "gap" [← Builder.initItem 0 (← Builder.intAtom 1)]
    let step ← Builder.param "step"
    let less ← Builder.binary .sub (← Builder.use limit.id) (← Builder.use step.id)
    let lowered ← Builder.assign (← Builder.use pair.id) less
    let nested ← Builder.function inner [step] [lowered]
    let called ← Builder.exprStmt (← Builder.call inner [← Builder.use pair.id])
    let filled ← Builder.assign (← Builder.use gap.id) (← Builder.use pair.id)
    let body ← Builder.block [pair, gap, nested] [called, filled]
    return [limit, ← Builder.function main [] [body]]

/-- The uses of this program are confined. -/
theorem variables_confined_reaching :
    Program.reaching.Distinct ∧ Program.reaching.Obeys (.linked .reaching) ∧
      ∃ layout image, Layout.ofProgram .reaching = .ok layout ∧
        Image.ofProgram .reaching layout = .ok image ∧
        Program.reaching.Obeys (.onUses (Confined .reaching layout image)) := by
  have distinct : Program.reaching.Distinct := by decide +kernel
  have linked : Program.reaching.Obeys (.linked .reaching) := by decide +kernel
  obtain ⟨image, executable, compiled, -⟩ :=
    Program.exists_executable (show (Program.reaching.load .standard).toOption.isSome = true by
      decide +kernel)
  obtain ⟨layout, laid, assembled⟩ := Program.compile_eq_ok.mp compiled
  exact ⟨distinct, linked, layout, image, laid, assembled,
    variables_confined distinct linked laid assembled⟩

/-- A program with a variable that holds a seven and one without words. It gives the second one
the value five and shows the first one. -/
def Program.wordless : Program :=
  Builder.program do
    let putint ← Builder.reserveFunction "putint"
    let value ← Builder.param "value"
    let service ← Builder.function putint [value] []
    let main ← Builder.reserveFunction "main"
    let kept ← Builder.varDef "kept" [← Builder.initItem 1 (← Builder.intAtom 7)]
    let gap ← Builder.varDef "gap" [← Builder.initItem 0 (← Builder.intAtom 0)]
    let filled ← Builder.assign (← Builder.use gap.id)
      (← Builder.atomExpr (← Builder.intAtom 5))
    let shown ← Builder.exprStmt (← Builder.call putint [← Builder.use kept.id])
    let body ← Builder.block [kept, gap] [filled, shown]
    return [service, ← Builder.function main [] [body]]

/-- A variable without words has the address of the variable before it, so that assigning to it
changes that one. -/
theorem wordless_variable_changes_another :
    Program.wordless.Distinct ∧ Program.wordless.Obeys (.linked .wordless) ∧
      ((Layout.ofProgram .wordless).toOption.bind fun layout => Program.wordless.entry?.map fun main =>
        (layout.frameOf main.id).vars.map fun place => (place.name, place.offset, place.size)) =
        some [("kept", -12, 4), ("gap", -12, 0)] ∧
      ((Program.wordless.load .standard).toOption.map fun executable =>
        ((executable.run 100 (executable.start [] none)).1,
          (executable.run 100 (executable.start [] none)).2.output.written)) =
        some (.exited 0, #['5'.toUInt8]) := by
  refine ⟨?_, ?_, ?_, ?_⟩ <;> decide +kernel

end ScopeStack
