import ScopeStack.Proofs.Compilation
import ScopeStack.Proofs.Linking.Code
import ScopeStack.Proofs.Linking.Names

/-!
# Loaded programs

`Linked` says what the addresses of a loaded program stand for: the entry of a
function is where its own code starts, or the address of a service; the room of
a global variable and the words of a text or an initializer are where the data
of that very node start. A program that compiles is loaded in this form by every
configuration that has room for it, `linked_of_loaded`.
-/

namespace ScopeStack

open Emission Executable

/-- The code of a function of an image lies between two addresses. -/
def Image.CodeLies (image : Image) (id : NodeId) (start stop : Int) : Prop :=
  ∃ own, image.nodeCode[id]? = some own ∧
    ∃ before after, image.code.items = before ++ own.items ++ after ∧
      start = instrsSize before ∧ stop = start + instrsSize own.items

/-- The data of a node of an image, which are given items, start at an
address. All data follow the code. -/
def Image.DataStarts (image : Image) (id : NodeId) (items : List Datum) (address : Int) : Prop :=
  ∃ own, image.nodeData[id]? = some own ∧ own.map Located.item = items ∧
    ∃ before after, image.data.map Located.item = before ++ items ++ after ∧
      address = instrsSize image.code.items + itemsSize before

namespace Linkage

/-- Code that gives the global variables their initial words. -/
def GlobalsAt (link : Linkage) : List VarDef → Int → Int → Prop
  | [], start, stop => stop = start
  | declared :: rest, start, stop =>
    ∃ middle,
      link.Holds start
        [.push (Word.ofInt (link.room declared.id)), .push (Word.ofInt (link.words declared.id)),
          .init] middle ∧
      link.GlobalsAt rest middle stop

/-- The code at address zero: it initializes the global variables, calls a
function and exits with code zero. -/
def StartAt (link : Linkage) (globals : List VarDef) (main : FunDef) (stop : Int) : Prop :=
  ∃ middle, link.GlobalsAt globals 0 middle ∧
    link.Holds middle
      [.push 0, .push (Word.ofInt (link.entry main.id)), .call, .push 0, .push 0,
        .push (Word.ofInt Service.exit.address), .call] stop

end Linkage

/-- A program in memory, in which every name stands for what it should. -/
structure Linked (program : Program) (layout : Layout) (main : FunDef) (image : Image)
    (executable : Executable) (link : Linkage) : Prop where
  slots : link.slots = executable.slots
  /-- The code at address zero comes before that of all functions. -/
  start : ∃ stop, link.StartAt (variablesIn program.defs) main stop ∧
    ∀ function ∈ program.functions, function.isExternal = false → stop ≤ link.entry function.id
  functions : link.FunctionsAt (.ofProgram program layout) program.defs
  /-- A function with a body is called where its own code starts. -/
  entry : ∀ function ∈ program.functions, function.isExternal = false →
    image.CodeLies function.id (link.entry function.id) (link.stop function.id)
  /-- A function without a body is called at the address of its service. -/
  service : ∀ function ∈ program.functions, function.isExternal = true →
    ∀ service, Service.ofName? function.name = some service →
      link.entry function.id = service.address
  /-- A global variable has the room that is reserved for it, and its initial
  words follow this room. -/
  global : ∀ declared ∈ variablesIn program.defs, ∃ (access : AbsAccess) (label : String),
    layout.accesses[declared.id]? = some (.abs access) ∧
      image.DataStarts declared.id
        (.label access.label :: .size access.size :: block label access.inits)
        (link.room declared.id) ∧
      link.words declared.id = link.room declared.id + access.size
  /-- The words of texts and of the initializers of local variables are their
  own data. -/
  constant : ∀ own ∈ defsData layout program.defs, ∃ label,
    image.DataStarts own.id (block label own.words) (link.words own.id)

section Blocks

variable {context : Context} {naming : Naming} {function : FunDef}

/-- What the code of a function is among blocks of code. -/
def BlockOf (layout : Layout) (function : FunDef) (blocks : List CodeBlock) : Prop :=
  ∃ own ∈ blocks, own.id = function.id ∧
    (function.isExternal = false →
      ∃ rest, own.instrs = .label (layout.frameOf function.id).name :: rest)

/-- A function whose code is among some blocks has it among more of them. -/
theorem BlockOf.mono {layout : Layout} {blocks larger : List CodeBlock}
    (found : BlockOf layout function blocks) (included : ∀ own ∈ blocks, own ∈ larger) :
    BlockOf layout function larger := by
  obtain ⟨own, inside, same⟩ := found
  exact ⟨own, included own inside, same⟩

mutual

/-- The functions in a statement have code. -/
theorem blockOf_stmt {context : Context} : (stmt : Stmt) → function ∈ stmt.functions →
    BlockOf context.layout function (stmtBlocks context naming stmt)
  | .expr _ _, inside => nomatch inside
  | .assign _ _ _, inside => nomatch inside
  | .cond _ _ yes no, inside => by
    rcases List.mem_append.mp inside with inYes | inNo
    · exact (blockOf_stmts yes inYes).mono fun _ => List.mem_append_left _
    · exact (blockOf_stmts no inNo).mono fun _ => List.mem_append_right _
  | .loop _ _ body, inside => blockOf_stmts body inside
  | .block _ defs body, inside => by
    rcases List.mem_append.mp inside with inBody | inDefs
    · exact (blockOf_stmts body inBody).mono fun _ => List.mem_append_left _
    · exact (blockOf_defs defs inDefs).mono fun _ => List.mem_append_right _

/-- The functions in statements have code. -/
theorem blockOf_stmts {context : Context} : (stmts : List Stmt) →
    function ∈ functionsOfStmts stmts →
    BlockOf context.layout function (stmtsBlocks context naming stmts)
  | [], inside => nomatch inside
  | stmt :: rest, inside => by
    rcases List.mem_append.mp inside with inStmt | inRest
    · exact (blockOf_stmt stmt inStmt).mono fun _ => List.mem_append_left _
    · exact (blockOf_stmts rest inRest).mono fun _ => List.mem_append_right _

/-- The functions in definitions have code. -/
theorem blockOf_defs {context : Context} : (defs : List Def) →
    function ∈ functionsOfDefs defs →
    BlockOf context.layout function (defsBlocks context naming defs)
  | [], inside => nomatch inside
  | .fn ⟨id, name, params, body⟩ :: rest, inside => by
    rcases List.mem_append.mp inside with inFunction | inRest
    · refine BlockOf.mono ?_ fun _ => List.mem_append_left _
      rw [functionBlocks]
      rcases List.mem_cons.mp inFunction with rfl | inBody
      · refine ⟨_, List.mem_cons_self, rfl, fun hasBody => ?_⟩
        rw [FunDef.isExternal] at hasBody
        exact ⟨_, if_neg (by simp [hasBody])⟩
      · have inner : BlockOf (context.enter (context.layout.frameOf id)).layout function _ :=
          blockOf_stmts body inBody
        exact inner.mono fun _ => List.mem_cons_of_mem _
    · exact (blockOf_defs rest inRest).mono fun _ => List.mem_append_right _
  | .var _ :: rest, inside => blockOf_defs rest inside

end

end Blocks

/-- One of the parts that lists are put together from. -/
theorem exists_flatMap_eq {α β : Type} {parts : List α} {items : α → List β} {own : α}
    (inside : own ∈ parts) : ∃ before after, parts.flatMap items = before ++ items own ++ after := by
  obtain ⟨first, last, rfl⟩ := List.append_of_mem inside
  exact ⟨first.flatMap items, last.flatMap items, by
    rw [List.flatMap_append, List.flatMap_cons, List.append_assoc]⟩

section Image

variable {program : Program} {layout : Layout} {main : FunDef} {image : Image} {config : Config}
  {executable : Executable}

/-- Addresses up to the end of the data of a loaded program fit a word. -/
theorem Executable.Loaded.fits {code : List Instr} {data : List Datum}
    (loaded : Loaded config code data executable) {address : Int} (start : 0 ≤ address)
    (stop : address ≤ executable.dataEnd) : Word.Fits address := by
  have dataEnd_le := loaded.dataEnd_le
  have stackTop_le := loaded.stackTop_le
  rw [Config.maxStackTop] at stackTop_le
  exact ⟨by omega, by omega⟩

/-- The place of a part of the code of a loaded program. -/
theorem Executable.Loaded.codePart {before part after : List Instr} {data : List Datum}
    (loaded : Loaded config (before ++ part ++ after) data executable) :
    Word.Fits (instrsSize before) ∧
      CodeAt executable.labels executable.slots (instrsSize before) part := by
  have beforeSize := instrsSize_nonneg before
  have partSize := instrsSize_nonneg part
  have afterSize := instrsSize_nonneg after
  have dataSize := itemsSize_nonneg loaded.rooms_nonneg
  have dataEnd_eq := loaded.dataEnd_eq
  simp only [instrsSize_append] at dataEnd_eq
  refine ⟨loaded.fits beforeSize (by omega), ?_⟩
  have placed := (codeAt_append.mp (codeAt_append.mp loaded.codeAt).1).2
  exact placed.moved (Int.zero_add _).symm

/-- The place of a part of the data of a loaded program. -/
theorem Executable.Loaded.dataPart {code : List Instr} {before part after : List Datum}
    (loaded : Loaded config code (before ++ part ++ after) executable) :
    0 ≤ itemsSize before ∧
      instrsSize code + itemsSize before + itemsSize part ≤ executable.dataEnd ∧
      DataAt executable.labels executable.memory (instrsSize code + itemsSize before) part := by
  have sizes := loaded.rooms_nonneg
  simp only [List.mem_append, or_imp, forall_and] at sizes
  have afterSize := itemsSize_nonneg sizes.2
  have dataEnd_eq := loaded.dataEnd_eq
  simp only [itemsSize_append] at dataEnd_eq
  exact ⟨itemsSize_nonneg sizes.1.1, by omega,
    (dataAt_append.mp (dataAt_append.mp loaded.dataAt).1).2⟩

/-- The blocks of code of a loaded program lie in their places. -/
theorem blocksAt_of_loaded (shaped : Shaped program layout main image)
    (loaded : Loaded config image.code.items (image.data.map Located.item) executable) :
    Linkage.BlocksAt image executable (programBlocks program layout) := by
  intro own inside
  have recorded := shaped.nodeCode own inside
  rw [← Std.TreeMap.getD_eq_getD_getElem?] at recorded
  refine ⟨recorded, ?_⟩
  obtain ⟨before, after, parts⟩ := @exists_flatMap_eq _ _ _ CodeBlock.instrs _ inside
  rw [shaped.code, parts, ← List.append_assoc, ← List.append_assoc] at loaded
  exact ⟨_, loaded.codePart⟩

/-- The name of a service that no label hides stands for its address. -/
theorem addressOf_service {labels : LabelTable} {name : String} {service : Service}
    (unbound : labels[name]? = none) (named : Service.ofName? name = some service) :
    addressOf labels name = service.address := by
  rw [addressOf, resolve, unbound, named]
  cases service <;> rfl

/-- The names of services are not hidden in a loaded program. -/
theorem addressOf_service_of_loaded (distinct : program.Distinct)
    (plain : program.Obeys .plainNames) (laid : Layout.ofProgram program = .ok layout)
    (shaped : Shaped program layout main image)
    (loaded : Loaded config image.code.items (image.data.map Located.item) executable)
    {name : String} {service : Service} (named : Service.ofName? name = some service) :
    addressOf executable.labels name = service.address := by
  refine addressOf_service (loaded.unbound name fun inside => ?_) named
  refine (nodup_imageLabels distinct plain laid shaped).2 name inside ?_
  have same : service.name = name := by simpa using List.find?_some named
  exact List.mem_map.mpr ⟨service, List.mem_of_find?_eq_some named, same⟩

/-- The code that initializes global variables, in its place. -/
theorem globalsAt_of_codeAt {naming : Naming} {globals : List VarDef} {start : Int}
    (placed : CodeAt executable.labels executable.slots start
      (globals.flatMap (globalInstrs layout naming)))
    (absolute : ∀ declared ∈ globals, ∃ access : AbsAccess,
      layout.accesses[declared.id]? = some (.abs access)) :
    (Linkage.ofExecutable layout naming image executable).GlobalsAt globals start
      (start + instrsSize (globals.flatMap (globalInstrs layout naming))) := by
  induction globals generalizing start with
  | nil => exact Int.add_zero start
  | cons declared rest hypothesis =>
    rw [List.forall_mem_cons] at absolute
    obtain ⟨⟨access, found⟩, absoluteRest⟩ := absolute
    rw [List.flatMap_cons, codeAt_append] at placed
    rw [List.flatMap_cons, instrsSize_append, ← Int.add_assoc]
    refine ⟨_, ?_, hypothesis placed.2 absoluteRest⟩
    have held := @Linkage.held_of_codeAt executable naming image layout _ _ placed.1
    have room : (Linkage.ofExecutable layout naming image executable).room declared.id =
        addressOf executable.labels access.label := by
      simp only [Linkage.ofExecutable, found]
    rw [globalInstrs, found] at held ⊢
    rw [room]
    exact held

/-- The code at address zero of a loaded program. -/
theorem startAt_of_loaded (distinct : program.Distinct) (plain : program.Obeys .plainNames)
    (laid : Layout.ofProgram program = .ok layout) (shaped : Shaped program layout main image)
    (loaded : Loaded config image.code.items (image.data.map Located.item) executable) :
    (Linkage.ofExecutable layout (.ofProgram program layout) image executable).StartAt
      (variablesIn program.defs) main
      (instrsSize (startInstrs (.ofProgram program layout) (.ofProgram program layout) main)) := by
  obtain ⟨globals, ready, after, -, top⟩ := Layout.topLaid_of_ofProgram distinct laid
  have placed := loaded.codeAt
  rw [shaped.code, codeAt_append, startInstrs, codeAt_append] at placed
  have exitAddress : addressOf executable.labels Service.exit.name = Service.exit.address :=
    addressOf_service_of_loaded distinct plain laid shaped loaded rfl
  have globalsAt := @globalsAt_of_codeAt _ image _ _ _ _ placed.1.1 fun declared inside => by
    obtain ⟨flat, size, -, found⟩ := Layout.globalLaid_of_mem_top top inside
    exact ⟨_, found⟩
  have held := @Linkage.held_of_codeAt executable (.ofProgram program layout) image layout _ _ placed.1.2
  simp only [List.flatMap_cons, linked, exitAddress] at held
  refine ⟨_, globalsAt, ?_⟩
  rw [startInstrs, instrsSize_append]
  rw [Int.zero_add] at held ⊢
  exact held

/-- The data of a loaded program lie in their places, each with its label. -/
theorem dataStarts_of_loaded (shaped : Shaped program layout main image)
    (loaded : Loaded config image.code.items (image.data.map Located.item) executable)
    {own : DataBlock} (inside : own ∈ topData layout program.defs) :
    ∃ address, instrsSize image.code.items ≤ address ∧
      address + itemsSize (own.items (.ofProgram program layout)) ≤ executable.dataEnd ∧
      image.DataStarts own.id (own.items (.ofProgram program layout)) address ∧
      DataAt executable.labels executable.memory address (own.items (.ofProgram program layout)) := by
  obtain ⟨before, after, parts⟩ :=
    @exists_flatMap_eq _ _ _ (DataBlock.items (.ofProgram program layout)) _ inside
  have recorded := shaped.nodeData own inside
  have data := shaped.data
  rw [parts] at data
  rw [data] at loaded
  obtain ⟨beforeSize, stop, placed⟩ := loaded.dataPart
  refine ⟨_, by omega, stop, ?_, placed⟩
  cases found : image.nodeData[own.id]? with
  | none =>
    rw [found] at recorded
    simp [DataBlock.items, block] at recorded
  | some items =>
    rw [found] at recorded
    exact ⟨items, found, recorded, before, after, data, rfl⟩

/-- The block of code of a function of a loaded program lies between its entry
and its end, wherever this is in the image. -/
theorem codePlace_of_loaded (shaped : Shaped program layout main image)
    (loaded : Loaded config image.code.items (image.data.map Located.item) executable)
    {function : FunDef} (inside : function ∈ program.functions)
    (hasBody : function.isExternal = false) :
    ∃ own ∈ programBlocks program layout, own.id = function.id ∧ own.instrs ≠ [] ∧
      ∀ before after, image.code.items = before ++ own.instrs ++ after →
        (Linkage.ofExecutable layout (.ofProgram program layout) image executable).entry
            function.id = instrsSize before ∧
        (Linkage.ofExecutable layout (.ofProgram program layout) image executable).stop
            function.id = instrsSize before + instrsSize own.instrs := by
  obtain ⟨own, member, same, labelled⟩ : BlockOf layout function (programBlocks program layout) :=
    @blockOf_defs (.ofProgram program layout) function (.ofProgram program layout) program.defs
      inside
  obtain ⟨rest, instrs⟩ := labelled hasBody
  refine ⟨own, member, same, by simp [instrs], fun before after code => ?_⟩
  rw [code] at loaded
  obtain ⟨fits, placed⟩ := loaded.codePart
  rw [instrs] at placed
  have entry := addressOf_of_fits fits placed.1
  refine ⟨entry, ?_⟩
  have recorded := shaped.nodeCode own member
  rw [← Std.TreeMap.getD_eq_getD_getElem?, same] at recorded
  simp only [Linkage.ofExecutable, recorded, entry]

/-- The code of a function of a loaded program lies between its entry and its
end. -/
theorem codeLies_of_loaded (shaped : Shaped program layout main image)
    (loaded : Loaded config image.code.items (image.data.map Located.item) executable)
    {function : FunDef} (inside : function ∈ program.functions)
    (hasBody : function.isExternal = false) :
    image.CodeLies function.id
      ((Linkage.ofExecutable layout (.ofProgram program layout) image executable).entry function.id)
      ((Linkage.ofExecutable layout (.ofProgram program layout) image executable).stop
        function.id) := by
  obtain ⟨own, member, same, nonempty, placed⟩ := codePlace_of_loaded shaped loaded inside hasBody
  have recorded := shaped.nodeCode own member
  obtain ⟨before, after, parts⟩ := @exists_flatMap_eq _ _ _ CodeBlock.instrs _ member
  have code := shaped.code
  rw [parts, ← List.append_assoc, ← List.append_assoc] at code
  obtain ⟨entry, stop⟩ := placed _ _ code
  cases found : image.nodeCode[own.id]? with
  | none =>
    rw [found] at recorded
    exact absurd recorded.symm nonempty
  | some items =>
    rw [found] at recorded
    rw [same] at found
    change items.items = own.instrs at recorded
    rw [entry, stop]
    exact ⟨items, found, _, after, by rw [recorded]; exact code, rfl, by rw [recorded]⟩

/-- The code at address zero of a loaded program comes before its functions. -/
theorem start_le_of_loaded (shaped : Shaped program layout main image)
    (loaded : Loaded config image.code.items (image.data.map Located.item) executable)
    {function : FunDef} (inside : function ∈ program.functions)
    (hasBody : function.isExternal = false) :
    instrsSize (startInstrs (.ofProgram program layout) (.ofProgram program layout) main) ≤
      (Linkage.ofExecutable layout (.ofProgram program layout) image executable).entry
        function.id := by
  obtain ⟨own, member, -, -, placed⟩ := codePlace_of_loaded shaped loaded inside hasBody
  obtain ⟨before, after, parts⟩ := @exists_flatMap_eq _ _ _ CodeBlock.instrs _ member
  have code := shaped.code
  rw [parts, ← List.append_assoc, ← List.append_assoc] at code
  have beforeSize := instrsSize_nonneg before
  rw [(placed _ _ code).1, instrsSize_append]
  omega

/-- The room of a global variable of a loaded program and its initial
words. -/
theorem global_of_loaded {globals : Table String}
    (shaped : Shaped program layout main image)
    (loaded : Loaded config image.code.items (image.data.map Located.item) executable)
    {declared : VarDef} (inside : declared ∈ variablesIn program.defs)
    (laid : layout.GlobalLaid globals declared) :
    ∃ (access : AbsAccess) (label : String),
      layout.accesses[declared.id]? = some (.abs access) ∧
      image.DataStarts declared.id
        (.label access.label :: .size access.size :: block label access.inits)
        ((Linkage.ofExecutable layout (.ofProgram program layout) image executable).room declared.id) ∧
      (Linkage.ofExecutable layout (.ofProgram program layout) image executable).words declared.id =
        (Linkage.ofExecutable layout (.ofProgram program layout) image executable).room declared.id +
          access.size := by
  have codeSize := instrsSize_nonneg image.code.items
  obtain ⟨flat, size, measured, found⟩ := laid
  have own : globalData layout declared =
      ⟨declared.id, some (globals.getD declared.id declared.name, size), flat⟩ := by
    rw [globalData, found]
  have nonneg : 0 ≤ size := by
    refine loaded.rooms_nonneg size ?_
    rw [shaped.data]
    exact List.mem_flatMap.mpr
      ⟨_, globalData_mem_topData inside, by simp [own, DataBlock.items]⟩
  obtain ⟨address, start, stop, starts, placed⟩ :=
    dataStarts_of_loaded shaped loaded (globalData_mem_topData inside)
  rw [own] at stop starts placed
  obtain ⟨boundRoom, -, boundWords, -⟩ := placed
  simp only [DataBlock.items, itemsSize_append, itemsSize_cons, itemsSize_nil, itemsSize_block,
    Datum.byteSize] at stop
  have room : addressOf executable.labels (globals.getD declared.id declared.name) = address :=
    addressOf_of_fits (loaded.fits (by omega) (by omega)) boundRoom
  have words : addressOf executable.labels
      ((Naming.ofProgram program layout).constantLabel declared.id) = address + size :=
    addressOf_of_fits (loaded.fits (by omega) (by omega)) (by
      simpa only [DatumAt, Datum.byteSize, Int.add_zero] using boundWords)
  have roomOf : (Linkage.ofExecutable layout (.ofProgram program layout) image executable).room
      declared.id = address := by
    simp only [Linkage.ofExecutable, found, room]
  rw [← roomOf] at starts words
  exact ⟨_, _, found, starts, words⟩

/-- The words of a text or of the initializer of a local variable in a loaded
program. -/
theorem constant_of_loaded (shaped : Shaped program layout main image)
    (loaded : Loaded config image.code.items (image.data.map Located.item) executable)
    {own : DataBlock} (inside : own ∈ defsData layout program.defs) :
    ∃ label, image.DataStarts own.id (block label own.words)
      ((Linkage.ofExecutable layout (.ofProgram program layout) image executable).words own.id) := by
  have codeSize := instrsSize_nonneg image.code.items
  obtain ⟨address, start, stop, starts, placed⟩ :=
    dataStarts_of_loaded shaped loaded (mem_topData_of_mem_defsData inside)
  rw [DataBlock.items, room_defsData program.defs inside, List.nil_append] at stop starts placed
  rw [itemsSize_block] at stop
  have words : addressOf executable.labels
      ((Naming.ofProgram program layout).constantLabel own.id) = address :=
    addressOf_of_fits (loaded.fits (by omega) (by omega)) placed.1
  rw [← words] at starts
  exact ⟨_, starts⟩

/-- A loaded program is linked. -/
theorem linked_of_loaded (distinct : program.Distinct) (plain : program.Obeys .plainNames)
    (laid : Layout.ofProgram program = .ok layout) (shaped : Shaped program layout main image)
    (loaded : Loaded config image.code.items (image.data.map Located.item) executable) :
    Linked program layout main image executable
      (.ofExecutable layout (.ofProgram program layout) image executable) := by
  obtain ⟨globals, ready, after, -, top⟩ := Layout.topLaid_of_ofProgram distinct laid
  refine ⟨rfl, ⟨_, startAt_of_loaded distinct plain laid shaped loaded, ?_⟩, ?_, ?_, ?_, ?_, ?_⟩
  · intro function inside hasBody
    exact start_le_of_loaded shaped loaded inside hasBody
  · exact @Linkage.functionsAt_of_codeAt executable (.ofProgram program layout) image
      (.ofProgram program layout) program.defs (blocksAt_of_loaded shaped loaded)
  · intro function inside hasBody
    exact codeLies_of_loaded shaped loaded inside hasBody
  · intro function inside external service named
    have address := addressOf_service_of_loaded distinct plain laid shaped loaded named
    rw [← Layout.name_frameOf_external top inside external] at address
    exact address
  · intro declared inside
    exact global_of_loaded shaped loaded inside (Layout.globalLaid_of_mem_top top inside)
  · intro own inside
    exact constant_of_loaded shaped loaded inside

end Image

/-- A program that compiles binds no label twice and hides no service, so that
loading it fails only because of the configuration, and otherwise gives a
program in which every name stands for what it should. -/
theorem loads_linked_of_compile {program : Program} {image : Image} (distinct : program.Distinct)
    (plain : program.Obeys .plainNames) (services : program.Obeys (Rule.callsServices program))
    (compiled : program.compile = .ok image) :
    (imageLabels image).Nodup ∧ (∀ service : Service, service.name ∉ imageLabels image) ∧
      ∃ layout main, Layout.ofProgram program = .ok layout ∧ program.entry? = some main ∧
        ∀ config,
          (∃ executable link, image.load config = .ok executable ∧
            Linked program layout main image executable link) ∨
          image.load config = .error (.load (.invalidStackTop config.stackTop)) ∨
          ∃ size, image.load config = .error (.load (.imageTooLarge size config.stackTop)) := by
  obtain ⟨layout, laid, assembled⟩ := Program.compile_eq_ok.mp compiled
  obtain ⟨main, shaped⟩ := shaped_of_ofProgram distinct assembled
  obtain ⟨nodup, noService⟩ := nodup_imageLabels distinct plain laid shaped
  refine ⟨nodup, ?_, layout, main, laid, shaped.entry, fun config => ?_⟩
  · intro service inside
    exact noService _ inside (List.mem_map_of_mem (by cases service <;> decide))
  · rw [Image.load]
    rcases load_image_cases distinct plain laid shaped services config with
      ⟨executable, done, loaded⟩ | invalid | ⟨size, large⟩
    · have linked := linked_of_loaded distinct plain laid shaped loaded
      rw [done]
      exact .inl ⟨executable, _, rfl, linked⟩
    · rw [invalid]
      exact .inr (.inl rfl)
    · rw [large]
      exact .inr (.inr ⟨size, rfl⟩)

/-- The sample is loaded, and every name in it stands for what it should. -/
theorem loads_linked_of_compile_sample :
    ∃ image layout main executable link, Program.sample.compile = .ok image ∧
      image.load .standard = .ok executable ∧
      Linked Program.sample layout main image executable link := by
  have succeeds : (Program.sample.compile.toOption.bind
      fun image => (image.load .standard).toOption).isSome = true := by decide +kernel
  cases compiled : Program.sample.compile with
  | error cause =>
    rw [compiled] at succeeds
    cases succeeds
  | ok image =>
    rw [compiled] at succeeds
    obtain ⟨-, -, layout, main, -, -, loads⟩ :=
      loads_linked_of_compile (by decide +kernel) (by decide +kernel) (by decide +kernel) compiled
    rcases loads .standard with ⟨executable, link, done, linked⟩ | invalid | ⟨size, large⟩
    · exact ⟨image, layout, main, executable, link, rfl, done, linked⟩
    · simp [invalid, Except.toOption] at succeeds
    · simp [large, Except.toOption] at succeeds

end ScopeStack
