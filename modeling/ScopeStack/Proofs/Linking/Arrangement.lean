import ScopeStack.Proofs.Linking.Program
import ScopeStack.Proofs.Machine.Memory

/-!
# The arrangement of a loaded program

`Arranged` says where the parts of a loaded program lie with respect to each
other: the code of different functions does not overlap, the room of a global
variable overlaps neither with that of another nor with the words of texts and
initializers, and all of these are below the heap.
-/

namespace ScopeStack

open Emission Executable

/-- How the parts of a loaded program lie in memory. -/
structure Arranged (program : Program) (layout : Layout) (executable : Executable)
    (link : Linkage) : Prop where
  size : (executable.memory.size : Int) = executable.config.stackTop
  stackTop_le : executable.config.stackTop ≤ Config.maxStackTop
  codeSize_nonneg : 0 ≤ executable.memory.codeSize
  codeSize_le : executable.memory.codeSize ≤ executable.dataEnd
  dataEnd_le : executable.dataEnd ≤ executable.config.stackTop
  /-- The code of a function lies in the code segment. -/
  code : ∀ function ∈ program.functions, function.isExternal = false →
    0 ≤ link.entry function.id ∧ link.stop function.id ≤ executable.memory.codeSize
  codeApart : ∀ first ∈ program.functions, first.isExternal = false →
    ∀ second ∈ program.functions, second.isExternal = false → first.id ≠ second.id →
      link.stop first.id ≤ link.entry second.id ∨ link.stop second.id ≤ link.entry first.id
  /-- The words of texts and initializers lie in the data. -/
  words : ∀ own ∈ topData layout program.defs,
    executable.memory.codeSize ≤ link.words own.id ∧
      link.words own.id + 4 * own.words.length ≤ executable.dataEnd ∧
      executable.memory.WordsAt (link.words own.id) own.words
  /-- The room of a global variable lies in the data. -/
  room : ∀ declared ∈ variablesIn program.defs, ∀ access : AbsAccess,
    layout.accesses[declared.id]? = some (.abs access) →
    executable.memory.codeSize ≤ link.room declared.id ∧
      link.room declared.id + access.size ≤ executable.dataEnd ∧
      ∀ own ∈ topData layout program.defs,
        Memory.Apart (link.room declared.id) access.size (link.words own.id) (4 * own.words.length)
  roomApart : ∀ first ∈ variablesIn program.defs, ∀ second ∈ variablesIn program.defs,
    first.id ≠ second.id → ∀ firstAccess secondAccess : AbsAccess,
    layout.accesses[first.id]? = some (.abs firstAccess) →
    layout.accesses[second.id]? = some (.abs secondAccess) →
    Memory.Apart (link.room first.id) firstAccess.size (link.room second.id) secondAccess.size

namespace Arranged

variable {program : Program} {layout : Layout} {executable : Executable} {link : Linkage}
  (arranged : Arranged program layout executable link)

include arranged

/-- An address in memory fits in a word. -/
theorem toInt_ofInt {address : Int} (low : 0 ≤ address) (high : address ≤ executable.memory.size) :
    (Word.ofInt address).toInt = address := by
  have top := arranged.stackTop_le
  have size := arranged.size
  simp only [Config.maxStackTop] at top
  exact Word.toInt_ofInt ⟨by omega, by omega⟩

/-- The words of texts and initializers are no more than a word can count. -/
theorem short {own : DataBlock} (member : own ∈ topData layout program.defs) :
    own.words.length ≤ 2147483647 := by
  obtain ⟨first, last, -⟩ := arranged.words own member
  have codeSize := arranged.codeSize_nonneg
  have dataEnd := arranged.dataEnd_le
  have stackTop := arranged.stackTop_le
  simp only [Config.maxStackTop] at stackTop
  omega

end Arranged

/-- Two different parts of a list come one after the other in what is put
together from the parts. -/
theorem exists_flatMap_pair {α β : Type} {parts : List α} {items : α → List β} {first second : α}
    (inFirst : first ∈ parts) (inSecond : second ∈ parts) (different : first ≠ second) :
    (∃ before between after,
      parts.flatMap items = before ++ items first ++ between ++ items second ++ after) ∨
    ∃ before between after,
      parts.flatMap items = before ++ items second ++ between ++ items first ++ after := by
  obtain ⟨left, right, rfl⟩ := List.append_of_mem inFirst
  rcases List.mem_append.mp inSecond with inLeft | inRight
  · obtain ⟨before, between, split⟩ := @exists_flatMap_eq _ _ _ items _ inLeft
    refine .inr ⟨before, between, right.flatMap items, ?_⟩
    rw [List.flatMap_append, split, List.flatMap_cons]
    simp only [List.append_assoc]
  · rcases List.mem_cons.mp inRight with same | later
    · exact absurd same.symm different
    · obtain ⟨between, after, split⟩ := @exists_flatMap_eq _ _ _ items _ later
      refine .inl ⟨left.flatMap items, between, after, ?_⟩
      rw [List.flatMap_append, List.flatMap_cons, split]
      simp only [List.append_assoc]

/-- Data that are words lie in memory as words. -/
theorem wordsAt_of_dataAt {labels : LabelTable} {memory : Memory} {address : Int}
    {words : List Int} (placed : DataAt labels memory address (words.map .data)) :
    memory.WordsAt address words := by
  induction words generalizing address with
  | nil => trivial
  | cons word rest hypothesis => exact ⟨placed.1, hypothesis placed.2⟩

section Loaded

variable {program : Program} {layout : Layout} {main : FunDef} {image : Image} {config : Config}
  {executable : Executable}

/-- The code of two functions of a loaded program does not overlap. -/
theorem codeApart_of_loaded (shaped : Shaped program layout main image)
    (loaded : Loaded config image.code.items (image.data.map Located.item) executable)
    {first second : FunDef} (inFirst : first ∈ program.functions)
    (firstBody : first.isExternal = false) (inSecond : second ∈ program.functions)
    (secondBody : second.isExternal = false) (different : first.id ≠ second.id) :
    (Linkage.ofExecutable layout (.ofProgram program layout) image executable).stop first.id ≤
        (Linkage.ofExecutable layout (.ofProgram program layout) image executable).entry second.id ∨
      (Linkage.ofExecutable layout (.ofProgram program layout) image executable).stop second.id ≤
        (Linkage.ofExecutable layout (.ofProgram program layout) image executable).entry
          first.id := by
  obtain ⟨own, member, same, -, place⟩ := codePlace_of_loaded shaped loaded inFirst firstBody
  obtain ⟨other, otherMember, otherSame, -, otherPlace⟩ :=
    codePlace_of_loaded shaped loaded inSecond secondBody
  have blocksDiffer : own ≠ other := by
    rintro rfl
    exact different (same.symm.trans otherSame)
  have code := shaped.code
  generalize startInstrs (.ofProgram program layout) (.ofProgram program layout) main = start at code
  rcases @exists_flatMap_pair _ _ _ CodeBlock.instrs _ _ member otherMember blocksDiffer with
    ⟨before, between, after, parts⟩ | ⟨before, between, after, parts⟩ <;>
    rw [parts] at code <;> have betweenSize := instrsSize_nonneg between
  · have stop := (place (start ++ before) (between ++ other.instrs ++ after)
      (by simp only [code, List.append_assoc])).2
    have entry := (otherPlace (start ++ before ++ own.instrs ++ between) after
      (by simp only [code, List.append_assoc])).1
    left
    simp only [stop, entry, instrsSize_append]
    omega
  · have stop := (otherPlace (start ++ before) (between ++ own.instrs ++ after)
      (by simp only [code, List.append_assoc])).2
    have entry := (place (start ++ before ++ other.instrs ++ between) after
      (by simp only [code, List.append_assoc])).1
    right
    simp only [stop, entry, instrsSize_append]
    omega

/-- A data block lies at an address, where its labels say. -/
structure BlockAt (executable : Executable) (link : Linkage) (own : DataBlock) (address : Int) :
    Prop where
  start : executable.memory.codeSize ≤ address
  roomSize : 0 ≤ own.roomSize
  stop : address + own.roomSize + 4 * own.words.length ≤ executable.dataEnd
  words : link.words own.id = address + own.roomSize
  room : ∀ label size, own.room = some (label, size) → addressOf executable.labels label = address
  held : executable.memory.WordsAt (address + own.roomSize) own.words

/-- A data block of a loaded program lies where its labels say, wherever this is
in the image. -/
theorem blockAt_of_loaded
    (loaded : Loaded config image.code.items (image.data.map Located.item) executable)
    {own : DataBlock} {before after : List Datum}
    (data : image.data.map Located.item =
      before ++ own.items (.ofProgram program layout) ++ after) :
    BlockAt executable (.ofExecutable layout (.ofProgram program layout) image executable) own
      (instrsSize image.code.items + itemsSize before) := by
  obtain ⟨address, place⟩ : ∃ address, address = instrsSize image.code.items + itemsSize before :=
    ⟨_, rfl⟩
  have codeSize := instrsSize_nonneg image.code.items
  have codeSize_eq := loaded.codeSize_eq
  rw [data] at loaded
  have sizes := loaded.rooms_nonneg
  obtain ⟨beforeSize, stop, placed⟩ := loaded.dataPart
  rw [itemsSize_dataBlock] at stop
  rw [← place] at stop placed ⊢
  obtain ⟨id, room, words⟩ := own
  have labelled (size : Int) (bound : size = (DataBlock.mk id room words).roomSize) (nonneg : 0 ≤ size)
      (at_ : executable.labels[(Naming.ofProgram program layout).constantLabel id]? =
        some (Word.ofInt (address + size))) :
      (Linkage.ofExecutable layout (.ofProgram program layout) image executable).words id =
        address + size :=
    addressOf_of_fits (loaded.fits (by omega) (by rw [← bound] at stop; omega)) at_
  cases room with
  | none =>
    obtain ⟨label, wordsPlaced⟩ := placed
    simp only [DataBlock.roomSize, Datum.byteSize, Int.add_zero] at stop label wordsPlaced labelled
    constructor <;> try simp only [DataBlock.roomSize, Int.add_zero]
    · omega
    · exact Int.le_refl 0
    · omega
    · simpa using labelled 0 rfl (Int.le_refl 0) (by rw [Int.add_zero]; exact label)
    · intro label size absent
      cases absent
    · exact wordsAt_of_dataAt wordsPlaced
  | some room =>
    obtain ⟨roomLabel, size⟩ := room
    have nonneg : 0 ≤ size := sizes size (by simp [DataBlock.items])
    obtain ⟨roomBound, -, label, wordsPlaced⟩ := placed
    simp only [DataBlock.roomSize, Datum.byteSize, Int.add_zero] at stop label wordsPlaced labelled
    constructor <;> try simp only [DataBlock.roomSize]
    · omega
    · exact nonneg
    · omega
    · exact labelled size rfl nonneg label
    · rintro _ _ ⟨⟩
      exact addressOf_of_fits (loaded.fits (by omega) (by omega)) roomBound
    · exact wordsAt_of_dataAt wordsPlaced

/-- A data block of a loaded program lies somewhere. -/
theorem exists_blockAt_of_loaded (shaped : Shaped program layout main image)
    (loaded : Loaded config image.code.items (image.data.map Located.item) executable)
    {own : DataBlock} (inside : own ∈ topData layout program.defs) :
    ∃ address, BlockAt executable
      (.ofExecutable layout (.ofProgram program layout) image executable) own address := by
  obtain ⟨before, after, parts⟩ :=
    @exists_flatMap_eq _ _ _ (DataBlock.items (.ofProgram program layout)) _ inside
  exact ⟨_, blockAt_of_loaded loaded (shaped.data.trans parts)⟩

/-- Of two data blocks of a loaded program one lies before the other. -/
theorem blocksOrdered_of_loaded
    (loaded : Loaded config image.code.items (image.data.map Located.item) executable)
    {own other : DataBlock} {before between after : List Datum}
    (data : image.data.map Located.item =
      before ++ own.items (.ofProgram program layout) ++ between ++
        other.items (.ofProgram program layout) ++ after) :
    ∃ address otherAddress,
      BlockAt executable (.ofExecutable layout (.ofProgram program layout) image executable) own
        address ∧
      BlockAt executable (.ofExecutable layout (.ofProgram program layout) image executable) other
        otherAddress ∧
      address + (own.roomSize + 4 * own.words.length) ≤ otherAddress := by
  have sizes := loaded.rooms_nonneg
  simp only [data, List.mem_append, or_imp, forall_and] at sizes
  have betweenSize := itemsSize_nonneg sizes.1.1.2
  have first := blockAt_of_loaded loaded (show _ = before ++ own.items (.ofProgram program layout) ++
    (between ++ other.items (.ofProgram program layout) ++ after) by
      simp only [data, List.append_assoc])
  have second := blockAt_of_loaded loaded data
  refine ⟨_, _, first, second, ?_⟩
  simp only [itemsSize_append, itemsSize_dataBlock]
  omega

/-- Different data blocks of a loaded program do not overlap. -/
theorem blocksApart_of_loaded (shaped : Shaped program layout main image)
    (loaded : Loaded config image.code.items (image.data.map Located.item) executable)
    {own other : DataBlock} (inside : own ∈ topData layout program.defs)
    (otherInside : other ∈ topData layout program.defs) (different : own ≠ other) :
    ∃ address otherAddress,
      BlockAt executable (.ofExecutable layout (.ofProgram program layout) image executable) own
        address ∧
      BlockAt executable (.ofExecutable layout (.ofProgram program layout) image executable) other
        otherAddress ∧
      Memory.Apart address (own.roomSize + 4 * own.words.length) otherAddress
        (other.roomSize + 4 * other.words.length) := by
  rcases @exists_flatMap_pair _ _ _ (DataBlock.items (.ofProgram program layout)) _ _ inside
      otherInside different with ⟨before, between, after, parts⟩ | ⟨before, between, after, parts⟩
  · obtain ⟨address, otherAddress, placed, otherPlaced, ordered⟩ :=
      blocksOrdered_of_loaded loaded (shaped.data.trans parts)
    exact ⟨address, otherAddress, placed, otherPlaced, .inl ordered⟩
  · obtain ⟨otherAddress, address, otherPlaced, placed, ordered⟩ :=
      blocksOrdered_of_loaded loaded (shaped.data.trans parts)
    exact ⟨address, otherAddress, placed, otherPlaced, .inr ordered⟩

/-- The block of a global variable lies at its room. -/
theorem BlockAt.room_eq {declared : VarDef} {access : AbsAccess} {address : Int}
    (found : layout.accesses[declared.id]? = some (.abs access))
    (placed : BlockAt executable (.ofExecutable layout (.ofProgram program layout) image executable)
      (globalData layout declared) address) :
    (Linkage.ofExecutable layout (.ofProgram program layout) image executable).room declared.id =
        address ∧ (globalData layout declared).roomSize = access.size := by
  have own : globalData layout declared =
      ⟨declared.id, some (access.label, access.size), access.inits⟩ := by
    rw [globalData, found]
  rw [own] at placed ⊢
  simp only [Linkage.ofExecutable, found]
  exact ⟨placed.room _ _ rfl, rfl⟩

/-- The parts of a loaded program do not overlap. -/
theorem arranged_of_loaded (shaped : Shaped program layout main image)
    (loaded : Loaded config image.code.items (image.data.map Located.item) executable) :
    Arranged program layout executable
      (.ofExecutable layout (.ofProgram program layout) image executable) := by
  have codeSize_nonneg := instrsSize_nonneg image.code.items
  have dataSize_nonneg := itemsSize_nonneg loaded.rooms_nonneg
  have codeSize_eq := loaded.codeSize_eq
  have dataEnd_eq := loaded.dataEnd_eq
  constructor
  case size => rw [loaded.size_eq, loaded.config_eq]
  case stackTop_le => rw [loaded.config_eq]; exact loaded.stackTop_le
  case codeSize_nonneg => omega
  case codeSize_le => omega
  case dataEnd_le => rw [loaded.config_eq]; exact loaded.dataEnd_le
  case code =>
    intro function inside hasBody
    obtain ⟨own, -, before, after, code, entry, stop⟩ := codeLies_of_loaded shaped loaded inside hasBody
    have beforeSize := instrsSize_nonneg before
    have afterSize := instrsSize_nonneg after
    rw [codeSize_eq, code, stop, entry]
    simp only [instrsSize_append]
    omega
  case codeApart =>
    intro first inFirst firstBody second inSecond secondBody different
    exact codeApart_of_loaded shaped loaded inFirst firstBody inSecond secondBody different
  case words =>
    intro own inside
    obtain ⟨address, placed⟩ := exists_blockAt_of_loaded shaped loaded inside
    have start := placed.start
    have roomSize := placed.roomSize
    have stop := placed.stop
    rw [placed.words]
    exact ⟨by omega, by omega, placed.held⟩
  case room =>
    intro declared inside access found
    have member := @globalData_mem_topData layout _ _ inside
    obtain ⟨address, placed⟩ := exists_blockAt_of_loaded shaped loaded member
    obtain ⟨room, size⟩ := placed.room_eq found
    have stop := placed.stop
    refine ⟨by rw [room]; exact placed.start, by rw [room]; omega, fun own ownInside => ?_⟩
    by_cases same : globalData layout declared = own
    · subst same
      rw [placed.words, room, size]
      exact .inl (Int.le_refl _)
    · obtain ⟨address, otherAddress, placed, otherPlaced, apart⟩ :=
        blocksApart_of_loaded shaped loaded member ownInside same
      have roomSize := otherPlaced.roomSize
      rw [(placed.room_eq found).1, ← size, otherPlaced.words]
      simp only [Memory.Apart] at apart ⊢
      omega
  case roomApart =>
    intro first inFirst second inSecond different firstAccess secondAccess firstFound secondFound
    have blocksDiffer : globalData layout first ≠ globalData layout second := by
      intro same
      exact different (by rw [← id_globalData layout first, same, id_globalData])
    obtain ⟨address, otherAddress, placed, otherPlaced, apart⟩ := blocksApart_of_loaded shaped loaded
      (globalData_mem_topData inFirst) (globalData_mem_topData inSecond) blocksDiffer
    obtain ⟨room, size⟩ := placed.room_eq firstFound
    obtain ⟨otherRoom, otherSize⟩ := otherPlaced.room_eq secondFound
    rw [room, otherRoom]
    simp only [Memory.Apart] at apart ⊢
    omega

end Loaded

end ScopeStack
