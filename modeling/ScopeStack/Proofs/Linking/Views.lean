import Mathlib.Data.List.Forall2
import ScopeStack.Image.Listing
import ScopeStack.Proofs.Emission.Nodes
import ScopeStack.Proofs.Linking.Storage
import ScopeStack.Proofs.Nesting

/-!
# The views of an image

An image can be looked at in several ways: as code, as the code of each node, as a source map,
as a listing and as a loaded program. All of them speak of addresses, and each works them out
for itself. `views_agree` says that they speak of the same ones.

The functions with a body, the entries of the source map and the code after the start are three
lists that run in parallel. `Mapped` goes through them together, and what is known about an
entry follows by induction along it.
-/

namespace ScopeStack

open Emission Executable

/-- The size of two pieces of code. -/
theorem Code.size_append (first second : Code) :
    Code.size (first ++ second) = first.size + second.size := by
  simp only [Code.size_eq, Code.items_append, instrsSize_append]

/-- No code has a negative size. -/
theorem Code.size_nonneg (code : Code) : 0 ≤ code.size := by
  rw [Code.size_eq]
  exact instrsSize_nonneg _

/-- A line of code that is put together from two parts is in one of them. -/
theorem Code.line_of_append {first second before after : Code} {line : Located Instr}
    (split : first ++ second = before ++ line :: after) :
    (∃ later, first = before ++ line :: later) ∨
      ∃ earlier, before = first ++ earlier ∧ second = earlier ++ line :: after := by
  rcases List.append_eq_append_iff.mp split with ⟨earlier, inSecond, rest⟩ | ⟨later, inFirst, rest⟩
  · exact .inr ⟨earlier, inSecond, rest⟩
  · cases later with
    | nil =>
      rw [List.append_nil] at inFirst
      exact .inr ⟨[], by rw [List.append_nil, inFirst], rest.symm⟩
    | cons next later =>
      rw [List.cons_append, List.cons.injEq] at rest
      exact .inl ⟨later, by rw [rest.1, inFirst]⟩

/-- The functions of a program that have a body. -/
def Program.bodies (program : Program) : List FunDef :=
  program.functions.filter fun function => !function.isExternal

/-- An entry of a source map describes the code of a function. -/
structure Describes (program : Program) (function : FunDef) (own : Code) (entry : SourceMapEntry) :
    Prop where
  /-- The code starts with the label of the entry. -/
  label : own.head?.map Located.item = some (.label entry.label)
  size : entry.size = own.size
  span : entry.span = program.location? function.id

/-- Entries of a source map lie one after another from an address up to another one. -/
def Tiles : Int → List SourceMapEntry → Int → Prop
  | low, [], high => low = high
  | low, entry :: rest, high =>
    entry.address = low ∧ 0 < entry.size ∧ Tiles (low + entry.size) rest high

/-- Functions, their entries in the source map and their code, which starts at an address. -/
inductive Mapped (program : Program) (table : Table Code) :
    Int → List FunDef → List SourceMapEntry → Code → Prop
  | nil (address : Int) : Mapped program table address [] [] []
  | cons {address : Int} {function : FunDef} {functions : List FunDef} {entry : SourceMapEntry}
      {entries : List SourceMapEntry} {own code : Code}
      (found : table[function.id]? = some own) (describes : Describes program function own entry)
      (here : entry.address = address) (positive : 0 < entry.size)
      (rest : Mapped program table (address + entry.size) functions entries code) :
      Mapped program table address (function :: functions) (entry :: entries) (own ++ code)

/-- The source map of functions describes those that have a body, in their order. -/
theorem mapped_functionEntries {program : Program} {layout : Layout} {table : Table Code}
    {functions : List FunDef} (address : Int)
    (filed : ∀ function ∈ functions, Filed table function)
    (labelled : ∀ function ∈ functions, ∀ own, table[function.id]? = some own →
      0 < own.size ∧ ∃ name, own.head?.map Located.item = some (.label name)) :
    Mapped program table address (functions.filter fun function => !function.isExternal)
      (functionEntries (.ofProgram program layout) table address functions)
      (functionCode table functions) := by
  induction functions generalizing address with
  | nil => exact .nil address
  | cons function rest hypothesis =>
    rw [List.forall_mem_cons] at filed labelled
    obtain ⟨filed, filedRest⟩ := filed
    rw [Filed] at filed
    rw [functionEntries, functionCode, List.flatMap_cons, List.filter_cons]
    cases found : table[function.id]? with
    | none =>
      rw [found] at filed
      rw [filed]
      exact hypothesis address filedRest labelled.2
    | some own =>
      rw [found] at filed
      rw [filed.1]
      obtain ⟨positive, name, first⟩ := labelled.1 own found
      have starts : codeLabel function own = name := by
        rw [codeLabel]
        cases own with
        | nil => cases first
        | cons line _ =>
          have same : line.item = .label name := Option.some.inj first
          simp [same, Instr.label?]
      exact .cons found ⟨by rw [Option.getD_some, first, starts], rfl, rfl⟩ rfl positive
        (hypothesis (address + own.size) filedRest labelled.2)

namespace Mapped

variable {program : Program} {table : Table Code} {address : Int} {functions : List FunDef}
  {entries : List SourceMapEntry} {code : Code}

/-- Each function has its entry. -/
theorem describes (mapped : Mapped program table address functions entries code) :
    List.Forall₂ (fun function entry => ∃ own, table[function.id]? = some own ∧
      Describes program function own entry) functions entries := by
  induction mapped with
  | nil => exact .nil
  | cons found describes _ _ _ hypothesis => exact .cons ⟨_, found, describes⟩ hypothesis

/-- The code is that of the functions. -/
theorem code_eq (mapped : Mapped program table address functions entries code) :
    code = functionCode table functions := by
  induction mapped with
  | nil => rfl
  | cons found _ _ _ _ hypothesis =>
    rw [functionCode, List.flatMap_cons, found, hypothesis]
    rfl

/-- The entries cover the addresses of the code. -/
theorem tiles (mapped : Mapped program table address functions entries code) :
    Tiles address entries (address + code.size) := by
  induction mapped with
  | nil => exact (Int.add_zero _).symm
  | cons found describes here positive _ hypothesis =>
    refine ⟨here, positive, ?_⟩
    rw [Code.size_append, ← describes.size, ← Int.add_assoc]
    exact hypothesis

/-- Each label is bound to the address of its entry where the code lies. -/
theorem bound {labels : LabelTable} {slots : Std.TreeMap Int Opcode}
    (mapped : Mapped program table address functions entries code)
    (placed : CodeAt labels slots address code.items) :
    ∀ entry ∈ entries, labels[entry.label]? = some (Word.ofInt entry.address) := by
  induction mapped with
  | nil => exact List.forall_mem_nil _
  | @cons _ _ _ _ _ own _ found describes here _ _ hypothesis =>
    rw [Code.items_append, codeAt_append, ← Code.size_eq, ← describes.size] at placed
    refine List.forall_mem_cons.mpr ⟨?_, hypothesis placed.2⟩
    have first := describes.label
    cases own with
    | nil => cases first
    | cons line _ =>
      have same : line.item = .label _ := Option.some.inj first
      have own := placed.1.1
      rw [same] at own
      rw [here]
      exact own

/-- An instruction of the code belongs to a function, and stands in the code of the function
as far from its start as its address is from that of the entry. -/
theorem exists_entry (mapped : Mapped program table address functions entries code)
    {before after : Code} {line : Located Instr} (split : code = before ++ line :: after) :
    ∃ function entry, ∃ earlier later : Code, (function, entry) ∈ functions.zip entries ∧
      table[function.id]? = some (earlier ++ line :: later) ∧
      Describes program function (earlier ++ line :: later) entry ∧
      address + before.size = entry.address + earlier.size := by
  induction mapped generalizing before with
  | nil => simp at split
  | @cons address function functions entry entries own code found describes here _ _ hypothesis =>
    rcases Code.line_of_append split with ⟨later, inOwn⟩ | ⟨earlier, rfl, inRest⟩
    · exact ⟨function, entry, before, later, List.mem_cons_self, inOwn ▸ found, inOwn ▸ describes,
        by rw [here]⟩
    · obtain ⟨other, otherEntry, head, tail, inside, has, described, place⟩ := hypothesis inRest
      refine ⟨other, otherEntry, head, tail, List.mem_cons_of_mem _ inside, has, described, ?_⟩
      rw [← place, describes.size, Code.size_append, Int.add_assoc]

end Mapped

section Search

variable {low high pc : Int} {entries : List SourceMapEntry} {entry : SourceMapEntry}

/-- Entries that tile a range start where it does or later. -/
theorem Tiles.low_le_high (tiles : Tiles low entries high) : low ≤ high := by
  induction entries generalizing low with
  | nil => exact Int.le_of_eq tiles
  | cons first rest hypothesis =>
    obtain ⟨-, positive, later⟩ := tiles
    have := hypothesis later
    omega

/-- An entry lies between the ends of a list of entries. -/
theorem Tiles.within (tiles : Tiles low entries high) (inside : entry ∈ entries) :
    low ≤ entry.address ∧ 0 < entry.size ∧ entry.address + entry.size ≤ high := by
  induction entries generalizing low with
  | nil => cases inside
  | cons first rest hypothesis =>
    obtain ⟨here, positive, later⟩ := tiles
    have rising := later.low_le_high
    rcases List.mem_cons.mp inside with rfl | inRest
    · omega
    · have := hypothesis later inRest
      omega

/-- No entry is found below the first one. -/
theorem Tiles.find?_eq_none (tiles : Tiles low entries high) (below : pc < low) :
    SourceMap.find? ⟨entries⟩ pc = none := by
  rw [SourceMap.find?, List.find?_eq_none]
  intro entry inside
  have := tiles.within inside
  simp only [Bool.and_eq_true, decide_eq_true_eq]
  omega

/-- An address within an entry leads to it, because the entries before it end earlier. -/
theorem Tiles.find?_eq_some (tiles : Tiles low entries high) (inside : entry ∈ entries)
    (first : entry.address ≤ pc) (last : pc < entry.address + entry.size) :
    SourceMap.find? ⟨entries⟩ pc = some entry := by
  induction entries generalizing low with
  | nil => cases inside
  | cons other rest hypothesis =>
    obtain ⟨here, positive, later⟩ := tiles
    rw [SourceMap.find?, List.find?_cons]
    rcases List.mem_cons.mp inside with rfl | inRest
    · simp [first, last]
    · have beyond := later.within inRest
      have outside : ¬pc < other.address + other.size := by omega
      simp only [outside, decide_false, Bool.and_false]
      exact hypothesis later inRest

end Search

/-- An instruction has been put at an address: a label is bound to it, and anything else is
what is carried out there. -/
def Executable.HasInstr (executable : Executable) (address : Int) : Instr → Prop
  | .label name => executable.label? name = some address
  | instr => ∃ own, opcode executable.labels instr = .ok (some own) ∧
      executable.slots[address]? = some own

/-- A data item has been put at an address: a label is bound to it, a word is stored there, and
room consists of zeros. -/
def Executable.HasDatum (executable : Executable) (address : Int) : Datum → Prop
  | .label name => executable.label? name = some address
  | .size bytes => ∀ place, address ≤ place → place < address + bytes →
      executable.memory.byte place = 0
  | .data value => executable.memory.word address = Word.ofInt value

/-- A line of a listing shows an instruction at the address where it has been put. -/
def Executable.ShowsInstr (executable : Executable) (line : Located Instr) (shown : ListingLine) :
    Prop :=
  shown.size = line.item.size ∧ shown.instr = line.item.text ∧ shown.span = line.span ∧
    executable.HasInstr shown.address line.item

/-- A line of a listing shows a data item at the address where it has been put. -/
def Executable.ShowsDatum (executable : Executable) (line : Located Datum) (shown : ListingLine) :
    Prop :=
  shown.size = line.item.byteSize ∧ shown.instr = line.item.text ∧ shown.span = line.span ∧
    executable.HasDatum shown.address line.item

section Lines

variable {executable : Executable} {address : Int}

/-- A label is looked up as the address that it is bound to, if that is a word. -/
theorem Executable.label?_of_fits {name : String} (fits : Word.Fits address)
    (bound : executable.labels[name]? = some (Word.ofInt address)) :
    executable.label? name = some address := by
  rw [label?, bound]
  exact congrArg some (Word.toInt_ofInt fits)

/-- The place of an instruction is within the code. -/
theorem mem_placeCode {code : Code} {place : Int} {instr : Instr}
    (inside : (place, instr) ∈ placeCode address code) :
    address ≤ place ∧ place + instr.size ≤ address + code.size := by
  induction code generalizing address with
  | nil => cases inside
  | cons line rest hypothesis =>
    have ownSize := line.item.size_nonneg
    have restSize := Code.size_nonneg rest
    rw [Code.size]
    rcases List.mem_cons.mp inside with same | later
    · cases same
      omega
    · have := hypothesis later
      omega

/-- The place of a data item is within the data. -/
theorem mem_placeData {data : Data} {place : Int} {item : Datum}
    (sizes : ∀ bytes, .size bytes ∈ data.map Located.item → 0 ≤ bytes)
    (inside : (place, item) ∈ Executable.placeData address data) :
    address ≤ place ∧ 0 ≤ item.byteSize ∧ place + item.byteSize ≤ address + data.size := by
  induction data generalizing address with
  | nil => cases inside
  | cons line rest hypothesis =>
    rw [List.map_cons] at sizes
    have restSizes := fun bytes inside => sizes bytes (List.mem_cons_of_mem _ inside)
    have restSize := itemsSize_nonneg restSizes
    have ownSize : 0 ≤ line.item.byteSize := by
      have := @itemsSize_nonneg [line.item] fun bytes inside =>
        sizes bytes (List.mem_singleton.mp inside ▸ List.mem_cons_self)
      simpa using this
    rw [← Data.size_eq] at restSize
    rw [Data.size]
    rcases List.mem_cons.mp inside with same | later
    · cases same
      omega
    · have := hypothesis restSizes later
      omega

/-- The listing of code shows where it lies. -/
theorem shows_of_codeAt {code : Code}
    (fits : ∀ place instr, (place, instr) ∈ placeCode address code → Word.Fits place)
    (placed : CodeAt executable.labels executable.slots address code.items) :
    List.Forall₂ executable.ShowsInstr code (code.listing address) := by
  induction code generalizing address with
  | nil => exact .nil
  | cons line rest hypothesis =>
    obtain ⟨own, later⟩ := placed
    refine .cons ⟨rfl, rfl, rfl, ?_⟩
      (hypothesis (fun place instr inside => fits place instr (List.mem_cons_of_mem _ inside))
        later)
    cases item : line.item with
    | label name =>
      rw [item] at own
      exact label?_of_fits (fits address _ List.mem_cons_self) own
    | _ =>
      rw [item] at own
      exact own

/-- The listing of data shows where they lie. -/
theorem shows_of_dataAt {data : Data}
    (fits : ∀ place item, (place, item) ∈ Executable.placeData address data → Word.Fits place)
    (rooms : ∀ place bytes, (place, .size bytes) ∈ Executable.placeData address data →
      executable.HasDatum place (.size bytes))
    (placed : DataAt executable.labels executable.memory address (data.map Located.item)) :
    List.Forall₂ executable.ShowsDatum data (data.listing address) := by
  induction data generalizing address with
  | nil => exact .nil
  | cons line rest hypothesis =>
    obtain ⟨own, later⟩ := placed
    refine .cons ⟨rfl, rfl, rfl, ?_⟩
      (hypothesis (fun place item inside => fits place item (List.mem_cons_of_mem _ inside))
        (fun place bytes inside => rooms place bytes (List.mem_cons_of_mem _ inside)) later)
    cases item : line.item with
    | label name =>
      rw [item] at own
      exact label?_of_fits (fits address _ List.mem_cons_self) own
    | size bytes =>
      exact rooms address bytes (by rw [← item]; exact List.mem_cons_self)
    | data value =>
      rw [item] at own
      exact own

/-- The addresses in the listing of code are those at which the code is placed. -/
theorem map_address_codeListing (code : Code) :
    (code.listing address).map ListingLine.address = (placeCode address code).map Prod.fst := by
  induction code generalizing address with
  | nil => rfl
  | cons line rest hypothesis => exact congrArg (address :: ·) hypothesis

/-- The addresses in the listing of data are those at which the data are placed. -/
theorem map_address_dataListing (data : Data) :
    (data.listing address).map ListingLine.address =
      (Executable.placeData address data).map Prod.fst := by
  induction data generalizing address with
  | nil => rfl
  | cons line rest hypothesis => exact congrArg (address :: ·) hypothesis

end Lines

/-- Storing data changes no byte apart from those of the words. -/
theorem byte_of_storeData {stackTop place : Int} {placed : List (Int × Datum)}
    {before after : Memory} (stored : storeData stackTop placed before = .ok after)
    (fits : ∀ address value, (address, .data value) ∈ placed → Word.Fits address)
    (apart : ∀ address value, (address, .data value) ∈ placed →
      place < address ∨ address + 4 ≤ place) :
    after.byte place = before.byte place := by
  induction placed generalizing before with
  | nil =>
    cases stored
    rfl
  | cons first rest hypothesis =>
    obtain ⟨address, item⟩ := first
    have continues {middle : Memory} (stored : storeData stackTop rest middle = .ok after) :=
      hypothesis stored
        (fun address value inside => fits address value (List.mem_cons_of_mem _ inside))
        (fun address value inside => apart address value (List.mem_cons_of_mem _ inside))
    cases item with
    | label name => exact continues stored
    | size bytes => exact continues stored
    | data value =>
      rw [storeData, Memory.store] at stored
      split at stored
      next memory succeeded =>
        split at succeeded
        next addressable =>
          cases succeeded
          have outside := apart address value List.mem_cons_self
          rw [continues stored, Word.toInt_ofInt (fits address value List.mem_cons_self),
            Memory.byte_setWord, if_neg (by omega)]
        next => cases succeeded
      next => cases stored

/-- Words and room do not overlap. -/
theorem placeData_apart {data : Data} {address place other bytes value : Int}
    (sizes : ∀ bytes, .size bytes ∈ data.map Located.item → 0 ≤ bytes)
    (room : (place, .size bytes) ∈ Executable.placeData address data)
    (word : (other, .data value) ∈ Executable.placeData address data) :
    other + 4 ≤ place ∨ place + bytes ≤ other := by
  induction data generalizing address with
  | nil => cases room
  | cons line rest hypothesis =>
    obtain ⟨item, span⟩ := line
    rw [List.map_cons] at sizes
    have restSizes := fun bytes inside => sizes bytes (List.mem_cons_of_mem _ inside)
    rcases List.mem_cons.mp room with first | later
    · rcases List.mem_cons.mp word with same | after
      · cases first
        cases same
      · have beyond := (mem_placeData restSizes after).1
        cases first
        exact .inr beyond
    · rcases List.mem_cons.mp word with same | after
      · have beyond := (mem_placeData restSizes later).1
        cases same
        exact .inl beyond
      · exact hypothesis restSizes later after

/-- Room consists of zeros when a program has been loaded. -/
theorem rooms_of_load {config : Config} {code : Code} {data : Data} {executable : Executable}
    (loads : Executable.load config code data = .ok executable)
    (loaded : Loaded config code.items (data.map Located.item) executable) {place bytes : Int}
    (room : (place, .size bytes) ∈ Executable.placeData code.size data) :
    executable.HasDatum place (.size bytes) := by
  intro spot first last
  have codeSize := code.size_nonneg
  have dataEnd_eq := loaded.dataEnd_eq
  rw [← Code.size_eq] at dataEnd_eq
  rw [← Data.size_eq] at dataEnd_eq
  rw [byte_of_storeData (load_eq_ok_iff.mp loads).stored, Memory.byte_zero]
  · intro address value inside
    have within := mem_placeData loaded.rooms_nonneg inside
    rw [Datum.byteSize] at within
    exact loaded.fits (by omega) (by omega)
  · intro address value inside
    have apart := placeData_apart loaded.rooms_nonneg room inside
    omega

/-- The code of an image is the start and the code of the functions; the source map says where
the latter is. -/
theorem sourceMap_of_ofProgram {program : Program} {layout : Layout} {image : Image}
    (assembled : Image.ofProgram program layout = .ok image) :
    ∃ start, startCode (.ofProgram program layout) image.nodeCode = .ok start ∧
      image.code = start ++ functionCode image.nodeCode program.functions ∧
      image.sourceMap =
        ⟨functionEntries (.ofProgram program layout) image.nodeCode start.size
          program.functions⟩ := by
  simp only [Image.ofProgram, bind, Except.bind] at assembled
  split at assembled
  · cases assembled
  next pair ran =>
    obtain ⟨⟨⟩, progress⟩ := pair
    dsimp only at assembled
    split at assembled
    · cases assembled
    next start started =>
      cases assembled
      exact ⟨start, started, rfl, rfl⟩

/-- The code of an image is the start and the code of the functions with a body, which the
source map describes. -/
theorem mapped_of_ofProgram {program : Program} {layout : Layout} {image : Image}
    (distinct : program.Distinct) (assembled : Image.ofProgram program layout = .ok image) :
    ∃ start rest, startCode (.ofProgram program layout) image.nodeCode = .ok start ∧
      image.code = start ++ rest ∧
      Mapped program image.nodeCode start.size program.bodies image.sourceMap.entries rest := by
  have filed := fun function => @filed_of_ofProgram program layout image function distinct assembled
  have labelled : ∀ function ∈ program.functions, ∀ own,
      image.nodeCode[function.id]? = some own →
        0 < own.size ∧ ∃ name, own.head?.map Located.item = some (.label name) := by
    intro function inside own found
    have hasBody : function.isExternal = false := by
      have own := filed function inside
      rw [Filed, found] at own
      exact own.1
    obtain ⟨outer, other, -, -, -, same, items⟩ :=
      exists_functionCode distinct assembled inside hasBody
    cases Option.some.inj (found.symm.trans same)
    rw [Code.size_eq, ← List.head?_map, ← Code.items, items, functionInstrs]
    have bodySize := instrsSize_nonneg (stmtsInstrs (outer.enter (layout.frameOf function.id))
      (.ofProgram program layout) true function.body)
    have valueSize := instrsSize_nonneg (if leavesValue function.body then [] else [.push 0])
    simp only [instrsSize_append, instrsSize_cons, instrsSize_nil, Instr.size]
    exact ⟨by omega, _, rfl⟩
  obtain ⟨start, started, code, sourceMap⟩ := sourceMap_of_ofProgram assembled
  refine ⟨start, _, started, code, ?_⟩
  rw [sourceMap]
  exact mapped_functionEntries start.size filed labelled

/-- Where the instruction at an address stands in an image, and what the source map says about
the address. -/
inductive Traceable (program : Program) (image : Image) (start : Code) (labels : LabelTable)
    (pc : Int) (own : Opcode) : Prop
  /-- It belongs to the start, for which there is no entry. -/
  | start {before after : Code} {line : Located Instr} (stands : start = before ++ line :: after)
      (place : pc = before.size) (has : opcode labels line.item = .ok (some own))
      (unmapped : image.sourceMap.find? pc = none)
  /-- It belongs to a function, and the entry of the function is found. -/
  | function {function : FunDef} {entry : SourceMapEntry} {before after : Code}
      {line : Located Instr}
      (inside : (function, entry) ∈ program.bodies.zip image.sourceMap.entries)
      (stands : image.nodeCode[function.id]? = some (before ++ line :: after))
      (place : pc = entry.address + before.size) (has : opcode labels line.item = .ok (some own))
      (mapped : image.sourceMap.find? pc = some entry)

/-- Instructions of a loaded program can be traced. -/
theorem traceable_of_slot {program : Program} {image : Image} {config : Config}
    {executable : Executable} {start rest : Code}
    (loads : Executable.load config image.code image.data = .ok executable)
    (code : image.code = start ++ rest)
    (mapped : Mapped program image.nodeCode start.size program.bodies image.sourceMap.entries rest)
    {pc : Int} {own : Opcode} (slot : executable.slots[pc]? = some own) :
    Traceable program image start executable.labels pc own := by
  obtain ⟨before, line, after, split, has, place⟩ := exists_instr_of_slot loads slot
  have wide := Instr.size_pos_of_opcode has
  rw [code] at split
  rcases Code.line_of_append split with ⟨later, inStart⟩ | ⟨earlier, rfl, inRest⟩
  · refine .start inStart place has (mapped.tiles.find?_eq_none ?_)
    have laterSize := Code.size_nonneg later
    rw [inStart, Code.size_append, Code.size, place]
    omega
  · obtain ⟨function, entry, head, tail, inside, found, describes, here⟩ :=
      mapped.exists_entry inRest
    rw [Code.size_append, here] at place
    have headSize := Code.size_nonneg head
    have tailSize := Code.size_nonneg tail
    refine .function inside found place has
      (mapped.tiles.find?_eq_some (List.of_mem_zip inside).2 (by omega) ?_)
    rw [describes.size, Code.size_append, Code.size]
    omega

/-- The views of an image agree with each other and with the loaded program. -/
structure ViewsAgree (program : Program) (image : Image) (executable : Executable) (start : Code) :
    Prop where
  /-- After the start comes the code of every function with a body, in order. -/
  code : image.code = start ++ functionCode image.nodeCode program.bodies
  once : (program.bodies.map FunDef.id).Nodup
  /-- The source map has an entry for each of these functions, in the same order. -/
  entries : List.Forall₂ (fun function entry => ∃ own, image.nodeCode[function.id]? = some own ∧
    Describes program function own entry) program.bodies image.sourceMap.entries
  tiles : Tiles start.size image.sourceMap.entries image.code.size
  bound : ∀ entry ∈ image.sourceMap.entries, executable.label? entry.label = some entry.address
  /-- The listing shows the addresses that loading works with. -/
  addresses : image.listing.map ListingLine.address =
    (placeCode 0 image.code).map Prod.fst ++
      (Executable.placeData image.code.size image.data).map Prod.fst
  /-- What a line shows is at its address in the loaded program. -/
  lines : ∃ codeLines dataLines, image.listing = codeLines ++ dataLines ∧
    List.Forall₂ executable.ShowsInstr image.code codeLines ∧
    List.Forall₂ executable.ShowsDatum image.data dataLines
  dataEnd : image.code.size + image.data.size = executable.dataEnd
  traceable : ∀ pc own, executable.slots[pc]? = some own →
    Traceable program image start executable.labels pc own
  /-- The code of what a function consists of is part of its own. -/
  parts : ∀ function ∈ program.bodies, ∃ own, image.nodeCode[function.id]? = some own ∧
    Covers own image.nodeCode (ownIdsOfStmts function.body)

/-- The views of the image of a program with distinct numbers agree in every configuration in
which it can be loaded. -/
theorem views_agree {program : Program} {image : Image} {config : Config} {executable : Executable}
    (distinct : program.Distinct) (compiled : program.compile = .ok image)
    (loads : image.load config = .ok executable) :
    ∃ layout start, Layout.ofProgram program = .ok layout ∧
      startCode (.ofProgram program layout) image.nodeCode = .ok start ∧
      ViewsAgree program image executable start := by
  obtain ⟨layout, main, laid, assembled, shaped, placed, loaded⟩ :=
    exists_loaded distinct compiled loads
  obtain ⟨start, rest, started, code, mapped⟩ := mapped_of_ofProgram distinct assembled
  have codeSize := instrsSize_nonneg image.code.items
  have dataSize := itemsSize_nonneg loaded.rooms_nonneg
  have dataEnd := loaded.dataEnd_eq
  rw [← Code.size_eq] at codeSize dataEnd
  rw [← Data.size_eq] at dataSize dataEnd
  have codeFits : ∀ place instr, (place, instr) ∈ placeCode 0 image.code → Word.Fits place := by
    intro place instr inside
    have within := mem_placeCode inside
    have own := instr.size_nonneg
    exact loaded.fits within.1 (by omega)
  have dataFits : ∀ place item, (place, item) ∈ Executable.placeData image.code.size image.data →
      Word.Fits place := by
    intro place item inside
    have within := mem_placeData loaded.rooms_nonneg inside
    exact loaded.fits (by omega) (by omega)
  have tiles : Tiles start.size image.sourceMap.entries image.code.size := by
    rw [code, Code.size_append]
    exact mapped.tiles
  refine ⟨layout, start, laid, started, ?_⟩
  constructor
  case code => rw [code, mapped.code_eq]
  case once => exact (Program.nodup_functions distinct).sublist (List.filter_sublist.map _)
  case entries => exact mapped.describes
  case tiles => exact tiles
  case bound =>
    intro entry inside
    have placed := loaded.codeAt
    rw [code, Code.items_append, codeAt_append, Int.zero_add, ← Code.size_eq] at placed
    have startSize := instrsSize_nonneg (Code.items start)
    rw [← Code.size_eq] at startSize
    have within := tiles.within inside
    exact label?_of_fits (loaded.fits (by omega) (by omega)) (mapped.bound placed.2 entry inside)
  case addresses =>
    rw [Image.listing, List.map_append, map_address_codeListing, map_address_dataListing]
  case lines =>
    have dataAt := loaded.dataAt
    rw [← Code.size_eq] at dataAt
    exact ⟨_, _, rfl, shows_of_codeAt codeFits loaded.codeAt,
      shows_of_dataAt dataFits (fun _ _ => rooms_of_load placed loaded) dataAt⟩
  case dataEnd => exact dataEnd.symm
  case traceable => exact fun pc own => traceable_of_slot placed code mapped
  case parts =>
    intro function inside
    rw [Program.bodies, List.mem_filter] at inside
    have filed := filed_of_ofProgram distinct assembled inside.1
    rw [Filed] at filed
    cases found : image.nodeCode[function.id]? with
    | none =>
      rw [found] at filed
      simp [filed] at inside
    | some own =>
      rw [found] at filed
      exact ⟨own, rfl, filed.2⟩

/-- The views of the image of the sample agree, with two functions in it. -/
theorem views_agree_sample :
    ∃ image executable layout start, Program.sample.compile = .ok image ∧
      image.load .standard = .ok executable ∧ Layout.ofProgram .sample = .ok layout ∧
      startCode (.ofProgram .sample layout) image.nodeCode = .ok start ∧
      Program.sample.bodies.map FunDef.name = ["main", "limit"] ∧
      ViewsAgree .sample image executable start := by
  obtain ⟨image, executable, compiled, loads⟩ :=
    Program.exists_executable (show (Program.sample.load .standard).toOption.isSome = true by
      decide +kernel)
  obtain ⟨layout, start, laid, started, agree⟩ := views_agree (by decide +kernel) compiled loads
  exact ⟨image, executable, layout, start, compiled, loads, laid, started, by decide +kernel, agree⟩

end ScopeStack
