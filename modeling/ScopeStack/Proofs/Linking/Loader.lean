import ScopeStack.Executable
import ScopeStack.Proofs.Emission.Emitted
import ScopeStack.Proofs.Words

/-!
# What loading does

Loading puts the instructions of an image one after another from address zero,
and its data after them. `CodeAt` and `DataAt` say that instructions and data
lie at an address of a loaded program: a label is bound to its place, an
instruction is the opcode of its slot, and a data word is in memory. Both split
at concatenations, so they follow the structure of code.

If no label is bound twice and every name can be resolved, loading fails only
because of the configuration, and otherwise gives a program in which all code
and data lie in their places: `load_cases`.
-/

namespace ScopeStack

/-- The bytes that instructions take. -/
def instrsSize : List Instr → Int
  | [] => 0
  | instr :: rest => instr.size + instrsSize rest

/-- The bytes that data items take. -/
def itemsSize : List Datum → Int
  | [] => 0
  | item :: rest => item.byteSize + itemsSize rest

/-- No code takes no bytes. -/
@[simp] theorem instrsSize_nil : instrsSize [] = 0 := rfl

/-- The bytes of a first instruction and those of the remaining ones. -/
@[simp] theorem instrsSize_cons (instr : Instr) (rest : List Instr) :
    instrsSize (instr :: rest) = instr.size + instrsSize rest := rfl

/-- The bytes of two pieces of code. -/
@[simp] theorem instrsSize_append (first second : List Instr) :
    instrsSize (first ++ second) = instrsSize first + instrsSize second := by
  induction first with
  | nil => exact (Int.zero_add _).symm
  | cons instr rest hypothesis =>
    rw [List.cons_append, instrsSize_cons, hypothesis, instrsSize_cons, Int.add_assoc]

/-- No data take no bytes. -/
@[simp] theorem itemsSize_nil : itemsSize [] = 0 := rfl

/-- The bytes of a first item and those of the remaining ones. -/
@[simp] theorem itemsSize_cons (item : Datum) (rest : List Datum) :
    itemsSize (item :: rest) = item.byteSize + itemsSize rest := rfl

/-- The bytes of two lists of data. -/
@[simp] theorem itemsSize_append (first second : List Datum) :
    itemsSize (first ++ second) = itemsSize first + itemsSize second := by
  induction first with
  | nil => exact (Int.zero_add _).symm
  | cons item rest hypothesis =>
    rw [List.cons_append, itemsSize_cons, hypothesis, itemsSize_cons, Int.add_assoc]

/-- No instruction has a negative size. -/
theorem Instr.size_nonneg (instr : Instr) : 0 ≤ instr.size := by
  cases instr <;> simp [Instr.size]

/-- Only a label binds a name. -/
theorem Instr.eq_label_of_label? {instr : Instr} {name : String}
    (isLabel : instr.label? = some name) : instr = .label name := by
  cases instr with
  | label own =>
    cases isLabel
    rfl
  | _ => cases isLabel

/-- Instructions that are not labels take room. -/
theorem Instr.size_pos_of_opcode {labels : LabelTable} {instr : Instr} {own : Opcode}
    (has : Executable.opcode labels instr = .ok (some own)) : 0 < instr.size := by
  cases instr with
  | label name => cases has
  | _ => simp [Instr.size]

/-- No code has a negative size. -/
theorem instrsSize_nonneg (instrs : List Instr) : 0 ≤ instrsSize instrs := by
  induction instrs with
  | nil => exact Int.le_refl 0
  | cons instr rest hypothesis =>
    have own := instr.size_nonneg
    rw [instrsSize_cons]
    omega

/-- Data have no negative size unless a room has. -/
theorem itemsSize_nonneg {items : List Datum} (sizes : ∀ bytes, .size bytes ∈ items → 0 ≤ bytes) :
    0 ≤ itemsSize items := by
  induction items with
  | nil => exact Int.le_refl 0
  | cons item rest hypothesis =>
    have remaining := hypothesis fun bytes inside => sizes bytes (List.mem_cons_of_mem _ inside)
    have own : 0 ≤ item.byteSize := by
      cases item with
      | size bytes => exact sizes bytes List.mem_cons_self
      | _ => simp [Datum.byteSize]
    rw [itemsSize_cons]
    omega

/-- The size of code does not depend on its places in the source. -/
theorem Code.size_eq (code : Code) : Code.size code = instrsSize code.items := by
  induction code with
  | nil => rfl
  | cons line rest hypothesis => exact congrArg (line.item.size + ·) hypothesis

/-- The size of data does not depend on their places in the source. -/
theorem Data.size_eq (data : Data) : Data.size data = itemsSize (data.map Located.item) := by
  induction data with
  | nil => rfl
  | cons line rest hypothesis => exact congrArg (line.item.byteSize + ·) hypothesis

namespace Executable

/-- An instruction lies at an address. -/
def InstrAt (labels : LabelTable) (slots : Std.TreeMap Int Opcode) (address : Int)
    (instr : Instr) : Prop :=
  match instr with
  | .label name => labels[name]? = some (Word.ofInt address)
  | _ => ∃ own, opcode labels instr = .ok (some own) ∧ slots[address]? = some own

/-- Instructions lie one after another from an address on. -/
def CodeAt (labels : LabelTable) (slots : Std.TreeMap Int Opcode) : Int → List Instr → Prop
  | _, [] => True
  | address, instr :: rest =>
    InstrAt labels slots address instr ∧ CodeAt labels slots (address + instr.size) rest

/-- A data item lies at an address. -/
def DatumAt (labels : LabelTable) (memory : Memory) (address : Int) : Datum → Prop
  | .label name => labels[name]? = some (Word.ofInt address)
  | .size _ => True
  | .data value => memory.word address = Word.ofInt value

/-- Data items lie one after another from an address on. -/
def DataAt (labels : LabelTable) (memory : Memory) : Int → List Datum → Prop
  | _, [] => True
  | address, item :: rest =>
    DatumAt labels memory address item ∧ DataAt labels memory (address + item.byteSize) rest

/-- Two pieces of code are loaded one after the other. -/
theorem codeAt_append {labels : LabelTable} {slots : Std.TreeMap Int Opcode} {address : Int}
    {first second : List Instr} :
    CodeAt labels slots address (first ++ second) ↔
      CodeAt labels slots address first ∧ CodeAt labels slots (address + instrsSize first) second := by
  induction first generalizing address with
  | nil => simp [CodeAt]
  | cons instr rest hypothesis =>
    simp only [List.cons_append, CodeAt, hypothesis, instrsSize_cons, and_assoc, Int.add_assoc]

/-- The same address may be written differently. -/
theorem CodeAt.moved {labels : LabelTable} {slots : Std.TreeMap Int Opcode} {address other : Int}
    {instrs : List Instr} (placed : CodeAt labels slots address instrs) (same : other = address) :
    CodeAt labels slots other instrs := same ▸ placed

/-- Two lists of data are loaded one after the other. -/
theorem dataAt_append {labels : LabelTable} {memory : Memory} {address : Int}
    {first second : List Datum} :
    DataAt labels memory address (first ++ second) ↔
      DataAt labels memory address first ∧
        DataAt labels memory (address + itemsSize first) second := by
  induction first generalizing address with
  | nil => simp [DataAt]
  | cons item rest hypothesis =>
    simp only [List.cons_append, DataAt, hypothesis, itemsSize_cons, and_assoc, Int.add_assoc]

/-- Different labels can be bound, each to its address; no other label is
bound. -/
theorem bindLabels_eq_ok {places : List (Int × String)} {labels : LabelTable}
    (distinct : (places.map Prod.snd).Nodup)
    (unbound : ∀ name ∈ places.map Prod.snd, labels[name]? = none) :
    ∃ bound, bindLabels places labels = .ok bound ∧
      (∀ address name, (address, name) ∈ places → bound[name]? = some (Word.ofInt address)) ∧
      ∀ name, name ∉ places.map Prod.snd → bound[name]? = labels[name]? := by
  induction places generalizing labels with
  | nil => exact ⟨labels, rfl, fun _ _ inside => (nomatch inside), fun _ _ => rfl⟩
  | cons first rest hypothesis =>
    obtain ⟨address, name⟩ := first
    rw [List.map_cons, List.nodup_cons] at distinct
    have absent : labels.contains name = false := by
      rw [← Std.TreeMap.isSome_getElem?_eq_contains, unbound name List.mem_cons_self]
      rfl
    have unboundRest : ∀ other ∈ rest.map Prod.snd,
        (labels.insert name (Word.ofInt address))[other]? = none := by
      intro other inside
      have different : name ≠ other := fun same => distinct.1 (same ▸ inside)
      rw [Std.TreeMap.getElem?_insert]
      simpa [different] using unbound other (List.mem_cons_of_mem _ inside)
    obtain ⟨bound, ok, inside, outside⟩ := hypothesis distinct.2 unboundRest
    refine ⟨bound, ?_, ?_, ?_⟩
    · rw [bindLabels, absent]
      exact ok
    · intro other label member
      rcases List.mem_cons.mp member with same | later
      · cases same
        rw [outside name distinct.1, Std.TreeMap.getElem?_insert_self]
      · exact inside other label later
    · intro other absentOther
      rw [List.map_cons, List.mem_cons, not_or] at absentOther
      rw [outside other absentOther.2, Std.TreeMap.getElem?_insert]
      simp [Ne.symm absentOther.1]

/-- The labels of the code after an instruction are among those of the whole. -/
theorem mem_codeLabels_cons {line : Located Instr} {rest : Code} {address : Int}
    {own : Int × String} (inside : own ∈ codeLabels (placeCode (address + line.item.size) rest)) :
    own ∈ codeLabels (placeCode address (line :: rest)) := by
  rw [placeCode, codeLabels, List.filterMap_cons]
  split
  · exact inside
  · exact List.mem_cons_of_mem _ inside

/-- The labels of the data after an item are among those of the whole. -/
theorem mem_dataLabels_cons {line : Located Datum} {rest : Data} {address : Int}
    {own : Int × String}
    (inside : own ∈ dataLabels (placeData (address + line.item.byteSize) rest)) :
    own ∈ dataLabels (placeData address (line :: rest)) := by
  rw [placeData, dataLabels, List.filterMap_cons]
  split
  · exact inside
  · exact List.mem_cons_of_mem _ inside

/-- A name that is bound, or that is the name of a service, can be resolved. -/
theorem exists_resolve {labels : LabelTable} {target : String}
    (known : (∃ address, labels[target]? = some address) ∨ (Service.ofName? target).isSome) :
    ∃ address, resolve labels target = .ok address := by
  rcases known with ⟨address, found⟩ | isService
  · exact ⟨address, by rw [resolve, found]⟩
  · obtain ⟨service, found⟩ := Option.isSome_iff_exists.mp isService
    rw [resolve]
    split
    · exact ⟨_, rfl⟩
    · exact ⟨Word.ofInt service.address, by rw [found]⟩

/-- An instruction whose name can be resolved has an opcode unless it is a
label. -/
theorem exists_opcode {labels : LabelTable} {instr : Instr}
    (resolved : ∀ target, instr = .name target → ∃ address, resolve labels target = .ok address)
    (notLabel : instr.label? = none) : ∃ own, opcode labels instr = .ok (some own) := by
  cases instr with
  | label name => cases notLabel
  | name target =>
    obtain ⟨address, found⟩ := resolved target rfl
    exact ⟨.push address, by simp [opcode, found, Except.map]⟩
  | _ => exact ⟨_, rfl⟩

/-- The opcode of an instruction lies at the address of the instruction. -/
theorem instrAt_of_opcode {labels : LabelTable} {slots : Std.TreeMap Int Opcode} {address : Int}
    {instr : Instr} {own : Opcode} (has : opcode labels instr = .ok (some own))
    (found : slots[address]? = some own) : InstrAt labels slots address instr := by
  cases instr with
  | label name => cases has
  | _ => exact ⟨own, has, found⟩

/-- Where all names can be resolved and the labels are bound, filling the slots
puts code in its place and leaves lower addresses alone. -/
theorem fillSlots_eq_ok {labels : LabelTable} {code : Code} {address : Int}
    (resolved : ∀ target, .name target ∈ code.items →
      ∃ address, resolve labels target = .ok address)
    (bound : ∀ place name, (place, name) ∈ codeLabels (placeCode address code) →
      labels[name]? = some (Word.ofInt place)) (slots : Std.TreeMap Int Opcode) :
    ∃ filled, fillSlots labels (placeCode address code) slots = .ok filled ∧
      (∀ lower, lower < address → filled[lower]? = slots[lower]?) ∧
      CodeAt labels filled address code.items := by
  induction code generalizing address slots with
  | nil => exact ⟨slots, rfl, fun _ _ => rfl, trivial⟩
  | cons line rest hypothesis =>
    have items : Code.items (line :: rest) = line.item :: Code.items rest := rfl
    have resolvedRest : ∀ target, .name target ∈ Code.items rest →
        ∃ address, resolve labels target = .ok address :=
      fun target inside => resolved target (by rw [items]; exact List.mem_cons_of_mem _ inside)
    have boundRest : ∀ place name,
        (place, name) ∈ codeLabels (placeCode (address + line.item.size) rest) →
          labels[name]? = some (Word.ofInt place) :=
      fun place name inside => bound place name (mem_codeLabels_cons inside)
    cases isLabel : line.item.label? with
    | some name =>
      have own := Instr.eq_label_of_label? isLabel
      obtain ⟨filled, ok, lower, placed⟩ := hypothesis resolvedRest boundRest slots
      refine ⟨filled, ?_, ?_, ?_⟩
      · rw [placeCode, fillSlots, own]
        rw [own] at ok
        exact ok
      · intro other below
        apply lower
        rw [own]
        exact Int.lt_of_lt_of_le below (by simp [Instr.size])
      · rw [items, CodeAt]
        refine ⟨?_, placed⟩
        rw [own, InstrAt]
        apply bound
        rw [placeCode, codeLabels, List.filterMap_cons, own]
        exact List.mem_cons_self
    | none =>
      obtain ⟨own, found⟩ := exists_opcode (fun target same =>
        resolved target (by rw [items, same]; exact List.mem_cons_self)) isLabel
      have positive := Instr.size_pos_of_opcode found
      obtain ⟨filled, ok, lower, placed⟩ :=
        hypothesis resolvedRest boundRest (slots.insert address own)
      refine ⟨filled, ?_, ?_, ?_⟩
      · rw [placeCode, fillSlots, found]
        exact ok
      · intro other below
        rw [lower other (by omega), Std.TreeMap.getElem?_insert]
        simp [show address ≠ other by omega]
      · rw [items, CodeAt]
        refine ⟨instrAt_of_opcode found ?_, placed⟩
        rw [lower address (by omega), Std.TreeMap.getElem?_insert_self]

/-- Data without negative sizes that fit below the top of the stack are stored
word by word. -/
theorem storeData_eq_ok {labels : LabelTable} {stackTop : Int} {data : Data} {address : Int}
    {memory : Memory} (sizes : ∀ bytes, .size bytes ∈ data.map Located.item → 0 ≤ bytes)
    (bound : ∀ place name, (place, name) ∈ dataLabels (placeData address data) →
      labels[name]? = some (Word.ofInt place))
    (low : memory.codeSize ≤ address) (nonneg : 0 ≤ address)
    (high : address + itemsSize (data.map Located.item) ≤ memory.size)
    (small : memory.size ≤ 2147483647) :
    ∃ stored, storeData stackTop (placeData address data) memory = .ok stored ∧
      stored.size = memory.size ∧ stored.codeSize = memory.codeSize ∧
      (∀ lower, lower < address → stored.byte lower = memory.byte lower) ∧
      DataAt labels stored address (data.map Located.item) := by
  induction data generalizing address memory with
  | nil => exact ⟨memory, rfl, rfl, rfl, fun _ _ => rfl, trivial⟩
  | cons line rest hypothesis =>
    rw [List.map_cons] at sizes high
    have sizesRest : ∀ bytes, .size bytes ∈ rest.map Located.item → 0 ≤ bytes :=
      fun bytes inside => sizes bytes (List.mem_cons_of_mem _ inside)
    have ownSize : 0 ≤ line.item.byteSize := by
      cases item : line.item with
      | size bytes => exact sizes bytes (by rw [item]; exact List.mem_cons_self)
      | _ => simp [Datum.byteSize]
    have restSize := itemsSize_nonneg sizesRest
    rw [itemsSize_cons] at high
    have boundRest : ∀ place name,
        (place, name) ∈ dataLabels (placeData (address + line.item.byteSize) rest) →
          labels[name]? = some (Word.ofInt place) :=
      fun place name inside => bound place name (mem_dataLabels_cons inside)
    by_cases isWord : ∃ value, line.item = .data value
    · obtain ⟨value, item⟩ := isWord
      have wide : line.item.byteSize = 4 := by rw [item, Datum.byteSize]
      rw [wide] at high boundRest
      have place_eq : (Word.ofInt address).toInt = address :=
        Word.toInt_ofInt ⟨by omega, by omega⟩
      have store_eq : memory.store (Word.ofInt address).toInt (Word.ofInt value) =
          .ok (memory.setWord address (Word.ofInt value)) := by
        rw [place_eq, Memory.store, if_pos ⟨low, by omega⟩]
      obtain ⟨stored, ok, sameSize, sameCode, lower, placed⟩ :=
        @hypothesis (address + 4) (memory.setWord address (Word.ofInt value)) sizesRest boundRest
          (by rw [Memory.codeSize_setWord]; omega) (by omega)
          (by rw [Memory.size_setWord]; omega) (by rw [Memory.size_setWord]; exact small)
      refine ⟨stored, ?_, sameSize, sameCode, ?_, ?_, ?_⟩
      · rw [placeData, wide, item, storeData, store_eq]
        exact ok
      · intro other below
        rw [lower other (by omega), Memory.byte_setWord, if_neg (by omega)]
      · rw [item, DatumAt, ← Memory.word_setWord memory address (Word.ofInt value)]
        apply Memory.word_congr
        intro index _ inside
        exact lower index (by omega)
      · rw [wide]
        exact placed
    · -- Labels and rooms take no store; memory has been cleared.
      obtain ⟨stored, ok, sameSize, sameCode, lower, placed⟩ := hypothesis sizesRest boundRest
        (by omega) (by omega) (by omega) small
      refine ⟨stored, ?_, sameSize, sameCode, fun other below => lower other (by omega), ?_, placed⟩
      · rw [placeData, storeData]
        · exact ok
        · exact fun _ value own => isWord ⟨value, (Prod.mk.inj own).2⟩
      · cases item : line.item with
        | data value => exact absurd ⟨value, item⟩ isWord
        | size bytes => trivial
        | label name =>
          rw [DatumAt]
          apply bound
          rw [placeData, dataLabels, List.filterMap_cons, item]
          exact List.mem_cons_self

/-- The labels that code binds are those of its label instructions. -/
theorem map_snd_codeLabels (code : Code) (address : Int) :
    (codeLabels (placeCode address code)).map Prod.snd = code.items.filterMap Instr.label? := by
  induction code generalizing address with
  | nil => rfl
  | cons line rest hypothesis =>
    have remaining := hypothesis (address + line.item.size)
    rw [codeLabels] at remaining
    change _ = (line.item :: Code.items rest).filterMap Instr.label?
    rw [placeCode, codeLabels, List.filterMap_cons, List.filterMap_cons]
    dsimp only
    cases line.item.label? with
    | none => exact remaining
    | some name => exact congrArg (name :: ·) remaining

/-- The labels that data bind are those of their label items. -/
theorem map_snd_dataLabels (data : Data) (address : Int) :
    (dataLabels (placeData address data)).map Prod.snd =
      (data.map Located.item).filterMap Datum.label? := by
  induction data generalizing address with
  | nil => rfl
  | cons line rest hypothesis =>
    have remaining := hypothesis (address + line.item.byteSize)
    rw [dataLabels] at remaining
    rw [List.map_cons, placeData, dataLabels, List.filterMap_cons, List.filterMap_cons]
    dsimp only
    cases line.item.label? with
    | none => exact remaining
    | some name => exact congrArg (name :: ·) remaining

/-- The labels that code and data bind. -/
def boundLabels (code : List Instr) (data : List Datum) : List String :=
  code.filterMap Instr.label? ++ data.filterMap Datum.label?

/-- A program has been loaded: its code lies at address zero, its data after
the code, and all of it below the top of the stack. -/
structure Loaded (config : Config) (code : List Instr) (data : List Datum)
    (executable : Executable) : Prop where
  config_eq : executable.config = config
  stackTop_pos : 0 < config.stackTop
  stackTop_le : config.stackTop ≤ Config.maxStackTop
  stackTop_aligned : config.stackTop % 4 = 0
  codeAt : CodeAt executable.labels executable.slots 0 code
  dataAt : DataAt executable.labels executable.memory (instrsSize code) data
  /-- No other label is bound. -/
  unbound : ∀ name, name ∉ boundLabels code data → executable.labels[name]? = none
  rooms_nonneg : ∀ bytes, .size bytes ∈ data → 0 ≤ bytes
  dataEnd_eq : executable.dataEnd = instrsSize code + itemsSize data
  dataEnd_le : executable.dataEnd ≤ config.stackTop
  size_eq : (executable.memory.size : Int) = config.stackTop
  codeSize_eq : executable.memory.codeSize = instrsSize code

/-- Code and data whose labels are different, whose names are labels or
services and whose sizes are not negative can be loaded unless the
configuration does not allow it. The sizes matter only if code and data are small
enough for some configuration. -/
theorem load_cases (config : Config) {code : Code} {data : Data}
    (distinct : (boundLabels code.items (data.map Located.item)).Nodup)
    (resolvable : ∀ target, .name target ∈ code.items →
      target ∈ boundLabels code.items (data.map Located.item) ∨
        (Service.ofName? target).isSome)
    (sizes : code.size + data.size ≤ Config.maxStackTop →
      ∀ bytes, .size bytes ∈ data.map Located.item → 0 ≤ bytes) :
    (∃ executable, load config code data = .ok executable ∧
        Loaded config code.items (data.map Located.item) executable) ∨
      load config code data = .error (.invalidStackTop config.stackTop) ∨
      ∃ size, load config code data = .error (.imageTooLarge size config.stackTop) := by
  by_cases invalid : config.stackTop ≤ 0 ∨ config.stackTop % 4 ≠ 0 ∨
      Config.maxStackTop < config.stackTop
  · refine .inr (.inl ?_)
    rw [load, Config.validate, if_pos invalid]
    rfl
  have names : (codeLabels (placeCode 0 code) ++ dataLabels (placeData code.size data)).map
      Prod.snd = boundLabels code.items (data.map Located.item) := by
    rw [List.map_append, map_snd_codeLabels, map_snd_dataLabels, boundLabels]
  obtain ⟨labels, bound, places, others⟩ := @bindLabels_eq_ok _ ∅ (names ▸ distinct)
    (fun name _ => Std.TreeMap.getElem?_emptyc)
  by_cases large : config.stackTop < code.size + data.size
  · refine .inr (.inr ⟨code.size + data.size, ?_⟩)
    simp only [load, place, Config.validate, if_neg invalid, bound, if_pos large, bind, Except.bind]
    rfl
  replace sizes := sizes (by omega)
  have codeSize_eq := Code.size_eq code
  have dataSize_eq := Data.size_eq data
  have codeSize_nonneg := instrsSize_nonneg code.items
  have dataSize_nonneg := itemsSize_nonneg sizes
  have most : Config.maxStackTop = 268435456 := rfl
  obtain ⟨memory, stored, sameSize, sameCode, -, placedData⟩ :=
    @storeData_eq_ok labels config.stackTop data code.size
      (.zero config.stackTop.toNat code.size) sizes
      (fun place name inside => places place name (List.mem_append_right _ inside))
      (Int.le_refl _) (by omega) (by simp only [Memory.zero]; omega)
      (by simp only [Memory.zero]; omega)
  obtain ⟨slots, filled, -, placedCode⟩ := fillSlots_eq_ok
    (fun target inside => by
      refine exists_resolve ((resolvable target inside).imp_left fun isLabel => ?_)
      rw [← names] at isLabel
      obtain ⟨⟨place, name⟩, member, rfl⟩ := List.mem_map.mp isLabel
      exact ⟨_, places place name member⟩)
    (fun place name inside => places place name (List.mem_append_left _ inside)) ∅
  refine .inl ⟨⟨config, slots, labels, memory, (Word.ofInt (code.size + data.size)).toInt⟩, ?_, ?_⟩
  · simp only [load, place, Config.validate, if_neg invalid, bound, if_neg large, stored, filled, bind,
      Except.bind]
    rfl
  · have dataEnd_eq : (Word.ofInt (code.size + data.size)).toInt = code.size + data.size :=
      Word.toInt_ofInt ⟨by omega, by omega⟩
    refine ⟨rfl, by omega, by omega, by omega, placedCode, ?_, ?_, sizes, ?_, ?_, ?_, ?_⟩
    · rw [← codeSize_eq]
      exact placedData
    · intro name absent
      rw [← names] at absent
      exact (others name absent).trans Std.TreeMap.getElem?_emptyc
    · dsimp only
      rw [dataEnd_eq, codeSize_eq, dataSize_eq]
    · dsimp only
      omega
    · dsimp only
      rw [sameSize]
      simp only [Memory.zero]
      omega
    · dsimp only
      rw [sameCode]
      exact codeSize_eq

end Executable

end ScopeStack
