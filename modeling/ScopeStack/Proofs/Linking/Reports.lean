import Mathlib.Algebra.Ring.Int.Defs
import Mathlib.Data.List.Induction
import ScopeStack.Proofs.Linking.Views

/-!
# What loading reports, and what it makes of a program

Putting code and data in their places fails for one of three reasons, which are looked for one
after another: a label that is bound twice, an image that does not fit, and a name that stands
for nothing. `placing_exact` says which of them is reported for which code and data, and that a
program for which there is none of them is placed as `Placed` describes: addresses are sums of
sizes, and what lies at an address can be read off the code and the data.

The label or name that is reported is the first of its kind. So there is a part of the code or
data before it that raises no objection, and the lemmas about reports go along this part.
-/

namespace ScopeStack

open Executable

/-- The label is the first one in a list that has occurred before. -/
def FirstRepeated (labels : List String) (label : String) : Prop :=
  ∃ before after, labels = before ++ label :: after ∧ before.Nodup ∧ label ∈ before

/-- Labels are all different, or one of them is the first that has been seen before. -/
theorem nodup_or_firstRepeated (labels : List String) :
    labels.Nodup ∨ ∃ label, FirstRepeated labels label := by
  induction labels using List.reverseRecOn with
  | nil => exact .inl List.nodup_nil
  | append_singleton labels last hypothesis =>
    rcases hypothesis with distinct | ⟨label, before, after, rfl, unrepeated, inside⟩
    · by_cases inside : last ∈ labels
      · exact .inr ⟨last, labels, [], rfl, distinct, inside⟩
      · refine .inl (List.nodup_append.mpr ⟨distinct, List.nodup_singleton last, ?_⟩)
        rintro label member other atEnd rfl
        exact inside (List.mem_singleton.mp atEnd ▸ member)
    · exact .inr ⟨label, before, after ++ [last], by simp, unrepeated, inside⟩

/-- An item stands at an address if lines are put one after another from a start on: the sizes
of the lines before it add up to its distance from the start. -/
def Stands {α : Type} (size : α → Int) (lines : List (Located α)) (start address : Int)
    (item : α) : Prop :=
  ∃ before line after, lines = before ++ line :: after ∧ line.item = item ∧
    address = start + (before.map fun line => size line.item).sum

/-- The size of code is the sum of the sizes of its instructions. -/
theorem Code.size_eq_sum (code : Code) : code.size = (code.map fun line => line.item.size).sum := by
  induction code with
  | nil => rfl
  | cons line rest hypothesis => rw [Code.size, hypothesis, List.map_cons, List.sum_cons]

/-- A service is found under its own name alone. -/
theorem Service.ofName?_eq_some_iff {name : String} {service : Service} :
    ofName? name = some service ↔ service.name = name := by
  constructor
  · intro found
    have same := List.find?_some found
    exact beq_iff_eq.mp same
  · rintro rfl
    cases service <;> decide

namespace Executable

/-- An instruction stands at an address of code that starts at address zero. -/
def InCode (code : Code) (address : Int) (instr : Instr) : Prop :=
  Stands Instr.size code 0 address instr

/-- An item stands at an address of data that follow code. -/
def InData (code : Code) (data : Data) (address : Int) (item : Datum) : Prop :=
  Stands Datum.byteSize data code.size address item

/-- A label stands at an address of code or data. -/
def Binds (code : Code) (data : Data) (label : String) (address : Int) : Prop :=
  InCode code address (.label label) ∨ InData code data address (.label label)

/-- A name is a label of the program or the name of a service. -/
def Known (code : Code) (data : Data) (target : String) : Prop :=
  target ∈ boundLabels code.items (data.map Located.item) ∨
    ∃ service : Service, service.name = target

/-- The name is the first one in the code that is neither a label nor a service. -/
def FirstUnknown (code : Code) (data : Data) (target : String) : Prop :=
  ∃ before line after, code = before ++ line :: after ∧ line.item = .name target ∧
    ¬Known code data target ∧ ∀ other, .name other ∈ Code.items before → Known code data other

/-- What is carried out for an instruction. A name stands for the address of its label, and for
a service only if there is no such label. -/
inductive Becomes (code : Code) (data : Data) : Instr → Opcode → Prop
  | push (value : Int) : Becomes code data (.push value) (.push (Word.ofInt value))
  | label {target : String} {address : Int} (bound : Binds code data target address) :
      Becomes code data (.name target) (.push (Word.ofInt address))
  | service (service : Service) (unbound : ∀ address, ¬Binds code data service.name address) :
      Becomes code data (.name service.name) (.push (Word.ofInt service.address))
  | load : Becomes code data .load .load
  | save : Becomes code data .save .save
  | popn : Becomes code data .popn .popn
  | unary (op : UnaryOper) : Becomes code data (.unary op) (.unary op)
  | binary (op : BinaryOp) : Becomes code data (.binary op) (.binary op)
  | ujmp : Becomes code data .ujmp .ujmp
  | cjmp : Becomes code data .cjmp .cjmp
  | call (callee : Option String) : Becomes code data (.call callee) .call
  | retn (function : Option String) : Becomes code data (.retn function) .retn
  | init : Becomes code data .init .init
  | regn (reg : Reg) : Becomes code data (.regn reg) (.regn reg)

/-- A program in its place. -/
structure Placed (config : Config) (code : Code) (data : Data) (executable : Executable) :
    Prop where
  config_eq : executable.config = config
  /-- Every instruction is where the sizes before it put it. -/
  filled : ∀ address instr, InCode code address instr → instr.label? = none →
    ∃ own, Becomes code data instr own ∧ executable.slots[address]? = some own
  /-- There are no other instructions. -/
  nothingElse : ∀ address own, executable.slots[address]? = some own →
    ∃ instr, InCode code address instr ∧ Becomes code data instr own
  labels : ∀ label address, executable.label? label = some address ↔ Binds code data label address
  words : ∀ address value, InData code data address (.data value) →
    executable.memory.load address = .ok (Word.ofInt value)
  /-- Every byte outside the data words is zero. -/
  zeros : ∀ address, (∀ start value, InData code data start (.data value) →
    address < start ∨ start + 4 ≤ address) → executable.memory.byte address = 0
  size_eq : (executable.memory.size : Int) = config.stackTop
  codeSize_eq : executable.memory.codeSize = code.size
  dataEnd_eq : executable.dataEnd = code.size + data.size

section Places

/-- Items with their addresses. -/
def placeFrom {α : Type} (size : α → Int) : Int → List (Located α) → List (Int × α)
  | _, [] => []
  | address, line :: rest => (address, line.item) :: placeFrom size (address + size line.item) rest

/-- What is placed at an address stands there. -/
theorem mem_placeFrom_iff {α : Type} {size : α → Int} {lines : List (Located α)}
    {start address : Int} {item : α} :
    (address, item) ∈ placeFrom size start lines ↔ Stands size lines start address item := by
  induction lines generalizing start with
  | nil => simp [placeFrom, Stands]
  | cons first rest hypothesis =>
    rw [placeFrom, List.mem_cons, hypothesis]
    constructor
    · rintro (same | ⟨before, line, after, rfl, rfl, rfl⟩)
      · cases same
        exact ⟨[], first, rest, rfl, rfl, by simp⟩
      · exact ⟨first :: before, line, after, rfl, rfl, by simp [Int.add_assoc]⟩
    · rintro ⟨_ | ⟨head, before⟩, line, after, split, rfl, rfl⟩
      · cases split
        exact .inl (by simp)
      · cases split
        exact .inr ⟨before, line, after, rfl, rfl, by simp [Int.add_assoc]⟩

/-- Code is placed by the sizes of its instructions. -/
theorem placeCode_eq (start : Int) (code : Code) :
    placeCode start code = placeFrom Instr.size start code := by
  induction code generalizing start with
  | nil => rfl
  | cons line rest hypothesis => rw [placeCode, placeFrom, hypothesis]

/-- Data are placed by the sizes of their items. -/
theorem placeData_eq (start : Int) (data : Data) :
    placeData start data = placeFrom Datum.byteSize start data := by
  induction data generalizing start with
  | nil => rfl
  | cons line rest hypothesis => rw [placeData, placeFrom, hypothesis]

variable {code : Code} {data : Data} {address : Int}

/-- An instruction is placed where it stands in the code. -/
theorem mem_placeCode_iff {instr : Instr} :
    (address, instr) ∈ placeCode 0 code ↔ InCode code address instr := by
  rw [placeCode_eq, mem_placeFrom_iff, InCode]

/-- An item is placed where it stands in the data, which follow the code. -/
theorem mem_placeData_iff {item : Datum} :
    (address, item) ∈ placeData code.size data ↔ InData code data address item := by
  rw [placeData_eq, mem_placeFrom_iff, InData]

/-- The labels with their addresses, in the order in which they are bound. -/
def labelPlaces (code : Code) (data : Data) : List (Int × String) :=
  codeLabels (placeCode 0 code) ++ dataLabels (placeData code.size data)

/-- The labels that get an address are those of code and data, in order. -/
theorem map_snd_labelPlaces (code : Code) (data : Data) :
    (labelPlaces code data).map Prod.snd = boundLabels code.items (data.map Located.item) := by
  rw [labelPlaces, List.map_append, map_snd_codeLabels, map_snd_dataLabels, boundLabels]

/-- The labels in placed code. -/
theorem mem_codeLabels_iff {placed : List (Int × Instr)} {label : String} :
    (address, label) ∈ codeLabels placed ↔ (address, .label label) ∈ placed := by
  rw [codeLabels, List.mem_filterMap]
  constructor
  · rintro ⟨⟨place, instr⟩, inside, found⟩
    cases instr <;> cases found
    exact inside
  · intro inside
    exact ⟨_, inside, rfl⟩

/-- The labels in placed data. -/
theorem mem_dataLabels_iff {placed : List (Int × Datum)} {label : String} :
    (address, label) ∈ dataLabels placed ↔ (address, .label label) ∈ placed := by
  rw [dataLabels, List.mem_filterMap]
  constructor
  · rintro ⟨⟨place, item⟩, inside, found⟩
    cases item <;> cases found
    exact inside
  · intro inside
    exact ⟨_, inside, rfl⟩

/-- A label gets the address that code or data bind it to. -/
theorem mem_labelPlaces_iff {label : String} :
    (address, label) ∈ labelPlaces code data ↔ Binds code data label address := by
  rw [labelPlaces, List.mem_append, mem_codeLabels_iff, mem_dataLabels_iff, mem_placeCode_iff,
    mem_placeData_iff, Binds]

/-- A label is among those of code and data if it is bound to an address. -/
theorem mem_boundLabels_iff {label : String} :
    label ∈ boundLabels code.items (data.map Located.item) ↔
      ∃ address, Binds code data label address := by
  rw [← map_snd_labelPlaces, List.mem_map]
  constructor
  · rintro ⟨⟨address, name⟩, inside, rfl⟩
    exact ⟨address, mem_labelPlaces_iff.mp inside⟩
  · rintro ⟨address, bound⟩
    exact ⟨_, mem_labelPlaces_iff.mpr bound, rfl⟩

end Places

section Labels

variable {code : Code} {data : Data} {labels : LabelTable}

/-- Binding labels stops at the first one that is bound already. -/
theorem bindLabels_of_repeated {before after : List (Int × String)} {address : Int}
    {label : String} (distinct : (before.map Prod.snd).Nodup)
    (unbound : ∀ name ∈ before.map Prod.snd, labels.contains name = false)
    (again : label ∈ before.map Prod.snd ∨ labels.contains label = true) :
    bindLabels (before ++ (address, label) :: after) labels = .error (.duplicateLabel label) := by
  induction before generalizing labels with
  | nil =>
    rcases again with inside | bound
    · cases inside
    · rw [List.nil_append, bindLabels, if_pos bound]
  | cons first rest hypothesis =>
    obtain ⟨place, name⟩ := first
    rw [List.map_cons] at distinct unbound again
    rw [List.nodup_cons] at distinct
    rw [List.forall_mem_cons] at unbound
    rw [List.cons_append, bindLabels, unbound.1]
    refine hypothesis distinct.2 ?_ ?_
    · intro other inside
      have different : name ≠ other := fun same => distinct.1 (same ▸ inside)
      rw [Std.TreeMap.contains_insert, unbound.2 other inside]
      simpa using different
    · rw [List.mem_cons] at again
      rw [Std.TreeMap.contains_insert]
      rcases again with (rfl | inside) | bound
      · simp
      · exact .inl inside
      · simp [bound]

/-- The labels that have been bound are those of code and data, each at its address. -/
theorem getElem?_of_bindLabels (bound : bindLabels (labelPlaces code data) ∅ = .ok labels)
    {label : String} {word : Word} :
    labels[label]? = some word ↔
      ∃ address, Binds code data label address ∧ word = Word.ofInt address := by
  obtain ⟨table, same, places, others⟩ := @bindLabels_eq_ok _ ∅ (nodup_of_bindLabels bound).1
    (fun name _ => Std.TreeMap.getElem?_emptyc)
  cases Except.ok.inj (bound.symm.trans same)
  constructor
  · intro found
    by_cases inside : label ∈ (labelPlaces code data).map Prod.snd
    · obtain ⟨⟨address, name⟩, member, rfl⟩ := List.mem_map.mp inside
      rw [places address name member] at found
      exact ⟨address, mem_labelPlaces_iff.mp member, (Option.some.inj found).symm⟩
    · rw [others label inside, Std.TreeMap.getElem?_emptyc] at found
      cases found
  · rintro ⟨address, binds, rfl⟩
    exact places address label (mem_labelPlaces_iff.mpr binds)

end Labels

section Names

variable {code : Code} {data : Data} {labels : LabelTable}
  (bound : bindLabels (labelPlaces code data) ∅ = .ok labels)

include bound

/-- A name stands for the address of its label, else for that of a service. -/
theorem resolve_eq_ok_iff {target : String} {place : Word} :
    resolve labels target = .ok place ↔
      (∃ address, Binds code data target address ∧ place = Word.ofInt address) ∨
        (∀ address, ¬Binds code data target address) ∧
          ∃ service : Service, service.name = target ∧ place = Word.ofInt service.address := by
  have exact := @getElem?_of_bindLabels code data labels bound target
  rw [resolve]
  cases found : labels[target]? with
  | some word =>
    obtain ⟨address, binds, rfl⟩ := exact.mp found
    constructor
    · intro same
      cases same
      exact .inl ⟨address, binds, rfl⟩
    · rintro (⟨other, otherBinds, rfl⟩ | ⟨unbound, -⟩)
      · have again := exact.mpr ⟨other, otherBinds, rfl⟩
        rw [found] at again
        rw [Option.some.inj again]
      · exact absurd binds (unbound address)
  | none =>
    have unbound : ∀ address, ¬Binds code data target address := by
      intro address binds
      have again := exact.mpr ⟨address, binds, rfl⟩
      rw [found] at again
      cases again
    constructor
    · intro same
      cases named : Service.ofName? target with
      | some service =>
        rw [named] at same
        cases same
        exact .inr ⟨unbound, service, Service.ofName?_eq_some_iff.mp named, rfl⟩
      | none =>
        rw [named] at same
        cases same
    · rintro (⟨address, binds, -⟩ | ⟨-, service, named, rfl⟩)
      · exact absurd binds (unbound address)
      · rw [Service.ofName?_eq_some_iff.mpr named]

/-- A name that is known stands for something. -/
theorem exists_resolve_iff {target : String} :
    (∃ place, resolve labels target = .ok place) ↔ Known code data target := by
  simp only [resolve_eq_ok_iff bound, Known, mem_boundLabels_iff]
  constructor
  · rintro ⟨place, ⟨address, binds, -⟩ | ⟨-, service, named, -⟩⟩
    · exact .inl ⟨address, binds⟩
    · exact .inr ⟨service, named⟩
  · rintro (⟨address, binds⟩ | ⟨service, named⟩)
    · exact ⟨_, .inl ⟨address, binds, rfl⟩⟩
    · by_cases label : ∃ address, Binds code data target address
      · obtain ⟨address, binds⟩ := label
        exact ⟨_, .inl ⟨address, binds, rfl⟩⟩
      · exact ⟨_, .inr ⟨not_exists.mp label, service, named, rfl⟩⟩

/-- A name that is not known is reported. -/
theorem resolve_of_not_known {target : String} (unknown : ¬Known code data target) :
    resolve labels target = .error (.unresolvedLabel target) := by
  rw [← exists_resolve_iff bound, not_exists] at unknown
  cases resolved : resolve labels target with
  | ok place => exact absurd resolved (unknown place)
  | error cause =>
    rw [resolve] at resolved
    split at resolved
    · cases resolved
    · split at resolved
      · cases resolved
      · exact resolved.symm

/-- What an instruction becomes when its name is looked up. -/
theorem opcode_eq_iff {instr : Instr} {own : Opcode} :
    opcode labels instr = .ok (some own) ↔ Becomes code data instr own := by
  constructor
  · intro found
    cases instr with
    | label name => cases found
    | name target =>
      rw [opcode] at found
      cases resolved : resolve labels target with
      | error cause =>
        rw [resolved] at found
        cases found
      | ok place =>
        rw [resolved] at found
        cases found
        rcases (resolve_eq_ok_iff bound).mp resolved with
          ⟨address, binds, rfl⟩ | ⟨unbound, service, rfl, rfl⟩
        · exact .label binds
        · exact .service service unbound
    | _ =>
      cases found
      constructor
  · intro becomes
    cases becomes with
    | label binds =>
      rw [opcode, (resolve_eq_ok_iff bound).mpr (.inl ⟨_, binds, rfl⟩)]
      rfl
    | service service unbound =>
      rw [opcode, (resolve_eq_ok_iff bound).mpr (.inr ⟨unbound, service, rfl, rfl⟩)]
      rfl
    | _ => rfl

/-- An instruction whose name is known has an opcode unless it is a label. -/
theorem exists_opcode_of_known {instr : Instr}
    (known : ∀ target, instr = .name target → Known code data target)
    (notLabel : instr.label? = none) : ∃ own, opcode labels instr = .ok (some own) :=
  exists_opcode (fun target same => (exists_resolve_iff bound).mpr (known target same)) notLabel

/-- Filling the slots stops at the first name that is not known. -/
theorem fillSlots_of_unknown {before after : Code} {line : Located Instr} {target : String}
    (named : line.item = .name target) (unknown : ¬Known code data target)
    (known : ∀ other, .name other ∈ Code.items before → Known code data other) (start : Int)
    (slots : Std.TreeMap Int Opcode) :
    fillSlots labels (placeCode start (before ++ line :: after)) slots =
      .error (.unresolvedLabel target) := by
  induction before generalizing start slots with
  | nil =>
    have failed : opcode labels line.item = .error (.unresolvedLabel target) := by
      rw [named, opcode, resolve_of_not_known bound unknown]
      rfl
    rw [List.nil_append, placeCode, fillSlots, failed]
    rfl
  | cons first rest hypothesis =>
    have knownRest : ∀ other, .name other ∈ Code.items rest → Known code data other :=
      fun other inside => known other (List.mem_cons_of_mem _ inside)
    have knownFirst : ∀ other, first.item = .name other → Known code data other :=
      fun other same => known other (same ▸ List.mem_cons_self)
    rw [List.cons_append, placeCode, fillSlots]
    cases isLabel : first.item.label? with
    | some name =>
      rw [Instr.eq_label_of_label? isLabel]
      exact hypothesis knownRest _ _
    | none =>
      obtain ⟨own, found⟩ := exists_opcode_of_known bound knownFirst isLabel
      rw [found]
      exact hypothesis knownRest _ _

omit bound in
/-- Either all names in code are known, or one of them is the first that is not. -/
theorem known_or_firstUnknown (code : Code) (data : Data) :
    (∀ target, .name target ∈ code.items → Known code data target) ∨
      ∃ target, FirstUnknown code data target := by
  classical
  let unknown (line : Located Instr) : Bool :=
    decide (∃ target, line.item = .name target ∧ ¬Known code data target)
  cases search : code.find? unknown with
  | none =>
    left
    intro target inside
    obtain ⟨line, member, named⟩ := List.mem_map.mp inside
    by_contra absent
    have rejected := List.find?_eq_none.mp search line member
    exact rejected (decide_eq_true ⟨target, named, absent⟩)
  | some line =>
    obtain ⟨found, before, after, split, earlier⟩ := List.find?_eq_some_iff_append.mp search
    obtain ⟨target, named, absent⟩ := of_decide_eq_true found
    refine .inr ⟨target, before, line, after, split, named, absent, ?_⟩
    intro other inside
    obtain ⟨line, member, same⟩ := List.mem_map.mp inside
    by_contra otherAbsent
    have accepted := earlier line member
    rw [Bool.not_eq_true', decide_eq_false_iff_not] at accepted
    exact accepted ⟨other, same, otherAbsent⟩

end Names

section Placing

/-- Instructions that lie one after another lie where they have been placed. -/
theorem instrAt_of_mem_placeCode {labels : LabelTable} {slots : Std.TreeMap Int Opcode}
    {code : Code} {start address : Int} {instr : Instr}
    (placed : CodeAt labels slots start code.items)
    (inside : (address, instr) ∈ placeCode start code) :
    InstrAt labels slots address instr := by
  induction code generalizing start with
  | nil => cases inside
  | cons line rest hypothesis =>
    rcases List.mem_cons.mp inside with same | later
    · cases same
      exact placed.1
    · exact hypothesis placed.2 later

/-- An item of loaded data is in memory where it has been placed. -/
theorem datumAt_of_mem_placeData {labels : LabelTable} {memory : Memory} {data : Data}
    {start address : Int} {item : Datum}
    (placed : DataAt labels memory start (data.map Located.item))
    (inside : (address, item) ∈ placeData start data) : DatumAt labels memory address item := by
  induction data generalizing start with
  | nil => cases inside
  | cons line rest hypothesis =>
    rcases List.mem_cons.mp inside with same | later
    · cases same
      exact placed.1
    · exact hypothesis placed.2 later

variable {config : Config} {code : Code} {data : Data} {labels : LabelTable}
  (fits : Word.Fits config.stackTop)
  (sizes : ∀ bytes, .size bytes ∈ data.map Located.item → 0 ≤ bytes)
  (room : code.size + data.size ≤ config.stackTop)
  (bound : bindLabels (labelPlaces code data) ∅ = .ok labels)

omit bound in
include fits sizes room in
/-- Addresses of data are words. -/
theorem bounds_of_inData {address : Int} {item : Datum} (inside : InData code data address item) :
    code.size ≤ address ∧ address + item.byteSize ≤ code.size + data.size ∧ Word.Fits address := by
  have codeSize := code.size_nonneg
  obtain ⟨low, nonneg, high⟩ := mem_placeData sizes (mem_placeData_iff.mpr inside)
  exact ⟨low, high, Int.le_trans (by decide) (Int.le_trans codeSize low), by have := fits.2; omega⟩

omit bound in
include fits sizes room in
/-- Addresses of labels are words. -/
theorem fits_of_binds {label : String} {address : Int} (binds : Binds code data label address) :
    Word.Fits address := by
  rcases binds with inCode | inData
  · have dataSize := itemsSize_nonneg sizes
    rw [← Data.size_eq] at dataSize
    obtain ⟨low, high⟩ := mem_placeCode (mem_placeCode_iff.mpr inCode)
    rw [Instr.size] at high
    have top := fits.2
    exact ⟨by omega, by omega⟩
  · exact (bounds_of_inData fits sizes room inData).2.2

include fits sizes room bound

/-- Data that fit below the top of the stack are stored, whatever their alignment. -/
theorem exists_storeData :
    ∃ memory, storeData config.stackTop (placeData code.size data)
        (.zero config.stackTop.toNat code.size) = .ok memory ∧
      (memory.size : Int) = config.stackTop ∧ memory.codeSize = code.size ∧
      DataAt labels memory code.size (data.map Located.item) := by
  have codeSize := code.size_nonneg
  have dataSize := itemsSize_nonneg sizes
  rw [← Data.size_eq] at dataSize
  have top := fits.2
  have size : ((Memory.zero config.stackTop.toNat code.size).size : Int) = config.stackTop :=
    Int.toNat_of_nonneg (by omega)
  obtain ⟨memory, stored, sameSize, sameCode, -, placed⟩ :=
    @storeData_eq_ok labels config.stackTop data code.size (.zero config.stackTop.toNat code.size)
      sizes (fun place name inside => by
        refine (getElem?_of_bindLabels bound).mpr ⟨place, .inr ?_, rfl⟩
        exact mem_placeData_iff.mp (mem_dataLabels_iff.mp inside))
      (Int.le_refl _) codeSize (by rw [size, ← Data.size_eq]; exact room) (by omega)
  exact ⟨memory, stored, by rw [sameSize, size], sameCode, placed⟩

/-- The stages of placing a program put it in its place. -/
theorem placed_of_stages {memory : Memory} {slots : Std.TreeMap Int Opcode}
    (stored : storeData config.stackTop (placeData code.size data)
      (.zero config.stackTop.toNat code.size) = .ok memory)
    (filled : fillSlots labels (placeCode 0 code) ∅ = .ok slots) :
    Placed config code data
      ⟨config, slots, labels, memory, (Word.ofInt (code.size + data.size)).toInt⟩ := by
  have codeSize := code.size_nonneg
  have dataSize := itemsSize_nonneg sizes
  rw [← Data.size_eq] at dataSize
  have top := fits.2
  obtain ⟨same, again, size_eq, codeSize_eq, dataAt⟩ := exists_storeData fits sizes room bound
  cases Except.ok.inj (stored.symm.trans again)
  obtain ⟨same, again, -, codeAt⟩ := fillSlots_eq_ok
    (fun target inside => resolve_of_fillSlots filled inside)
    (fun place name inside => by
      refine (getElem?_of_bindLabels bound).mpr ⟨place, .inl ?_, rfl⟩
      exact mem_placeCode_iff.mp (mem_codeLabels_iff.mp inside)) ∅
  cases Except.ok.inj (filled.symm.trans again)
  constructor
  case config_eq => rfl
  case filled =>
    intro address instr inside notLabel
    obtain ⟨own, has, slot⟩ : ∃ own, opcode labels instr = .ok (some own) ∧
        slots[address]? = some own := by
      have lies := instrAt_of_mem_placeCode codeAt (mem_placeCode_iff.mpr inside)
      cases instr with
      | label name => cases notLabel
      | _ => exact lies
    exact ⟨own, (opcode_eq_iff bound).mp has, slot⟩
  case nothingElse =>
    intro address own found
    rcases exists_instr_of_fillSlots filled found with
      earlier | ⟨before, line, after, split, has, place⟩
    · rw [Std.TreeMap.getElem?_emptyc] at earlier
      cases earlier
    · rw [Code.size_eq_sum] at place
      exact ⟨line.item, ⟨before, line, after, split, rfl, place⟩, (opcode_eq_iff bound).mp has⟩
  case labels =>
    intro label address
    rw [label?, Option.map_eq_some_iff]
    constructor
    · rintro ⟨word, found, rfl⟩
      obtain ⟨place, binds, rfl⟩ := (getElem?_of_bindLabels bound).mp found
      rw [Word.toInt_ofInt (fits_of_binds fits sizes room binds)]
      exact binds
    · intro binds
      exact ⟨_, (getElem?_of_bindLabels bound).mpr ⟨address, binds, rfl⟩,
        Word.toInt_ofInt (fits_of_binds fits sizes room binds)⟩
  case words =>
    intro address value inside
    obtain ⟨low, high, -⟩ := bounds_of_inData fits sizes room inside
    have held := datumAt_of_mem_placeData dataAt (mem_placeData_iff.mpr inside)
    rw [Datum.byteSize] at high
    have readable : memory.Addressable address 4 := ⟨by omega, by omega⟩
    dsimp only
    rw [Memory.load, if_pos readable]
    exact congrArg Except.ok held
  case zeros =>
    intro address outside
    dsimp only
    rw [byte_of_storeData stored, Memory.byte_zero]
    · intro start value inside
      exact (bounds_of_inData fits sizes room (mem_placeData_iff.mp inside)).2.2
    · intro start value inside
      exact outside start value (mem_placeData_iff.mp inside)
  case size_eq => exact size_eq
  case codeSize_eq => exact codeSize_eq
  case dataEnd_eq => exact Word.toInt_ofInt ⟨by omega, by omega⟩

end Placing

section Reports

variable {config : Config} {code : Code} {data : Data}

/-- A label that is set twice is reported, whatever else is wrong. -/
theorem place_of_repeated {label : String}
    (repeated : FirstRepeated (boundLabels code.items (data.map Located.item)) label) :
    place config code data = .error (.duplicateLabel label) := by
  obtain ⟨names, later, split, distinct, inside⟩ := repeated
  rw [← map_snd_labelPlaces, List.map_eq_append_iff] at split
  obtain ⟨before, rest, places, rfl, tail⟩ := split
  obtain ⟨⟨address, name⟩, after, rfl, rfl, -⟩ := List.map_eq_cons_iff.mp tail
  have failed : bindLabels (labelPlaces code data) ∅ = .error (.duplicateLabel name) := by
    rw [places]
    exact bindLabels_of_repeated distinct (fun _ _ => Std.TreeMap.contains_emptyc) (.inl inside)
  rw [labelPlaces] at failed
  simp only [place, failed, bind, Except.bind]

/-- Different labels can be bound. -/
theorem exists_bindLabels (distinct : (boundLabels code.items (data.map Located.item)).Nodup) :
    ∃ labels, bindLabels (labelPlaces code data) ∅ = .ok labels := by
  rw [← map_snd_labelPlaces] at distinct
  obtain ⟨labels, bound, -⟩ := @bindLabels_eq_ok _ ∅ distinct
    (fun name _ => Std.TreeMap.getElem?_emptyc)
  exact ⟨labels, bound⟩

/-- With different labels, an image that is too large is reported. -/
theorem place_of_large (distinct : (boundLabels code.items (data.map Located.item)).Nodup)
    (large : config.stackTop < code.size + data.size) :
    place config code data = .error (.imageTooLarge (code.size + data.size) config.stackTop) := by
  obtain ⟨labels, bound⟩ := exists_bindLabels distinct
  rw [labelPlaces] at bound
  simp only [place, bound, if_pos large, bind, Except.bind]
  rfl

variable (fits : Word.Fits config.stackTop)
  (sizes : ∀ bytes, .size bytes ∈ data.map Located.item → 0 ≤ bytes)
  (distinct : (boundLabels code.items (data.map Located.item)).Nodup)
  (room : code.size + data.size ≤ config.stackTop)

include fits sizes distinct room

/-- With different labels and enough room, the first name without a label is reported. -/
theorem place_of_unknown {target : String} (unknown : FirstUnknown code data target) :
    place config code data = .error (.unresolvedLabel target) := by
  obtain ⟨labels, bound⟩ := exists_bindLabels distinct
  obtain ⟨memory, stored, -⟩ := exists_storeData fits sizes room bound
  obtain ⟨before, line, after, split, named, absent, known⟩ := unknown
  have failed : fillSlots labels (placeCode 0 code) ∅ = .error (.unresolvedLabel target) := by
    have stops := @fillSlots_of_unknown code data labels bound before after line target named absent
      known 0 ∅
    rw [← split] at stops
    exact stops
  rw [labelPlaces] at bound
  simp only [place, bound, if_neg (Int.not_lt.mpr room), stored, failed, bind, Except.bind]

/-- Otherwise the image is placed. -/
theorem exists_place (known : ∀ target, .name target ∈ code.items → Known code data target) :
    ∃ executable, place config code data = .ok executable ∧ Placed config code data executable := by
  obtain ⟨labels, bound⟩ := exists_bindLabels distinct
  obtain ⟨memory, stored, -⟩ := exists_storeData fits sizes room bound
  obtain ⟨slots, filled, -⟩ := @fillSlots_eq_ok labels code 0
    (fun target inside => (exists_resolve_iff bound).mpr (known target inside))
    (fun place name inside => (getElem?_of_bindLabels bound).mpr
      ⟨place, .inl (mem_placeCode_iff.mp (mem_codeLabels_iff.mp inside)), rfl⟩) ∅
  refine ⟨_, ?_, placed_of_stages fits sizes room bound stored filled⟩
  rw [labelPlaces] at bound
  simp only [place, bound, if_neg (Int.not_lt.mpr room), stored, filled, bind, Except.bind]
  rfl

omit distinct room

/-- What can come of placing a program. -/
inductive Verdict (config : Config) (code : Code) (data : Data) : Except LoadError Executable → Prop
  | repeated {label : String}
      (repeated : FirstRepeated (boundLabels code.items (data.map Located.item)) label) :
      Verdict config code data (.error (.duplicateLabel label))
  | large (distinct : (boundLabels code.items (data.map Located.item)).Nodup)
      (large : config.stackTop < code.size + data.size) :
      Verdict config code data (.error (.imageTooLarge (code.size + data.size) config.stackTop))
  | unknown {target : String} (distinct : (boundLabels code.items (data.map Located.item)).Nodup)
      (room : code.size + data.size ≤ config.stackTop) (unknown : FirstUnknown code data target) :
      Verdict config code data (.error (.unresolvedLabel target))
  | placed {executable : Executable}
      (distinct : (boundLabels code.items (data.map Located.item)).Nodup)
      (room : code.size + data.size ≤ config.stackTop)
      (known : ∀ target, .name target ∈ code.items → Known code data target)
      (placed : Placed config code data executable) : Verdict config code data (.ok executable)

/-- Placing an image ends in one of these ways. -/
theorem verdict_place : Verdict config code data (place config code data) := by
  rcases nodup_or_firstRepeated (boundLabels code.items (data.map Located.item)) with
    distinct | ⟨label, repeated⟩
  · by_cases large : config.stackTop < code.size + data.size
    · rw [place_of_large distinct large]
      exact .large distinct large
    · have room := Int.not_lt.mp large
      rcases known_or_firstUnknown code data with known | ⟨target, unknown⟩
      · obtain ⟨executable, done, placed⟩ := exists_place fits sizes distinct room known
        rw [done]
        exact .placed distinct room known placed
      · rw [place_of_unknown fits sizes distinct room unknown]
        exact .unknown distinct room unknown
  · rw [place_of_repeated repeated]
    exact .repeated repeated

end Reports

end Executable

/-- Putting code and data in their places reports a label if it is the first that is bound
twice; else the size of the image if this exceeds the top of the stack; else a name if it is the
first that is neither a label nor a service. Else it succeeds, and all of the program is in its
place. Storing the data words never fails where it is reached. -/
theorem placing_exact {config : Config} {code : Code} {data : Data}
    (fits : Word.Fits config.stackTop)
    (sizes : ∀ bytes, .size bytes ∈ data.map Located.item → 0 ≤ bytes) :
    let labels := boundLabels code.items (data.map Located.item)
    let total := code.size + data.size
    (∀ label, place config code data = .error (.duplicateLabel label) ↔
        FirstRepeated labels label) ∧
      (∀ size stackTop, place config code data = .error (.imageTooLarge size stackTop) ↔
        labels.Nodup ∧ config.stackTop < total ∧ size = total ∧ stackTop = config.stackTop) ∧
      (∀ target, place config code data = .error (.unresolvedLabel target) ↔
        labels.Nodup ∧ total ≤ config.stackTop ∧ FirstUnknown code data target) ∧
      ((∃ executable, place config code data = .ok executable) ↔
        labels.Nodup ∧ total ≤ config.stackTop ∧
          ∀ target, .name target ∈ code.items → Known code data target) ∧
      (∀ executable, place config code data = .ok executable →
        Placed config code data executable) ∧
      (labels.Nodup → total ≤ config.stackTop →
        ∃ memory, storeData config.stackTop (placeData code.size data)
          (.zero config.stackTop.toNat code.size) = .ok memory) := by
  intro labels total
  have verdict := @verdict_place config code data fits sizes
  refine ⟨fun label => ⟨fun failed => ?_, place_of_repeated⟩,
    fun size stackTop => ⟨fun failed => ?_, ?_⟩, fun target => ⟨fun failed => ?_, ?_⟩,
    ⟨?_, ?_⟩, fun executable done => ?_, fun distinct room => ?_⟩
  · rw [failed] at verdict
    cases verdict with
    | repeated repeated => exact repeated
  · rw [failed] at verdict
    cases verdict with
    | large distinct large => exact ⟨distinct, large, rfl, rfl⟩
  · rintro ⟨distinct, large, rfl, rfl⟩
    exact place_of_large distinct large
  · rw [failed] at verdict
    cases verdict with
    | unknown distinct room unknown => exact ⟨distinct, room, unknown⟩
  · rintro ⟨distinct, room, unknown⟩
    exact place_of_unknown fits sizes distinct room unknown
  · rintro ⟨executable, done⟩
    rw [done] at verdict
    cases verdict with
    | placed distinct room known _ => exact ⟨distinct, room, known⟩
  · rintro ⟨distinct, room, known⟩
    obtain ⟨executable, done, -⟩ := exists_place fits sizes distinct room known
    exact ⟨executable, done⟩
  · rw [done] at verdict
    cases verdict with
    | placed _ _ _ placed => exact placed
  · obtain ⟨table, bound⟩ := exists_bindLabels distinct
    obtain ⟨memory, stored, -⟩ := exists_storeData fits sizes room bound
    exact ⟨memory, stored⟩

/-- Code with two labels at one address and with the names of a label and of a service. -/
def Code.naming : Code :=
  codeAt none [.label "main", .label "start", .name "putint", .name "exit", .push 7, .load]

/-- Data with a word that is not aligned, under the name of a service. -/
def Data.shifted : Data :=
  dataAt none [.size 3, .label "putint", .data 258]

/-- One byte more than the stack leaves is too much, and the name of a service may be taken. -/
theorem placing_exact_shifted :
    place ⟨22, none⟩ Code.naming Data.shifted = .error (.imageTooLarge 23 22) ∧
      ∃ executable, place ⟨23, none⟩ Code.naming Data.shifted = .ok executable ∧
        executable.label? "start" = some 0 ∧ executable.label? "putint" = some 19 ∧
        executable.memory.load 19 = .ok 258 ∧ executable.dataEnd = 23 ∧
        ∃ own, Becomes Code.naming Data.shifted (.name "exit") own ∧
          executable.slots[(5 : Int)]? = some own := by
  have sizes : ∀ bytes, .size bytes ∈ Data.shifted.map Located.item → 0 ≤ bytes := by
    simp [Data.shifted, dataAt]
  obtain ⟨-, large, -⟩ := @placing_exact ⟨22, none⟩ Code.naming Data.shifted (by decide) sizes
  obtain ⟨-, -, -, succeeds, placed, -⟩ :=
    @placing_exact ⟨23, none⟩ Code.naming Data.shifted (by decide) sizes
  have known : ∀ target, .name target ∈ Code.naming.items →
      Known Code.naming Data.shifted target := by
    intro target inside
    have named : target = "putint" ∨ target = "exit" := by
      simpa [Code.naming, codeAt, Code.items] using inside
    rcases named with rfl | rfl
    · exact .inl (by decide)
    · exact .inr ⟨.exit, rfl⟩
  obtain ⟨executable, done⟩ := succeeds.mpr ⟨by decide, by decide, known⟩
  have placed := placed executable done
  refine ⟨(large 23 22).mpr (by decide), executable, done, ?_, ?_, ?_, placed.dataEnd_eq, ?_⟩
  · exact (placed.labels _ _).mpr (.inl ⟨Code.naming.take 1, _, _, rfl, rfl, rfl⟩)
  · exact (placed.labels _ _).mpr (.inr ⟨Data.shifted.take 1, _, _, rfl, rfl, rfl⟩)
  · exact placed.words 19 258 ⟨Data.shifted.take 2, _, _, rfl, rfl, rfl⟩
  · exact placed.filled 5 (.name "exit") ⟨Code.naming.take 3, _, _, rfl, rfl, rfl⟩ rfl

end ScopeStack
