import ScopeStack.Image.Basic
import ScopeStack.Machine.Opcode

/-!
# Loading

A loaded program knows the instruction at every address. Code starts at address
zero and the data follow it; an address is the sum of the sizes before it.
Loading binds the labels, places the data words in memory and replaces every
name by the address it stands for. A label of the program hides a service of
the same name.
-/

namespace ScopeStack

/-- How a machine is set up. -/
structure Config where
  /-- The size of memory, where the stack starts. -/
  stackTop : Int
  /-- The number of instructions that may be carried out. -/
  maxSteps : Option Nat
deriving DecidableEq, Repr

/-- Why a program cannot be loaded. -/
inductive LoadError where
  | duplicateLabel (label : String)
  | unresolvedLabel (label : String)
  | imageTooLarge (size stackTop : Int)
  | invalidStackTop (stackTop : Int)
deriving DecidableEq, Repr

namespace LoadError

/-- What is wrong with the program or the configuration. -/
def message : LoadError → String
  | .duplicateLabel label => "duplicate label " ++ label
  | .unresolvedLabel label => "unresolved label " ++ label
  | .imageTooLarge size stackTop =>
    "image of " ++ Decimal.text size ++ " bytes does not fit below stack top " ++
      Decimal.text stackTop
  | .invalidStackTop stackTop => "invalid stack top " ++ Decimal.text stackTop

/-- The number of the error. -/
def code : LoadError → DiagnosticCode
  | .duplicateLabel _ => ⟨300⟩
  | .unresolvedLabel _ => ⟨301⟩
  | .imageTooLarge _ _ => ⟨302⟩
  | .invalidStackTop _ => ⟨303⟩

/-- The error as it is reported. -/
def toDiagnostic (error : LoadError) : Diagnostic :=
  Diagnostic.ofCode error.code error.message none

end LoadError

namespace Config

/-- 64 KiB of memory and no limit on the number of instructions. -/
def standard : Config := ⟨65536, none⟩

/-- The largest memory: 256 MiB. -/
def maxStackTop : Int := 268435456

/-- The top of the stack is positive, a multiple of a word's size and not too
large. -/
def validate (config : Config) : Except LoadError Unit :=
  if config.stackTop ≤ 0 ∨ config.stackTop % 4 ≠ 0 ∨ maxStackTop < config.stackTop then
    .error (.invalidStackTop config.stackTop)
  else .ok ()

end Config

/-- The addresses of labels. -/
abbrev LabelTable := Std.TreeMap String Word

/-- A program that has been loaded. -/
structure Executable where
  config : Config
  /-- The instruction at each address. -/
  slots : Std.TreeMap Int Opcode
  labels : LabelTable
  /-- The memory in which the program starts. -/
  memory : Memory
  /-- The address after the data, where the heap starts. -/
  dataEnd : Int

namespace Executable

/-- Instructions with their addresses. -/
def placeCode : Int → Code → List (Int × Instr)
  | _, [] => []
  | address, line :: rest => (address, line.item) :: placeCode (address + line.item.size) rest

/-- Data items with their addresses. -/
def placeData : Int → Data → List (Int × Datum)
  | _, [] => []
  | address, line :: rest =>
    (address, line.item) :: placeData (address + line.item.byteSize) rest

/-- Bind labels to addresses; a label can be bound once. -/
def bindLabels : List (Int × String) → LabelTable → Except LoadError LabelTable
  | [], labels => .ok labels
  | (address, label) :: rest, labels =>
    if labels.contains label then .error (.duplicateLabel label)
    else bindLabels rest (labels.insert label (Word.ofInt address))

/-- The labels among placed instructions. -/
def codeLabels (placed : List (Int × Instr)) : List (Int × String) :=
  placed.filterMap fun (address, instr) => instr.label?.map (address, ·)

/-- The labels among placed data items. -/
def dataLabels (placed : List (Int × Datum)) : List (Int × String) :=
  placed.filterMap fun (address, item) => item.label?.map (address, ·)

/-- Store the data words. -/
def storeData (stackTop : Int) : List (Int × Datum) → Memory → Except LoadError Memory
  | [], memory => .ok memory
  | (address, .data value) :: rest, memory =>
    match memory.store (Word.ofInt address).toInt (Word.ofInt value) with
    | .ok memory => storeData stackTop rest memory
    | .error _ => .error (.imageTooLarge (address + 4) stackTop)
  | _ :: rest, memory => storeData stackTop rest memory

/-- The address that a name stands for. -/
def resolve (labels : LabelTable) (target : String) : Except LoadError Word :=
  match labels[target]? with
  | some address => .ok address
  | none =>
    match Service.ofName? target with
    | some service => .ok (Word.ofInt service.address)
    | none => .error (.unresolvedLabel target)

/-- The instruction that is carried out for a symbolic one; none for a
label. -/
def opcode (labels : LabelTable) : Instr → Except LoadError (Option Opcode)
  | .label _ => .ok none
  | .push value => .ok (some (.push (Word.ofInt value)))
  | .name target => (resolve labels target).map fun address => some (.push address)
  | .load => .ok (some .load)
  | .save => .ok (some .save)
  | .popn => .ok (some .popn)
  | .unary op => .ok (some (.unary op))
  | .binary op => .ok (some (.binary op))
  | .ujmp => .ok (some .ujmp)
  | .cjmp => .ok (some .cjmp)
  | .call _ => .ok (some .call)
  | .retn _ => .ok (some .retn)
  | .init => .ok (some .init)
  | .regn reg => .ok (some (.regn reg))

/-- Put instructions at their addresses. -/
def fillSlots (labels : LabelTable) :
    List (Int × Instr) → Std.TreeMap Int Opcode → Except LoadError (Std.TreeMap Int Opcode)
  | [], slots => .ok slots
  | (address, instr) :: rest, slots => do
    match ← opcode labels instr with
    | some opcode => fillSlots labels rest (slots.insert address opcode)
    | none => fillSlots labels rest slots

/-- Put code and data in their places. -/
def place (config : Config) (code : Code) (data : Data) : Except LoadError Executable := do
  let placedCode := placeCode 0 code
  let placedData := placeData code.size data
  let total := code.size + data.size
  let labels ← bindLabels (codeLabels placedCode ++ dataLabels placedData) ∅
  if config.stackTop < total then throw (.imageTooLarge total config.stackTop)
  let memory ← storeData config.stackTop placedData (.zero config.stackTop.toNat code.size)
  let slots ← fillSlots labels placedCode ∅
  return { config, slots, labels, memory, dataEnd := (Word.ofInt total).toInt }

/-- Load code and data. -/
def load (config : Config) (code : Code) (data : Data) : Except LoadError Executable := do
  config.validate
  place config code data

/-- The state in which a program starts: both stack registers are at the top of
memory and the heap is empty. -/
def start (executable : Executable) (input : List UInt8) (outputLimit : Option Nat) : State where
  registers :=
    { pc := 0
      fp := executable.config.stackTop
      sp := executable.config.stackTop
      hp := executable.dataEnd }
  memory := executable.memory
  status := .running
  steps := 0
  input := input
  output := .empty outputLimit

/-- The address of a label of the program. -/
def label? (executable : Executable) (label : String) : Option Int :=
  (executable.labels[label]?).map Int32.toInt

end Executable

end ScopeStack
