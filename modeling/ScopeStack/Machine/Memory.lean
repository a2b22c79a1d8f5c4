import ScopeStack.Machine.Fault
import ScopeStack.Word
import Std.Data.TreeMap

/-!
# Memory

Memory is a range of bytes from address zero up to its size. The bytes of the
code segment, at its start, cannot be read or written. Words may lie at any
address and are stored least significant byte first.

Only bytes that have been written are kept; all others are zero. `byte` is the
view in which every operation is described: `byte_setWord` and
`byte_zeroRange` say what writing and clearing do to it.
-/

namespace ScopeStack

/-- The bytes of a machine. -/
structure Memory where
  /-- The number of bytes. -/
  size : Nat
  /-- The number of bytes at the start that hold code. -/
  codeSize : Int
  /-- The bytes that have been written. -/
  cells : Std.TreeMap Int UInt8

namespace Memory

/-- Memory in which all bytes are zero. -/
def zero (size : Nat) (codeSize : Int) : Memory := ⟨size, codeSize, ∅⟩

/-- The byte at an address. -/
def byte (memory : Memory) (address : Int) : UInt8 := memory.cells.getD address 0

/-- A number of bytes from an address on can be read and written. -/
def Addressable (memory : Memory) (address length : Int) : Prop :=
  memory.codeSize ≤ address ∧ address + length ≤ memory.size

instance (memory : Memory) (address length : Int) :
    Decidable (memory.Addressable address length) :=
  inferInstanceAs (Decidable (_ ∧ _))

/-- The word whose first byte is at an address. -/
def word (memory : Memory) (address : Int) : Word :=
  Word.ofBytes (memory.byte address) (memory.byte (address + 1)) (memory.byte (address + 2))
    (memory.byte (address + 3))

/-- Write a byte. -/
def setByte (memory : Memory) (address : Int) (value : UInt8) : Memory :=
  { memory with cells := memory.cells.insert address value }

/-- Write a word, least significant byte first. -/
def setWord (memory : Memory) (address : Int) (value : Word) : Memory :=
  (((memory.setByte address (Word.byte value 0)).setByte (address + 1) (Word.byte value 1)).setByte
    (address + 2) (Word.byte value 2)).setByte (address + 3) (Word.byte value 3)

/-- Forget the bytes of a range one by one. -/
def eraseRange (cells : Std.TreeMap Int UInt8) (address : Int) : Nat → Std.TreeMap Int UInt8
  | 0 => cells
  | count + 1 => eraseRange (cells.erase address) (address + 1) count

/-- Make the bytes of a range zero. A range with more bytes than have been
written is cleared by looking at those. -/
def zeroRange (memory : Memory) (address : Int) (length : Nat) : Memory :=
  { memory with
    cells :=
      if length ≤ memory.cells.size then eraseRange memory.cells address length
      else memory.cells.filter fun key _ => key < address || address + length ≤ key }

/-- Read a word. -/
def load (memory : Memory) (address : Int) : Except Fault Word :=
  if memory.Addressable address 4 then .ok (memory.word address)
  else .error (.memoryFault address)

/-- Write a word. -/
def store (memory : Memory) (address : Int) (value : Word) : Except Fault Memory :=
  if memory.Addressable address 4 then .ok (memory.setWord address value)
  else .error (.memoryFault address)

/-- Make a number of bytes zero. -/
def clear (memory : Memory) (address : Int) (length : Nat) : Except Fault Memory :=
  if memory.Addressable address length then .ok (memory.zeroRange address length)
  else .error (.memoryFault address)

/-- Why a range with a signed length is not cleared. -/
inductive RangeError where
  /-- The range is not in memory. -/
  | fault (fault : Fault)
  /-- The range ends before it starts. -/
  | reversed
deriving DecidableEq, Repr

/-- Make the bytes of a range with a signed length zero. -/
def clearRange (memory : Memory) (address length : Int) : Except RangeError Memory :=
  if ¬memory.Addressable address length then .error (.fault (.memoryFault address))
  else if length < 0 then .error .reversed
  else .ok (memory.zeroRange address length.toNat)

/-- The words from an address on, at most a given number, up to the first that
cannot be read. -/
def words (memory : Memory) (address : Int) : Nat → List Word
  | 0 => []
  | count + 1 =>
    match memory.load address with
    | .ok value => value :: memory.words (address + 4) count
    | .error _ => []

@[simp] theorem size_setByte (memory : Memory) (address : Int) (value : UInt8) :
    (memory.setByte address value).size = memory.size := rfl

@[simp] theorem codeSize_setByte (memory : Memory) (address : Int) (value : UInt8) :
    (memory.setByte address value).codeSize = memory.codeSize := rfl

@[simp] theorem size_setWord (memory : Memory) (address : Int) (value : Word) :
    (memory.setWord address value).size = memory.size := rfl

@[simp] theorem codeSize_setWord (memory : Memory) (address : Int) (value : Word) :
    (memory.setWord address value).codeSize = memory.codeSize := rfl

@[simp] theorem size_zeroRange (memory : Memory) (address : Int) (length : Nat) :
    (memory.zeroRange address length).size = memory.size := rfl

@[simp] theorem codeSize_zeroRange (memory : Memory) (address : Int) (length : Nat) :
    (memory.zeroRange address length).codeSize = memory.codeSize := rfl

/-- All bytes of fresh memory are zero. -/
@[simp] theorem byte_zero (size : Nat) (codeSize : Int) (address : Int) :
    (zero size codeSize).byte address = 0 := by
  simp [zero, byte]

/-- Writing a byte changes that byte alone. -/
theorem byte_setByte (memory : Memory) (address other : Int) (value : UInt8) :
    (memory.setByte address value).byte other =
      if address = other then value else memory.byte other := by
  simp [setByte, byte, Std.TreeMap.getD_insert]

/-- Writing a word changes its four bytes alone. -/
theorem byte_setWord (memory : Memory) (address other : Int) (value : Word) :
    (memory.setWord address value).byte other =
      if address ≤ other ∧ other < address + 4 then Word.byte value (other - address).toNat
      else memory.byte other := by
  simp only [setWord, byte_setByte]
  split <;> rename_i third
  · subst third
    rw [if_pos (by omega)]
    congr 1
    omega
  split <;> rename_i second
  · subst second
    rw [if_pos (by omega)]
    congr 1
    omega
  split <;> rename_i first
  · subst first
    rw [if_pos (by omega)]
    congr 1
    omega
  split <;> rename_i same
  · subst same
    rw [if_pos (by omega)]
    congr 1
    omega
  rw [if_neg (by omega)]

/-- A word that has been written can be read back. -/
theorem word_setWord (memory : Memory) (address : Int) (value : Word) :
    (memory.setWord address value).word address = value := by
  have offset (index : Int) (low : 0 ≤ index) (high : index < 4) :
      (memory.setWord address value).byte (address + index) = Word.byte value index.toNat := by
    rw [byte_setWord, if_pos (by omega)]
    congr 1
    omega
  have first := offset 0 (by decide) (by decide)
  have second := offset 1 (by decide) (by decide)
  have third := offset 2 (by decide) (by decide)
  have fourth := offset 3 (by decide) (by decide)
  rw [Int.add_zero] at first
  rw [word, first, second, third, fourth]
  exact Word.ofBytes_byte value

/-- Words depend on their four bytes alone. -/
theorem word_congr {memory other : Memory} {address : Int}
    (same : ∀ index, address ≤ index → index < address + 4 → memory.byte index = other.byte index) :
    memory.word address = other.word address := by
  rw [word, word, same address (by omega) (by omega), same (address + 1) (by omega) (by omega),
    same (address + 2) (by omega) (by omega), same (address + 3) (by omega) (by omega)]

/-- Forgetting a range of bytes makes them zero. -/
theorem getD_eraseRange (cells : Std.TreeMap Int UInt8) (address other : Int) (length : Nat) :
    (eraseRange cells address length).getD other 0 =
      if address ≤ other ∧ other < address + length then 0 else cells.getD other 0 := by
  induction length generalizing cells address with
  | zero =>
    rw [eraseRange, if_neg (by omega)]
  | succ count hypothesis =>
    rw [eraseRange, hypothesis, Std.TreeMap.getD_erase]
    simp only [Std.compare_eq_iff_eq]
    by_cases first : address = other
    · subst first
      rw [if_pos rfl, if_neg (by omega), if_pos (by omega)]
    · rw [if_neg first]
      by_cases inside : address + 1 ≤ other ∧ other < address + 1 + count
      · rw [if_pos inside, if_pos (by omega)]
      · rw [if_neg inside, if_neg (by omega)]

/-- Clearing a range makes its bytes zero and changes no other. -/
theorem byte_zeroRange (memory : Memory) (address other : Int) (length : Nat) :
    (memory.zeroRange address length).byte other =
      if address ≤ other ∧ other < address + length then 0 else memory.byte other := by
  simp only [zeroRange, byte]
  split
  · exact getD_eraseRange memory.cells address other length
  · rw [Std.TreeMap.getD_filter', Std.TreeMap.getD_eq_getD_getElem?]
    cases memory.cells[other]? with
    | none => simp
    | some value =>
      by_cases inside : address ≤ other ∧ other < address + length
      · have kept : (decide (other < address) || decide (address + length ≤ other)) = false := by
          simp
          omega
        rw [if_pos inside, Option.filter_some, kept]
        rfl
      · have kept : (decide (other < address) || decide (address + length ≤ other)) = true := by
          simp
          omega
        rw [if_neg inside, Option.filter_some, kept]
        rfl

end Memory

end ScopeStack
